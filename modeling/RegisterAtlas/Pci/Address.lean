import RegisterAtlas.Text.Numeral
import RegisterAtlas.Word

/-! # Addresses of PCI functions

A function is found by segment, bus, device and function number. Its node in the bus directory is
named after them; segment 0 is left out there. -/

namespace RegisterAtlas.Pci

structure Address where
  segment : UInt16
  bus : UInt8
  device : UInt8
  function : UInt8
deriving DecidableEq, Repr

namespace Address

/-- The name of the directory of a bus. -/
def busName (a : Address) : String :=
  (if a.segment = 0 then "" else Text.hexPadded 4 a.segment.toNat ++ ":") ++
    Text.hexPadded 2 a.bus.toNat

/-- The name of the file of a function in the directory of its bus. -/
def functionName (a : Address) : String :=
  Text.hexPadded 2 a.device.toNat ++ "." ++ toString a.function.toNat

def node (a : Address) : String := a.busName ++ "/" ++ a.functionName

def text (a : Address) : String :=
  Text.hexPadded 4 a.segment.toNat ++ ":" ++ Text.hexPadded 2 a.bus.toNat ++ ":" ++ a.functionName

/-- The position of an address in the order by segment, bus, device and function. -/
def rank (a : Address) : Nat :=
  ((a.segment.toNat * 256 + a.bus.toNat) * 256 + a.device.toNat) * 256 + a.function.toNat

theorem rank_inj {a b : Address} (h : a.rank = b.rank) : a = b := by
  obtain ⟨s, u, d, f⟩ := a
  obtain ⟨s', u', d', f'⟩ := b
  have := u.toNat_lt; have := d.toNat_lt; have := f.toNat_lt
  have := u'.toNat_lt; have := d'.toNat_lt; have := f'.toNat_lt
  simp only [rank] at h
  have hs : s.toNat = s'.toNat := by omega
  have hu : u.toNat = u'.toNat := by omega
  have hd : d.toNat = d'.toNat := by omega
  have hf : f.toNat = f'.toNat := by omega
  rw [UInt16.toNat_inj] at hs
  rw [UInt8.toNat_inj] at hu hd hf
  simp [hs, hu, hd, hf]

/-- Sorts by segment, bus, device and function; repetitions stay. -/
def sort (addresses : List Address) : List Address :=
  addresses.mergeSort fun a b => a.rank ≤ b.rank

/-- Reads the name of a bus directory. -/
def parseBusName? (name : List Char) : Option (UInt16 × UInt8) :=
  match Text.splitOnce ':' name with
  | some (segment, bus) => do
      let segment ← Text.readUnsigned 16 (wordCount 16) segment
      let bus ← Text.readUnsigned 16 (wordCount 8) bus
      pure (segment.toUInt16, bus.toUInt8)
  | none => do
      let bus ← Text.readUnsigned 16 (wordCount 8) name
      pure (0, bus.toUInt8)

/-- Reads the name of a function file; a bus has 32 devices of 8 functions. -/
def parseFunctionName? (name : List Char) : Option (UInt8 × UInt8) := do
  let (device, function) ← Text.splitOnce '.' name
  let device ← Text.readUnsigned 16 (wordCount 8) device
  let function ← Text.readUnsigned 10 (wordCount 8) function
  if device < 32 ∧ function < 8 then pure (device.toUInt8, function.toUInt8) else none

end Address

end RegisterAtlas.Pci
