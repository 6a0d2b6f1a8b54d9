import RegisterAtlas.Discovery
import RegisterAtlas.Storage.Image
import RegisterAtlas.Text.Utf8

/-! # Identities of CPUs

CPUID answers a leaf with four registers of 32 bits, held in one value. Leaf 0 spells the vendor,
and leaf 1 starts with the signature of the model. -/

namespace RegisterAtlas.Cpuid

/-- The registers that answer a leaf. -/
structure Leaf where
  eax : BitVec 32
  ebx : BitVec 32
  ecx : BitVec 32
  edx : BitVec 32
deriving DecidableEq, Repr

namespace Leaf

def pack (l : Leaf) : Value := l.edx ++ l.ecx ++ l.ebx ++ l.eax

def unpack (v : Value) : Leaf where
  eax := v.extractLsb' 0 32
  ebx := v.extractLsb' 32 32
  ecx := v.extractLsb' 64 32
  edx := v.extractLsb' 96 32

end Leaf

/-- The address of a leaf in the register space of a CPU. -/
def address (leaf subleaf : BitVec 32) : Value := (subleaf ++ leaf).setWidth 128

structure Signature where
  family : Nat
  model : Nat
  stepping : Nat
deriving DecidableEq, Repr

/-- The extended family counts for family 15 only, and the extended model for families 6 and 15. -/
def Signature.decode (eax : BitVec 32) : Signature :=
  let family := (eax.extractLsb' 8 4).toNat
  let model := (eax.extractLsb' 4 4).toNat
  let extendedModel := (eax.extractLsb' 16 4).toNat
  let extendedFamily := (eax.extractLsb' 20 8).toNat
  { family := if family = 15 then family + extendedFamily else family
    model := if family = 6 ∨ family = 15 then extendedModel * 16 + model else model
    stepping := (eax.extractLsb' 0 4).toNat }

/-- The twelve bytes of the vendor in the order in which they are read. -/
def vendorBytes (ebx ecx edx : BitVec 32) : List UInt8 :=
  littleEndian 4 ebx.toNat ++ littleEndian 4 edx.toNat ++ littleEndian 4 ecx.toNat

/-- The name of the vendor: short for the two best known, as it is spelt for others. -/
def vendorName (ebx ecx edx : BitVec 32) : String :=
  let spelt := Text.decodeLossy (vendorBytes ebx ecx edx)
  if spelt = "GenuineIntel".toList then "Intel"
  else if spelt = "AuthenticAMD".toList then "AMD"
  else String.ofList (spelt.reverse.dropWhile (· = '\x00')).reverse

structure Identity where
  vendor : String
  signature : Signature
deriving DecidableEq, Repr

namespace Identity

def text (i : Identity) : String :=
  i.vendor ++ " family 0x" ++ Text.hex i.signature.family ++ " model 0x" ++
    Text.hex i.signature.model ++ " stepping 0x" ++ Text.hex i.signature.stepping

/-- Reads leaves 0 and 1. -/
def probe {σ : Type} [Bus σ] (space : Space) : Action Fault σ Identity := do
  let vendor := Leaf.unpack (← Bus.read space (address 0 0) .w128)
  let model := Leaf.unpack (← Bus.read space (address 1 0) .w128)
  pure ⟨vendorName vendor.ebx vendor.ecx vendor.edx, .decode model.eax⟩

end Identity

/-- An inclusive range of numbers; without one any number will do. -/
abbrev Bounds := Option (Nat × Nat)

def Bounds.contains (b : Bounds) (n : Nat) : Bool := b.all fun (low, high) => low ≤ n && n ≤ high

structure Criterion where
  vendor : String
  family : Bounds := none
  model : Bounds := none
  stepping : Bounds := none
deriving DecidableEq, Repr

instance : Criteria Criterion Identity where
  accepts c i :=
    c.vendor == i.vendor && Bounds.contains c.family i.signature.family &&
      Bounds.contains c.model i.signature.model && Bounds.contains c.stepping i.signature.stepping

abbrev Registry (σ : Type) := RegisterAtlas.Registry σ Nat Identity Criterion

/-- The driver for the CPUs of a list. -/
def driver {σ : Type} [Bus σ] (cpus : List Nat) (space : Nat → Space) (registry : Registry σ) :
    Driver σ where
  name := "cpuid"
  attach args := Action.ofExcept do
    checkArguments "cpuid" ["cpu"] args
    pure (space (← narrow "cpuid" "cpu" 32 (args.getD 0 0)))
  discover := some (registry.describeAll (fun s => do pure (some (← Identity.probe s)))
    (cpus.map fun cpu => (cpu, space cpu)))

end RegisterAtlas.Cpuid
