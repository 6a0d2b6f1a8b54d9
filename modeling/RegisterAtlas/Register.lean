import RegisterAtlas.Space

/-! # Registers and bit ranges

A register is a location in a register space together with the width of its accesses. Bits select
ranges of registers and join them, most significant first, into one right-justified value.

The bits of a selection are counted with 32 bits. To read or write what is joined, the bits of each
part are counted, and where they are too many the access ends in an overflow. -/

namespace RegisterAtlas

structure Register where
  space : Space
  address : Value
  width : Width
deriving DecidableEq, Repr

inductive Bits where
  | range (register : Register) (low count : Nat)
  | joined (parts : List Bits)

namespace Register

variable {σ : Type} [Bus σ]

def read (r : Register) : Action Fault σ Value := Bus.read r.space r.address r.width

def write (r : Register) (v : Value) : Action Fault σ Unit := Bus.write r.space r.address r.width v

/-- The bits `high` down to `low`, if the register has them. -/
def bits (r : Register) (high low : Nat) : Except RangeError Bits :=
  if low ≤ high ∧ high < r.width.bits then .ok (.range r low (high - low + 1))
  else .error ⟨r.address, r.width, high, low⟩

def bit (r : Register) (n : Nat) : Except RangeError Bits := r.bits n n

def all (r : Register) : Bits := .range r 0 r.width.bits

end Register

namespace Bits

def concat (parts : List Bits) : Bits := .joined parts

def isJoined : Bits → Bool
  | range .. => false
  | joined _ => true

/-- Joins two selections; one that is joined already takes the other as its last part. -/
def append : Bits → Bits → Bits
  | joined parts, b => joined (parts ++ [b])
  | a, b => joined [a, b]

instance : Append Bits := ⟨append⟩

mutual

/-- The number of bits, however large it is. -/
def width : Bits → Nat
  | range _ _ count => count
  | joined parts => totalWidth parts

def totalWidth : List Bits → Nat
  | [] => 0
  | part :: rest => part.width + totalWidth rest

end

/-- A number of bits, if it is a word. -/
def word? (n : Nat) : Option Nat := if n < wordCount 32 then some n else none

def add? (m n : Nat) : Option Nat := word? (m + n)

mutual

/-- The number of bits as it is counted. -/
def width? : Bits → Option Nat
  | range _ _ count => word? count
  | joined parts => totalWidth? 0 parts

/-- Adds the widths of selections to a sum, from the most significant one on. -/
def totalWidth? (sum : Nat) : List Bits → Option Nat
  | [] => some sum
  | part :: rest => do
      let width ← part.width?
      totalWidth? (← add? sum width) rest

end

/-- Counts the bits of a part on the way. -/
def counted {σ : Type} (part : Bits) : Action Fault σ Nat :=
  match part.width? with
  | some width => pure width
  | none => throw .overflow

/-- Puts `bits` of the given width to the right of `acc`; nothing of `acc` is left beside 128 bits
or more. -/
def shiftIn (acc : Value) (width : Nat) (bits : Value) : Value :=
  if valueBits ≤ width then bits else acc <<< width ||| bits

/-- What is left of a value once its lowest `width` bits are taken. -/
def shiftOut (v : Value) (width : Nat) : Value :=
  if valueBits ≤ width then 0 else v >>> width

/-- Replaces `count` bits of `old` from `low` on by the lowest bits of `v`. -/
def merge (old : Value) (low count : Nat) (v : Value) : Value :=
  old &&& ~~~(mask count <<< low) ||| (v &&& mask count) <<< low

variable {σ : Type} [Bus σ]

mutual

/-- Reads the parts from the most to the least significant. -/
def read : Bits → Action Fault σ Value
  | range r low count => do
      let raw ← r.read
      pure ((raw >>> low) &&& mask count)
  | joined parts => readParts 0 parts

def readParts (acc : Value) : List Bits → Action Fault σ Value
  | [] => pure acc
  | part :: rest => do
      let width ← part.counted
      let bits ← part.read
      readParts (shiftIn acc width bits) rest

end

mutual

/-- Writes the parts from the least to the most significant. A whole register is written without
being read; of any other range the remaining bits of the register are kept. -/
def write : Bits → Value → Action Fault σ Unit
  | range r low count, v =>
      if low = 0 ∧ count = r.width.bits then r.write (v &&& mask count)
      else do
        let old ← r.read
        r.write (merge old low count v)
  | joined parts, v => do
      let _ ← writeParts parts v
      pure ()

/-- Writes the parts behind the first one before it, and returns what of the value is left. -/
def writeParts : List Bits → Value → Action Fault σ Value
  | [], v => pure v
  | part :: rest, v => do
      let left ← writeParts rest v
      part.write left
      let width ← part.counted
      pure (shiftOut left width)

end

mutual

def text : Bits → String
  | range r low count =>
      r.space.describe ++ "@0x" ++ Text.hex r.address.toNat ++ "[" ++ toString (low + count - 1) ++
        ":" ++ toString low ++ "]"
  | joined parts => "[" ++ String.intercalate ", " (texts parts) ++ "]"

def texts : List Bits → List String
  | [] => []
  | part :: rest => part.text :: texts rest

end

/-- A number of bits of one register, from its bit `low` on. -/
structure Range where
  register : Register
  low : Nat
  count : Nat
deriving DecidableEq, Repr

/-- The selection of a single range. -/
def Range.toBits (p : Range) : Bits := range p.register p.low p.count

mutual

/-- The ranges of a selection, most significant first. -/
def flatten : Bits → List Range
  | range r low count => [⟨r, low, count⟩]
  | joined parts => flattenParts parts

def flattenParts : List Bits → List Range
  | [] => []
  | part :: rest => part.flatten ++ flattenParts rest

end

@[simp] theorem width_append (a b : Bits) : (a ++ b).width = a.width + b.width := by
  have total (xs : List Bits) : totalWidth (xs ++ [b]) = totalWidth xs + b.width := by
    induction xs with
    | nil => simp [totalWidth]
    | cons x xs ih => simp only [List.cons_append, totalWidth, ih]; omega
  cases a with
  | range r low count => simp [HAppend.hAppend, Append.append, append, width, totalWidth]
  | joined parts => exact total parts

end Bits

end RegisterAtlas
