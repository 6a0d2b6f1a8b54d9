import RegisterAtlas.Word

/-! # Register values and access widths

Every register is read and written as a value of 128 bits, wide enough for a whole CPUID leaf. A
register is accessed with one of five widths. -/

namespace RegisterAtlas

abbrev Value := BitVec 128

/-- The number of bits of a value. -/
def valueBits : Nat := 128

/-- A value as a word of 64 bits, if it is one. -/
def Value.word? (v : Value) : Option UInt64 :=
  if v.toNat < wordCount 64 then some v.toNat.toUInt64 else none

theorem Value.word?_eq_some_iff {v : Value} {a : UInt64} :
    v.word? = some a ↔ v.toNat = a.toNat := by
  have ha := a.toNat_lt
  have hcount : wordCount 64 = 2 ^ 64 := rfl
  simp only [word?, Option.ite_none_right_eq_some, Option.some.injEq, ← UInt64.toNat_inj,
    Nat.toUInt64, UInt64.toNat_ofNat', hcount]
  omega

/-- The value whose lowest `bits` bits are set. -/
def mask (bits : Nat) : Value :=
  if valueBits ≤ bits then BitVec.allOnes 128 else BitVec.ofNat 128 (wordCount bits - 1)

theorem getLsbD_mask (bits i : Nat) : (mask bits).getLsbD i = decide (i < 128 ∧ i < bits) := by
  unfold mask valueBits
  split
  · next h => simp only [BitVec.getLsbD_allOnes]; congr 1; simp; omega
  · simp only [BitVec.getLsbD_ofNat, wordCount, Nat.pow_eq, Nat.testBit_two_pow_sub_one]
    simp

inductive Width where
  | w8 | w16 | w32 | w64 | w128
deriving DecidableEq, Repr

namespace Width

def bits : Width → Nat
  | w8 => 8
  | w16 => 16
  | w32 => 32
  | w64 => 64
  | w128 => 128

def bytes (w : Width) : Nat := w.bits / 8

def mask (w : Width) : Value := RegisterAtlas.mask w.bits

/-- Drops the bits beyond the width. -/
def truncate (w : Width) (v : Value) : Value := v &&& w.mask

def ofBits? : Nat → Option Width
  | 8 => some w8
  | 16 => some w16
  | 32 => some w32
  | 64 => some w64
  | 128 => some w128
  | _ => none

def text (w : Width) : String := toString w.bits ++ "-bit"

theorem ofBits?_eq_some_iff {n : Nat} {w : Width} : ofBits? n = some w ↔ w.bits = n := by
  constructor
  · intro h
    unfold ofBits? at h
    split at h <;> first | (cases h; rfl) | cases h
  · rintro rfl
    cases w <;> rfl

theorem bits_eq_mul_bytes (w : Width) : w.bits = 8 * w.bytes := by cases w <;> rfl

theorem bits_pos (w : Width) : 0 < w.bits := by cases w <;> decide

theorem bits_le (w : Width) : w.bits ≤ 128 := by cases w <;> decide

theorem getLsbD_truncate (w : Width) (v : Value) (i : Nat) :
    (w.truncate v).getLsbD i = (v.getLsbD i && decide (i < w.bits)) := by
  have := w.bits_le
  simp only [truncate, mask, BitVec.getLsbD_and, getLsbD_mask]
  congr 2
  simp
  omega

end Width

end RegisterAtlas
