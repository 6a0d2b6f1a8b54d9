/-! # Words

Numbers of the machine are words with a fixed number of bits. -/

namespace RegisterAtlas

/-- The number of words of `bits` bits: two to the power of `bits`. -/
def wordCount (bits : Nat) : Nat := Nat.pow 2 bits

@[simp] theorem wordCount_zero : wordCount 0 = 1 := rfl

theorem wordCount_succ (bits : Nat) : wordCount (bits + 1) = 2 * wordCount bits := Nat.pow_succ'

theorem wordCount_add (m n : Nat) : wordCount (m + n) = wordCount m * wordCount n :=
  Nat.pow_add 2 m n

theorem wordCount_pos (bits : Nat) : 0 < wordCount bits := Nat.two_pow_pos bits

/-- The sum of two words, unless it has more than 64 bits: then what is left of it is less than
either of them. -/
def addWords? (a b : UInt64) : Option UInt64 :=
  let sum := a + b
  if sum < a then none else some sum

theorem addWords?_eq_some_iff {a b c : UInt64} :
    addWords? a b = some c ↔ a.toNat + b.toNat = c.toNat := by
  have ha := a.toNat_lt
  have hb := b.toNat_lt
  have hc := c.toNat_lt
  simp only [addWords?, UInt64.lt_iff_toNat_lt, Option.ite_none_left_eq_some, Option.some.injEq,
    ← UInt64.toNat_inj, UInt64.toNat_add]
  omega

end RegisterAtlas
