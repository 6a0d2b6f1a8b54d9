import RegisterAtlas.Text.Numeral
import Mathlib.Algebra.Group.Nat.Defs

/-!
# Printed numerals

The digits of a number are read back as the number. A decimal numeral has no leading zero and no
letter, so a reader that also knows other radices by such marks does not mistake it for one of them.
-/

namespace RegisterAtlas.Text

theorem digit?_digitChar {radix d : Nat} (hradix : radix ≤ 16) (hd : d < radix) :
    digit? radix d.digitChar = some d := by
  have hvalue : ∀ d < 16, alphanumericValue? d.digitChar = some d := by decide
  rw [digit?, hvalue d (Nat.lt_of_lt_of_le hd hradix)]
  simp [hd]

/-- Reading the digits of a number, behind nothing else, gives the number. -/
theorem readDigitsFrom_toDigits {radix : Nat} (hone : 1 < radix) (hradix : radix ≤ 16) (n : Nat) :
    readDigitsFrom radix 0 (Nat.toDigits radix n) = some n := by
  induction n using Nat.strongRecOn with
  | ind n ih =>
      rw [Nat.toDigits_eq_if hone]
      split
      · next hn => simp [readDigitsFrom, digit?_digitChar hradix hn]
      · next hn =>
          have hdiv : n / radix < n := Nat.div_lt_self (by omega) hone
          have hmod : n % radix < radix := Nat.mod_lt n (by omega)
          rw [readDigitsFrom_append, ih _ hdiv, Option.bind_some]
          simp only [readDigitsFrom, digit?_digitChar hradix hmod, Nat.div_add_mod']

theorem readDigits_toDigits (radix : Nat) (hone : 1 < radix) (hradix : radix ≤ 16) (n : Nat) :
    readDigits radix (Nat.toDigits radix n) = some n := by
  rw [readDigits, if_neg Nat.toDigits_ne_nil, readDigitsFrom_toDigits hone hradix]

/-- Zeros in front do not count. -/
theorem readDigitsFrom_replicate_zero {radix : Nat} (hpos : 0 < radix) (k : Nat) (cs : List Char) :
    readDigitsFrom radix 0 (List.replicate k '0' ++ cs) = readDigitsFrom radix 0 cs := by
  have hzero : digit? radix '0' = some 0 := by
    rw [digit?, show alphanumericValue? '0' = some 0 by decide]
    simp [hpos]
  induction k with
  | zero => rfl
  | succ k ih =>
      rw [List.replicate_succ, List.cons_append, readDigitsFrom, hzero]
      simpa using ih

theorem readDigits_zeroPadded (digits n : Nat) :
    readDigits 16 (zeroPadded digits (hexDigits n)) = some n := by
  have hne : zeroPadded digits (hexDigits n) ≠ [] :=
    List.append_ne_nil_of_right_ne_nil _ Nat.toDigits_ne_nil
  rw [readDigits, if_neg hne, zeroPadded, readDigitsFrom_replicate_zero (by decide)]
  exact readDigitsFrom_toDigits (by decide) (by decide) n

/-- Numbers are told apart by their decimal numerals. -/
theorem toString_inj {m n : Nat} : toString m = toString n ↔ m = n := by
  refine ⟨fun h => ?_, congrArg _⟩
  have hdigits : Nat.toDigits 10 m = Nat.toDigits 10 n := by
    rw [← Nat.toList_repr, ← Nat.toList_repr]
    exact congrArg String.toList h
  have hread := readDigits_toDigits 10 (by decide) (by decide) m
  rw [hdigits, readDigits_toDigits 10 (by decide) (by decide) n] at hread
  exact (Option.some.inj hread).symm

/-- Zero is the only number whose decimal numeral starts with a zero. -/
theorem eq_nil_of_toDigits_eq_zero_cons {n : Nat} : ∀ {rest : List Char},
    Nat.toDigits 10 n = '0' :: rest → rest = [] := by
  induction n using Nat.strongRecOn with
  | ind n ih =>
      intro rest h
      rw [Nat.toDigits_eq_if (by decide)] at h
      split at h
      · exact (List.cons.inj h).2.symm
      · next hn =>
          obtain ⟨c, front, hfront⟩ := List.exists_cons_of_ne_nil (Nat.toDigits_ne_nil (n := n / 10)
            (b := 10))
          rw [hfront, List.cons_append] at h
          obtain rfl : c = '0' := (List.cons.inj h).1
          obtain rfl : front = [] := ih (n / 10) (by omega) hfront
          -- the digits before the last one are those of a number that is not zero
          have hread := readDigits_toDigits 10 (by decide) (by decide) (n / 10)
          rw [hfront] at hread
          have hzero : 0 = n / 10 := Option.some.inj hread
          omega

theorem notMem_toDigits {c : Char} (hc : c.isDigit = false) (n : Nat) : c ∉ Nat.toDigits 10 n := by
  intro hmem
  have hdigit : c.isDigit = true :=
    Nat.isDigit_of_mem_toDigits (b := 10) (by decide) (by decide) hmem
  rw [hc] at hdigit
  cases hdigit

/-- No decimal numeral is taken for a hexadecimal one. -/
theorem hexBody?_toDigits (n : Nat) : hexBody? (Nat.toDigits 10 n) = none := by
  have hnone : ∀ mark : Char, mark.isDigit = false →
      stripStart? ['0', mark] (Nat.toDigits 10 n) = none := by
    intro mark hmark
    refine Option.eq_none_iff_forall_not_mem.2 fun rest hrest => notMem_toDigits hmark n ?_
    rw [stripStart?_eq_some_iff.1 hrest]
    simp
  rw [hexBody?, hnone 'x' (by decide), hnone 'X' (by decide)]
  rfl

/-! ## Unsigned numerals -/

theorem notMem_of_readDigits {radix n : Nat} {c : Char} {cs : List Char}
    (hc : alphanumericValue? c = none) (h : readDigits radix cs = some n) : c ∉ cs := by
  intro hmem
  obtain ⟨d, hd⟩ := exists_digit?_of_mem_readDigits h hmem
  rw [digit?, hc] at hd
  cases hd

/-- Without a plus sign, a numeral is read as it is. -/
theorem readUnsigned_of_notMem {radix limit : Nat} {cs : List Char} (h : '+' ∉ cs) :
    readUnsigned radix limit cs = (readDigits radix cs).filter (· < limit) := by
  have hsign : stripStart? ['+'] cs = none := by
    refine Option.eq_none_iff_forall_not_mem.2 fun rest hrest => h ?_
    rw [stripStart?_eq_some_iff.1 hrest]
    exact List.mem_cons_self
  rw [readUnsigned, hsign, Option.getD_none]

theorem readUnsigned_of_readDigits {radix limit n : Nat} {cs : List Char}
    (h : readDigits radix cs = some n) (hlt : n < limit) :
    readUnsigned radix limit cs = some n := by
  rw [readUnsigned_of_notMem (notMem_of_readDigits (by decide) h), h,
    Option.filter_some_pos (by simpa using hlt)]

theorem readUnsigned_toDigits {limit n : Nat} (h : n < limit) :
    readUnsigned 10 limit (Nat.toDigits 10 n) = some n :=
  readUnsigned_of_readDigits (readDigits_toDigits 10 (by decide) (by decide) n) h

theorem toList_hexPadded (digits n : Nat) :
    (hexPadded digits n).toList = zeroPadded digits (hexDigits n) := String.toList_ofList

theorem readUnsigned_hexPadded {limit n : Nat} (h : n < limit) (digits : Nat) :
    readUnsigned 16 limit (hexPadded digits n).toList = some n := by
  rw [toList_hexPadded]
  exact readUnsigned_of_readDigits (readDigits_zeroPadded digits n) h

theorem notMem_hexPadded {c : Char} (hc : alphanumericValue? c = none) (digits n : Nat) :
    c ∉ (hexPadded digits n).toList := by
  rw [toList_hexPadded]
  exact notMem_of_readDigits hc (readDigits_zeroPadded digits n)

theorem length_hexPadded {digits n : Nat} (hpos : 0 < digits) (h : n < 16 ^ digits) :
    (hexPadded digits n).length = digits := by
  have hlength : (hexDigits n).length ≤ digits :=
    (Nat.length_toDigits_le_iff (by decide) hpos).2 h
  rw [hexPadded, String.length_ofList, length_zeroPadded, Nat.max_eq_left hlength]

end RegisterAtlas.Text
