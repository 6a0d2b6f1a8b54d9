import RegisterAtlas.Text.Split

/-! # Numerals

Positional numerals in radix 8, 10 and 16. A numeral is read only if it has at least one digit and
nothing but digits; underscores and blanks are refused, and so are signs, unless a plus sign is
allowed for. -/

namespace RegisterAtlas.Text

/-- The value of an ASCII digit or letter of either case. -/
def alphanumericValue? (c : Char) : Option Nat :=
  if '0' ≤ c ∧ c ≤ '9' then some (c.toNat - '0'.toNat)
  else if 'a' ≤ c ∧ c ≤ 'z' then some (c.toNat - 'a'.toNat + 10)
  else if 'A' ≤ c ∧ c ≤ 'Z' then some (c.toNat - 'A'.toNat + 10)
  else none

/-- The value of a digit of the given radix. -/
def digit? (radix : Nat) (c : Char) : Option Nat :=
  (alphanumericValue? c).filter (· < radix)

theorem digit?_lt {radix d : Nat} {c : Char} (h : digit? radix c = some d) : d < radix := by
  simpa using (Option.filter_eq_some_iff.1 h).2

/-- Reads digits behind those that already gave `acc`. -/
def readDigitsFrom (radix : Nat) : Nat → List Char → Option Nat
  | acc, [] => some acc
  | acc, c :: cs =>
      match digit? radix c with
      | some d => readDigitsFrom radix (acc * radix + d) cs
      | none => none

/-- The value of a numeral. -/
def readDigits (radix : Nat) (cs : List Char) : Option Nat :=
  if cs = [] then none else readDigitsFrom radix 0 cs

@[simp] theorem readDigits_nil (radix : Nat) : readDigits radix [] = none := rfl

theorem readDigitsFrom_append (radix acc : Nat) (xs ys : List Char) :
    readDigitsFrom radix acc (xs ++ ys) =
      (readDigitsFrom radix acc xs).bind (readDigitsFrom radix · ys) := by
  induction xs generalizing acc with
  | nil => rfl
  | cons x xs ih =>
      simp only [List.cons_append, readDigitsFrom]
      cases digit? radix x with
      | none => rfl
      | some d => exact ih _

/-- A numeral is made of digits only. -/
theorem exists_digit?_of_mem_readDigitsFrom {radix acc n : Nat} {c : Char} {cs : List Char}
    (h : readDigitsFrom radix acc cs = some n) (hc : c ∈ cs) : ∃ d, digit? radix c = some d := by
  induction cs generalizing acc with
  | nil => exact (List.not_mem_nil hc).elim
  | cons first cs ih =>
      rw [readDigitsFrom] at h
      split at h
      · next d hd =>
          rcases List.mem_cons.1 hc with rfl | hc
          · exact ⟨d, hd⟩
          · exact ih h hc
      · cases h

theorem exists_digit?_of_mem_readDigits {radix n : Nat} {c : Char} {cs : List Char}
    (h : readDigits radix cs = some n) (hc : c ∈ cs) : ∃ d, digit? radix c = some d := by
  rw [readDigits] at h
  split at h
  · cases h
  · exact exists_digit?_of_mem_readDigitsFrom h hc

/-- The text behind the mark `0x` or `0X` of a hexadecimal numeral. -/
def hexBody? (cs : List Char) : Option (List Char) :=
  stripStart? ['0', 'x'] cs <|> stripStart? ['0', 'X'] cs

/-- A numeral below `limit`, with or without a plus sign. -/
def readUnsigned (radix limit : Nat) (cs : List Char) : Option Nat :=
  (readDigits radix ((stripStart? ['+'] cs).getD cs)).filter (· < limit)

theorem readUnsigned_lt {radix limit n : Nat} {cs : List Char}
    (h : readUnsigned radix limit cs = some n) : n < limit := by
  simpa using (Option.filter_eq_some_iff.1 h).2

/-- The lower-case hexadecimal digits of a number, without leading zeros. -/
def hexDigits (n : Nat) : List Char := Nat.toDigits 16 n

/-- The same digits behind enough zeros to make at least `digits` of them. -/
def zeroPadded (digits : Nat) (cs : List Char) : List Char :=
  List.replicate (digits - cs.length) '0' ++ cs

def hex (n : Nat) : String := String.ofList (hexDigits n)

def hexUpper (n : Nat) : String := String.ofList ((hexDigits n).map Char.toUpper)

def hexPadded (digits n : Nat) : String := String.ofList (zeroPadded digits (hexDigits n))

theorem length_zeroPadded (digits : Nat) (cs : List Char) :
    (zeroPadded digits cs).length = max digits cs.length := by
  simp [zeroPadded]; omega

end RegisterAtlas.Text
