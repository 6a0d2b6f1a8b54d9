import RegisterAtlas.Proofs.Text.Decimal

/-!
# Hexadecimal texts of a fixed length

A number is printed with at least as many hexadecimal digits as asked for, in small letters. If it
needs no more, this is the only text of that length and in small letters that is read as the number.
-/

namespace RegisterAtlas.Text

variable {digits n : Nat} {cs cs' : List Char}

/-- A number of hexadecimal digits in small letters. -/
structure HexText (digits : Nat) (cs : List Char) : Prop where
  length_eq : cs.length = digits
  exists_digit : ∀ c ∈ cs, ∃ d < 16, c = Nat.digitChar d

theorem exists_digit_of_mem_hexDigits {c : Char} (n : Nat) (hc : c ∈ hexDigits n) :
    ∃ d < 16, c = Nat.digitChar d := by
  induction n using Nat.strongRecOn with
  | ind n ih =>
      rw [hexDigits, Nat.toDigits_eq_if (by decide)] at hc
      split at hc
      · next hn => exact ⟨n, hn, List.mem_singleton.1 hc⟩
      · next hn =>
          rcases List.mem_append.1 hc with hfront | hlast
          · exact ih (n / 16) (by omega) hfront
          · exact ⟨n % 16, Nat.mod_lt n (by decide), List.mem_singleton.1 hlast⟩

theorem hexText_hexPadded (hpos : 0 < digits) (h : n < 16 ^ digits) :
    HexText digits (hexPadded digits n).toList where
  length_eq := by rw [String.length_toList, length_hexPadded hpos h]
  exists_digit c hc := by
    rw [toList_hexPadded, zeroPadded] at hc
    rcases List.mem_append.1 hc with hzero | hdigit
    · exact ⟨0, by decide, List.eq_of_mem_replicate hzero⟩
    · exact exists_digit_of_mem_hexDigits n hdigit

/-- Digits in small letters are told from the number that they lead to, as long as their count is
known. -/
theorem eq_of_readDigitsFrom {acc acc' : Nat} (hcs : HexText digits cs) (hcs' : HexText digits cs')
    (h : readDigitsFrom 16 acc cs = some n) (h' : readDigitsFrom 16 acc' cs' = some n) :
    acc = acc' ∧ cs = cs' := by
  induction cs generalizing acc acc' cs' digits with
  | nil =>
      obtain rfl : cs' = [] :=
        List.eq_nil_of_length_eq_zero (hcs'.length_eq.trans hcs.length_eq.symm)
      exact ⟨Option.some.inj (h.trans h'.symm), rfl⟩
  | cons c cs ih =>
      cases cs' with
      | nil => exact absurd (hcs'.length_eq.trans hcs.length_eq.symm) (by simp)
      | cons c' cs' =>
          obtain ⟨d, hd, rfl⟩ := hcs.exists_digit c List.mem_cons_self
          obtain ⟨d', hd', rfl⟩ := hcs'.exists_digit c' List.mem_cons_self
          rw [readDigitsFrom, digit?_digitChar (Nat.le_refl 16) hd] at h
          rw [readDigitsFrom, digit?_digitChar (Nat.le_refl 16) hd'] at h'
          have hlength : cs'.length = cs.length := by
            simpa using hcs'.length_eq.trans hcs.length_eq.symm
          obtain ⟨hacc, rfl⟩ := ih
            ⟨rfl, fun c hc => hcs.exists_digit c (List.mem_cons_of_mem _ hc)⟩
            ⟨hlength, fun c hc => hcs'.exists_digit c (List.mem_cons_of_mem _ hc)⟩ h h'
          obtain rfl : d = d' := by omega
          exact ⟨by omega, rfl⟩

/-- A character that is not read as a digit is no small one either. -/
theorem HexText.notMem {c : Char} (h : HexText digits cs) (hc : alphanumericValue? c = none) :
    c ∉ cs := by
  intro hmem
  obtain ⟨d, hd, rfl⟩ := h.exists_digit c hmem
  have hvalue : ∀ d < 16, alphanumericValue? d.digitChar ≠ none := by decide
  exact hvalue d hd hc

/-- A text of small letters is what is printed for the number that is read, in as many digits. -/
theorem HexText.eq_hexPadded {limit : Nat} (h : HexText digits cs) (hpos : 0 < digits)
    (hread : readUnsigned 16 limit cs = some n) (hn : n < 16 ^ digits) :
    cs = (hexPadded digits n).toList := by
  rw [readUnsigned_of_notMem (h.notMem (by decide))] at hread
  have hdigits : readDigits 16 cs = some n := (Option.filter_eq_some_iff.1 hread).1
  have hprinted := readDigits_zeroPadded digits n
  rw [← toList_hexPadded] at hprinted
  have hfrom : ∀ {cs : List Char}, readDigits 16 cs = some n → readDigitsFrom 16 0 cs = some n := by
    intro cs hcs
    rw [readDigits] at hcs
    split at hcs
    · cases hcs
    · exact hcs
  exact (eq_of_readDigitsFrom h (hexText_hexPadded hpos hn) (hfrom hdigits) (hfrom hprinted)).2

end RegisterAtlas.Text
