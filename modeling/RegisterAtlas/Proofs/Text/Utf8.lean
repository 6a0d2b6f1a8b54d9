import Mathlib.Tactic.SplitIfs
import RegisterAtlas.Text.Utf8

/-!
# ASCII in damaged UTF-8

Whatever bytes are read as UTF-8, an ASCII character comes from the one byte that stands for it: a
longer sequence never comes to an ASCII character, nor does a damaged one. So only one sequence of
bytes is read as a given text of ASCII characters (`decodeLossy_eq_iff`).
-/

namespace RegisterAtlas.Text

variable {b first second : UInt8} {rest bs : List UInt8}

theorem toNat_ofNat {n : Nat} (h : n.isValidChar) : (Char.ofNat n).toNat = n := by
  rw [Char.ofNat, dif_pos h]
  rfl

/-! ## Sequences of several bytes -/

theorem firstChar_of_lt (h : b < 0x80) : firstChar b rest = (Char.ofNat b.toNat, 0) := by
  have hlength : sequenceLength b = 1 := if_pos h
  rw [firstChar, hlength]

/-- The first byte of a sequence of several bytes. -/
theorem sequenceLength_eq_add_two {n : Nat} (h : sequenceLength b = n + 2) :
    n = 0 ∧ 0xC2 ≤ b.toNat ∧ b.toNat ≤ 0xDF ∨ n = 1 ∧ 0xE0 ≤ b.toNat ∧ b.toNat ≤ 0xEF ∨
      n = 2 ∧ 0xF0 ≤ b.toNat ∧ b.toNat ≤ 0xF4 := by
  simp only [sequenceLength, Bool.and_eq_true, decide_eq_true_eq, UInt8.le_iff_toNat_le,
    UInt8.lt_iff_toNat_lt, UInt8.reduceToNat] at h
  split_ifs at h <;> omega

theorem isSecond_bounds (h : isSecond first second = true) :
    0x80 ≤ second.toNat ∧ second.toNat ≤ 0xBF ∧ (first.toNat = 0xE0 → 0xA0 ≤ second.toNat) ∧
      (first.toNat = 0xED → second.toNat ≤ 0x9F) ∧ (first.toNat = 0xF0 → 0x90 ≤ second.toNat) ∧
      (first.toNat = 0xF4 → second.toNat ≤ 0x8F) := by
  simp only [isSecond, isContinuation, UInt8.le_iff_toNat_le, ← UInt8.toNat_inj,
    UInt8.reduceToNat] at h
  split_ifs at h <;> simp only [Bool.and_eq_true, decide_eq_true_eq] at h <;> omega

/-- Each further byte adds six bits. -/
theorem payload_bounds (m : Nat) (bs : List UInt8) :
    m * wordCount (6 * bs.length) ≤ payload m bs ∧
      payload m bs < (m + 1) * wordCount (6 * bs.length) := by
  induction bs generalizing m with
  | nil => simp [payload]
  | cons b bs ih =>
      have hpayload : payload m (b :: bs) = payload (m * 64 + b.toNat % 64) bs := rfl
      have hlt : b.toNat % 64 < 64 := Nat.mod_lt _ (by decide)
      have hcount : wordCount (6 * (b :: bs).length) = 64 * wordCount (6 * bs.length) := by
        rw [List.length_cons, Nat.mul_succ, Nat.add_comm, wordCount_add]
        rfl
      obtain ⟨hle, hlt'⟩ := ih (m * 64 + b.toNat % 64)
      rw [hpayload, hcount, ← Nat.mul_assoc, ← Nat.mul_assoc]
      constructor
      · refine Nat.le_trans (Nat.mul_le_mul_right _ ?_) hle
        omega
      · refine Nat.lt_of_lt_of_le hlt' (Nat.mul_le_mul_right _ ?_)
        omega

/-- With all of its bytes, a sequence comes to a character beyond ASCII. The shortest form is asked
for, and neither surrogates nor numbers beyond the last character come out. -/
theorem payload_isValidChar {n : Nat} {xs : List UInt8} (hfirst : sequenceLength first = n + 2)
    (hsecond : isSecond first second = true) (hxs : xs.length = n) :
    0x80 ≤ payload (first.toNat % wordCount (5 - n)) (second :: xs) ∧
      (payload (first.toNat % wordCount (5 - n)) (second :: xs)).isValidChar := by
  obtain ⟨hle, hlt⟩ := payload_bounds (first.toNat % wordCount (5 - n) * 64 + second.toNat % 64) xs
  have hcons : payload (first.toNat % wordCount (5 - n)) (second :: xs) =
      payload (first.toNat % wordCount (5 - n) * 64 + second.toNat % 64) xs := rfl
  have hbounds := isSecond_bounds hsecond
  rw [hxs] at hle hlt
  rw [hcons, Nat.isValidChar]
  obtain ⟨rfl, hlow, hhigh⟩ | ⟨rfl, hlow, hhigh⟩ | ⟨rfl, hlow, hhigh⟩ :=
    sequenceLength_eq_add_two hfirst
  · have hcount : wordCount (5 - 0) = 32 := rfl
    have hmore : wordCount (6 * 0) = 1 := rfl
    rw [hcount, hmore] at hle hlt
    rw [hcount]
    omega
  · have hcount : wordCount (5 - 1) = 16 := rfl
    have hmore : wordCount (6 * 1) = 64 := rfl
    rw [hcount, hmore] at hle hlt
    rw [hcount]
    omega
  · have hcount : wordCount (5 - 2) = 8 := rfl
    have hmore : wordCount (6 * 2) = 4096 := rfl
    rw [hcount, hmore] at hle hlt
    rw [hcount]
    omega

/-- A byte beyond ASCII starts no ASCII character. -/
theorem le_toNat_firstChar (h : ¬ b < 0x80) (rest : List UInt8) :
    0x80 ≤ (firstChar b rest).1.toNat := by
  have hreplacement : 0x80 ≤ replacement.toNat := by decide
  rw [firstChar]
  split
  · exact hreplacement
  · next hlength =>
      rw [sequenceLength, if_neg h] at hlength
      split_ifs at hlength <;> cases hlength
  · next n hlength =>
      dsimp only
      split
      · next hmore =>
          obtain ⟨second, rest', hsecond, hrest, heq⟩ : ∃ second rest', isSecond b second = true ∧
              rest'.length = n ∧ tail b rest = second :: rest' := by
            cases rest with
            | nil => cases hmore
            | cons second rest =>
                rw [tail] at hmore ⊢
                split
                · next hsecond =>
                    rw [if_pos hsecond, List.length_cons, Nat.add_right_cancel_iff] at hmore
                    exact ⟨second, _, hsecond, hmore, rfl⟩
                · next hsecond =>
                    rw [if_neg hsecond] at hmore
                    cases hmore
          obtain ⟨hle, hvalid⟩ := payload_isValidChar hlength hsecond hrest
          rw [heq, toNat_ofNat hvalid]
          exact hle
      · exact hreplacement

/-! ## Texts of ASCII characters -/

/-- The bytes that stand for a text of ASCII characters. -/
def asciiBytes (cs : List Char) : List UInt8 := cs.map fun c => c.toNat.toUInt8

theorem decodeLossy_cons (b : UInt8) (rest : List UInt8) : decodeLossy (b :: rest) =
    (firstChar b rest).1 :: decodeLossy (rest.drop (firstChar b rest).2) := by
  rw [decodeLossy]

/-- A text of ASCII characters is only read of its own bytes. -/
theorem decodeLossy_eq_iff {cs : List Char} (h : ∀ c ∈ cs, c.toNat < 0x80) :
    decodeLossy bs = cs ↔ bs = asciiBytes cs := by
  induction cs generalizing bs with
  | nil =>
      cases bs with
      | nil => simp [decodeLossy, asciiBytes]
      | cons b rest => simp [decodeLossy_cons, asciiBytes]
  | cons c cs ih =>
      obtain ⟨hc, hcs⟩ := List.forall_mem_cons.1 h
      cases bs with
      | nil => simp [decodeLossy, asciiBytes]
      | cons b rest =>
          have hbyte : c.toNat.toUInt8.toNat = c.toNat := by
            rw [Nat.toUInt8, UInt8.toNat_ofNat', Nat.mod_eq_of_lt (by omega)]
          rw [decodeLossy_cons, asciiBytes, List.map_cons, List.cons.injEq, List.cons.injEq]
          by_cases hb : b < 0x80
          · rw [firstChar_of_lt hb, List.drop_zero, ih hcs, asciiBytes]
            refine and_congr_left fun _ => ?_
            have hlt : b.toNat < 0x80 := hb
            have hvalid : b.toNat.isValidChar := .inl (by omega)
            rw [← UInt8.toNat_inj, hbyte, ← Char.toNat_inj, toNat_ofNat hvalid]
          · have hfirst : (firstChar b rest).1 ≠ c := fun heq => by
              have hle := le_toNat_firstChar hb rest
              rw [heq] at hle
              exact Nat.not_lt.2 hle hc
            have hbyte : b ≠ c.toNat.toUInt8 := fun heq => by
              have hlt : b.toNat < 0x80 := by rwa [heq, hbyte]
              exact hb hlt
            exact iff_of_false (fun h => hfirst h.1) fun h => hbyte h.1

end RegisterAtlas.Text
