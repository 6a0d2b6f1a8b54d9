import RegisterAtlas.Text.Blank
import RegisterAtlas.Text.Numeral

/-!
# Trimmed texts

A text with other characters than blanks at both ends is left alone by trimming, and blanks around a
text do not count: trimming takes away those and nothing else (`exists_trim`). No digit is a blank,
so numerals are never trimmed.
-/

namespace RegisterAtlas.Text

variable {cs : List Char} {c : Char}

/-- Neither the first nor the last character is a blank. -/
structure IsTrimmed (cs : List Char) : Prop where
  start : ∀ c ∈ cs.head?, isBlank c = false
  close : ∀ c ∈ cs.getLast?, isBlank c = false

theorem IsTrimmed.trim_eq (h : IsTrimmed cs) : trim cs = cs := by
  have hkeep : ∀ {cs : List Char}, (∀ c ∈ cs.head?, isBlank c = false) →
      cs.dropWhile isBlank = cs := by
    intro cs hstart
    cases cs with
    | nil => rfl
    | cons c cs => exact List.dropWhile_cons_of_neg (by simp [hstart c rfl])
  rw [trim, trimEnd, hkeep h.start, hkeep (by rw [List.head?_reverse]; exact h.close),
    List.reverse_reverse]

theorem isTrimmed_of_forall (h : ∀ c ∈ cs, isBlank c = false) : IsTrimmed cs where
  start c hc := h c (List.mem_of_mem_head? hc)
  close c hc := h c (List.mem_of_getLast? hc)

theorem trim_append_blank (cs : List Char) (h : isBlank c = true) : trim (cs ++ [c]) = trim cs := by
  rw [trim, trim, List.dropWhile_append]
  split
  · next hempty =>
      rw [List.isEmpty_iff.1 hempty, List.dropWhile_cons_of_pos h]
      rfl
  · rw [trimEnd, List.reverse_append, List.reverse_singleton, List.singleton_append,
      List.dropWhile_cons_of_pos h]
    rfl

/-! ## What is taken away -/

theorem trim_append_blanks {after : List Char} (h : ∀ c ∈ after, isBlank c = true)
    (cs : List Char) : trim (cs ++ after) = trim cs := by
  induction after generalizing cs with
  | nil => rw [List.append_nil]
  | cons c after ih =>
      obtain ⟨hc, hafter⟩ := List.forall_mem_cons.1 h
      rw [List.append_cons, ih hafter, trim_append_blank cs hc]

theorem trim_blanks_append {before : List Char} (h : ∀ c ∈ before, isBlank c = true)
    (cs : List Char) : trim (before ++ cs) = trim cs := by
  rw [trim, List.dropWhile_append_of_pos h, trim]

theorem exists_trimEnd (cs : List Char) :
    ∃ after, (∀ c ∈ after, isBlank c = true) ∧ cs = trimEnd cs ++ after := by
  refine ⟨(cs.reverse.takeWhile isBlank).reverse, fun c hc => ?_, ?_⟩
  · exact List.all_eq_true.1 List.all_takeWhile c (List.mem_reverse.1 hc)
  · rw [trimEnd, ← List.reverse_append, List.takeWhile_append_dropWhile, List.reverse_reverse]

/-- Trimming takes away blanks and nothing else. -/
theorem exists_trim (cs : List Char) : ∃ before after, (∀ c ∈ before, isBlank c = true) ∧
    (∀ c ∈ after, isBlank c = true) ∧ cs = before ++ trim cs ++ after := by
  obtain ⟨after, hafter, hcs⟩ := exists_trimEnd (cs.dropWhile isBlank)
  refine ⟨cs.takeWhile isBlank, after, List.all_eq_true.1 List.all_takeWhile, hafter, ?_⟩
  rw [List.append_assoc, trim, ← hcs, List.takeWhile_append_dropWhile]

theorem mem_trim_of_mem (hc : isBlank c = false) (h : c ∈ cs) : c ∈ trim cs := by
  obtain ⟨before, after, hbefore, hafter, hcs⟩ := exists_trim cs
  rw [hcs, List.mem_append, List.mem_append] at h
  rcases h with (h | h) | h
  · rw [hbefore c h] at hc
    cases hc
  · exact h
  · rw [hafter c h] at hc
    cases hc

theorem trim_eq_nil_iff : trim cs = [] ↔ ∀ c ∈ cs, isBlank c = true := by
  constructor
  · intro h
    obtain ⟨before, after, hbefore, hafter, hcs⟩ := exists_trim cs
    rw [h, List.append_nil] at hcs
    rw [hcs]
    exact List.forall_mem_append.2 ⟨hbefore, hafter⟩
  · intro h
    rw [← List.append_nil cs, trim_blanks_append h, trim_nil]

theorem trim_dropWhile (cs : List Char) : trim (cs.dropWhile isBlank) = trim cs := by
  have hfront : ∀ c ∈ cs.takeWhile isBlank, isBlank c = true :=
    List.all_eq_true.1 List.all_takeWhile
  rw [← trim_blanks_append hfront, List.takeWhile_append_dropWhile]

theorem trim_trimEnd (cs : List Char) : trim (trimEnd cs) = trim cs := by
  obtain ⟨after, hafter, hcs⟩ := exists_trimEnd cs
  rw [hcs, trim_append_blanks hafter, ← hcs]

theorem head?_dropWhile_blank (cs : List Char) :
    ∀ c ∈ (cs.dropWhile isBlank).head?, isBlank c = false := by
  intro c hc
  have hnot := List.head?_dropWhile_not isBlank cs
  rw [Option.mem_def.1 hc] at hnot
  simpa using hnot

theorem isTrimmed_trim (cs : List Char) : IsTrimmed (trim cs) := by
  have hclose : ∀ c ∈ (trim cs).getLast?, isBlank c = false := by
    rw [trim, trimEnd, List.getLast?_reverse]
    exact head?_dropWhile_blank _
  refine ⟨fun c hc => ?_, hclose⟩
  -- what is trimmed at the end is a front of what was trimmed at the start
  have hfront : trim cs <+: cs.dropWhile isBlank := by
    rw [trim, trimEnd, ← List.reverse_suffix, List.reverse_reverse]
    exact List.dropWhile_suffix _
  obtain ⟨rest, hrest⟩ := hfront
  refine head?_dropWhile_blank cs c ?_
  rw [← hrest, List.head?_append, Option.mem_def.1 hc]
  rfl

theorem trim_trim (cs : List Char) : trim (trim cs) = trim cs := (isTrimmed_trim cs).trim_eq

/-- Blanks between other characters are left alone. -/
theorem mem_trim_of_between {front back : List Char}
    (hfront : ∃ d ∈ front, isBlank d = false) (hback : ∃ d ∈ back, isBlank d = false) :
    c ∈ trim (front ++ c :: back) := by
  have hstay : ∀ {xs : List Char} (ys : List Char), (∃ d ∈ xs, isBlank d = false) →
      (xs ++ ys).dropWhile isBlank = xs.dropWhile isBlank ++ ys := by
    rintro xs ys ⟨d, hd, hblank⟩
    rw [List.dropWhile_append, if_neg]
    intro hempty
    have htrim : trim xs = [] := by rw [trim, List.isEmpty_iff.1 hempty]; rfl
    rw [trim_eq_nil_iff.1 htrim d hd] at hblank
    cases hblank
  have hback' : ∃ d ∈ back.reverse, isBlank d = false :=
    hback.imp fun d hd => ⟨List.mem_reverse.2 hd.1, hd.2⟩
  rw [trim, hstay _ hfront, trimEnd, List.reverse_append, List.reverse_cons, List.append_assoc,
    hstay _ hback']
  simp

/-- A separator that is no blank stays where it is, and so what is before and behind it is trimmed
at one end each. -/
theorem splitOnce_trim {sep : Char} (hsep : isBlank sep = false) (cs : List Char) :
    splitOnce sep (trim cs) =
      (splitOnce sep cs).map fun p => (p.1.dropWhile isBlank, trimEnd p.2) := by
  have hstay : ∀ xs ys : List Char,
      (xs ++ sep :: ys).dropWhile isBlank = xs.dropWhile isBlank ++ sep :: ys := by
    intro xs ys
    rw [List.dropWhile_append, List.dropWhile_cons_of_neg (by simp [hsep])]
    split
    · next hempty => rw [List.isEmpty_iff.1 hempty, List.nil_append]
    · rfl
  by_cases hmem : sep ∈ cs
  · obtain ⟨xs, ys, rfl, hnot⟩ := List.eq_append_cons_of_mem hmem
    have htrim : trim (xs ++ sep :: ys) = xs.dropWhile isBlank ++ sep :: trimEnd ys := by
      rw [trim, hstay, trimEnd, List.reverse_append, List.reverse_cons, List.append_assoc,
        List.singleton_append, hstay]
      simp [trimEnd]
    have hnot' : sep ∉ xs.dropWhile isBlank := fun h => hnot ((List.dropWhile_sublist _).subset h)
    rw [htrim, splitOnce_eq_some_iff.2 ⟨rfl, hnot⟩, splitOnce_eq_some_iff.2 ⟨rfl, hnot'⟩,
      Option.map_some]
  · have hmem' : sep ∉ trim cs := fun h => hmem <| by
      obtain ⟨before, after, -, -, hcs⟩ := exists_trim cs
      rw [hcs]
      exact List.mem_append_left _ (List.mem_append_right _ h)
    rw [splitOnce_eq_none hmem, splitOnce_eq_none hmem', Option.map_none]

/-! ## Digits -/

theorem isBlank_of_digit? {radix d : Nat} (h : digit? radix c = some d) : isBlank c = false := by
  have hvalue : alphanumericValue? c = some d := (Option.filter_eq_some_iff.1 h).1
  have hle : '0' ≤ c ∧ c ≤ 'z' := by
    unfold alphanumericValue? at hvalue
    split at hvalue
    · next hc => exact ⟨hc.1, Char.le_trans hc.2 (by decide)⟩
    split at hvalue
    · next hc => exact ⟨Char.le_trans (by decide) hc.1, hc.2⟩
    split at hvalue
    · next hc => exact ⟨Char.le_trans (by decide) hc.1, Char.le_trans hc.2 (by decide)⟩
    · cases hvalue
  have hlow : 0x30 ≤ c.toNat := hle.1
  have hhigh : c.toNat ≤ 0x7A := hle.2
  simp only [isBlank, Bool.or_eq_false_iff, Bool.and_eq_false_iff, decide_eq_false_iff_not,
    beq_eq_false_iff_ne]
  omega

theorem alphanumericValue?_of_isBlank (h : isBlank c = true) : alphanumericValue? c = none := by
  refine Option.eq_none_iff_forall_not_mem.2 fun d hd => ?_
  have hdigit : digit? (d + 1) c = some d := by
    rw [digit?, Option.mem_def.1 hd, Option.filter_some_pos (by simp)]
  rw [isBlank_of_digit? hdigit] at h
  cases h

/-- Texts of digits and letters have nothing to trim. -/
theorem trim_eq_of_notMem (h : ∀ c, alphanumericValue? c = none → c ∉ cs) : trim cs = cs := by
  refine (isTrimmed_of_forall fun c hc => ?_).trim_eq
  cases hblank : isBlank c with
  | false => rfl
  | true => exact (h c (alphanumericValue?_of_isBlank hblank) hc).elim

theorem isBlank_of_mem_readDigits {radix n : Nat} (h : readDigits radix cs = some n) :
    ∀ c ∈ cs, isBlank c = false := by
  intro c hc
  obtain ⟨d, hd⟩ := exists_digit?_of_mem_readDigits h hc
  exact isBlank_of_digit? hd

end RegisterAtlas.Text
