/-! # Cutting texts

A known part is cut off at the start or at the end of a text, or a text is cut in two at a
separating character. Each cut is described by the concatenation that it undoes. -/

namespace RegisterAtlas.Text

/-- The text behind a leading part, if the text starts with that part. -/
def stripStart? : List Char → List Char → Option (List Char)
  | [], cs => some cs
  | _ :: _, [] => none
  | p :: ps, c :: cs => if p = c then stripStart? ps cs else none

/-- The text before a closing part, if the text ends with that part. -/
def stripEnd? (part cs : List Char) : Option (List Char) :=
  (stripStart? part.reverse cs.reverse).map List.reverse

theorem stripStart?_eq_some_iff {p cs r : List Char} :
    stripStart? p cs = some r ↔ cs = p ++ r := by
  induction p generalizing cs with
  | nil => simp [stripStart?]
  | cons a p ih =>
      cases cs with
      | nil => simp [stripStart?]
      | cons c cs =>
          by_cases h : a = c
          · simp [stripStart?, h, ih]
          · simp [stripStart?, h, Ne.symm h]

theorem stripEnd?_eq_some_iff {p cs r : List Char} :
    stripEnd? p cs = some r ↔ cs = r ++ p := by
  simp only [stripEnd?, Option.map_eq_some_iff, stripStart?_eq_some_iff]
  constructor
  · rintro ⟨t, ht, rfl⟩
    simpa using congrArg List.reverse ht
  · rintro rfl
    exact ⟨r.reverse, by simp, by simp⟩

/-- Splits at the first occurrence of a character; the parts stand before and behind it. -/
def splitOnce (sep : Char) : List Char → Option (List Char × List Char)
  | [] => none
  | c :: cs => if c = sep then some ([], cs) else (splitOnce sep cs).map fun p => (c :: p.1, p.2)

theorem splitOnce_eq_some_iff {sep : Char} {cs a b : List Char} :
    splitOnce sep cs = some (a, b) ↔ cs = a ++ sep :: b ∧ sep ∉ a := by
  induction cs generalizing a with
  | nil => simp [splitOnce]
  | cons c cs ih =>
      by_cases h : c = sep
      · subst h
        cases a with
        | nil => simp [splitOnce]
        | cons x a => simp [splitOnce]; grind
      · cases a with
        | nil => simp [splitOnce, h]
        | cons x a =>
            simp only [splitOnce, h, if_false, Option.map_eq_some_iff, Prod.exists, Prod.mk.injEq]
            grind

theorem splitOnce_eq_none {sep : Char} {cs : List Char} (h : sep ∉ cs) :
    splitOnce sep cs = none := by
  refine Option.eq_none_iff_forall_not_mem.2 fun parts hparts => h ?_
  rw [(splitOnce_eq_some_iff.1 hparts).1]
  simp

end RegisterAtlas.Text
