import RegisterAtlas.Path

/-!
# Plain names

A scope lists what it holds under plain names. The name read from `name` or from `name[…]` is again
text that is read as that plain name, so that every listed name can be written in a path.
-/

namespace RegisterAtlas

theorem isNameChar_of_isIdentStart {c : Char} (h : isIdentStart c = true) :
    isNameChar c = true := by
  simp [isNameChar, isIdentChar, h]

theorem isNameChar_of_isIdentChar {c : Char} (h : isIdentChar c = true) : isNameChar c = true := by
  simp [isNameChar, h]

/-- A name is made of its own characters, except that it may start with a percent sign. -/
theorem isName_chars {cs : List Char} (h : isName cs = true) :
    ∃ c rest, cs = c :: rest ∧ (c = '%' ∨ isIdentStart c = true) ∧
      ∀ x ∈ rest, isNameChar x = true := by
  unfold isName at h
  split at h
  · cases h
  · next rest =>
      refine ⟨'%', rest, rfl, .inl rfl, fun x hx => ?_⟩
      cases rest with
      | nil => cases hx
      | cons c rest =>
          simp only [isIdent, Bool.and_eq_true, List.all_eq_true] at h
          rcases List.mem_cons.1 hx with rfl | hx
          · exact isNameChar_of_isIdentStart h.1
          · exact isNameChar_of_isIdentChar (h.2 x hx)
  · next c rest _ =>
      simp only [Bool.and_eq_true, List.all_eq_true] at h
      exact ⟨c, rest, rfl, .inr h.1, h.2⟩

theorem ne_of_name_start {c : Char} (h : c = '%' ∨ isIdentStart c = true) :
    c ≠ '.' ∧ c ≠ '$' ∧ c ≠ '[' := by
  rcases h with rfl | h
  · decide
  · refine ⟨?_, ?_, ?_⟩ <;> rintro rfl <;> exact absurd h (by decide)

namespace Element

/-- Without a bracket, what starts neither like a step to the parent nor like a bookmark is a name.
-/
theorem parse_of_no_bracket {c : Char} {cs : List Char} (hdot : c ≠ '.') (hdollar : c ≠ '$')
    (hbracket : '[' ∉ c :: cs) :
    parse (c :: cs) =
      if isName (c :: cs) then .ok (.name (String.ofList (c :: cs))) else .error .badName := by
  unfold parse
  split
  · next he => cases he
  · next he => exact absurd (List.cons.inj he).1 hdot
  · next he => exact absurd (List.cons.inj he).1 hdollar
  · rw [Text.splitOnce_eq_none hbracket]

theorem parse_of_isName {cs : List Char} (h : isName cs = true) :
    parse cs = .ok (.name (String.ofList cs)) := by
  obtain ⟨c, rest, rfl, hc, hrest⟩ := isName_chars h
  obtain ⟨hdot, hdollar, hbracket⟩ := ne_of_name_start hc
  rw [parse_of_no_bracket hdot hdollar, if_pos h]
  intro hmem
  rcases List.mem_cons.1 hmem with heq | hmem
  · exact hbracket heq.symm
  · exact absurd (hrest _ hmem) (by decide)

theorem ofText_of_isName {name : String} (h : isName name.toList = true) :
    ofText name = .ok (.name name) := by
  rw [ofText, parse_of_isName h, String.ofList_toList]

theorem parse_eq_name {cs : List Char} {n : String} (h : parse cs = .ok (.name n)) :
    isName cs = true ∧ n = String.ofList cs := by
  unfold parse at h
  split at h
  · cases h
  · cases h
  · split at h <;> cases h
  · split at h
    · split at h
      · cases h
      · split at h
        · split at h <;> cases h
        · cases h
    · split at h
      · next hname =>
          cases h
          exact ⟨hname, rfl⟩
      · cases h

theorem parse_eq_indexed {cs : List Char} {n : String} {index : Index}
    (h : parse cs = .ok (.indexed n index)) : isName n.toList = true := by
  unfold parse at h
  split at h
  · cases h
  · cases h
  · split at h <;> cases h
  · split at h
    · split at h
      · cases h
      · split at h
        · next hname =>
            split at h
            · cases h
              rwa [String.toList_ofList]
            · cases h
        · cases h
    · split at h <;> cases h

theorem parse_of_ofText {text : String} {e : Element} (h : ofText text = .ok e) :
    parse text.toList = .ok e := by
  unfold ofText at h
  split at h
  · next he =>
      cases h
      exact he
  · cases h

/-- A plain name is read as itself. -/
theorem ofText_eq_name {text n : String} (h : ofText text = .ok (.name n)) :
    n = text ∧ ofText n = .ok (.name n) := by
  obtain ⟨hname, hn⟩ := parse_eq_name (parse_of_ofText h)
  rw [String.ofList_toList] at hn
  subst hn
  exact ⟨rfl, h⟩

/-- The name in front of an index is a plain name. -/
theorem ofText_name_of_indexed {text n : String} {index : Index}
    (h : ofText text = .ok (.indexed n index)) : ofText n = .ok (.name n) :=
  ofText_of_isName (parse_eq_indexed (parse_of_ofText h))

end Element

end RegisterAtlas
