import RegisterAtlas.Proofs.Datatype.Names

/-!
# Enumerations

The pairs of an enumeration that count are those of different names, but several of them may name
one value. A name always stands for its value, and a value is shown by the first of its names. So
what is shown for a declared value is read back, and a name is shown again unless another one comes
before it. A value that no name stands for is shown by the text for all others or, if there is none,
by a token with its number.
-/

namespace RegisterAtlas

namespace EnumType

variable {pairs : List (String × Value)} {unknown : Option String} {name : String} {v w : Value}

theorem entries_ofList (pairs : List (String × Value)) (unknown : Option String) :
    (ofList pairs unknown).names.entries = firstNamed pairs := Table.entries_ofPairs pairs

theorem get?_ofList_eq_some_iff :
    (ofList pairs unknown).names.get? name = some v ↔ (name, v) ∈ firstNamed pairs := by
  rw [Table.get?_eq_some_iff, entries_ofList]

theorem has_ofList_iff :
    (ofList pairs unknown).has v = true ↔ ∃ name, (name, v) ∈ firstNamed pairs := by
  simp [has, Table.values, entries_ofList]

/-- Some pair that counts names a value, or else the value is unknown. -/
theorem find?_ofList_cases (pairs : List (String × Value)) (unknown : Option String) (v : Value) :
    (∃ name front back, firstNamed pairs = front ++ (name, v) :: back ∧ (∀ p ∈ front, p.2 ≠ v) ∧
      (ofList pairs unknown).evaluate v = name) ∨
    (∀ name, (name, v) ∉ firstNamed pairs) ∧
      (ofList pairs unknown).evaluate v = unknown.getD (unknownToken (toString v.toNat)) := by
  rw [evaluate, entries_ofList]
  cases hfind : (firstNamed pairs).find? (·.2 = v) with
  | some p =>
      obtain ⟨hp, front, back, heq, hfront⟩ := List.find?_eq_some_iff_append.1 hfind
      obtain ⟨name, w⟩ := p
      obtain rfl : w = v := of_decide_eq_true hp
      exact .inl ⟨name, front, back, heq, fun p hp => by simpa using hfront p hp, rfl⟩
  | none =>
      refine .inr ⟨fun name hmem => List.find?_eq_none.1 hfind _ hmem (decide_eq_true rfl), ?_⟩
      cases unknown <;> rfl

/-- A value is shown by the first of its names, and by no other one. -/
theorem evaluate_ofList_eq_iff {front back : List (String × Value)}
    (h : firstNamed pairs = front ++ (name, v) :: back) :
    (ofList pairs unknown).evaluate v = name ↔ ∀ p ∈ front, p.2 ≠ v := by
  have hfind : (firstNamed pairs).find? (·.2 = v) =
      (front.find? (·.2 = v)).or (some (name, v)) := by
    rw [h, List.find?_append]
    simp
  rw [evaluate, entries_ofList, hfind]
  cases hfront : front.find? (·.2 = v) with
  | none =>
      refine iff_of_true rfl fun p hp hv => ?_
      exact List.find?_eq_none.1 hfront p hp (decide_eq_true hv)
  | some p =>
      -- the name of the earlier pair is another one
      have hp : p ∈ front := List.mem_of_find?_eq_some hfront
      have hv : p.2 = v := by simpa using List.find?_some hfront
      refine iff_of_false (fun hname => ?_) fun hall => hall p hp hv
      have hname : p.1 = name := hname
      exact notMem_front_of_firstNamed h (hname ▸ List.mem_map_of_mem hp)

theorem evaluate_ofList_of_undeclared (h : ∀ name, (name, v) ∉ firstNamed pairs) :
    (ofList pairs unknown).evaluate v = unknown.getD (unknownToken (toString v.toNat)) := by
  rcases find?_ofList_cases pairs unknown v with ⟨name, front, back, heq, -⟩ | ⟨-, heval⟩
  · exact (h name (by simp [heq])).elim
  · exact heval

/-- What is shown for a declared value is one of its names. -/
theorem evaluate_mem_firstNamed (h : (name, v) ∈ firstNamed pairs) :
    ((ofList pairs unknown).evaluate v, v) ∈ firstNamed pairs := by
  rcases find?_ofList_cases pairs unknown v with ⟨first, front, back, heq, -, heval⟩ | ⟨hnot, -⟩
  · rw [heval, heq]
    exact List.mem_append_right _ List.mem_cons_self
  · exact (hnot name h).elim

end EnumType

namespace Datatype

variable {pairs : List (String × Value)} {unknown : Option String} {token : String} {v w : Value}

theorem lookup_enum_eq_ok_iff :
    (Datatype.enum (.ofList pairs unknown)).lookup token = .ok v ↔
      (token, v) ∈ firstNamed pairs := by
  rw [← EnumType.get?_ofList_eq_some_iff, lookup]
  cases (EnumType.ofList pairs unknown).names.get? token <;> simp

theorem lookupValue_enum_eq_ok_iff :
    (Datatype.enum (.ofList pairs unknown)).lookupValue v = .ok w ↔
      v = w ∧ ∃ name, (name, v) ∈ firstNamed pairs := by
  rw [← EnumType.has_ofList_iff, lookupValue]
  cases (EnumType.ofList pairs unknown).has v <;> simp

/-- An enumeration, whatever names and values its declaration repeats. Tokens and values are
accepted if they stand in a pair that counts; a value is shown by the first of its names, by the
text for unknown values, or by its number. What is shown for a declared value is read back as this
value, a name is shown for its own value unless one of the names before it has that value too, and
unknown values are told apart unless there is one text for all of them. -/
theorem enumeration_shows (pairs : List (String × Value)) (unknown : Option String) :
    let d : Datatype := .enum (.ofList pairs unknown)
    (∀ token v, d.lookup token = .ok v ↔ (token, v) ∈ firstNamed pairs) ∧
    (∀ v, (∃ w, d.lookupValue v = .ok w) ↔ ∃ name, (name, v) ∈ firstNamed pairs) ∧
    (∀ name v front back, firstNamed pairs = front ++ (name, v) :: back →
      d.lookup name = .ok v ∧ (d.evaluate v = name ↔ ∀ p ∈ front, p.2 ≠ v)) ∧
    (∀ v, (∀ name, (name, v) ∉ firstNamed pairs) →
      d.evaluate v = unknown.getD ("<!" ++ toString v.toNat ++ "!>")) ∧
    (∀ name v, (name, v) ∈ firstNamed pairs → d.lookup (d.evaluate v) = .ok v) ∧
    (unknown = none → ∀ v w, (∀ name, (name, v) ∉ firstNamed pairs) →
      (∀ name, (name, w) ∉ firstNamed pairs) → d.evaluate v = d.evaluate w → v = w) := by
  intro d
  refine ⟨fun token v => lookup_enum_eq_ok_iff, fun v => ?_, fun name v front back h => ?_,
    fun v => EnumType.evaluate_ofList_of_undeclared, fun name v h => ?_, ?_⟩
  · simp only [d, lookupValue_enum_eq_ok_iff, exists_eq_left']
  · constructor
    · rw [lookup_enum_eq_ok_iff, h]
      exact List.mem_append_right _ List.mem_cons_self
    · exact EnumType.evaluate_ofList_eq_iff h
  · exact lookup_enum_eq_ok_iff.2 (EnumType.evaluate_mem_firstNamed h)
  · rintro rfl v w hv hw heq
    have hshown : ∀ u, (∀ name, (name, u) ∉ firstNamed pairs) →
        d.evaluate u = unknownToken (toString u.toNat) :=
      fun u => EnumType.evaluate_ofList_of_undeclared
    rw [hshown v hv, hshown w hw] at heq
    exact BitVec.eq_of_toNat_eq (unknownToken_inj.1 heq)

/-- Here a name is repeated for a value that is left without one, and a value has two names. -/
def repeatedPairs : List (String × Value) := [("idle", 5), ("busy", 5), ("idle", 6)]

theorem enumeration_shows_repeatedPairs :
    let d : Datatype := .enum (.ofList repeatedPairs none)
    firstNamed repeatedPairs = [("idle", 5)] ++ ("busy", 5) :: [] ∧
      d.lookup "busy" = .ok 5 ∧ d.evaluate 5 ≠ "busy" ∧ d.lookup (d.evaluate 5) = .ok 5 ∧
      d.evaluate 6 = "<!6!>" ∧ d.evaluate 6 ≠ d.evaluate 7 := by
  intro d
  have hfirst : firstNamed repeatedPairs = [("idle", 5)] ++ ("busy", 5) :: [] := by decide +kernel
  have hsix : ∀ name, (name, 6) ∉ firstNamed repeatedPairs := by simp [hfirst]
  have hseven : ∀ name, (name, 7) ∉ firstNamed repeatedPairs := by simp [hfirst]
  obtain ⟨-, -, hshown, hunknown, hread, happart⟩ := enumeration_shows repeatedPairs none
  obtain ⟨hbusy, hiff⟩ := hshown "busy" 5 _ _ hfirst
  refine ⟨hfirst, hbusy, fun heq => ?_, hread "busy" 5 (by simp [hfirst]), hunknown 6 hsix,
    fun heq => ?_⟩
  · exact hiff.1 heq ("idle", 5) List.mem_cons_self rfl
  · exact absurd (happart rfl 6 7 hsix hseven heq) (by decide)

end Datatype

end RegisterAtlas
