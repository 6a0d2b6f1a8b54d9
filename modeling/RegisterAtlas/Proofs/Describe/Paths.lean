import RegisterAtlas.Proofs.Describe.Elements
import RegisterAtlas.Proofs.Resolve.PathOf

/-!
# Paths into arrays of devices

Where the elements of the arrays of a root are found, and what is found behind them: a path that
names an element and then something inside it resolves to what the element shows under that name.
-/

namespace RegisterAtlas

/-- The path of an element of an array of the root. -/
def elementPath (name : String) (i : Nat) : String := "/" ++ name ++ "[" ++ toString i ++ "]"

/-- The path of something inside such an element. -/
def insidePath (name : String) (i : Nat) (inner : String) : String :=
  elementPath name i ++ ("/" ++ inner)

theorem ofText_insidePath {name inner : String} {i : Nat} (hname : isName name.toList = true)
    (hi : i < indexLimit) (hinner : isName inner.toList = true) :
    Path.ofText (insidePath name i inner) =
      .ok ⟨true, [.indexed name (.pos i), .name inner]⟩ := by
  have htext : insidePath name i inner =
      (⟨true, [.indexed name (.pos i), .name inner]⟩ : Path).text := by
    simp [insidePath, elementPath, Path.text, Element.text, Index.text, ← String.append_assoc,
      String.intercalate_cons_cons]
  rw [htext]
  refine Path.WellFormed.ofText_text fun e he => ?_
  fin_cases he
  · exact .indexed hname (.pos hi)
  · exact .name hinner

theorem exists_view {α : Type} {G : α → View → Prop} {xs : List α} {views : List View}
    (h : List.Forall₂ G xs views) {i : Nat} {x : α} (hx : xs[i]? = some x) :
    ∃ view, views[i]? = some view ∧ G x view := by
  obtain ⟨hi, rfl⟩ := List.getElem?_eq_some_iff.1 hx
  have hi' : i < views.length := h.length_eq ▸ hi
  exact ⟨views[i], List.getElem?_eq_getElem hi', h.get hi hi'⟩

namespace Tree

variable {t : Tree} {id : EntryId} {name inner : String} {i : Nat}

theorem pathOf_element (hw : t.WellFormed) (hl : t.Lists root (.indexed name (.pos i)) id) :
    t.pathOf id = elementPath name i := by
  rw [hl.pathOf_eq hw, if_pos rfl, elementPath]
  simp only [Element.text, Index.text, String.append_assoc]

/-- An array of the root is found by its name, unless it has no elements. -/
theorem ShowsRows.resolveText_array {rows : Rows} (h : t.ShowsRows rows) (hw : t.WellFormed)
    (hname : isName name.toList = true) :
    (t.resolveText root ("/" ++ name) = .ok none ∧ (t.view root).items name = []) ∨
    ∃ id items, t.resolveText root ("/" ++ name) = .ok (some id) ∧ t.array? id = some items ∧
      items.ids = (t.view root).items name ∧ items.ids ≠ [] := by
  obtain ⟨s, hs⟩ := exists_scope_of_kind hw.root_kind
  have hpath : Path.ofText ("/" ++ name) = .ok ⟨true, [.name name]⟩ := by
    have htext : "/" ++ name = (⟨true, [.name name]⟩ : Path).text := by
      simp [Path.text, Element.text]
    rw [htext]
    refine Path.WellFormed.ofText_text fun e he => ?_
    rw [List.mem_singleton.1 he]
    exact .name hname
  rw [resolveText, hpath]
  cases hc : s.children.get? name with
  | none =>
      refine .inl ⟨resolve_eq (r := .ok none) ?_, by rw [View.items, view_of_scope hs, hc]; rfl⟩
      rw [walkFrom, walk, start_root, walkElements, takeStep, scope?_of_entry hs]
      simp only [hc, Option.map_none, bind, Except.bind]
      rfl
  | some id =>
      have hview : t.view root name = some (t.entry id) := by
        rw [view_of_scope hs, hc, Option.map_some]
      obtain ⟨items, ha, -⟩ := h.array name _ hview
      refine .inr ⟨id, items, ?_, array?_eq_some_iff.2 ha, by rw [View.items, hview, ha],
        hw.items_ne_nil id items ha⟩
      have hplain : t.alias? id = none := by rw [alias?, ha]
      exact resolve_eq ((Trail.child .here hs hc).walkFrom_eq hw hw.root_lt hw.root_kind hplain
        (start_root t _) rfl false)

/-- Behind an element is what the element shows, found with and without following. -/
theorem walkFrom_element (hw : t.WellFormed) (hl : t.Lists root (.indexed name (.pos i)) id)
    {s : Scope} (hs : t.entry id = .scope s)
    (hplain : ∀ child, s.children.get? inner = some child → t.alias? child = none) (follow : Bool) :
    (t.walkFrom root ⟨true, [.indexed name (.pos i), .name inner]⟩ follow).map
      (Option.map Spot.entry) = .ok (s.children.get? inner) := by
  rw [walkFrom, walk, start_root, walkElements_cons _ (hl.takeStep hw _ _ _) (alias?_of_scope hs),
    walkElements, takeStep, scope?_of_entry hs]
  cases hc : s.children.get? inner with
  | none => simp [hc, bind, Except.bind, pure, Except.pure, Except.map]
  | some child =>
      simp [hc, bind, Except.bind, Except.map, Spot.step, hplain child hc, walkElements]

/-- What a path leads to is what the element shows under its last name, unless that is an alias. -/
theorem ShowsRows.resolveText_inside {rows : Rows} {view : View} (h : t.ShowsRows rows)
    (hw : t.WellFormed) (hname : isName name.toList = true) (hinner : isName inner.toList = true)
    (hi : i < indexLimit) (hview : (rows name)[i]? = some view)
    (hplain : ∀ e, view inner = some e → e.kind ≠ .alias) :
    ∃ r, t.resolveText root (insidePath name i inner) = .ok r ∧
      t.resolveTextFollow root (insidePath name i inner) = .ok r ∧ r.map t.entry = view inner := by
  rw [← h.rows_eq, List.getElem?_map] at hview
  obtain ⟨id, hid, rfl⟩ := Option.map_eq_some_iff.1 hview
  obtain ⟨s, hs⟩ := exists_scope_of_kind ((h name).element_kind hw (List.mem_of_getElem? hid))
  have hl := lists_of_items hid
  have hchild : ∀ child, s.children.get? inner = some child → t.alias? child = none := by
    intro child hc
    have hkind := hplain (t.entry child) (by rw [view_of_scope hs, hc, Option.map_some])
    rw [alias?]
    split
    · next target he => exact absurd (congrArg Entry.kind he) hkind
    · rfl
  have hpath := ofText_insidePath hname hi hinner
  refine ⟨s.children.get? inner, ?_, ?_, (view_of_scope hs inner).symm⟩
  · rw [resolveText, hpath]
    exact walkFrom_element hw hl hs hchild false
  · rw [resolveTextFollow, hpath]
    exact walkFrom_element hw hl hs hchild true

/-- A constant that all elements of an array hold is found in each of them, and reads as what it
is. -/
theorem ShowsRows.constant_inside {σ α : Type} [Bus σ] {rows : Rows} {G : α → View → Prop}
    {xs : List α} {x : α} {datatype : Datatype} {v : Value} (h : t.ShowsRows rows)
    (hw : t.WellFormed) (hviews : List.Forall₂ G xs (rows name)) (hlength : xs.length ≤ indexLimit)
    (hname : isName name.toList = true) (hinner : isName inner.toList = true)
    (hx : xs[i]? = some x)
    (hfield : ∀ view, G x view → view inner = some (.field (.constant datatype v))) :
    ∃ id, t.resolveText root (insidePath name i inner) = .ok (some id) ∧
      (t.readPath root (insidePath name i inner) : Access σ Value) = pure v ∧
      (t.evaluate id : Access σ String) = pure (datatype.evaluate v) := by
  obtain ⟨view, hview, hG⟩ := exists_view hviews hx
  have hfield := hfield view hG
  have hi := Nat.lt_of_lt_of_le (List.getElem?_eq_some_iff.1 hx).1 hlength
  obtain ⟨r, hr, hfollow, hmap⟩ := h.resolveText_inside hw hname hinner hi hview fun e he => by
    rw [hfield] at he
    cases he
    exact nofun
  rw [hfield] at hmap
  obtain ⟨id, rfl, hentry⟩ := Option.map_eq_some_iff.1 hmap
  refine ⟨id, hr, ?_, ?_⟩
  · rw [readPath, target, hfollow, ← read_constant hentry]
    rfl
  · rw [evaluate_field hentry, read_constant hentry]
    rfl

end Tree

end RegisterAtlas
