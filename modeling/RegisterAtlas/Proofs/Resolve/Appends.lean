import RegisterAtlas.Proofs.Resolve.Append
import RegisterAtlas.Proofs.Resolve.PathOf
import RegisterAtlas.Proofs.Tree.Appends

/-!
# Appended items by their indices

What calls have appended to an array of a scope is found from the scope by the name of the array and
an index: the items in the order in which they were appended, forwards from the first or backwards
from the last one, and nothing beyond them. An item also shows its position in its own path. Calls
that are refused, and calls on anything else, come in nowhere, and an item keeps its position
whatever is called later.
-/

namespace RegisterAtlas

/-- The path of an item from the scope of its array. -/
def itemPath (name : String) (index : Index) : Path := ⟨false, [.indexed name index]⟩

theorem ofText_itemPath {name : String} {index : Index} (hname : isName name.toList = true)
    (hi : index.WellFormed) :
    Path.ofText (Element.indexed name index).text = .ok (itemPath name index) :=
  Path.ofText_element (.indexed hname hi)

namespace Tree

variable {t : Tree} {scope id : EntryId} {name : String} {e : Entry} {ids : List EntryId}

/-- Without following, a path of one element leads where its step does. -/
theorem resolve_one (t : Tree) (origin : EntryId) (el : Element) :
    t.resolve origin ⟨false, [el]⟩ =
      (t.takeStep ⟨false, [el]⟩ 0 ⟨origin, []⟩ el).map (Option.map Spot.entry) := by
  rw [resolve, walkFrom, walk, start_of_relative rfl, walkElements]
  cases t.takeStep ⟨false, [el]⟩ 0 ⟨origin, []⟩ el with
  | error err => rfl
  | ok next =>
  cases next with
  | none => rfl
  | some next =>
      simp only [bind, Except.bind]
      cases t.alias? next.entry <;> rfl

/-! ## Items of an array -/

theorem Holds.resolve_itemPath (h : t.Holds scope name ids) (hk : t.kind scope = .scope)
    (index : Index) (kind : Kind) :
    t.resolve scope (itemPath name index) = .ok (Items.item? ⟨kind, ids⟩ index) := by
  obtain ⟨s, hs⟩ := exists_scope_of_kind hk
  rw [itemPath, resolve_one, takeStep, scope?_of_entry hs]
  cases h with
  | nothing hview =>
      rw [view_of_scope hs, Option.map_eq_none_iff] at hview
      simp only [hview]
      cases index with
      | append | pos n => rfl
      | fromEnd n =>
          rw [Items.item?, if_neg fun hn => Nat.not_le_of_lt hn.1 hn.2]
          rfl
  | @items kind' ids hview =>
      rw [view_of_scope hs] at hview
      obtain ⟨array, hc, ha⟩ := Option.map_eq_some_iff.1 hview
      have hitem : Items.item? ⟨kind', ids⟩ index = Items.item? ⟨kind, ids⟩ index := by
        cases index <;> rfl
      simp only [hc, ha, hitem]
      cases Items.item? ⟨kind, ids⟩ index with
      | none => rfl
      | some item =>
          simp only [Option.map_some]
          split <;> rfl

/-- The items of an array, as they are found from its scope and as they show their places. -/
structure ShowsItems (t : Tree) (scope : EntryId) (name : String) (ids : List EntryId) : Prop where
  pos {i : Nat} (hi : i < ids.length) :
    t.resolve scope (itemPath name (.pos i)) = .ok (some ids[i])
  pos_beyond {i : Nat} (hi : ids.length ≤ i) : t.resolve scope (itemPath name (.pos i)) = .ok none
  fromEnd {j : Nat} (hpos : 0 < j) (hj : j ≤ ids.length) :
    t.resolve scope (itemPath name (.fromEnd j)) = .ok (some ids[ids.length - j])
  fromEnd_beyond {j : Nat} (hj : ids.length < j) :
    t.resolve scope (itemPath name (.fromEnd j)) = .ok none
  append : t.resolve scope (itemPath name .append) = .ok none
  /-- The text of a path leads to the same item. -/
  text {index : Index} (hne : ids ≠ []) (hindex : index.WellFormed) :
    t.resolveText scope (Element.indexed name index).text = t.resolve scope (itemPath name index)
  pathOf {i : Nat} (hi : i < ids.length) :
    t.pathOf ids[i] = (if scope = root then "/" else t.pathOf scope ++ "/") ++
      (Element.indexed name (.pos i)).text

theorem Holds.exists_view (h : t.Holds scope name ids) (hne : ids ≠ []) :
    ∃ kind, t.view scope name = some (.array ⟨kind, ids⟩) := by
  cases h with
  | nothing => exact (hne rfl).elim
  | items hview => exact ⟨_, hview⟩

theorem Holds.kind_eq (h : t.Holds scope name ids) (hne : ids ≠ []) : t.kind scope = .scope := by
  obtain ⟨kind, hview⟩ := h.exists_view hne
  by_contra hk
  rw [view_of_kind_ne hk] at hview
  cases hview

theorem Holds.showsItems (h : t.Holds scope name ids) (hw : t.WellFormed)
    (hk : t.kind scope = .scope) : t.ShowsItems scope name ids := by
  have hresolve := fun index => h.resolve_itemPath hk index .field
  constructor
  case pos =>
    intro i hi
    rw [hresolve, Items.item?, List.getElem?_eq_getElem hi]
  case pos_beyond =>
    intro i hi
    rw [hresolve, Items.item?, List.getElem?_eq_none hi]
  case fromEnd =>
    intro j hpos hj
    rw [hresolve, Items.item?, if_pos ⟨hpos, hj⟩, List.getElem?_eq_getElem]
  case fromEnd_beyond =>
    intro j hj
    rw [hresolve, Items.item?, if_neg fun h => Nat.not_le_of_lt hj h.2]
  case append => rw [hresolve, Items.item?]
  case text =>
    intro index hne hindex
    obtain ⟨kind, hview⟩ := h.exists_view hne
    have hname := Grammar.isName_iff.2 (hw.name_of_view hview)
    rw [resolveText, ofText_itemPath hname hindex]
    rfl
  case pathOf =>
    intro i hi
    obtain ⟨kind, hview⟩ := h.exists_view (List.ne_nil_of_length_pos (Nat.zero_lt_of_lt hi))
    exact (lists_of_view hview (List.getElem?_eq_getElem hi)).pathOf_eq hw

/-- More items behind the first ones do not move these. -/
theorem Holds.resolve_front {more : List EntryId} (h : t.Holds scope name (ids ++ more)) {i : Nat}
    (hi : i < ids.length) :
    t.resolve scope (itemPath name (.pos i)) = .ok (some ids[i]) := by
  have hne : ids ≠ [] := List.ne_nil_of_length_pos (Nat.zero_lt_of_lt hi)
  have hk := h.kind_eq (List.append_ne_nil_of_left_ne_nil hne more)
  rw [h.resolve_itemPath hk _ .field, Items.item?, List.getElem?_append_left hi,
    List.getElem?_eq_getElem hi]

/-- An entry of another kind than the items is refused. -/
theorem Holds.add_eq_error (h : t.Holds scope name ids) (hw : t.WellFormed)
    (hk : t.kind scope = .scope) (hid : id ∈ ids) (hkind : e.kind ≠ t.kind id) :
    t.add scope (name ++ "[]") e =
      .error (.conversion name (.otherArray e.kind (t.kind id))) := by
  obtain ⟨kind, hview⟩ := h.exists_view (List.ne_nil_of_mem hid)
  have hn := Element.ofText_eq_append_iff.2 ⟨rfl, hw.name_of_view hview⟩
  obtain ⟨s, hs⟩ := exists_scope_of_kind hk
  rw [view_of_scope hs] at hview
  obtain ⟨array, hc, ha⟩ := Option.map_eq_some_iff.1 hview
  have hitem : t.kind id = kind := hw.item_kind ha hid
  have hother : kind ≠ e.kind := fun heq => hkind (heq.symm.trans hitem.symm)
  unfold add
  rw [hn, hitem]
  simp only [bind, Except.bind, requireScope_eq_ok_iff.2 hs, arrayFor, hc, ha, if_neg hother]

/-! ## Histories -/

theorem holds_empty (scope : EntryId) (name : String) : empty.Holds scope name [] := by
  refine .nothing (view_of_members_eq_nil ?_ name)
  cases scope <;> rfl

/-- What calls have appended to an array of a scope is found by its place among the appended items,
as long as no call gives the scope a child of the same plain name. An entry of another kind is
refused and leaves everything as it is, and later calls move no item. -/
theorem showsItems_of_appends {calls : List Call} (hvalid : Along Call.Valid empty calls)
    (hplain : Along (fun t c => ¬ NamesChild scope name t c) empty calls)
    (ht : calls.foldl Tree.after empty = t) (hids : appends scope name empty calls = ids)
    (hscope : ids ≠ [] ∨ t.kind scope = .scope) :
    t.ShowsItems scope name ids ∧
    (∀ id ∈ ids, ∀ e : Entry, e.kind ≠ t.kind id →
      t.add scope (name ++ "[]") e =
        .error (.conversion name (.otherArray e.kind (t.kind id))) ∧
      t.after (.add scope (name ++ "[]") e) = t) ∧
    ∀ later, Along Call.Valid t later → Along (fun t c => ¬ NamesChild scope name t c) t later →
      ∀ i (hi : i < ids.length),
        (later.foldl Tree.after t).resolve scope (itemPath name (.pos i)) = .ok (some ids[i]) := by
  subst ht hids
  have hw₀ : empty.WellFormed := .withRoot none
  have hw := hw₀.foldl hvalid
  have h := holds_foldl (holds_empty scope name) hw₀ hvalid hplain
  rw [List.nil_append] at h
  have hk := hscope.elim h.kind_eq id
  refine ⟨h.showsItems hw hk, fun id hid e hkind => ?_, fun later hvalid hplain i hi => ?_⟩
  · have hadd := h.add_eq_error hw hk hid hkind
    exact ⟨hadd, by rw [Tree.after, hadd]⟩
  · exact (holds_foldl h hw hvalid hplain).resolve_front hi

/-- Two arrays of one name, calls on them in turn, and one of another kind that is refused. -/
def coreCalls : List Call :=
  [.add root "cpu" (.scope {}), .add 1 "core[]" (.alias ".."), .add root "core[]" (.scope {}),
    .add 1 "core[]" (.scope {}), .bookmark 1 "here", .add 1 "core[]" (.alias "/")]

/-- The scope gives up its name before the array gets another item. -/
def laterCoreCalls : List Call := [.add root "cpu" (.scope {}), .add 1 "core[]" (.alias "core[0]")]

theorem showsItems_of_appends_coreCalls :
    appends 1 "core" empty coreCalls = [3, 6] ∧
    (coreCalls.foldl Tree.after empty).resolveText 1 "core[-1]" = .ok (some 6) ∧
    (coreCalls.foldl Tree.after empty).resolveText 1 "core[2]" = .ok none ∧
    (coreCalls.foldl Tree.after empty).pathOf 6 = "/cpu/core[1]" ∧
    (coreCalls.foldl Tree.after empty).after (.add 1 "core[]" (.scope {})) =
      coreCalls.foldl Tree.after empty ∧
    (laterCoreCalls.foldl Tree.after (coreCalls.foldl Tree.after empty)).resolve 1
      (itemPath "core" (.pos 1)) = .ok (some 6) := by
  have hids : appends 1 "core" empty coreCalls = [3, 6] := by decide +kernel
  have hvalid : Along Call.Valid empty coreCalls :=
    ⟨.add (by decide) (.scope none), .add (by decide) (.alias _), .add (by decide) (.scope none),
      .add (by decide) (.scope none), .bookmark (by decide), .add (by decide) (.alias _), trivial⟩
  have hlater : Along Call.Valid (coreCalls.foldl Tree.after empty) laterCoreCalls :=
    ⟨.add (by decide) (.scope none), .add (by decide) (.alias _), trivial⟩
  have hplain : Along (fun t c => ¬ NamesChild 1 "core" t c) empty coreCalls :=
    ⟨not_namesChild_of_ne (by decide), not_namesChild_of_ne (by decide),
      not_namesChild_of_ne (by decide), not_namesChild_of_ne (by decide), id,
      not_namesChild_of_ne (by decide), trivial⟩
  have hplain' : Along (fun t c => ¬ NamesChild 1 "core" t c) (coreCalls.foldl Tree.after empty)
      laterCoreCalls :=
    ⟨not_namesChild_of_ne (by decide), not_namesChild_of_ne (by decide), trivial⟩
  obtain ⟨hshows, hrefused, hkept⟩ :=
    showsItems_of_appends hvalid hplain rfl hids (.inl (List.cons_ne_nil _ _))
  have htext := fun (index : Index) (hindex : index.WellFormed) =>
    hshows.text (List.cons_ne_nil _ _) hindex
  refine ⟨hids, ?_, ?_, ?_, ?_, hkept _ hlater hplain' 1 (by decide)⟩
  · have hlast : (Element.indexed "core" (.fromEnd 1)).text = "core[-1]" := by decide
    rw [← hlast, htext _ (.fromEnd (by decide) (by decide)), hshows.fromEnd (by decide) (by decide)]
    rfl
  · have hbeyond : (Element.indexed "core" (.pos 2)).text = "core[2]" := by decide
    rw [← hbeyond, htext _ (.pos (by decide)), hshows.pos_beyond (by decide)]
  · exact (hshows.pathOf (i := 1) (by decide)).trans (by decide +kernel)
  · exact (hrefused 3 (by decide) _ (by decide +kernel)).2

end Tree

end RegisterAtlas
