import RegisterAtlas.Proofs.Resolve.Appends
import RegisterAtlas.Proofs.Tree.Declared
import RegisterAtlas.Tree.Dump

/-!
# Listings

The names in a listing are read from the tables of scopes, and those of items are looked up from the
items. Both are texts of the elements by which a scope lists entries (`Tree.Lists`), so each is a
path of one element from that scope to the very entry that its line shows. No two lines show one
entry, and so no two have one name.

Scopes list their children in the order in which the names were declared, whatever the calls were
that built the tree (`Tree.childNames_foldl`).
-/

namespace RegisterAtlas

theorem Entry.IsLeaf.kind_ne_scope {e : Entry} (h : e.IsLeaf) : e.kind ≠ .scope := by
  cases h <;> exact nofun

namespace Tree

variable {t : Tree} {scope array id : EntryId} {e : Element} {lines : List ListEntry}
  {ids : List EntryId}

/-! ## Lines and entries -/

/-- A line of a listing shows an entry under a name by which it is found from a scope. -/
structure Names (t : Tree) (scope : EntryId) (line : ListEntry) (id : EntryId) : Prop where
  resolveText_eq : t.resolveText scope line.name = .ok (some id)
  kind_eq : line.kind = t.kind id
  detail_eq : line.detail = t.detail id

theorem Lists.resolveText (hw : t.WellFormed) (h : t.Lists scope e id) (he : e.WellFormed) :
    t.resolveText scope e.text = .ok (some id) := by
  rw [Tree.resolveText, Path.ofText_element he]
  simp only [bind, Except.bind]
  rw [resolve_one, h.takeStep hw]
  rfl

theorem Lists.names (hw : t.WellFormed) (h : t.Lists scope e id) (he : e.WellFormed) :
    t.Names scope (t.listEntry e.text id) id := ⟨h.resolveText hw he, rfl, rfl⟩

/-- Lines that show different entries have different names. -/
theorem nodup_names (h : List.Forall₂ (t.Names scope) lines ids) (hids : ids.Nodup) :
    (lines.map ListEntry.name).Nodup := by
  have hfound : (lines.map ListEntry.name).map (t.resolveText scope) =
      ids.map fun id => .ok (some id) := by
    induction h with
    | nil => rfl
    | cons hline _ ih =>
        rw [List.map_cons, List.map_cons, hline.resolveText_eq, ih (List.nodup_cons.1 hids).2]
        rfl
  refine .of_map (t.resolveText scope) ?_
  rw [hfound]
  exact hids.map fun _ _ heq => Option.some.inj (Except.ok.inj heq)

/-! ## Listings of scopes -/

theorem list_of_scope {s : Scope} (hs : t.entry scope = .scope s) :
    t.list scope = s.children.entries.map fun (name, child) => t.listEntry name child := by
  rw [list, hs]

theorem names_list_of_scope (hw : t.WellFormed) {s : Scope} (hs : t.entry scope = .scope s) :
    List.Forall₂ (t.Names scope) (t.list scope) s.children.values := by
  rw [list_of_scope hs, Table.values, List.forall₂_map_left_iff, List.forall₂_map_right_iff,
    List.forall₂_same]
  rintro ⟨name, child⟩ hmem
  have hc := Table.get?_eq_some_iff.2 hmem
  have hlists : t.Lists scope (.name name) child := .child hs hc
  exact hlists.names hw (.name (hw.isName_of_child hs hc))

theorem map_name_list_of_scope {s : Scope} (hs : t.entry scope = .scope s) :
    (t.list scope).map ListEntry.name = t.childNames scope := by
  rw [list_of_scope hs, childNames_of_scope hs, List.map_map]
  rfl

/-! ## Listings of arrays -/

theorem list_of_array {items : Items} (ha : t.entry array = .array items) :
    t.list array = items.ids.map fun item => t.listEntry ((t.nameOf? item).getD "") item := by
  rw [list, ha]

theorem Attached.exists_lists (hw : t.WellFormed) (h : t.Attached id) (hk : t.kind id ≠ .scope) :
    ∃ e, t.Lists (t.parent id) e id := by
  cases h with
  | of_root => exact (hk hw.root_kind).elim
  | @of_lists scope _ e _ hl =>
      rw [hl.parent_eq hw]
      exact ⟨e, hl⟩

/-- An array that is attached has a plain name, as the items of arrays are no arrays. -/
theorem Attached.exists_child (hw : t.WellFormed) {items : Items}
    (ha : t.entry array = .array items) (h : t.Attached array) :
    ∃ name s, t.entry (t.parent array) = .scope s ∧ s.children.get? name = some array := by
  have hkind := kind_of_entry ha
  obtain ⟨e, hlists⟩ := h.exists_lists hw (by rw [hkind]; exact nofun)
  cases hlists with
  | @child s name _ hs hc => exact ⟨name, s, hs, hc⟩
  | item _ _ ha' hi =>
      rw [hw.item_kind ha' (List.mem_of_getElem? hi)] at hkind
      exact (hw.items_kind ha' hkind).elim

section

variable {s : Scope} {name : String} {items : Items}

/-- The items of an array are listed as the scope of the array lists them. -/
theorem list_of_child_array (hw : t.WellFormed) (hs : t.entry scope = .scope s)
    (hc : s.children.get? name = some array) (ha : t.entry array = .array items) :
    t.list array =
      items.ids.mapIdx fun i item => t.listEntry (Element.indexed name (.pos i)).text item := by
  rw [list_of_array ha]
  refine List.ext_getElem (by simp) fun i _ hi => ?_
  rw [List.length_mapIdx] at hi
  have hlists : t.Lists scope (.indexed name (.pos i)) items.ids[i] :=
    .item hs hc ha (List.getElem?_eq_getElem hi)
  rw [List.getElem_map, List.getElem_mapIdx, hlists.nameOf?_eq hw, Option.getD_some]

theorem names_list_of_child_array (hw : t.WellFormed) (hs : t.entry scope = .scope s)
    (hc : s.children.get? name = some array) (ha : t.entry array = .array items)
    (hsize : items.size ≤ indexLimit) : List.Forall₂ (t.Names scope) (t.list array) items.ids := by
  have hname := hw.isName_of_child hs hc
  rw [list_of_child_array hw hs hc ha]
  refine List.forall₂_iff_get.2 ⟨List.length_mapIdx, fun i _ hi => ?_⟩
  have hlists : t.Lists scope (.indexed name (.pos i)) items.ids[i] :=
    .item hs hc ha (List.getElem?_eq_getElem hi)
  simp only [List.get_eq_getElem, List.getElem_mapIdx]
  exact hlists.names hw (.indexed hname (.pos (Nat.lt_of_lt_of_le hi hsize)))

theorem map_name_list_of_child_array (hw : t.WellFormed) (hs : t.entry scope = .scope s)
    (hc : s.children.get? name = some array) (ha : t.entry array = .array items) :
    (t.list array).map ListEntry.name =
      (List.range items.size).map fun i => name ++ "[" ++ toString i ++ "]" := by
  rw [list_of_child_array hw hs hc ha]
  refine List.ext_getElem (by simp [Items.size]) fun i _ _ => ?_
  simp only [List.getElem_map, List.getElem_mapIdx, List.getElem_range]
  rfl

end

/-! ## All listings -/

theorem list_of_leaf (h : (t.entry id).IsLeaf) :
    t.list id = [t.listEntry ((t.nameOf? id).getD "/") id] := by
  rw [list]
  generalize t.entry id = e at h
  cases h <;> rfl

/-- Each line of a listing shows one entry, in the order of the entries, under a name by which this
very entry is found, and no two lines have one name. The entries in a scope are found from the
scope, in the order in which their names were first declared in it by the calls that built the tree.
Those in an attached array are found from the scope of the array and numbered in turn, as long as
there are positions in paths for all of them. Any other attached entry is listed as itself and found
from its scope. -/
theorem list_names {t : Tree} (h : Reachable t) :
    (∀ scope s, t.entry scope = .scope s →
      List.Forall₂ (t.Names scope) (t.list scope) s.children.values ∧
      ((t.list scope).map ListEntry.name).Nodup) ∧
    (∃ space calls, Along Call.Valid (withRoot { space }) calls ∧
      calls.foldl Tree.after (withRoot { space }) = t) ∧
    (∀ space calls, Along Call.Valid (withRoot { space }) calls →
      calls.foldl Tree.after (withRoot { space }) = t →
      ∀ scope s, t.entry scope = .scope s →
        (t.list scope).map ListEntry.name =
          (declarations scope (withRoot { space }) calls).eraseDups) ∧
    (∀ array items, t.entry array = .array items → t.Attached array → items.size ≤ indexLimit →
      List.Forall₂ (t.Names (t.parent array)) (t.list array) items.ids ∧
      ((t.list array).map ListEntry.name).Nodup ∧
      ∃ name, t.nameOf? array = some name ∧ (t.list array).map ListEntry.name =
        (List.range items.size).map fun i => name ++ "[" ++ toString i ++ "]") ∧
    ∀ id, (t.entry id).IsLeaf → t.Attached id → t.Addressable →
      ∃ line, t.list id = [line] ∧ t.Names (t.parent id) line id := by
  have hw := h.wellFormed
  refine ⟨fun scope s hs => ?scope, reachable_iff.1 h,
    fun space calls hvalid ht scope s hs => ?order, fun array items ha hat hsize => ?array,
    fun id hleaf hat haddr => ?leaf⟩
  case scope =>
    have hnames := names_list_of_scope hw hs
    have hnodup := hw.nodup_members scope
    rw [hs] at hnodup
    exact ⟨hnames, nodup_names hnames hnodup⟩
  case order =>
    have hroot : (withRoot { space }).childNames scope = [].eraseDups :=
      childNames_withRoot space scope
    have horder := childNames_foldl hvalid hroot
    rw [ht, List.nil_append] at horder
    rw [map_name_list_of_scope hs, horder]
  case array =>
    obtain ⟨name, s, hs, hc⟩ := hat.exists_child hw ha
    have hnames := names_list_of_child_array hw hs hc ha hsize
    have hnodup := hw.nodup_members array
    rw [ha] at hnodup
    have hlists : t.Lists (t.parent array) (.name name) array := .child hs hc
    exact ⟨hnames, nodup_names hnames hnodup, name, hlists.nameOf?_eq hw,
      map_name_list_of_child_array hw hs hc ha⟩
  case leaf =>
    obtain ⟨e, hlists⟩ := hat.exists_lists hw hleaf.kind_ne_scope
    refine ⟨_, list_of_leaf hleaf, ?_⟩
    rw [hlists.nameOf?_eq hw]
    exact hlists.names hw (hlists.wellFormed hw haddr)

/-- Lanes are appended to an array in turn with declarations of an identity, of which the second one
takes the place of the first. -/
def laneCalls : List Call :=
  [.add root "dev" (.scope {}), .add 1 "lane[]" (.alias ".."), .add 1 "id" (.alias "lane[0]"),
    .add 1 "lane[]" (.alias "/"), .add 1 "id" (.alias "lane[-1]")]

def laneTree : Tree := laneCalls.foldl Tree.after empty

theorem list_names_laneTree :
    Reachable laneTree ∧
    laneTree.list 1 = [⟨"lane", .array, "2 x alias"⟩, ⟨"id", .alias, "lane[-1]"⟩] ∧
    List.Forall₂ (laneTree.Names 1) (laneTree.list 1) [2, 6] ∧
    (laneTree.list 1).map ListEntry.name =
      (declarations 1 (withRoot {}) laneCalls).eraseDups ∧
    declarations 1 (withRoot {}) laneCalls = ["lane", "id", "lane", "id"] ∧
    laneTree.Attached 2 ∧
    laneTree.list 2 = [⟨"lane[0]", .alias, ".."⟩, ⟨"lane[1]", .alias, "/"⟩] ∧
    List.Forall₂ (laneTree.Names 1) (laneTree.list 2) [3, 5] ∧
    ∃ line, laneTree.list 5 = [line] ∧ laneTree.Names 1 line 5 := by
  have hvalid : Along Call.Valid empty laneCalls :=
    ⟨.add (by decide) (.scope none), .add (by decide) (.alias _), .add (by decide) (.alias _),
      .add (by decide) (.alias _), .add (by decide) (.alias _), trivial⟩
  have hr : Reachable laneTree := Reachable.empty.foldl hvalid
  have hw := hr.wellFormed
  have ha : laneTree.Addressable := hw.addressable (by decide +kernel)
  have htwo : laneTree.Attached 2 := (attached_iff hw (by decide +kernel)).2 (by decide +kernel)
  have hfive : laneTree.Attached 5 := (attached_iff hw (by decide +kernel)).2 (by decide +kernel)
  obtain ⟨hscopes, -, horder, harrays, hleaves⟩ := list_names hr
  have hlanes := harrays 2 ⟨.alias, [3, 5]⟩ rfl htwo (by decide)
  exact ⟨hr, by decide +kernel, (hscopes 1 _ rfl).1, horder none laneCalls hvalid rfl 1 _ rfl,
    by decide +kernel, htwo, by decide +kernel, hlanes.1, hleaves 5 .alias hfive ha⟩

end Tree

end RegisterAtlas
