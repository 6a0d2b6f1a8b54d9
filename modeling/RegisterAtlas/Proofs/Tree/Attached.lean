import RegisterAtlas.Proofs.Path.RoundTrip
import RegisterAtlas.Proofs.Tree.Ancestors
import RegisterAtlas.Proofs.Tree.Shape
import Mathlib.Data.List.Perm.Subperm

/-!
# Attached entries

A scope lists entries by elements of paths: a child by its name, and an item of an array by the
name of the array and a position. `Lists` is this relation. Only the parent of an entry lists it,
and only by one element, whose text is then the name of the entry.

An entry is `Attached` if it is the root or an attached scope lists it. One whose name is given to
another entry is detached by that (`not_attached_of_replaced`), and then nothing below it is
attached either: all that an attached entry lies below has names (`attached_iff`).
-/

namespace RegisterAtlas.Tree

variable {t : Tree} {scope id : EntryId} {e e' : Element}

/-- The elements by which a scope lists its children and their items. -/
inductive Lists (t : Tree) (scope : EntryId) : Element → EntryId → Prop where
  | child {s : Scope} {name : String} {id : EntryId} (hs : t.entry scope = .scope s)
      (hc : s.children.get? name = some id) : Lists t scope (.name name) id
  | item {s : Scope} {name : String} {array : EntryId} {items : Items} {n : Nat} {id : EntryId}
      (hs : t.entry scope = .scope s) (hc : s.children.get? name = some array)
      (ha : t.entry array = .array items) (hi : items.ids[n]? = some id) :
      Lists t scope (.indexed name (.pos n)) id

inductive Attached (t : Tree) : EntryId → Prop where
  | of_root : Attached t root
  | of_lists {scope id : EntryId} {e : Element} (h : Attached t scope) (hl : t.Lists scope e id) :
      Attached t id

/-- Items are found by 64-bit positions, of which there are enough as long as no array outgrows
them. -/
def Addressable (t : Tree) : Prop :=
  ∀ id items, t.entry id = .array items → items.size ≤ indexLimit

theorem Linked.items_size_le (h : t.Linked) {items : Items} (ha : t.entry id = .array items) :
    items.size ≤ t.size := by
  have hnodup := h.nodup_members id
  have hmember := h.member id
  rw [ha] at hnodup hmember
  have hsub : items.ids ⊆ List.range t.size := fun item hi =>
    List.mem_range.2 (hmember item hi).1
  have hle := (hnodup.subperm hsub).length_le
  rwa [List.length_range] at hle

theorem Linked.addressable (h : t.Linked) (hsize : t.size ≤ indexLimit) : t.Addressable :=
  fun _ _ ha => Nat.le_trans (h.items_size_le ha) hsize

/-! ## What is listed -/

namespace Lists

/-- A child of a scope is a member of the scope, and an item one of a child of the scope. -/
theorem exists_owner (h : t.Lists scope e id) : ∃ owner, id ∈ (t.entry owner).members := by
  cases h with
  | child hs hc =>
      refine ⟨scope, ?_⟩
      rw [hs]
      exact Table.mem_values_of_get? hc
  | @item s name array items n id hs hc ha hi =>
      refine ⟨array, ?_⟩
      rw [ha]
      exact List.mem_of_getElem? hi

theorem lt_size (hw : t.WellFormed) (h : t.Lists scope e id) : id < t.size := by
  obtain ⟨owner, hm⟩ := h.exists_owner
  exact (hw.member owner id hm).1

theorem ne_root (hw : t.WellFormed) (h : t.Lists scope e id) : id ≠ root := by
  obtain ⟨owner, hm⟩ := h.exists_owner
  exact (hw.member owner id hm).2

theorem parent_eq (hw : t.WellFormed) (h : t.Lists scope e id) : t.parent id = scope := by
  cases h with
  | child hs hc => exact hw.child_parent hs (Table.mem_values_of_get? hc)
  | item hs hc ha hi =>
      rw [hw.item_parent ha (List.mem_of_getElem? hi)]
      exact hw.child_parent hs (Table.mem_values_of_get? hc)

end Lists

/-- A child has one name. -/
theorem Linked.name_unique (h : t.Linked) {s : Scope} (hs : t.entry scope = .scope s)
    {name name' : String} (hc : s.children.get? name = some id)
    (hc' : s.children.get? name' = some id) : name = name' := by
  have hnodup := h.nodup_members scope
  rw [hs] at hnodup
  have heq := List.inj_on_of_nodup_map hnodup (Table.get?_eq_some_iff.1 hc)
    (Table.get?_eq_some_iff.1 hc') rfl
  exact congrArg Prod.fst heq

/-- A scope lists an entry by one element only. -/
theorem Lists.unique (hw : t.WellFormed) (h : t.Lists scope e id) (h' : t.Lists scope e' id) :
    e = e' := by
  -- No entry is both a child and an item, as these would be listed by different entries.
  have hkinds : ∀ {s : Scope} {array : EntryId} {items : Items}, t.entry scope = .scope s →
      t.entry array = .array items → id ∈ s.children.values → id ∈ items.ids → False := by
    intro s array items hs ha hchild hitem
    have howner : scope = array :=
      hw.unique_member scope array id (by rw [hs]; exact hchild) (by rw [ha]; exact hitem)
    rw [← howner, hs] at ha
    cases ha
  cases h with
  | child hs hc =>
      cases h' with
      | child hs' hc' =>
          obtain rfl := Entry.scope.inj (hs.symm.trans hs')
          rw [hw.name_unique hs hc hc']
      | item _ _ ha hi =>
          exact (hkinds hs ha (Table.mem_values_of_get? hc) (List.mem_of_getElem? hi)).elim
  | @item s name array items n id hs hc ha hi =>
      cases h' with
      | child hs' hc' =>
          exact (hkinds hs' ha (Table.mem_values_of_get? hc') (List.mem_of_getElem? hi)).elim
      | @item s' name' array' items' n' id hs' hc' ha' hi' =>
          obtain rfl := Entry.scope.inj (hs.symm.trans hs')
          obtain rfl : array = array' := hw.unique_member array array' id
            (by rw [ha]; exact List.mem_of_getElem? hi)
            (by rw [ha']; exact List.mem_of_getElem? hi')
          obtain rfl := Entry.array.inj (ha.symm.trans ha')
          have hnodup := hw.nodup_members array
          rw [ha] at hnodup
          have hn := (Items.position?_of_getElem? hnodup hi).symm.trans
            (Items.position?_of_getElem? hnodup hi')
          rw [hw.name_unique hs hc hc', Option.some.inj hn]

/-- What is listed as a child has a plain name. -/
theorem Linked.isName_of_child (h : t.Linked) {s : Scope} {name : String}
    (hs : t.entry scope = .scope s) (hc : s.children.get? name = some id) :
    isName name.toList = true := by
  have hname := h.child_name hs (List.mem_map_of_mem (Table.get?_eq_some_iff.1 hc))
  exact (Element.parse_eq_name (Element.parse_of_ofText hname)).1

theorem Lists.wellFormed (hw : t.WellFormed) (ha : t.Addressable) (h : t.Lists scope e id) :
    e.WellFormed := by
  cases h with
  | child hs hc => exact .name (hw.isName_of_child hs hc)
  | item hs hc harray hi =>
      obtain ⟨hn, -⟩ := List.getElem?_eq_some_iff.1 hi
      exact .indexed (hw.isName_of_child hs hc) (.pos (Nat.lt_of_lt_of_le hn (ha _ _ harray)))

/-! ## Names -/

theorem array?_eq_some_iff {items : Items} :
    t.array? id = some items ↔ t.entry id = .array items := by
  unfold array?
  cases t.entry id <;> simp

theorem lists_of_nameOf? {text : String} (h : t.nameOf? id = some text) :
    ∃ e, t.Lists (t.parent id) e id ∧ e.text = text := by
  unfold nameOf? at h
  split at h
  · cases h
  · obtain ⟨s, hs, h⟩ := Option.bind_eq_some_iff.1 h
    obtain ⟨⟨name, child⟩, hmem, h⟩ := List.exists_of_findSome?_eq_some h
    have hs := scope?_eq_some_iff.1 hs
    have hc : s.children.get? name = some child := Table.get?_eq_some_iff.2 hmem
    dsimp only at h
    split at h
    · next hchild =>
        cases h
        exact ⟨_, .child hs (hchild ▸ hc), rfl⟩
    · obtain ⟨n, hn, rfl⟩ := Option.map_eq_some_iff.1 h
      obtain ⟨items, ha, hn⟩ := Option.bind_eq_some_iff.1 hn
      exact ⟨_, .item hs hc (array?_eq_some_iff.1 ha) (Items.getElem?_of_position? hn), rfl⟩

theorem Lists.isSome_nameOf? (hw : t.WellFormed) (h : t.Lists scope e id) :
    (t.nameOf? id).isSome = true := by
  obtain rfl := h.parent_eq hw
  rw [nameOf?, if_neg (h.ne_root hw)]
  cases h with
  | @child s name id hs hc =>
      rw [scope?_of_entry hs, Option.bind_some, List.findSome?_isSome_iff]
      exact ⟨(name, id), Table.get?_eq_some_iff.1 hc, by simp⟩
  | @item s name array items n id hs hc ha hi =>
      have hnodup := hw.nodup_members array
      rw [ha] at hnodup
      rw [scope?_of_entry hs, Option.bind_some, List.findSome?_isSome_iff]
      refine ⟨(name, array), Table.get?_eq_some_iff.1 hc, ?_⟩
      dsimp only
      split
      · rfl
      · rw [array?_eq_some_iff.2 ha, Option.bind_some, Items.position?_of_getElem? hnodup hi]
        rfl

/-- The name of an entry is the text of the element by which it is listed. -/
theorem Lists.nameOf?_eq (hw : t.WellFormed) (h : t.Lists scope e id) :
    t.nameOf? id = some e.text := by
  obtain ⟨text, htext⟩ := Option.isSome_iff_exists.1 (h.isSome_nameOf? hw)
  obtain ⟨e', h', rfl⟩ := lists_of_nameOf? htext
  rw [h.parent_eq hw] at h'
  rw [htext, h.unique hw h']

/-! ## What is attached -/

theorem Attached.lt_size (hw : t.WellFormed) (h : t.Attached id) : id < t.size := by
  cases h with
  | of_root => exact hw.root_lt
  | of_lists _ hl => exact hl.lt_size hw

/-- An entry other than the root is attached if it has a name and its parent is attached. -/
theorem attached_iff_of_ne_root (hw : t.WellFormed) (hr : id ≠ root) :
    t.Attached id ↔ (t.nameOf? id).isSome = true ∧ t.Attached (t.parent id) := by
  constructor
  · intro h
    cases h with
    | of_root => exact (hr rfl).elim
    | @of_lists scope _ e h hl =>
        rw [hl.parent_eq hw]
        exact ⟨hl.isSome_nameOf? hw, h⟩
  · rintro ⟨hname, hparent⟩
    obtain ⟨text, htext⟩ := Option.isSome_iff_exists.1 hname
    obtain ⟨e, hl, -⟩ := lists_of_nameOf? htext
    exact .of_lists hparent hl

/-- An entry is attached if it and all that it lies below have names. -/
theorem attached_iff (hw : t.WellFormed) (hid : id < t.size) :
    t.Attached id ↔ ∀ a ∈ t.ancestors id, a ≠ root → (t.nameOf? a).isSome = true := by
  refine hw.induction_above (motive := fun id =>
    t.Attached id ↔ ∀ a ∈ t.ancestors id, a ≠ root → (t.nameOf? a).isSome = true) ?_ ?_ hid
  · refine iff_of_true .of_root fun a ha hr => ?_
    rw [ancestors_root] at ha
    exact (hr (List.mem_singleton.1 ha)).elim
  · intro id hid hr ih
    rw [attached_iff_of_ne_root hw hr, ih, hw.ancestors_of_ne_root hid hr, List.forall_mem_cons]
    exact and_congr_left fun _ => ⟨fun h _ => h, fun h => h hr⟩

/-! ## Redefinition -/

section

variable {s : Scope} {name : String} {old : EntryId} {new : Entry}

/-- A child whose name is given to a new entry is listed nowhere. -/
theorem not_mem_members_of_replaced (hw : t.WellFormed) (hs : t.entry scope = .scope s)
    (hlt : scope < t.size) (hc : s.children.get? name = some old) (hnew : new.members = [])
    (owner : EntryId) :
    old ∉ (((t.alloc scope new).2.setChild scope name t.size).entry owner).members := by
  have hchild : t.Lists scope (.name name) old := .child hs hc
  rw [entry_addChild hs hlt]
  split
  · intro hm
    obtain ⟨⟨name', child⟩, hmem, heq⟩ := List.mem_map.1 hm
    obtain rfl : child = old := heq
    have hget := Table.get?_eq_some_iff.2 hmem
    rw [Table.get?_insert] at hget
    split at hget
    · exact Nat.lt_irrefl _ ((Option.some.inj hget).symm ▸ hchild.lt_size hw)
    · next hne => exact hne (hw.name_unique hs hc hget)
  split
  · rw [hnew]
    exact List.not_mem_nil
  · next hne _ =>
      intro hm
      refine hne (hw.unique_member owner scope old hm ?_)
      rw [hs]
      exact Table.mem_values_of_get? hc

theorem not_attached_of_replaced (hw : t.WellFormed) (hs : t.entry scope = .scope s)
    (hlt : scope < t.size) (hc : s.children.get? name = some old) (hnew : new.members = []) :
    ¬ ((t.alloc scope new).2.setChild scope name t.size).Attached old := by
  intro h
  cases h with
  | of_root => exact Lists.ne_root hw (.child hs hc) rfl
  | of_lists _ hl =>
      obtain ⟨owner, hm⟩ := hl.exists_owner
      exact not_mem_members_of_replaced hw hs hlt hc hnew owner hm

end

end RegisterAtlas.Tree
