import RegisterAtlas.Proofs.Tree.Evolution

/-!
# Replaced entries

An addition takes nothing away but a child whose name it gives to the new entry, and with an array
its items. What does not lie `Under` such a child is listed as before (`Adds.lists`) and stays
attached (`Adds.attached`); whatever does is detached (`not_attached_of_under`).
-/

namespace RegisterAtlas

theorem Table.Placed.get?_of_ne {α β : Type} [DecidableEq α] {key name : α} {value v : β}
    {es es' : Table α β} (h : Placed key value es.entries es'.entries) (hne : name ≠ key)
    (hv : es.get? name = some v) : es'.get? name = some v := by
  rw [Table.get?_eq_some_iff] at hv ⊢
  generalize es.entries = entries, es'.entries = entries' at h hv
  cases h with
  | replaced front back old =>
      simp only [List.mem_append, List.mem_cons, Prod.mk.injEq] at hv ⊢
      rcases hv with hv | ⟨heq, -⟩ | hv
      · exact .inl hv
      · exact (hne heq).elim
      · exact .inr (.inr hv)
  | last => exact List.mem_append_left _ hv

theorem Table.Placed.get?_self {α β : Type} [DecidableEq α] {key : α} {value : β}
    {es : List (α × β)} {es' : Table α β} (h : Placed key value es es'.entries) :
    es'.get? key = some value := by
  rw [Table.get?_eq_some_iff]
  generalize es'.entries = entries' at h
  cases h <;> simp

namespace Tree

variable {t t' : Tree} {scope owner id i old : EntryId} {name : String} {e : Entry} {el : Element}

/-! ## What a name carries -/

/-- An entry together with the items that are found by its name if it is an array. -/
def Carries (t : Tree) (old id : EntryId) : Prop :=
  id = old ∨ ∃ items, t.entry old = .array items ∧ id ∈ items.ids

/-- What lies at or below an entry, going by parents, or at or below one of its items. -/
def Under (t : Tree) (old id : EntryId) : Prop := ∃ a, t.Carries old a ∧ a ∈ t.ancestors id

theorem Carries.parent_eq (hw : t.WellFormed) (hl : t.Lists scope (.name name) old)
    (h : t.Carries old id) : t.parent id = scope := by
  rcases h with rfl | ⟨items, ha, hi⟩
  · exact hl.parent_eq hw
  · rw [hw.item_parent ha hi, hl.parent_eq hw]

theorem Carries.ne_root (hw : t.WellFormed) (hl : t.Lists scope (.name name) old)
    (h : t.Carries old id) : id ≠ root := by
  rcases h with rfl | ⟨items, ha, hi⟩
  · exact hl.ne_root hw
  · exact (hw.member old id (by rw [ha]; exact hi)).2

/-- What is carried lies under what carries it, and an entry whose parent lies there does so as
well. -/
theorem under_iff_of_ne_root (hw : t.WellFormed) (hid : id < t.size) (hr : id ≠ root) :
    t.Under old id ↔ t.Carries old id ∨ t.Under old (t.parent id) := by
  simp only [Under, hw.ancestors_of_ne_root hid hr, List.mem_cons]
  constructor
  · rintro ⟨a, ha, rfl | hmem⟩
    · exact .inl ha
    · exact .inr ⟨a, ha, hmem⟩
  · rintro (ha | ⟨a, ha, hmem⟩)
    · exact ⟨id, ha, .inl rfl⟩
    · exact ⟨a, ha, .inr hmem⟩

/-- What is listed lies under an entry that carries it, or else where its scope lies. -/
theorem Lists.under_iff (hw : t.WellFormed) (hl : t.Lists scope el id) :
    t.Under old id ↔ t.Carries old id ∨ t.Under old scope := by
  rw [under_iff_of_ne_root hw (hl.lt_size hw) (hl.ne_root hw), hl.parent_eq hw]

theorem not_under_root (hw : t.WellFormed) (hl : t.Lists scope (.name name) old) :
    ¬ t.Under old root := by
  rintro ⟨a, ha, hmem⟩
  rw [ancestors_root] at hmem
  exact ha.ne_root hw hl (List.mem_singleton.1 hmem)

/-- Nothing that is older than a scope lies under a child of it. -/
theorem not_under_of_le (hw : t.WellFormed) (hl : t.Lists scope (.name name) old)
    (hid : id < t.size) : id ≤ scope → ¬ t.Under old id := by
  refine hw.induction_above (motive := fun id => id ≤ scope → ¬ t.Under old id)
    (fun _ => not_under_root hw hl) ?_ hid
  intro id hid hr ih hle hunder
  have hlt := hw.parent_lt id hid hr
  rcases (under_iff_of_ne_root hw hid hr).1 hunder with hcarried | hunder
  · rw [hcarried.parent_eq hw hl] at hlt
    exact Nat.not_lt_of_le hle hlt
  · exact ih (Nat.le_trans (Nat.le_of_lt hlt) hle) hunder

/-! ## Additions -/

/-- A scope has one child of a name. -/
theorem Lists.child_unique {old' : EntryId} (hl : t.Lists scope (.name name) old)
    (hl' : t.Lists scope (.name name) old') : old = old' := by
  cases hl with
  | child hs hc =>
      cases hl' with
      | child hs' hc' =>
          cases hs.symm.trans hs'
          exact Option.some.inj (hc.symm.trans hc')

theorem Lists.scope_lt (hw : t.WellFormed) (hl : t.Lists scope el id) : scope < t.size := by
  rw [← hl.parent_eq hw]
  exact hw.parent_lt_size (hl.lt_size hw)

/-- When only the children of one scope change, everything is listed as before that is found by a
name which the scope still has for the same child. -/
theorem Extends.lists_of_scope {s : Scope} {children : Table String EntryId} {new : List Node}
    (hw : t.WellFormed) (hs : t.entry owner = .scope s)
    (h : t.Extends t' owner (.scope { s with children }) new)
    (hkept : ∀ name child, s.children.get? name = some child → t.Carries child id →
      children.get? name = some child)
    (hl : t.Lists scope el id) : t'.Lists scope el id := by
  have hlt := hl.scope_lt hw
  by_cases howner : scope = owner
  · subst howner
    cases hl with
    | child hs' hc =>
        cases hs.symm.trans hs'
        exact .child h.entry_owner (hkept _ _ hc (.inl rfl))
    | @item _ name array items n _ hs' hc ha hi =>
        cases hs.symm.trans hs'
        have harray : array ≠ scope := fun heq => by rw [heq, hs] at ha; cases ha
        have hc' := hkept _ _ hc (.inr ⟨items, ha, List.mem_of_getElem? hi⟩)
        refine .item h.entry_owner hc' ?_ hi
        rw [h.entry_eq array (lt_size_of_array ha) harray, ha]
  · cases hl with
    | child hs' hc => exact .child (by rw [h.entry_eq scope hlt howner, hs']) hc
    | @item _ name array items n _ hs' hc ha hi =>
        have harray : array ≠ owner := fun heq => by rw [heq, hs] at ha; cases ha
        refine .item (by rw [h.entry_eq scope hlt howner, hs']) hc ?_ hi
        rw [h.entry_eq array (lt_size_of_array ha) harray, ha]

/-- When an array gets more items, everything is listed as before. -/
theorem Extends.lists_of_array {items : Items} {ids : List EntryId} {new : List Node}
    (hw : t.WellFormed) (ha : t.entry owner = .array items)
    (h : t.Extends t' owner (.array { items with ids := items.ids ++ ids }) new)
    (hl : t.Lists scope el id) : t'.Lists scope el id := by
  have hscope : ∀ {s : Scope}, t.entry scope = .scope s → t'.entry scope = .scope s := by
    intro s hs
    have howner : scope ≠ owner := fun heq => by rw [heq, ha] at hs; cases hs
    rw [h.entry_eq scope (hl.scope_lt hw) howner, hs]
  cases hl with
  | child hs hc => exact .child (hscope hs) hc
  | @item s name array items' n _ hs hc harray hi =>
      by_cases howner : array = owner
      · subst howner
        cases ha.symm.trans harray
        refine .item (hscope hs) hc h.entry_owner ?_
        exact (List.getElem?_append_left (List.getElem?_eq_some_iff.1 hi).1).trans hi
      · refine .item (hscope hs) hc ?_ hi
        rw [h.entry_eq array (lt_size_of_array harray) howner, harray]

/-- An addition leaves listed whatever is not carried by the child that it replaces. -/
theorem Adds.lists (h : Adds t scope name e id t') (hw : t.WellFormed) {top : EntryId}
    (hnot : ∀ old, t.Lists scope (.name name) old → ¬ t.Carries old i)
    (hl : t.Lists top el i) : t'.Lists top el i := by
  cases h with
  | @child s children _ hname hs hplaced h =>
      refine h.lists_of_scope hw hs (fun n child hc hcarried => ?_) hl
      have hne : n ≠ name := by
        rintro rfl
        exact hnot child (.child hs hc) hcarried
      exact hplaced.get?_of_ne hne hc
  | item hn hname hs hc ha hk h => exact h.lists_of_array hw ha hl
  | firstItem hn hname hs hc hlast h =>
      refine h.lists_of_scope hw hs (fun n child hc' _ => ?_) hl
      rw [Table.get?_eq_some_iff] at hc' ⊢
      rw [hlast]
      exact List.mem_append_left _ hc'

/-- The scope of an addition lists the new entry. -/
theorem Adds.lists_new (h : Adds t scope name e id t') (hw : t.WellFormed) :
    ∃ el, t'.Lists scope el id := by
  cases h with
  | child hname hs hplaced h => exact ⟨_, .child h.entry_owner hplaced.get?_self⟩
  | @item n s array items _ hn hname hs hc ha hk h =>
      have hscope : t'.entry scope = .scope s := by
        have hne : scope ≠ array := fun heq => by rw [heq, ha] at hs; cases hs
        rw [h.entry_eq scope (Lists.scope_lt hw (.child hs hc)) hne, hs]
      exact ⟨_, .item hscope hc h.entry_owner (List.getElem?_concat_length ..)⟩
  | @firstItem n s children _ hn hname hs hc hlast h =>
      have hget : children.get? n = some t.size := by
        rw [Table.get?_eq_some_iff, hlast]
        exact List.mem_append_right _ (List.mem_singleton.2 rfl)
      have harray := congrArg Node.entry (h.node_new 0 _ rfl)
      exact ⟨_, .item (n := 0) h.entry_owner hget harray rfl⟩

/-- What does not lie under the child that an addition replaces stays attached. -/
theorem Adds.attached (h : Adds t scope name e id t') (hw : t.WellFormed)
    (hnot : ∀ old, t.Lists scope (.name name) old → ¬ t.Under old i) (hat : t.Attached i) :
    t'.Attached i := by
  induction hat with
  | of_root => exact .of_root
  | @of_lists top i el hat hl ih =>
      refine .of_lists (ih fun old hold => ?_) (h.lists hw (fun old hold => ?_) hl)
      · exact fun htop => hnot old hold ((hl.under_iff hw).2 (.inr htop))
      · exact fun hcarried => hnot old hold ((hl.under_iff hw).2 (.inl hcarried))

/-- A child can always be replaced. -/
theorem add_replacing (hw : t.WellFormed) (hold : t.Lists scope (.name name) old) (e : Entry) :
    t.add scope name e = .ok (t.size, (t.alloc scope e).2.setChild scope name t.size) := by
  cases hold with
  | child hs hc =>
      have hname := hw.child_name hs (List.mem_map_of_mem (Table.get?_eq_some_iff.1 hc))
      exact add_eq_ok_iff.2 (.child hname hs)

/-- The name of a replaced child is that of the new entry. -/
theorem lists_replacing (hw : t.WellFormed) (hold : t.Lists scope (.name name) old) (e : Entry) :
    ((t.alloc scope e).2.setChild scope name t.size).Lists scope (.name name) t.size := by
  have hscope := hold.scope_lt hw
  cases hold with
  | child hs hc =>
      refine .child (extends_addChild hs hscope).entry_owner ?_
      rw [Table.get?_insert, if_pos rfl]

/-- What lies under a child whose name is given to another entry is detached. -/
theorem not_attached_of_under (hw : t.WellFormed) (he : e.IsFresh)
    (hold : t.Lists scope (.name name) old) (hadd : t.add scope name e = .ok (id, t'))
    (hi : i < t.size) : t.Under old i → ¬ t'.Attached i := by
  have hscope := hold.scope_lt hw
  have hadded := add_eq_ok_iff.1 hadd
  have hw' := hw.added he hscope hadded
  have hevolves := (hadded.adds hscope).evolves he
  have hgone : ¬ t'.Attached old := by
    cases (add_replacing hw hold e).symm.trans hadd
    cases hold with
    | child hs hc => exact not_attached_of_replaced hw hs hscope hc he.members_eq_nil
  have hcarried : ∀ a, t.Carries old a → ¬ t'.Attached a := by
    rintro a (rfl | ⟨items, ha, hmem⟩) hat
    · exact hgone hat
    · -- only the array lists its items, and the array is gone
      rcases Relation.ReflTransGen.cases_tail ((attached_iff_below hw').1 hat) with
        hroot | ⟨owner, howner, hm⟩
      · exact Carries.ne_root hw hold (.inr ⟨items, ha, hmem⟩) hroot
      · have hlt : a < t.size := (hw.member old a (by rw [ha]; exact hmem)).1
        have heq : owner = old := hw.unique_member owner old a (hevolves.mem_members owner a hlt hm)
          (by rw [ha]; exact hmem)
        exact hgone (heq ▸ (attached_iff_below hw').2 howner)
  refine hw.induction_above (motive := fun i => t.Under old i → ¬ t'.Attached i)
    (fun hunder => (not_under_root hw hold hunder).elim) ?_ hi
  intro i hi hr ih hunder hat
  rcases (under_iff_of_ne_root hw hi hr).1 hunder with hunder | hunder
  · exact hcarried i hunder hat
  · have hparent := hat.parent hw'
    rw [hevolves.parent_eq i hi] at hparent
    exact ih hunder hparent

end Tree

end RegisterAtlas
