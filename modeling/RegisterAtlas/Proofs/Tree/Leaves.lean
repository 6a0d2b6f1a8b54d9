import RegisterAtlas.Proofs.Tree.Attached
import RegisterAtlas.Tree.Dump
import Mathlib.Data.Finset.Card
import Mathlib.Data.Finset.Range
import Mathlib.Logic.Relation

/-!
# Leaves

Scopes and arrays list other entries; fields and aliases are the leaves. In a linked tree nothing
lies below itself, as `rank` grows from an entry to whatever it lists. So everything about entries
and what lies below them is proved by `induction_below`, and the bound with which `leaves` descends
is never met: it obeys the equations of a descent without one (`leaves_eq`). As no entry is listed
twice, a descent meets each leaf once (`mem_leaves_iff`, `nodup_leaves`).
-/

namespace RegisterAtlas

/-- Entries that a descent ends at. -/
inductive Entry.IsLeaf : Entry → Prop where
  | field {f : Field} : IsLeaf (.field f)
  | alias {target : String} : IsLeaf (.alias target)

theorem Entry.IsLeaf.members_eq_nil {e : Entry} (h : e.IsLeaf) : e.members = [] := by
  cases h <;> rfl

namespace Tree

variable {t : Tree} {id m x : EntryId}

/-- Whether `x` is the entry `id` or lies below it. -/
def Below (t : Tree) (id x : EntryId) : Prop :=
  Relation.ReflTransGen (fun a b => b ∈ (t.entry a).members) id x

/-- What an array lists has the parent of the array itself, and so a number above that parent's. -/
def rank (t : Tree) (id : EntryId) : Nat :=
  if t.kind id = .array then 2 * t.parent id + 1 else 2 * id

/-- How many entries rank no lower. -/
def height (t : Tree) (id : EntryId) : Nat :=
  ((Finset.range t.size).filter (t.rank id ≤ t.rank ·)).card

theorem height_le_size (t : Tree) (id : EntryId) : t.height id ≤ t.size := by
  refine Nat.le_trans (Finset.card_filter_le _ _) ?_
  rw [Finset.card_range]

theorem height_pos (hid : id < t.size) : 0 < t.height id :=
  Finset.card_pos.2 ⟨id, Finset.mem_filter.2 ⟨Finset.mem_range.2 hid, Nat.le_refl _⟩⟩

namespace Linked

theorem lt_size_of_mem_members (h : t.Linked) (hm : m ∈ (t.entry id).members) : id < t.size := by
  cases he : t.entry id with
  | scope s =>
      rw [he] at hm
      rw [← h.child_parent he hm]
      exact h.parent_lt_size (h.member id m (he ▸ hm)).1
  | array items => exact lt_size_of_array he
  | _ => rw [he] at hm; cases hm

theorem rank_lt (h : t.Linked) (hm : m ∈ (t.entry id).members) : t.rank id < t.rank m := by
  obtain ⟨hlt, hr⟩ := h.member id m hm
  have hparent := h.parent_lt m hlt hr
  cases he : t.entry id with
  | scope s =>
      rw [he] at hm
      rw [h.child_parent he hm] at hparent
      have hkind : t.kind id ≠ .array := by simp [kind, he, Entry.kind]
      rw [rank, if_neg hkind, rank, h.child_parent he hm]
      split
      · exact Nat.lt_succ_self _
      · exact Nat.mul_lt_mul_of_pos_left hparent Nat.two_pos
  | array items =>
      rw [he] at hm
      rw [h.item_parent he hm] at hparent
      have hkind : t.kind id = .array := by simp [kind, he, Entry.kind]
      have hitem : t.kind m ≠ .array := h.item_kind he hm ▸ h.items_kind he
      rw [rank, if_pos hkind, rank, if_neg hitem]
      exact Nat.lt_of_lt_of_le (Nat.lt_succ_self _) (Nat.mul_le_mul_left 2 hparent)
  | _ => rw [he] at hm; cases hm

theorem height_lt (h : t.Linked) (hm : m ∈ (t.entry id).members) : t.height m < t.height id := by
  have hrank := h.rank_lt hm
  refine Finset.card_lt_card (Finset.ssubset_iff_of_subset ?_ |>.2 ⟨id, ?_, ?_⟩)
  · intro x hx
    obtain ⟨hlt, hle⟩ := Finset.mem_filter.1 hx
    exact Finset.mem_filter.2 ⟨hlt, Nat.le_trans (Nat.le_of_lt hrank) hle⟩
  · exact Finset.mem_filter.2
      ⟨Finset.mem_range.2 (h.lt_size_of_mem_members hm), Nat.le_refl _⟩
  · exact fun hx => Nat.not_le_of_lt hrank (Finset.mem_filter.1 hx).2

/-- What holds of an entry if it holds of whatever the entry lists holds of every entry. -/
theorem induction_below (h : t.Linked) {motive : EntryId → Prop}
    (hstep : ∀ id, (∀ m ∈ (t.entry id).members, motive m) → motive id) (id : EntryId) :
    motive id := by
  generalize hn : t.height id = n
  induction n using Nat.strongRecOn generalizing id with
  | ind n ih => exact hstep id fun m hm => ih _ (hn ▸ h.height_lt hm) m rfl

/-! ## Descents -/

theorem leavesWithin_of_leaf (he : (t.entry id).IsLeaf) (levels : Nat) :
    t.leavesWithin (levels + 1) id = [id] := by
  rw [leavesWithin]
  cases hentry : t.entry id with
  | field f => rfl
  | «alias» target => rfl
  | _ => rw [hentry] at he; cases he

theorem leavesWithin_of_not_leaf (he : ¬ (t.entry id).IsLeaf) (levels : Nat) :
    t.leavesWithin (levels + 1) id = (t.entry id).members.flatMap (t.leavesWithin levels) := by
  rw [leavesWithin]
  cases hentry : t.entry id with
  | scope s => rfl
  | array items => rfl
  | field f => exact (he (hentry ▸ .field)).elim
  | «alias» target => exact (he (hentry ▸ .alias)).elim

/-- More levels than the height of an entry change nothing. -/
theorem leavesWithin_eq (h : t.Linked) (id : EntryId) :
    id < t.size → ∀ {levels levels' : Nat}, t.height id ≤ levels → t.height id ≤ levels' →
      t.leavesWithin levels id = t.leavesWithin levels' id := by
  refine h.induction_below (motive := fun id => id < t.size → ∀ {levels levels' : Nat},
    t.height id ≤ levels → t.height id ≤ levels' →
      t.leavesWithin levels id = t.leavesWithin levels' id) ?_ id
  intro id ih hid levels levels' hlevels hlevels'
  have hpos := height_pos hid
  obtain ⟨n, rfl⟩ := Nat.exists_eq_succ_of_ne_zero (Nat.ne_of_gt (Nat.lt_of_lt_of_le hpos hlevels))
  obtain ⟨n', rfl⟩ :=
    Nat.exists_eq_succ_of_ne_zero (Nat.ne_of_gt (Nat.lt_of_lt_of_le hpos hlevels'))
  by_cases he : (t.entry id).IsLeaf
  · rw [leavesWithin_of_leaf he, leavesWithin_of_leaf he]
  · rw [leavesWithin_of_not_leaf he, leavesWithin_of_not_leaf he]
    refine List.flatMap_congr fun m hm => ?_
    have hlt := h.height_lt hm
    exact ih m hm (h.member id m hm).1 (Nat.le_of_lt_succ (Nat.lt_of_lt_of_le hlt hlevels))
      (Nat.le_of_lt_succ (Nat.lt_of_lt_of_le hlt hlevels'))

theorem leaves_of_leaf (h : t.Linked) (he : (t.entry id).IsLeaf) : t.leaves id = [id] := by
  obtain ⟨n, hn⟩ := Nat.exists_eq_succ_of_ne_zero (Nat.ne_of_gt h.root_lt)
  rw [leaves, hn]
  exact leavesWithin_of_leaf he n

theorem leaves_of_not_leaf (h : t.Linked) (he : ¬ (t.entry id).IsLeaf) :
    t.leaves id = (t.entry id).members.flatMap t.leaves := by
  obtain ⟨n, hn⟩ := Nat.exists_eq_succ_of_ne_zero (Nat.ne_of_gt h.root_lt)
  unfold leaves
  rw [hn, leavesWithin_of_not_leaf he]
  refine List.flatMap_congr fun m hm => ?_
  have hlt := Nat.lt_of_lt_of_le (h.height_lt hm) (t.height_le_size id)
  rw [hn] at hlt
  exact h.leavesWithin_eq m (h.member id m hm).1 (Nat.le_of_lt_succ hlt) (Nat.le_of_lt hlt)

/-- A descent meets a leaf itself, the children of a scope in their order, and the items of an array
from the first to the last. -/
theorem leaves_eq (h : t.Linked) (id : EntryId) :
    t.leaves id =
      match t.entry id with
      | .field _ | .alias _ => [id]
      | .scope s => s.children.values.flatMap t.leaves
      | .array items => items.ids.flatMap t.leaves := by
  cases he : t.entry id with
  | field f => exact h.leaves_of_leaf (he ▸ .field)
  | «alias» target => exact h.leaves_of_leaf (he ▸ .alias)
  | scope s =>
      rw [h.leaves_of_not_leaf (by rw [he]; rintro ⟨⟩), he]
      rfl
  | array items =>
      rw [h.leaves_of_not_leaf (by rw [he]; rintro ⟨⟩), he]
      rfl

/-! ## Each leaf once -/

theorem mem_leaves_iff (h : t.Linked) (id : EntryId) :
    x ∈ t.leaves id ↔ (t.entry x).IsLeaf ∧ t.Below id x := by
  refine h.induction_below (motive := fun id =>
    x ∈ t.leaves id ↔ (t.entry x).IsLeaf ∧ t.Below id x) ?_ id
  intro id ih
  have hhead : t.Below id x ↔ id = x ∨ ∃ m ∈ (t.entry id).members, t.Below m x :=
    Relation.ReflTransGen.cases_head_iff
  rw [hhead]
  by_cases he : (t.entry id).IsLeaf
  · rw [h.leaves_of_leaf he, List.mem_singleton, he.members_eq_nil]
    constructor
    · rintro rfl
      exact ⟨he, .inl rfl⟩
    · rintro ⟨-, rfl | ⟨m, hm, -⟩⟩
      · rfl
      · cases hm
  · rw [h.leaves_of_not_leaf he, List.mem_flatMap]
    constructor
    · rintro ⟨m, hm, hx⟩
      obtain ⟨hleaf, hbelow⟩ := (ih m hm).1 hx
      exact ⟨hleaf, .inr ⟨m, hm, hbelow⟩⟩
    · rintro ⟨hleaf, rfl | ⟨m, hm, hbelow⟩⟩
      · exact (he hleaf).elim
      · exact ⟨m, hm, (ih m hm).2 ⟨hleaf, hbelow⟩⟩

theorem rank_le_of_below (h : t.Linked) (hx : t.Below id x) : t.rank id ≤ t.rank x := by
  induction hx with
  | refl => exact Nat.le_refl _
  | tail _ hm ih => exact Nat.le_of_lt (Nat.lt_of_le_of_lt ih (h.rank_lt hm))

/-- An entry that is listed together with another one does not lie below it. -/
theorem not_below_sibling (h : t.Linked) {a b : EntryId} (ha : a ∈ (t.entry id).members)
    (hb : b ∈ (t.entry id).members) (hne : a ≠ b) : ¬ t.Below a b := by
  intro hbelow
  rcases Relation.ReflTransGen.cases_tail hbelow with rfl | ⟨owner, howner, hm⟩
  · exact hne rfl
  · -- What lists `b` is the entry that lists both, which would then lie below `a`.
    rw [h.unique_member owner id b hm hb] at howner
    exact Nat.not_lt_of_le (h.rank_le_of_below howner) (h.rank_lt ha)

theorem disjoint_leaves (h : t.Linked) {a b : EntryId} (ha : a ∈ (t.entry id).members)
    (hb : b ∈ (t.entry id).members) (hne : a ≠ b) : (t.leaves a).Disjoint (t.leaves b) := by
  intro x hxa hxb
  have hunique : Relator.RightUnique
      (Function.swap fun a b : EntryId => b ∈ (t.entry a).members) :=
    fun x i j hi hj => h.unique_member i j x hi hj
  have hxa := Relation.reflTransGen_swap.2 ((h.mem_leaves_iff a).1 hxa).2
  have hxb := Relation.reflTransGen_swap.2 ((h.mem_leaves_iff b).1 hxb).2
  -- Two entries above the same one are above each other.
  rcases Relation.ReflTransGen.total_of_right_unique hunique hxa hxb with hab | hab
  · exact h.not_below_sibling hb ha hne.symm (Relation.reflTransGen_swap.1 hab)
  · exact h.not_below_sibling ha hb hne (Relation.reflTransGen_swap.1 hab)

theorem nodup_leaves (h : t.Linked) (id : EntryId) : (t.leaves id).Nodup := by
  refine h.induction_below (motive := fun id => (t.leaves id).Nodup) ?_ id
  intro id ih
  by_cases he : (t.entry id).IsLeaf
  · rw [h.leaves_of_leaf he]
    exact List.nodup_singleton id
  · rw [h.leaves_of_not_leaf he, List.nodup_flatMap]
    exact ⟨ih, (h.nodup_members id).pairwise_of_forall_ne fun a ha b hb hne =>
      h.disjoint_leaves ha hb hne⟩

end Linked

/-! ## Attached leaves -/

/-- What an attached entry lists is attached. -/
theorem Attached.of_mem_members (hw : t.WellFormed) (h : t.Attached id)
    (hm : m ∈ (t.entry id).members) : t.Attached m := by
  cases he : t.entry id with
  | scope s =>
      rw [he] at hm
      obtain ⟨⟨name, _⟩, hmem, rfl⟩ := List.mem_map.1 hm
      exact .of_lists h (.child he (Table.get?_eq_some_iff.2 hmem))
  | array items =>
      rw [he] at hm
      obtain ⟨n, hn⟩ := List.mem_iff_getElem?.1 hm
      have hkind : t.kind id = .array := kind_of_entry he
      -- An array has a name, by which its scope lists the items as well.
      cases h with
      | of_root => rw [hw.root_kind] at hkind; cases hkind
      | of_lists hscope hl =>
          cases hl with
          | child hs hc => exact .of_lists hscope (.item hs hc he hn)
          | item hs hc ha hi =>
              rw [hw.item_kind ha (List.mem_of_getElem? hi)] at hkind
              exact (hw.items_kind ha hkind).elim
  | _ => rw [he] at hm; cases hm

theorem Attached.of_below (hw : t.WellFormed) (h : t.Attached id) (hx : t.Below id x) :
    t.Attached x := by
  induction hx with
  | refl => exact h
  | tail _ hm ih => exact ih.of_mem_members hw hm

end Tree

end RegisterAtlas
