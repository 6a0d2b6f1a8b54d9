import RegisterAtlas.Proofs.Tree.WellFormed

/-!
# Ancestors

In a linked tree a parent has a smaller number than its children, so climbing from an entry ends
at the root after at most as many steps as the number of the entry says, and `ancestors` lists all
that is passed on the way.
-/

namespace RegisterAtlas.Tree

variable {t : Tree}

/-- The entry a number of steps above another one. The root is above itself. -/
def above (t : Tree) : Nat → EntryId → EntryId
  | 0, id => id
  | levels + 1, id => t.above levels (t.parent id)

namespace Linked

/-- What holds of the root and is passed on from parents to children holds of every entry. -/
theorem induction_above (h : t.Linked) {motive : EntryId → Prop} (hroot : motive root)
    (hstep : ∀ id, id < t.size → id ≠ root → motive (t.parent id) → motive id) {id : EntryId}
    (hid : id < t.size) : motive id := by
  induction id using Nat.strongRecOn with
  | ind id ih =>
      by_cases hr : id = root
      · exact hr ▸ hroot
      · exact hstep id hid hr (ih _ (h.parent_lt id hid hr) (h.parent_lt_size hid))

theorem le_of_mem_climb (h : t.Linked) (steps : Nat) {id a : EntryId} (hid : id < t.size)
    (ha : a ∈ t.climb steps id) : a ≤ id := by
  induction steps generalizing id with
  | zero => exact Nat.le_of_eq (List.mem_singleton.1 ha)
  | succ steps ih =>
      rw [climb] at ha
      split at ha
      · exact Nat.le_of_eq (List.mem_singleton.1 ha)
      · next hr =>
          rcases List.mem_cons.1 ha with rfl | ha
          · exact Nat.le_refl _
          · exact Nat.le_trans (ih (h.parent_lt_size hid) ha) (Nat.le_of_lt (h.parent_lt id hid hr))

/-- Where parents are the same up to an entry, the way up from it is the same. -/
theorem climb_congr {t' : Tree} (h : t.Linked) (steps : Nat) {id : EntryId} (hid : id < t.size)
    (hp : ∀ a ≤ id, t'.parent a = t.parent a) : t'.climb steps id = t.climb steps id := by
  induction steps generalizing id with
  | zero => rfl
  | succ steps ih =>
      rw [climb, climb, hp id (Nat.le_refl id)]
      by_cases hr : id = root
      · rw [if_pos hr, if_pos hr]
      · have hle := Nat.le_of_lt (h.parent_lt id hid hr)
        rw [if_neg hr, if_neg hr, ih (h.parent_lt_size hid) fun a ha => hp a (Nat.le_trans ha hle)]

/-- Steps beyond the root change nothing. -/
theorem climb_eq_climb (h : t.Linked) {id : EntryId} (hid : id < t.size) :
    ∀ {m n : Nat}, id ≤ m → id ≤ n → t.climb m id = t.climb n id := by
  refine h.induction_above (motive := fun id => ∀ {m n : Nat}, id ≤ m → id ≤ n →
    t.climb m id = t.climb n id) ?_ ?_ hid
  · intro m n _ _
    cases m <;> cases n <;> simp [climb]
  · intro id hid hr ih m n hm hn
    have hlt := h.parent_lt id hid hr
    obtain ⟨m, rfl⟩ := Nat.exists_eq_succ_of_ne_zero (Nat.ne_of_gt (Nat.lt_of_lt_of_le
      (Nat.zero_lt_of_lt hlt) hm))
    obtain ⟨n, rfl⟩ := Nat.exists_eq_succ_of_ne_zero (Nat.ne_of_gt (Nat.lt_of_lt_of_le
      (Nat.zero_lt_of_lt hlt) hn))
    rw [climb, climb, if_neg hr, if_neg hr]
    exact congrArg (id :: ·) (ih (Nat.le_of_lt_succ (Nat.lt_of_lt_of_le hlt hm))
      (Nat.le_of_lt_succ (Nat.lt_of_lt_of_le hlt hn)))

theorem ancestors_of_ne_root (h : t.Linked) {id : EntryId} (hid : id < t.size) (hr : id ≠ root) :
    t.ancestors id = id :: t.ancestors (t.parent id) := by
  have hlt := h.parent_lt id hid hr
  obtain ⟨n, rfl⟩ := Nat.exists_eq_succ_of_ne_zero hr
  rw [ancestors, climb, if_neg hr, ancestors]
  exact congrArg (_ :: ·) (h.climb_eq_climb (h.parent_lt_size hid) (Nat.le_of_lt_succ hlt)
    (Nat.le_refl _))

end Linked

theorem ancestors_root (t : Tree) : t.ancestors root = [root] := rfl

namespace Linked

theorem lt_size_of_mem_ancestors (h : t.Linked) {id a : EntryId} (hid : id < t.size)
    (ha : a ∈ t.ancestors id) : a < t.size := by
  refine h.induction_above (motive := fun id => a ∈ t.ancestors id → a < t.size) ?_ ?_ hid ha
  · intro ha
    rw [List.mem_singleton.1 ha]
    exact h.root_lt
  · intro id hid hr ih ha
    rw [h.ancestors_of_ne_root hid hr] at ha
    rcases List.mem_cons.1 ha with rfl | ha
    · exact hid
    · exact ih ha

theorem above_of_getElem?_ancestors (h : t.Linked) {id : EntryId} (hid : id < t.size) :
    ∀ {n : Nat} {a : EntryId}, (t.ancestors id)[n]? = some a → a = t.above n id := by
  refine h.induction_above (motive := fun id => ∀ {n : Nat} {a : EntryId},
    (t.ancestors id)[n]? = some a → a = t.above n id) ?_ ?_ hid
  · intro n a ha
    cases n with
    | zero => exact (Option.some.inj ha).symm
    | succ n => cases ha
  · intro id hid hr ih n a ha
    rw [h.ancestors_of_ne_root hid hr] at ha
    cases n with
    | zero => exact (Option.some.inj ha).symm
    | succ n => exact ih ha

theorem above_length_ancestors (h : t.Linked) {id : EntryId} (hid : id < t.size) :
    t.above ((t.ancestors id).length - 1) id = root := by
  refine h.induction_above (motive := fun id => t.above ((t.ancestors id).length - 1) id = root)
    rfl ?_ hid
  intro id hid hr ih
  rw [h.ancestors_of_ne_root hid hr]
  obtain ⟨n, hn⟩ : ∃ n, (t.ancestors (t.parent id)).length = n + 1 := by
    unfold ancestors
    cases t.parent id <;> exact ⟨_, rfl⟩
  rw [hn] at ih
  rw [List.length_cons, hn]
  exact ih

end Linked

end RegisterAtlas.Tree
