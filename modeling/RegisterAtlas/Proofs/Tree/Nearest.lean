import Mathlib.Order.Nat
import RegisterAtlas.Proofs.Tree.Ancestors

/-!
# The nearest scope

What a scope defines is looked up on the way from an entry to the root, and the first scope that has
it counts. `Nearest` says which one this is, `LooksUp` what is found there, and `findAbove_looksUp`
that climbing finds just that. A change of one scope that takes nothing away is seen from the
entries for which that scope has become the nearest one, and from no others: for these the nearest
scope is the one that it was (`SameBut.nearest_iff`).
-/

namespace RegisterAtlas.Tree

variable {t t' : Tree} {p : Scope → Prop} {id a b scope : EntryId} {α : Type}
  {f : Scope → Option α}

/-- An entry is a scope of which `p` holds. -/
def Has (t : Tree) (p : Scope → Prop) (id : EntryId) : Prop := ∃ s, t.entry id = .scope s ∧ p s

/-- The first scope of which `p` holds on the way from an entry to the root, the entry included. -/
def Nearest (t : Tree) (p : Scope → Prop) (id a : EntryId) : Prop :=
  ∃ levels, t.above levels id = a ∧ t.Has p a ∧ ∀ k < levels, ¬ t.Has p (t.above k id)

namespace Nearest

theorem self (h : t.Has p id) : t.Nearest p id id :=
  ⟨0, rfl, h, fun _ hk => absurd hk (Nat.not_lt_zero _)⟩

theorem has (h : t.Nearest p id a) : t.Has p a := by
  obtain ⟨-, -, ha, -⟩ := h
  exact ha

theorem unique (h : t.Nearest p id a) (h' : t.Nearest p id b) : a = b := by
  obtain ⟨m, rfl, ha, hm⟩ := h
  obtain ⟨n, rfl, hb, hn⟩ := h'
  rcases Nat.lt_trichotomy m n with hlt | rfl | hlt
  · exact (hn m hlt ha).elim
  · rfl
  · exact (hm n hlt hb).elim

end Nearest

/-! ## Climbing -/

theorem nearest_iff_of_not_has (h : ¬ t.Has p id) :
    t.Nearest p id a ↔ t.Nearest p (t.parent id) a := by
  constructor
  · rintro ⟨_ | levels, rfl, ha, hbefore⟩
    · exact (h ha).elim
    · exact ⟨levels, rfl, ha, fun k hk => hbefore (k + 1) (Nat.succ_lt_succ hk)⟩
  · rintro ⟨levels, rfl, ha, hbefore⟩
    refine ⟨levels + 1, rfl, ha, ?_⟩
    rintro (_ | k) hk
    · exact h
    · exact hbefore k (Nat.lt_of_succ_lt_succ hk)

theorem Linked.not_nearest_root (h : t.Linked) (hroot : ¬ t.Has p root) :
    ¬ t.Nearest p root a := by
  rintro ⟨levels, rfl, ha, -⟩
  have habove : t.above levels root = root := by
    induction levels with
    | zero => rfl
    | succ levels ih => rw [above, h.root_parent, ih (by rwa [above, h.root_parent] at ha)]
  exact hroot (habove ▸ ha)

theorem exists_nearest {levels : Nat} (h : t.Has p (t.above levels id)) :
    ∃ found ≤ levels, t.Nearest p id (t.above found id) := by
  classical
  have hex : ∃ k, t.Has p (t.above k id) := ⟨levels, h⟩
  exact ⟨Nat.find hex, Nat.find_min' hex h, Nat.find hex, rfl, Nat.find_spec hex,
    fun k hk => Nat.find_min hex hk⟩

/-- What is found of `f` from an entry: what the nearest scope has, or nothing where there is no
such scope. -/
inductive LooksUp (t : Tree) (f : Scope → Option α) (id : EntryId) : Option α → Prop where
  | nearest {a : EntryId} {s : Scope} {x : α} (h : t.Nearest (fun s => (f s).isSome) id a)
      (hs : t.entry a = .scope s) (hx : f s = some x) : LooksUp t f id (some x)
  | nowhere (h : ∀ a, ¬ t.Nearest (fun s => (f s).isSome) id a) : LooksUp t f id none

theorem LooksUp.unique {r r' : Option α} (h : t.LooksUp f id r) (h' : t.LooksUp f id r') :
    r = r' := by
  cases h with
  | nearest hn hs hx =>
      cases h' with
      | nearest hn' hs' hx' =>
          cases hn.unique hn'
          cases hs.symm.trans hs'
          exact hx.symm.trans hx'
      | nowhere hnone => exact (hnone _ hn).elim
  | nowhere hnone =>
      cases h' with
      | nearest hn' => exact (hnone _ hn').elim
      | nowhere => rfl

theorem bind_scope?_eq_some_iff {x : α} :
    (t.scope? id).bind f = some x ↔ ∃ s, t.entry id = .scope s ∧ f s = some x := by
  rw [Option.bind_eq_some_iff]
  simp only [scope?_eq_some_iff]

theorem has_isSome_iff :
    t.Has (fun s => (f s).isSome) id ↔ ∃ x, (t.scope? id).bind f = some x := by
  simp only [bind_scope?_eq_some_iff, Has, Option.isSome_iff_exists]
  exact ⟨fun ⟨s, hs, x, hx⟩ => ⟨x, s, hs, hx⟩, fun ⟨x, s, hs, hx⟩ => ⟨s, hs, x, hx⟩⟩

theorem not_has_of_bind_eq_none (h : (t.scope? id).bind f = none) :
    ¬ t.Has (fun s => (f s).isSome) id := by
  rw [has_isSome_iff, h]
  rintro ⟨x, ⟨⟩⟩

theorem LooksUp.here {x : α} (h : (t.scope? id).bind f = some x) : t.LooksUp f id (some x) := by
  obtain ⟨s, hs, hx⟩ := bind_scope?_eq_some_iff.1 h
  exact .nearest (.self (has_isSome_iff.2 ⟨x, h⟩)) hs hx

theorem LooksUp.of_parent {r : Option α} (hid : (t.scope? id).bind f = none)
    (h : t.LooksUp f (t.parent id) r) : t.LooksUp f id r := by
  have hnot := not_has_of_bind_eq_none hid
  cases h with
  | nearest hn hs hx => exact .nearest ((nearest_iff_of_not_has hnot).2 hn) hs hx
  | nowhere hnone => exact .nowhere fun a => mt (nearest_iff_of_not_has hnot).1 (hnone a)

theorem Linked.findAbove_looksUp (h : t.Linked) (hid : id < t.size) (f : Scope → Option α) :
    t.LooksUp f id (t.findAbove id f) := by
  refine h.induction_above (motive := fun id => t.LooksUp f id (t.findAbove id f)) ?_ ?_ hid
  · rw [findAbove, ancestors_root, List.findSome?_singleton]
    cases hroot : (t.scope? root).bind f with
    | some x => exact .here hroot
    | none => exact .nowhere fun a => h.not_nearest_root (not_has_of_bind_eq_none hroot)
  · intro id hid hr ih
    rw [findAbove, h.ancestors_of_ne_root hid hr, List.findSome?_cons]
    cases hhere : (t.scope? id).bind f with
    | some x => exact .here hhere
    | none => exact ih.of_parent hhere

/-! ## Changes of one scope -/

/-- Trees that differ in no more than what one scope holds. -/
structure SameBut (t t' : Tree) (scope : EntryId) : Prop where
  size_eq : t'.size = t.size
  parent_eq : ∀ a, t'.parent a = t.parent a
  entry_eq : ∀ a, a ≠ scope → t'.entry a = t.entry a

theorem sameBut_updateScope {s : Scope} (hs : t.entry scope = .scope s) (hlt : scope < t.size)
    (g : Scope → Scope) : SameBut t (t.updateScope scope g) scope where
  size_eq := size_updateScope ..
  parent_eq := parent_updateScope t scope g
  entry_eq a ha := by rw [entry_updateScope hs hlt, if_neg ha]

namespace SameBut

theorem refl : SameBut t t scope := ⟨rfl, fun _ => rfl, fun _ _ => rfl⟩

variable (h : SameBut t t' scope)

include h

theorem above_eq (levels : Nat) (id : EntryId) : t'.above levels id = t.above levels id := by
  induction levels generalizing id with
  | zero => rfl
  | succ levels ih => rw [above, above, h.parent_eq, ih]

theorem has_iff (ha : a ≠ scope) : t'.Has p a ↔ t.Has p a := by
  rw [Has, Has, h.entry_eq a ha]

/-- A scope that is not the nearest one after it was changed was not so before, and the nearest one
is as before, if the change took nothing away. -/
theorem nearest_iff (hscope : t.Has p scope → t'.Has p scope) (hnot : ¬ t'.Nearest p id scope) :
    t'.Nearest p id a ↔ t.Nearest p id a := by
  have hmono : ∀ b, t.Has p b → t'.Has p b := by
    intro b hb
    by_cases hbs : b = scope
    · exact hbs ▸ hscope (hbs ▸ hb)
    · exact (h.has_iff hbs).2 hb
  constructor
  · intro ha
    have hne : a ≠ scope := fun has => hnot (has ▸ ha)
    obtain ⟨levels, rfl, hhas, hbefore⟩ := ha
    refine ⟨levels, (h.above_eq ..).symm, (h.has_iff hne).1 hhas, fun k hk hk' => ?_⟩
    exact hbefore k hk (hmono _ (h.above_eq k id ▸ hk'))
  · rintro ⟨levels, rfl, hhas, hbefore⟩
    have hhas' : t'.Has p (t'.above levels id) := h.above_eq levels id ▸ hmono _ hhas
    obtain ⟨found, hle, hfound⟩ := exists_nearest hhas'
    -- only the changed scope could have come in between, and it would be the nearest one then
    have hne : t'.above found id ≠ scope := fun hs => hnot (hs ▸ hfound)
    rcases Nat.lt_or_eq_of_le hle with hlt | rfl
    · have hold := (h.has_iff hne).1 hfound.has
      exact (hbefore found hlt (h.above_eq found id ▸ hold)).elim
    · exact h.above_eq found id ▸ hfound

theorem nearest_iff_of_same (hscope : t'.Has p scope ↔ t.Has p scope) :
    t'.Nearest p id a ↔ t.Nearest p id a := by
  have hhas : ∀ b, t'.Has p b ↔ t.Has p b := by
    intro b
    by_cases hbs : b = scope
    · exact hbs ▸ hscope
    · exact h.has_iff hbs
  simp only [Nearest, h.above_eq, hhas]

/-- What is not found in the changed scope is found as before. -/
theorem findAbove_eq (ht : t.Linked) (ht' : t'.Linked) (hid : id < t.size)
    (hscope : t.Has (fun s => (f s).isSome) scope → t'.Has (fun s => (f s).isSome) scope)
    (hnot : ¬ t'.Nearest (fun s => (f s).isSome) id scope) :
    t'.findAbove id f = t.findAbove id f := by
  have hbefore : ∀ r, t'.LooksUp f id r → t.LooksUp f id r := by
    intro r hr
    cases hr with
    | @nearest a s x hn hs hx =>
        have hne : a ≠ scope := fun has => hnot (has ▸ hn)
        exact .nearest ((h.nearest_iff hscope hnot).1 hn) ((h.entry_eq a hne).symm.trans hs) hx
    | nowhere hnone => exact .nowhere fun a => mt (h.nearest_iff hscope hnot).2 (hnone a)
  have hlooks := ht'.findAbove_looksUp (h.size_eq ▸ hid) f
  exact (hbefore _ hlooks).unique (ht.findAbove_looksUp hid f)

/-- What the changed scope has as before is found as before. -/
theorem findAbove_eq_of_same (ht : t.Linked) (hid : id < t.size)
    (hscope : (t'.scope? scope).bind f = (t.scope? scope).bind f) :
    t'.findAbove id f = t.findAbove id f := by
  have hways : t'.ancestors id = t.ancestors id := ht.climb_congr id hid fun a _ => h.parent_eq a
  have hfound : (fun a => (t'.scope? a).bind f) = fun a => (t.scope? a).bind f := by
    funext a
    by_cases ha : a = scope
    · rw [ha, hscope]
    · rw [scope?, scope?, h.entry_eq a ha]
  rw [findAbove, findAbove, hways, hfound]

end SameBut

end RegisterAtlas.Tree
