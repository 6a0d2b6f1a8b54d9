import RegisterAtlas.Datatype
import RegisterAtlas.Proofs.Table.Indexed
import RegisterAtlas.Proofs.Text.Decimal
import Mathlib.Data.List.Nodup

/-!
# Names of values and of bits

Enumerations and bitmasks are declared by lists of pairs. Of several pairs with one name the first
counts, and the others count for nothing, not even for what they would name. `firstNamed` are the
pairs that count, and the table of names that is filled pair by pair lists exactly these, in the
order of their declaration.
-/

namespace RegisterAtlas

variable {β : Type}

/-- The pairs whose name no pair before them has. -/
def firstNamed : List (String × β) → List (String × β)
  | [] => []
  | p :: pairs => p :: (firstNamed pairs).filter (·.1 ≠ p.1)

theorem firstNamed_sublist (pairs : List (String × β)) : (firstNamed pairs).Sublist pairs := by
  induction pairs with
  | nil => exact .refl _
  | cons p pairs ih =>
      apply List.Sublist.cons_cons
      exact List.filter_sublist.trans ih

theorem nodup_firstNamed (pairs : List (String × β)) : ((firstNamed pairs).map Prod.fst).Nodup := by
  induction pairs with
  | nil => exact .nil
  | cons p pairs ih =>
      rw [firstNamed, List.map_cons, List.nodup_cons]
      constructor
      · intro hmem
        obtain ⟨q, hq, hname⟩ := List.mem_map.1 hmem
        exact of_decide_eq_true (List.mem_filter.1 hq).2 hname
      · exact ih.sublist (List.filter_sublist.map _)

/-- A name that counts names one value only. -/
theorem eq_of_mem_firstNamed {pairs : List (String × β)} {name : String} {b b' : β}
    (h : (name, b) ∈ firstNamed pairs) (h' : (name, b') ∈ firstNamed pairs) : b = b' :=
  congrArg Prod.snd (List.inj_on_of_nodup_map (nodup_firstNamed pairs) h h' rfl)

/-- What stands before a pair that counts has other names. -/
theorem notMem_front_of_firstNamed {pairs front back : List (String × β)} {name : String} {b : β}
    (h : firstNamed pairs = front ++ (name, b) :: back) : name ∉ front.map Prod.fst := by
  have hnodup := nodup_firstNamed pairs
  rw [h, List.map_append, List.map_cons] at hnodup
  intro hmem
  exact (List.nodup_append.1 hnodup).2.2 name hmem name List.mem_cons_self rfl

/-! ## Tables of names -/

namespace Table

theorem entries_insertNew (t : Table String β) (name : String) (b : β) :
    (t.insertNew name b).entries =
      t.entries ++ if name ∈ t.keys then [] else [(name, b)] := by
  unfold insertNew
  by_cases h : name ∈ t.keys
  · rw [if_pos (contains_iff.2 h), if_pos h, List.append_nil]
  · rw [if_neg (mt contains_iff.1 h), if_neg h]
    exact insertEntry_of_notMem h b

/-- Pairs come behind the entries that are there, if they count and their names are new. -/
theorem entries_foldl_insertNew (pairs : List (String × β)) (t : Table String β) :
    (pairs.foldl (fun t p => t.insertNew p.1 p.2) t).entries =
      t.entries ++ (firstNamed pairs).filter (·.1 ∉ t.keys) := by
  induction pairs generalizing t with
  | nil => exact (List.append_nil _).symm
  | cons p pairs ih =>
      have hkeys : (t.insertNew p.1 p.2).keys = t.keys ++ if p.1 ∈ t.keys then [] else [p.1] := by
        rw [keys, entries_insertNew, List.map_append, ← keys]
        split <;> rfl
      have hfilter : ∀ q ∈ firstNamed pairs,
          decide (q.1 ∉ t.keys ++ if p.1 ∈ t.keys then [] else [p.1]) =
            (decide (q.1 ∉ t.keys) && decide (q.1 ≠ p.1)) := by
        intro q _
        by_cases h : p.1 ∈ t.keys
        · -- what has this name is left out already
          by_cases hq : q.1 = p.1 <;> simp [hq, h]
        · simp [h]
      rw [List.foldl_cons, ih, entries_insertNew, hkeys, firstNamed, List.append_assoc,
        List.filter_cons, List.filter_filter, List.filter_congr hfilter]
      by_cases h : p.1 ∈ t.keys <;> simp [h]

theorem entries_ofPairs (pairs : List (String × β)) :
    (pairs.foldl (fun t p => t.insertNew p.1 p.2) (∅ : Table String β)).entries =
      firstNamed pairs := by
  rw [entries_foldl_insertNew]
  simp

end Table

/-! ## What has no name -/

/-- Numbers without a name are told apart by their tokens. -/
theorem unknownToken_inj {m n : Nat} :
    unknownToken (toString m) = unknownToken (toString n) ↔ m = n := by
  rw [unknownToken, unknownToken, String.append_left_inj, String.append_right_inj,
    Text.toString_inj]

end RegisterAtlas
