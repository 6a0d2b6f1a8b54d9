/-!
# Joined texts

Texts are joined with a separating character between them. As long as none of them is empty or holds
the separator, the parts can be told from the whole.
-/

namespace RegisterAtlas.Text

variable {sep : Char} {xs ys : List (List Char)}

theorem forall_mem_intercalate {P : Char → Prop} (hsep : P sep) (h : ∀ s ∈ xs, ∀ c ∈ s, P c) :
    ∀ c ∈ [sep].intercalate xs, P c := by
  intro c hc
  induction xs with
  | nil => cases hc
  | cons s xs ih =>
      obtain ⟨hs, hxs⟩ := List.forall_mem_cons.1 h
      cases xs with
      | nil => exact hs c (by simpa using hc)
      | cons t xs =>
          rw [List.intercalate_cons_cons, List.mem_append, List.mem_append,
            List.mem_singleton] at hc
          rcases hc with (hc | rfl) | hc
          · exact hs c hc
          · exact hsep
          · exact ih hxs hc

theorem intercalate_eq_nil_iff (h : ∀ s ∈ xs, s ≠ [] ∧ sep ∉ s) :
    [sep].intercalate xs = [] ↔ xs = [] := by
  constructor
  · intro hjoin
    refine Decidable.byContradiction fun hne => ?_
    have hsplit := List.splitOn_intercalate sep (fun s hs => (h s hs).2) hne
    rw [hjoin, List.splitOn_nil] at hsplit
    exact (h [] (by rw [← hsplit]; simp)).1 rfl
  · rintro rfl
    rfl

theorem intercalate_inj (hx : ∀ s ∈ xs, s ≠ [] ∧ sep ∉ s) (hy : ∀ s ∈ ys, s ≠ [] ∧ sep ∉ s) :
    [sep].intercalate xs = [sep].intercalate ys ↔ xs = ys := by
  refine ⟨fun h => ?_, congrArg _⟩
  by_cases hnil : xs = []
  · have hjoin : [sep].intercalate ys = [] := h ▸ (intercalate_eq_nil_iff hx).2 hnil
    rw [hnil, (intercalate_eq_nil_iff hy).1 hjoin]
  · have hnil' : ys ≠ [] := by
      intro hys
      exact hnil ((intercalate_eq_nil_iff hx).1 (h.trans ((intercalate_eq_nil_iff hy).2 hys)))
    have hsplit := List.splitOn_intercalate sep (fun s hs => (hx s hs).2) hnil
    rw [h, List.splitOn_intercalate sep (fun s hs => (hy s hs).2) hnil'] at hsplit
    exact hsplit.symm

end RegisterAtlas.Text
