import RegisterAtlas.Machine
import RegisterAtlas.Proofs.Access.Bound
import RegisterAtlas.Proofs.Resolve.Depth
import RegisterAtlas.Proofs.Tree.Shape
import Mathlib.Data.Finset.Card
import Mathlib.Logic.Relation

/-!
# Circles of fields

The paths of a procedure may lead back to its own field. Where no field that an access comes to uses
itself, directly or through others, every access ends, nested no deeper than the tree has entries.
Nothing looks out for circles though: indirect fields that write each other as their index do so
over and over, whatever the registers hold.
-/

namespace RegisterAtlas.Tree

open Access Relation

variable {t : Tree} {σ : Type} [Bus σ]

theorem WellFormed.target_lt_size (h : t.WellFormed) {scope b : EntryId} {path : String}
    (hs : scope < t.size) (hb : t.target scope path = .ok b) : b < t.size := by
  unfold target resolveTextFollow at hb
  cases hp : Path.ofText path with
  | error err => rw [hp] at hb; cases hb
  | ok p =>
  rw [hp] at hb
  cases hr : t.resolveFollow scope p with
  | error err => simp [bind, Except.bind, hr] at hb
  | ok found =>
  cases found with
  | none => simp [bind, Except.bind, hr] at hb
  | some d =>
      obtain ⟨hops, -, hm⟩ := h.exists_means_of_walked hs hr
      have hd := h.walks_lt_size (h.base_lt_size p hs) hm
      simp only [bind, Except.bind, hr] at hb
      cases hb
      exact hd

theorem WellFormed.uses_lt_size (h : t.WellFormed) {a b : EntryId} (ha : a < t.size)
    (hab : t.Uses a b) : b < t.size := by
  obtain ⟨f, p, path, -, -, -, hb⟩ := hab
  exact h.target_lt_size (h.parent_lt_size ha) hb

/-! ## Accesses without circles -/

/-- No field that is used from here uses itself, directly or through others. -/
def Uncircled (t : Tree) (id : EntryId) : Prop :=
  ∀ b, ReflTransGen t.Uses id b → ¬ TransGen t.Uses b b

theorem Uncircled.of_uses {a b : EntryId} (h : t.Uncircled a) (hab : t.Uses a b) :
    t.Uncircled b := fun c hc => h c (.head hab hc)

theorem Uncircled.of_not_uses {a : EntryId} (h : ∀ b, ¬ t.Uses a b) : t.Uncircled a := by
  intro b hab hcircle
  rcases hab.cases_head with rfl | ⟨c, hac, -⟩
  · obtain ⟨c, hac, -⟩ := TransGen.head'_iff.1 hcircle
    exact h c hac
  · exact h c hac

/-- The fields on the way down to an access are all different, so there is room for one more of them
until the bound is reached. -/
theorem WellFormed.finishes_of_passed (h : t.WellFormed) (depth : Nat) : ∀ {id : EntryId}
    (passed : Finset EntryId), id < t.size → t.Uncircled id →
      (∀ a ∈ passed, a < t.size ∧ TransGen t.Uses a id) → t.size ≤ depth + passed.card →
      Finishes (t.readWithin depth id : Access σ Value) ∧
        ∀ v, Finishes (t.writeWithin depth id v : Access σ Unit) := by
  induction depth with
  | zero =>
      intro id passed hid hfree hpassed hroom
      have hnew : id ∉ passed := fun hmem => hfree id .refl (hpassed id hmem).2
      have hsub : insert id passed ⊆ Finset.range t.size := by
        intro a ha
        rcases Finset.mem_insert.1 ha with rfl | ha
        · exact Finset.mem_range.2 hid
        · exact Finset.mem_range.2 (hpassed a ha).1
      have hcard := Finset.card_le_card hsub
      rw [Finset.card_insert_of_notMem hnew, Finset.card_range] at hcard
      omega
  | succ depth ih =>
      intro id passed hid hfree hpassed hroom
      have hnew : id ∉ passed := fun hmem => hfree id .refl (hpassed id hmem).2
      refine access_composes finishes_composes depth depth fun b hb => ?_
      refine ih (insert id passed) (h.uses_lt_size hid hb) (hfree.of_uses hb) ?_ ?_
      · intro a ha
        rcases Finset.mem_insert.1 ha with rfl | ha
        · exact ⟨hid, .single hb⟩
        · exact ⟨(hpassed a ha).1, .tail (hpassed a ha).2 hb⟩
      · rw [Finset.card_insert_of_notMem hnew]
        omega

/-- Below a bound of the size of the tree there is room for all the fields on the way. -/
theorem WellFormed.finishes_of_uncircled (h : t.WellFormed) {id : EntryId} (hid : id < t.size)
    (hfree : t.Uncircled id) {depth : Nat} (hdepth : t.size ≤ depth) :
    Finishes (t.readWithin depth id : Access σ Value) ∧
      ∀ v, Finishes (t.writeWithin depth id v : Access σ Unit) := by
  have hpassed : ∀ a ∈ (∅ : Finset EntryId), a < t.size ∧ TransGen t.Uses a id :=
    fun a ha => (Finset.notMem_empty a ha).elim
  exact h.finishes_of_passed depth ∅ hid hfree hpassed hdepth

/-! ## Circles of indices -/

/-- `t.Indexes a b`: the indirect field `a` writes `b` as its index. -/
def Indexes (t : Tree) (a b : EntryId) : Prop :=
  ∃ f i, t.entry a = .field f ∧ f.source = .indirect i ∧
    t.target (t.parent a) i.indexPath = .ok b

/-- Both accesses to an indirect field begin by writing the index. -/
theorem Indexes.unfinished {a b : EntryId} (hab : t.Indexes a b) {depth : Nat} {s : σ}
    (hb : ∀ v, (t.writeWithin depth b v : Access σ Unit).runOn s = (.error .unfinished, s)) :
    (t.readWithin (depth + 1) a : Access σ Value).runOn s = (.error .unfinished, s) ∧
      ∀ v, (t.writeWithin (depth + 1) a v : Access σ Unit).runOn s = (.error .unfinished, s) := by
  obtain ⟨f, i, hentry, hsource, htarget⟩ := hab
  have hrun : ∀ next, (t.run (t.parent a) (t.readWithin depth) (t.writeWithin depth)
      (.write i.indexPath i.index next) : Access σ Value).runOn s = (.error .unfinished, s) := by
    intro next
    rw [run, htarget, ofExcept_ok, pure_bind, Action.runOn_bind, hb]
  refine ⟨?_, fun v => ?_⟩
  · rw [readWithin_field hentry, hsource]
    exact hrun _
  · rw [writeWithin_field hentry, hsource]
    have hwrite := hrun (.write i.dataPath v (i.awaitReady (.done 0)))
    simp only [Indirect.writeProcedure, Action.runOn_bind, hwrite]

theorem unfinished_of_circle (depth : Nat) (s : σ) : ∀ {a b : EntryId},
    ReflTransGen t.Indexes a b → TransGen t.Indexes b b →
      (t.readWithin depth a : Access σ Value).runOn s = (.error .unfinished, s) ∧
        ∀ v, (t.writeWithin depth a v : Access σ Unit).runOn s = (.error .unfinished, s) := by
  induction depth with
  | zero => exact fun _ _ => ⟨rfl, fun v => rfl⟩
  | succ depth ih =>
      intro a b hab hcircle
      obtain ⟨c, hac, hcb⟩ := TransGen.head'_iff.1 (TransGen.trans_right hab hcircle)
      exact hac.unfinished (ih hcb hcircle).2

/-! ## Accesses that end and accesses that do not -/

/-- Whatever the registers hold, the access to a field ends within every bound that is not below the
size of the tree, if no field used on the way uses itself. If it comes to a circle of indirect
fields each of which writes the next one as its index, it ends within no bound, and leaves the
registers as they were. The bound has no other effect than to cut accesses short. -/
theorem accesses_finish {t : Tree} (h : Reachable t) {id : EntryId} (hid : id < t.size) (σ : Type)
    [Bus σ] :
    (t.Uncircled id → ∀ depth, t.size ≤ depth →
      Finishes (t.readWithin depth id : Access σ Value) ∧
        ∀ v, Finishes (t.writeWithin depth id v : Access σ Unit)) ∧
    (∀ b, ReflTransGen t.Indexes id b → TransGen t.Indexes b b → ∀ depth (s : σ),
      (t.readWithin depth id).runOn s = (.error .unfinished, s) ∧
        ∀ v, (t.writeWithin depth id v).runOn s = (.error .unfinished, s)) ∧
    ∀ depth depth', depth ≤ depth' →
      CompletedBy (t.readWithin depth id : Access σ Value) (t.readWithin depth' id) ∧
        ∀ v, CompletedBy (t.writeWithin depth id v : Access σ Unit)
          (t.writeWithin depth' id v) := by
  refine ⟨fun hfree depth hdepth => ?_, fun b hb hcircle depth s => ?_,
    fun depth depth' hle => t.completedBy_of_le hle id⟩
  · exact h.wellFormed.finishes_of_uncircled hid hfree hdepth
  · exact unfinished_of_circle depth s hb hcircle

/-- An indirect field `window` over two others, and another one, `loop`, that is its own index. -/
def windowTree : Tree :=
  ([.field "index" (.constant (.int none) 0), .field "data" (.constant (.int none) 7),
    .field "window" ⟨.int none, .indirect { indexPath := "index", index := 3, dataPath := "data" }⟩,
    .field "loop" ⟨.int none, .indirect { indexPath := "loop", index := 0, dataPath := "data" }⟩]
    |>.foldl Draft.after (.ofTree empty)).tree

/-- The window uses the index and the data, and these use nothing. -/
theorem uncircled_windowTree : windowTree.Uncircled 3 := by
  have hindex : windowTree.target 0 "index" = .ok 1 := by decide +kernel
  have hdata : windowTree.target 0 "data" = .ok 2 := by decide +kernel
  have hwindow : ∀ b, windowTree.Uses 3 b → b = 1 ∨ b = 2 := by
    rintro b ⟨f, p, path, hf, hp, hpath, hb⟩
    cases hf
    rcases hp.mentions_of_indirect hpath with rfl | rfl | ⟨mask, hready⟩
    · exact .inl (Except.ok.inj (hb.symm.trans hindex))
    · exact .inr (Except.ok.inj (hb.symm.trans hdata))
    · cases hready
  have hconstant : ∀ a b, a = 1 ∨ a = 2 → ¬ windowTree.Uses a b := by
    rintro a b ha ⟨f, p, path, hf, hp, -⟩
    rcases ha with rfl | rfl <;> cases hf <;> cases hp
  intro b hb hcircle
  obtain ⟨c, hbc, hcb⟩ := TransGen.head'_iff.1 hcircle
  rcases hb.cases_head with rfl | ⟨a, ha, hab⟩
  · have hc := hwindow c hbc
    rcases hcb.cases_head with rfl | ⟨d, hcd, -⟩
    · exact absurd hc (by decide)
    · exact hconstant c d hc hcd
  · rcases hab.cases_head with rfl | ⟨d, had, -⟩
    · exact hconstant a c (hwindow a ha) hbc
    · exact hconstant a d (hwindow a ha) had

/-- The window can be read and written, and the loop cannot. -/
theorem accesses_finish_windowTree :
    Reachable windowTree ∧ windowTree.size = 5 ∧ windowTree.Uncircled 3 ∧
      Finishes (windowTree.readWithin 5 3 : Access Machine Value) ∧
      ((windowTree.readWithin 5 3).runOn ({} : Machine)).1 = .ok 7 ∧
      windowTree.Indexes 4 4 ∧
      ∀ depth (m : Machine), (windowTree.readWithin depth 4).runOn m = (.error .unfinished, m) := by
  have hr : Reachable windowTree := .pass .empty _
  have hsize : windowTree.size = 5 := by decide +kernel
  have hloop : windowTree.Indexes 4 4 := ⟨_, _, rfl, rfl, by decide +kernel⟩
  have hwindow_lt : 3 < windowTree.size := hsize ▸ by decide
  have hloop_lt : 4 < windowTree.size := hsize ▸ by decide
  obtain ⟨hfinish, -⟩ := accesses_finish hr hwindow_lt Machine
  obtain ⟨-, hcircle, -⟩ := accesses_finish hr hloop_lt Machine
  exact ⟨hr, hsize, uncircled_windowTree,
    (hfinish uncircled_windowTree 5 (Nat.le_of_eq hsize)).1, by decide +kernel, hloop,
    fun depth m => (hcircle 4 .refl (.single hloop) depth m).1⟩

/-- An indirect field that has itself for its index and its data. -/
def loopTree : Tree :=
  ([.field "loop" ⟨.int none, .indirect { indexPath := "loop", index := 0, dataPath := "loop" }⟩]
    |>.foldl Draft.after (.ofTree empty)).tree

/-- All fields of the tree are indirect, and no bound is large enough for an access to come to an
end within it. -/
theorem loopTree_never_finishes :
    Reachable loopTree ∧ 1 < loopTree.size ∧
      (∀ id f, loopTree.entry id = .field f → ∃ i, f.source = .indirect i) ∧
      ∀ depth (m : Machine), (loopTree.readWithin depth 1).runOn m = (.error .unfinished, m) ∧
        ∀ v, (loopTree.writeWithin depth 1 v).runOn m = (.error .unfinished, m) := by
  have hr : Reachable loopTree := .pass .empty _
  have hsize : loopTree.size = 2 := by decide +kernel
  have hloop : loopTree.Indexes 1 1 := ⟨_, _, rfl, rfl, by decide +kernel⟩
  refine ⟨hr, hsize ▸ by decide, fun id f hf => ?_, fun depth m =>
    unfinished_of_circle depth m .refl (.single hloop)⟩
  have hid : id < loopTree.size := lt_size_of_entry_ne fun s hs => by rw [hf] at hs; cases hs
  rw [hsize] at hid
  rcases Nat.le_one_iff_eq_zero_or_eq_one.1 (Nat.le_of_lt_succ hid) with rfl | rfl
  · cases hf
  · cases hf
    exact ⟨_, rfl⟩

end RegisterAtlas.Tree
