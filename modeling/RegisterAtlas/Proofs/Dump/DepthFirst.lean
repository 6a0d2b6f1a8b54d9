import RegisterAtlas.Proofs.Access.Circles
import RegisterAtlas.Proofs.Dump.Accesses
import RegisterAtlas.Proofs.Resolve.PathOf

/-!
# Dumps in depth-first order

A dump descends from an attached entry, meets each leaf once, and shows it under a path that leads
back to it. It comes to an end where no field goes round in a circle of fields. Nothing looks out
for circles though, and the dump of an indirect field that is its own index never ends.
-/

namespace RegisterAtlas.Tree

open Access Relation

variable {t : Tree} {top : EntryId}

/-- The leaves below an attached entry are found at their paths. -/
theorem Attached.resolveText_pathOf_leaf (hw : t.WellFormed) (ha : t.Addressable)
    (h : t.Attached top) : ∀ id ∈ t.leaves top,
      t.resolveText root (t.pathOf id) = .ok (some id) := by
  intro id hid
  have hbelow := ((hw.mem_leaves_iff top).1 hid).2
  exact (h.of_below hw hbelow).resolveText_pathOf hw ha

/-- No two leaves below an attached entry have one path. -/
theorem Attached.nodup_pathOf_leaves (hw : t.WellFormed) (ha : t.Addressable)
    (h : t.Attached top) : ((t.leaves top).map t.pathOf).Nodup := by
  have hfound := h.resolveText_pathOf_leaf hw ha
  refine (List.nodup_map_iff_inj_on (hw.nodup_leaves top)).2 fun id hid id' hid' hpath => ?_
  have hsame := hfound id hid
  rw [hpath, hfound id' hid'] at hsame
  exact (Option.some.inj (Except.ok.inj hsame)).symm

/-- The dump of an entry, unless it is cut short, goes through the leaves below it. -/
theorem dumps_dumpWithin {σ : Type} [Bus σ] (hw : t.WellFormed) (top : EntryId) {depth : Nat}
    {s : σ} (h : ((t.dumpWithin depth top).runOn s).1 ≠ .error .unfinished) :
    t.Dumps depth (t.leaves top) s ((t.dumpWithin depth top).runOn s).1
      ((t.dumpWithin depth top).runOn s).2 :=
  dumps_mapM _ (fun _ hid => ((hw.mem_leaves_iff top).1 hid).1) s h

/-! ## Dumps that end and dumps that do not -/

theorem finishes_dumpWithin {σ : Type} [Bus σ] (hw : t.WellFormed)
    (hfree : ∀ id ∈ t.leaves top, t.Uncircled id) {depth : Nat} (hdepth : t.size ≤ depth) :
    Finishes (t.dumpWithin depth top : Access σ (List DumpEntry)) := by
  refine dumpWithin_composes finishes_composes depth depth fun id hid => ?_
  have hleaf := ((hw.mem_leaves_iff top).1 hid).1
  have hlt := lt_size_of_entry_ne fun s hs => by rw [hs] at hleaf; cases hleaf
  exact (hw.finishes_of_uncircled hlt (hfree id hid) hdepth).1

theorem runOn_dumpWithin_of_le {σ : Type} [Bus σ] {depth depth' : Nat} (hle : depth ≤ depth')
    {s : σ} (h : ((t.dumpWithin depth top).runOn s).1 ≠ .error .unfinished) :
    (t.dumpWithin depth' top).runOn s = (t.dumpWithin depth top).runOn s :=
  dumpWithin_composes completedBy_composes depth depth'
    (fun id _ => (t.completedBy_of_le hle id).1) s h

/-- A field that needs no others is read without circles. -/
theorem uncircled_of_isPlain {id : EntryId} (h : ∀ f, t.entry id = .field f → f.source.IsPlain) :
    t.Uncircled id := by
  refine .of_not_uses ?_
  rintro b ⟨f, p, path, hf, hp, -⟩
  have hplain := h f hf
  generalize f.source = source at hplain hp
  cases hplain <;> cases hp

/-- The leaves are those of a descent along the children of scopes and the items of arrays, which
meets each field and each alias below an entry once and does not follow aliases. A dump that comes
to its end has gone through them in this order: it ends at the first field that fails, and otherwise
has one entry for each, at whose path the leaf is found. How deep accesses may nest changes nothing
then. A dump does come to its end, whatever the registers hold, where no field goes round in a
circle; and if no field is computed, all that it does is to read each register part once. -/
theorem dump_depthFirst (h : Reachable t) (htop : t.Attached top) :
    ((∀ id, t.leaves id =
        match t.entry id with
        | .field _ | .alias _ => [id]
        | .scope s => s.children.values.flatMap t.leaves
        | .array items => items.ids.flatMap t.leaves) ∧
      (t.leaves top).Nodup ∧
      ∀ id, id ∈ t.leaves top ↔ (t.entry id).IsLeaf ∧ t.Below top id) ∧
    (∀ (σ : Type) [Bus σ] depth (s : σ),
      ((t.dumpWithin depth top).runOn s).1 ≠ .error .unfinished → ∃ r s',
        (∀ depth', depth ≤ depth' → (t.dumpWithin depth' top).runOn s = (r, s')) ∧
        t.Dumps depth (t.leaves top) s r s' ∧
        ∀ entries, r = .ok entries → entries.map DumpEntry.path = (t.leaves top).map t.pathOf) ∧
    ((∀ id ∈ t.leaves top, t.Uncircled id) → ∀ (σ : Type) [Bus σ] depth, t.size ≤ depth →
      Finishes (t.dumpWithin depth top : Access σ (List DumpEntry))) ∧
    (t.Addressable →
      (∀ id ∈ t.leaves top, t.resolveText root (t.pathOf id) = .ok (some id)) ∧
      ((t.leaves top).map t.pathOf).Nodup) ∧
    ((∀ id ∈ t.leaves top, ∀ f, t.entry id = .field f → f.source.IsPlain) →
      (∀ id ∈ t.leaves top, t.Uncircled id) ∧
      ∀ (σ : Type) [Bus σ] depth, 1 ≤ depth →
        Recorded.Records (t.dumpWithin depth top : Access (Recorded σ) (List DumpEntry))
          (t.dumpWithin depth top) (ReadsOnce ((t.leaves top).flatMap t.ranges))) := by
  have hw := h.wellFormed
  refine ⟨⟨hw.leaves_eq, hw.nodup_leaves top, fun id => hw.mem_leaves_iff top⟩,
    fun σ _ depth s hends => ?_, fun hfree σ _ depth hdepth => finishes_dumpWithin hw hfree hdepth,
    fun ha => ?_, fun hplain => ⟨fun id hid => uncircled_of_isPlain (hplain id hid),
      fun σ _ depth hdepth => ?_⟩⟩
  · have hdumps := dumps_dumpWithin hw top hends
    exact ⟨_, _, fun depth' hle => runOn_dumpWithin_of_le hle hends, hdumps,
      fun entries hr => (hr ▸ hdumps).map_path⟩
  · exact ⟨htop.resolveText_pathOf_leaf hw ha, htop.nodup_pathOf_leaves hw ha⟩
  · obtain ⟨depth, rfl⟩ := Nat.exists_eq_add_of_le' hdepth
    exact readsOnce_mapM _ (fun id hid => ((hw.mem_leaves_iff top).1 hid).1) hplain depth

/-- Here the scope `dev`, which shows a register, is followed by an alias of it, and an array has
been defined in it before a constant. -/
def boardTree : Tree :=
  ([.openScope "dev" (some (.simulated "dev")), .register "%ctl" 0 .w8, .alias "id[]" "%ctl",
    .field "rev" (.constant (.int none) 3), .closeScope, .alias "cur" "dev"].foldl Draft.after
    (.ofTree empty)).tree

theorem boardTree_isPlain :
    ∀ id ∈ boardTree.leaves root, ∀ f, boardTree.entry id = .field f → f.source.IsPlain := by
  have hleaves : boardTree.leaves root = [2, 4, 5, 6] := by decide +kernel
  rw [hleaves]
  simp only [List.forall_mem_cons, List.not_mem_nil, false_implies, implies_true, and_true]
  refine ⟨?_, ?_, ?_, ?_⟩ <;> rintro f ⟨⟩
  · refine .direct fun part hpart => ?_
    rw [List.mem_singleton.1 hpart]
    exact .of_width_lt (by decide)
  · exact .constant

/-- The one register is read once. -/
theorem dump_depthFirst_boardTree :
    Reachable boardTree ∧ boardTree.Attached root ∧
    boardTree.leaves root = [2, 4, 5, 6] ∧ (boardTree.leaves root).Nodup ∧
    ((boardTree.dump root).runOn ({} : Machine)).1 =
      .ok [.field "/dev/%ctl" "0x00", .alias "/dev/id[0]" "%ctl", .field "/dev/rev" "3",
        .alias "/cur" "dev"] ∧
    (∀ id ∈ boardTree.leaves root,
      boardTree.resolveText root (boardTree.pathOf id) = .ok (some id)) ∧
    Finishes (boardTree.dump root : Access Machine (List DumpEntry)) ∧
    Recorded.Records (boardTree.dump root : Access (Recorded Machine) (List DumpEntry))
      (boardTree.dump root) (ReadsOnce [⟨⟨.simulated "dev", 0, .w8⟩, 0, 8⟩]) := by
  have hr : Reachable boardTree := .pass .empty _
  have ha : boardTree.Addressable := hr.wellFormed.addressable (by decide +kernel)
  obtain ⟨⟨-, hnodup, -⟩, -, hfinish, hpaths, hplain⟩ := dump_depthFirst hr .of_root
  obtain ⟨hfree, hreads⟩ := hplain boardTree_isPlain
  have hroom : 1 ≤ boardTree.maxNesting := Nat.le_trans (by decide) (Nat.le_add_left 4096 _)
  exact ⟨hr, .of_root, by decide +kernel, hnodup, by rfl, (hpaths ha).1,
    hfinish hfree Machine _ (Nat.le_add_right _ _), hreads Machine _ hroom⟩

/-- The dump of a field that has itself for its index is never through with its first leaf, whatever
bound there is on accesses in each other. -/
theorem dump_loopTree :
    Reachable loopTree ∧ loopTree.Attached root ∧ loopTree.leaves root = [1] ∧
      ∀ depth (m : Machine),
        (loopTree.dumpWithin depth root).runOn m = (.error .unfinished, m) := by
  have hr : Reachable loopTree := .pass .empty _
  have hleaves : loopTree.leaves root = [1] := by decide +kernel
  have hloop : loopTree.Indexes 1 1 := ⟨_, _, rfl, rfl, by decide +kernel⟩
  refine ⟨hr, .of_root, hleaves, fun depth m => ?_⟩
  have hread := (unfinished_of_circle depth m .refl (.single hloop)).1
  have hvalue : (loopTree.evaluateWithin depth 1).runOn m = (.error .unfinished, m) := by
    rw [evaluateWithin, Action.runOn_bind, hread]
  have hfield : loopTree.entry 1 = .field _ := rfl
  rw [dumpWithin, hleaves, runOn_mapM_dumpLeafWithin, runOn_dumpLeafWithin_field hfield, hvalue]
  rfl

end RegisterAtlas.Tree
