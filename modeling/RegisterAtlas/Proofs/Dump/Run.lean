import RegisterAtlas.Proofs.Access.Bound
import RegisterAtlas.Proofs.Tree.Leaves

/-!
# The run of a dump

A dump evaluates fields one after the other, and each evaluation may change the state of the bus,
also one that fails. `Dumps` says how states and entries follow from each other along a list of
leaves, and that nothing happens behind the first failure. An error is given the path of the field
at which the dump ends, unless it names a place already.

A dump is cut short by the bound on nested accesses where one of its evaluations is, and nowhere
else (`dumpWithin_composes`).
-/

namespace RegisterAtlas

/-- How an error names the place where it arose. -/
inductive Error.Located (path : String) : Error → Error → Prop where
  | here {e : Error} (h : ∀ place source, e ≠ .located place source) (h' : e ≠ .access .overflow) :
      Located path e (.located path e)
  | already {place : String} {source : Error} :
      Located path (.located place source) (.located place source)
  | overflow : Located path (.access .overflow) (.access .overflow)

theorem Error.located_locate (path : String) (e : Error) : Located path e (e.locate path) := by
  cases e with
  | located place source => exact .already
  | access fault =>
      cases fault with
      | overflow => exact .overflow
      | _ => exact .here (by rintro place source ⟨⟩) (by rintro ⟨⟩)
  | _ => exact .here (by rintro place source ⟨⟩) (by rintro ⟨⟩)

namespace Tree

variable {σ : Type} [Bus σ] {t : Tree} {depth : Nat}

/-- `t.Dumps depth ids s r s'`: from the state `s` on, the dump of some leaves ends with `r` in the
state `s'`. An alias shows its target. A field shows what it evaluates to in the state that it is
met in, and the first that fails to is the last one. -/
inductive Dumps (t : Tree) (depth : Nat) :
    List EntryId → σ → Except Halt (List DumpEntry) → σ → Prop where
  | done {s : σ} : Dumps t depth [] s (.ok []) s
  | alias {id : EntryId} {target : String} {ids : List EntryId} {s s' : σ}
      {r : Except Halt (List DumpEntry)} (h : t.entry id = .alias target)
      (hrest : Dumps t depth ids s r s') :
      Dumps t depth (id :: ids) s (r.map (.alias (t.pathOf id) target :: ·)) s'
  | field {id : EntryId} {f : Field} {value : String} {ids : List EntryId} {s s₁ s' : σ}
      {r : Except Halt (List DumpEntry)} (h : t.entry id = .field f)
      (hvalue : (t.evaluateWithin depth id).runOn s = (.ok value, s₁))
      (hrest : Dumps t depth ids s₁ r s') :
      Dumps t depth (id :: ids) s (r.map (.field (t.pathOf id) value :: ·)) s'
  | failed {id : EntryId} {f : Field} {e e' : Error} {ids : List EntryId} {s s' : σ}
      (h : t.entry id = .field f)
      (hvalue : (t.evaluateWithin depth id).runOn s = (.error (.error e), s'))
      (he : Error.Located (t.pathOf id) e e') : Dumps t depth (id :: ids) s (.error (.error e')) s'

section

variable {id : EntryId} {s : σ}

theorem dumpLeafWithin_alias {target : String} (h : t.entry id = .alias target) :
    (t.dumpLeafWithin depth id : Access σ DumpEntry) = pure (.alias (t.pathOf id) target) := by
  have htarget : t.alias? id = some target := by rw [alias?, h]
  unfold dumpLeafWithin
  rw [htarget]

theorem dumpLeafWithin_field {f : Field} (h : t.entry id = .field f) :
    (t.dumpLeafWithin depth id : Access σ DumpEntry) = (do
      pure (.field (t.pathOf id)
        (← (t.evaluateWithin depth id).mapError (·.locate (t.pathOf id))))) := by
  have hnone : t.alias? id = none := by rw [alias?, h]
  unfold dumpLeafWithin
  rw [hnone]

theorem runOn_dumpLeafWithin_field {f : Field} (h : t.entry id = .field f) :
    (t.dumpLeafWithin depth id).runOn s =
      match (t.evaluateWithin depth id).runOn s with
      | (.ok value, s₁) => (.ok (.field (t.pathOf id) value), s₁)
      | (.error halt, s₁) => (.error (halt.locate (t.pathOf id)), s₁) := by
  rw [dumpLeafWithin_field h, Action.runOn_bind, Action.runOn_mapError]
  rcases (t.evaluateWithin depth id).runOn s with ⟨_ | _, s₁⟩ <;> rfl

theorem runOn_mapM_dumpLeafWithin (ids : List EntryId) :
    ((id :: ids).mapM (t.dumpLeafWithin depth)).runOn s =
      match (t.dumpLeafWithin depth id).runOn s with
      | (.ok entry, s₁) =>
          (((ids.mapM (t.dumpLeafWithin depth)).runOn s₁).1.map (entry :: ·),
            ((ids.mapM (t.dumpLeafWithin depth)).runOn s₁).2)
      | (.error halt, s₁) => (.error halt, s₁) := by
  rw [List.mapM_cons, Action.runOn_bind]
  rcases (t.dumpLeafWithin depth id).runOn s with ⟨_ | entry, s₁⟩
  · rfl
  · simp only [Action.runOn_bind]
    rcases (ids.mapM (t.dumpLeafWithin depth)).runOn s₁ with ⟨_ | _, s₂⟩ <;> rfl

end

/-- A dump that is not cut short goes through its leaves. -/
theorem dumps_mapM (ids : List EntryId) (hids : ∀ id ∈ ids, (t.entry id).IsLeaf) (s : σ)
    (h : ((ids.mapM (t.dumpLeafWithin depth)).runOn s).1 ≠ .error .unfinished) :
    t.Dumps depth ids s ((ids.mapM (t.dumpLeafWithin depth)).runOn s).1
      ((ids.mapM (t.dumpLeafWithin depth)).runOn s).2 := by
  induction ids generalizing s with
  | nil => exact .done
  | cons id ids ih =>
      have ih := ih fun i hi => hids i (List.mem_cons_of_mem id hi)
      have hrest : ∀ {entry : DumpEntry} {r : Except Halt (List DumpEntry)},
          r.map (entry :: ·) ≠ .error .unfinished → r ≠ .error .unfinished := by
        rintro entry r hr rfl
        exact hr rfl
      rw [runOn_mapM_dumpLeafWithin] at h ⊢
      have hleaf := hids id List.mem_cons_self
      generalize he : t.entry id = e at hleaf
      cases hleaf with
      | «alias» =>
          rw [dumpLeafWithin_alias he, Action.runOn_pure] at h ⊢
          exact .alias he (ih s (hrest h))
      | field =>
          rw [runOn_dumpLeafWithin_field he] at h ⊢
          cases hvalue : (t.evaluateWithin depth id).runOn s with
          | mk answer s₁ =>
          rw [hvalue] at h
          cases answer with
          | ok value => exact .field he hvalue (ih s₁ (hrest h))
          | error halt =>
          cases halt with
          | error e => exact .failed he hvalue (Error.located_locate _ e)
          | unfinished => exact absurd rfl h

/-! ## Evaluations put together -/

section

open Access

variable {R : (α : Type) → Access σ α → Access σ α → Prop} {depth' : Nat}

theorem evaluateWithin_composes (hR : Composes R) {id : EntryId}
    (h : R Value (t.readWithin depth id) (t.readWithin depth' id)) :
    R String (t.evaluateWithin depth id) (t.evaluateWithin depth' id) :=
  hR.bind h fun _ => hR.ofExcept_bind fun _ _ => hR.pure _

/-- A dump makes no accesses but those of its leaves. -/
theorem dumpWithin_composes (hR : Composes R) (depth depth' : Nat) {top : EntryId}
    (h : ∀ id ∈ t.leaves top, R Value (t.readWithin depth id) (t.readWithin depth' id)) :
    R (List DumpEntry) (t.dumpWithin depth top) (t.dumpWithin depth' top) := by
  unfold dumpWithin
  generalize t.leaves top = ids at h
  induction ids with
  | nil => exact hR.pure []
  | cons id ids ih =>
      obtain ⟨hid, hids⟩ := List.forall_mem_cons.1 h
      rw [List.mapM_cons, List.mapM_cons]
      refine hR.bind ?_ fun entry => hR.bind (ih hids) fun rest => hR.pure _
      unfold dumpLeafWithin
      cases t.alias? id with
      | some target => exact hR.pure _
      | none => exact hR.bind (hR.locate _ (evaluateWithin_composes hR hid)) fun _ => hR.pure _

end

/-- A dump that comes to its end has one entry for each leaf. -/
theorem Dumps.map_path {ids : List EntryId} {s s' : σ} {entries : List DumpEntry}
    (h : t.Dumps depth ids s (.ok entries) s') : entries.map DumpEntry.path = ids.map t.pathOf := by
  generalize hr : (Except.ok entries : Except Halt (List DumpEntry)) = r at h
  induction h generalizing entries with
  | done =>
      cases hr
      rfl
  | @«alias» id target ids s s' r h hrest ih =>
      cases r with
      | error halt => cases hr
      | ok rest =>
          cases hr
          rw [List.map_cons, List.map_cons, ih rfl, DumpEntry.path]
  | @field id f value ids s s₁ s' r h hvalue hrest ih =>
      cases r with
      | error halt => cases hr
      | ok rest =>
          cases hr
          rw [List.map_cons, List.map_cons, ih rfl, DumpEntry.path]
  | failed => cases hr

end Tree

end RegisterAtlas
