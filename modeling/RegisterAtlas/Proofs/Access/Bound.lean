import RegisterAtlas.Tree.Access

/-!
# The bound on nested accesses

What holds of the accesses that one access makes through paths carries over to the access itself,
for everything that putting accesses together preserves (`Composes`). The fields whose access may be
part of the access to a field are those that the field `Uses`.

The bound on how deep accesses nest has no other effect than to cut them short: one that comes to
its end does the same within every larger bound.
-/

namespace RegisterAtlas

variable {σ α β : Type}

/-! ## What the access to a field is made of -/

namespace Procedure

/-- A path that a procedure accesses, depending on what it has read before, when it runs in a scope
of a tree with `size` entries. -/
inductive Mentions (scope : EntryId) (size : Nat) : Procedure → String → Prop where
  | read {path : String} {next : Value → Procedure} : Mentions scope size (.read path next) path
  | readNext {path other : String} {v : Value} {next : Value → Procedure}
      (h : Mentions scope size (next v) other) : Mentions scope size (.read path next) other
  | write {path : String} {v : Value} {next : Procedure} :
      Mentions scope size (.write path v next) path
  | writeNext {path other : String} {v : Value} {next : Procedure}
      (h : Mentions scope size next other) : Mentions scope size (.write path v next) other
  | poll {path : String} {mask expected : Value} {next : Value → Procedure} :
      Mentions scope size (.poll path mask expected next) path
  | pollNext {path other : String} {mask expected v : Value} {next : Value → Procedure}
      (h : Mentions scope size (next v) other) :
      Mentions scope size (.poll path mask expected next) other
  | locate {other : String} {next : EntryId → Nat → Procedure}
      (h : Mentions scope size (next scope size) other) : Mentions scope size (.locate next) other

end Procedure

/-- A procedure that is run for an access to a field with this source. -/
inductive Source.Runs : Source → Procedure → Prop where
  | readIndirect {i : Indirect} : Runs (.indirect i) i.readProcedure
  | writeIndirect {i : Indirect} {v : Value} : Runs (.indirect i) (i.writeProcedure v)
  | read {read : Procedure} {write : Option (Value → Procedure)} : Runs (.computed read write) read
  | write {read : Procedure} {write : Value → Procedure} {v : Value} :
      Runs (.computed read (some write)) (write v)

/-- An indirect field accesses its index, its data and its ready flag. -/
theorem Source.Runs.mentions_of_indirect {i : Indirect} {p : Procedure} {scope : EntryId}
    {size : Nat} {path : String} (hp : Runs (.indirect i) p) (h : p.Mentions scope size path) :
    path = i.indexPath ∨ path = i.dataPath ∨ ∃ mask, i.ready = some (path, mask) := by
  have hawait : ∀ next, (i.awaitReady next).Mentions scope size path →
      next.Mentions scope size path ∨ ∃ mask, i.ready = some (path, mask) := by
    intro next hnext
    unfold Indirect.awaitReady at hnext
    split at hnext
    · next ready mask hready =>
        cases hnext with
        | poll => exact .inr ⟨mask, hready⟩
        | pollNext hnext => exact .inl hnext
    · exact .inl hnext
  cases hp with
  | readIndirect =>
      cases h with
      | write => exact .inl rfl
      | writeNext h =>
          rcases hawait _ h with h | hready
          · cases h with
            | read => exact .inr (.inl rfl)
            | readNext h => cases h
          · exact .inr (.inr hready)
  | writeIndirect =>
      cases h with
      | write => exact .inl rfl
      | writeNext h =>
          cases h with
          | write => exact .inr (.inl rfl)
          | writeNext h =>
              rcases hawait _ h with h | hready
              · cases h
              · exact .inr (.inr hready)

/-- `t.Uses a b`: an access to the field `a` may access `b` through a path. -/
def Tree.Uses (t : Tree) (a b : EntryId) : Prop :=
  ∃ f p path, t.entry a = .field f ∧ f.source.Runs p ∧ p.Mentions (t.parent a) t.size path ∧
    t.target (t.parent a) path = .ok b

/-! ## Putting accesses together -/

namespace Access

/-- Two ways to make accesses are related by `R` if the accesses that they are put together from
are. -/
structure Composes (R : (α : Type) → Access σ α → Access σ α → Prop) : Prop where
  pure {α : Type} (x : α) : R α (pure x) (pure x)
  throw {α : Type} (e : Error) : R α (throw (.error e)) (throw (.error e))
  ofFault {α : Type} (a : Action Fault σ α) : R α (ofFault a) (ofFault a)
  bind {α β : Type} {a a' : Access σ α} {k k' : α → Access σ β} (h : R α a a')
    (hk : ∀ x, R β (k x) (k' x)) : R β (a >>= k) (a' >>= k')
  locate {α : Type} {a a' : Access σ α} (path : String) (h : R α a a') :
    R α (a.mapError (·.locate path)) (a'.mapError (·.locate path))

/-- What goes on with a result of the tree goes on only if there is one. -/
theorem Composes.ofExcept_bind {R : (α : Type) → Access σ α → Access σ α → Prop} (hR : Composes R)
    {r : Except Error α} {k k' : α → Access σ β} (hk : ∀ x, r = .ok x → R β (k x) (k' x)) :
    R β (ofExcept r >>= k) (ofExcept r >>= k') := by
  cases r with
  | error e => exact hR.throw e
  | ok x =>
      rw [ofExcept_ok, pure_bind, pure_bind]
      exact hk x rfl

end Access

namespace Tree

open Access

variable {t : Tree} {R : (α : Type) → Access σ α → Access σ α → Prop}

section

variable {read read' : EntryId → Access σ Value} {write write' : EntryId → Value → Access σ Unit}

theorem pollWith_composes (hR : Composes R) {once once' : Access σ Value} (h : R Value once once')
    (timeout : Error) (mask expected : Value) (attempts : Nat) :
    R Value (pollWith once timeout mask expected attempts)
      (pollWith once' timeout mask expected attempts) := by
  induction attempts with
  | zero => exact hR.throw timeout
  | succ attempts ih =>
      refine hR.bind h fun v => ?_
      split
      · exact hR.pure v
      · exact ih

theorem pollAt_composes (hR : Composes R) {scope : EntryId} {path : String}
    (h : ∀ b, t.target scope path = .ok b → R Value (read b) (read' b)) (mask expected : Value) :
    R Value (t.pollAt read scope path mask expected) (t.pollAt read' scope path mask expected) :=
  hR.ofExcept_bind fun b hb => pollWith_composes hR (h b hb) _ mask expected t.pollLimit

/-- A procedure makes no accesses but those to what it mentions. -/
theorem run_composes (hR : Composes R) {scope : EntryId} (p : Procedure)
    (h : ∀ path b, p.Mentions scope t.size path → t.target scope path = .ok b →
      R Value (read b) (read' b) ∧ ∀ v, R Unit (write b v) (write' b v)) :
    R Value (t.run scope read write p) (t.run scope read' write' p) := by
  induction p with
  | done v => exact hR.pure v
  | fail e => exact hR.throw e
  | read path next ih =>
      refine hR.ofExcept_bind fun b hb => hR.bind (h path b .read hb).1 fun v => ?_
      exact ih v fun other b hother => h other b (.readNext hother)
  | write path v next ih =>
      refine hR.ofExcept_bind fun b hb => hR.bind ((h path b .write hb).2 v) fun _ => ?_
      exact ih fun other b hother => h other b (.writeNext hother)
  | poll path mask expected next ih =>
      have hpoll := pollAt_composes hR (fun b hb => (h path b .poll hb).1) mask expected
      exact hR.bind hpoll fun v => ih v fun other b hother => h other b (.pollNext hother)
  | locate next ih => exact ih scope t.size fun other b hother => h other b (.locate hother)

end

variable [Bus σ]

theorem readDirect_composes (hR : Composes R) (parts : List Bits) :
    R Value (readDirect parts) (readDirect parts) := by
  unfold readDirect
  generalize (0 : Value) = v
  induction parts generalizing v with
  | nil => exact hR.pure v
  | cons part parts ih =>
      rw [List.foldlM_cons]
      exact hR.bind (hR.bind (hR.ofFault part.read) fun x => hR.pure (v ||| x)) ih

theorem writeDirect_composes (hR : Composes R) (parts : List Bits) (v : Value) :
    R Unit (writeDirect parts v) (writeDirect parts v) := by
  induction parts with
  | nil => exact hR.pure ()
  | cons part parts ih => exact hR.bind (hR.ofFault (part.write v)) fun _ => ih

/-- Accesses to a field within two bounds are related if those to all that it uses are, within
bounds less by one. -/
theorem access_composes (hR : Composes R) (depth depth' : Nat) {id : EntryId}
    (h : ∀ b, t.Uses id b → R Value (t.readWithin depth b) (t.readWithin depth' b) ∧
      ∀ v, R Unit (t.writeWithin depth b v) (t.writeWithin depth' b v)) :
    R Value (t.readWithin (depth + 1) id) (t.readWithin (depth' + 1) id) ∧
      ∀ v, R Unit (t.writeWithin (depth + 1) id v) (t.writeWithin (depth' + 1) id v) := by
  have hrun : ∀ f p, t.requireField id = .ok f → f.source.Runs p →
      R Value (t.run (t.parent id) (t.readWithin depth) (t.writeWithin depth) p)
        (t.run (t.parent id) (t.readWithin depth') (t.writeWithin depth') p) := by
    intro f p hf hp
    have hentry := requireField_eq_ok_iff.1 hf
    exact run_composes hR p fun path b hpath hb => h b ⟨f, p, path, hentry, hp, hpath, hb⟩
  refine ⟨?_, fun v => ?_⟩
  · refine hR.ofExcept_bind fun f hf => ?_
    have hprocedure := hrun f
    cases hsource : f.source with
    | direct parts => exact readDirect_composes hR parts
    | constant v => exact hR.pure v
    | indirect i => exact hprocedure _ hf (hsource ▸ .readIndirect)
    | computed read write => exact hprocedure _ hf (hsource ▸ .read)
  · refine hR.ofExcept_bind fun f hf => ?_
    have hprocedure := hrun f
    cases hsource : f.source with
    | direct parts => exact writeDirect_composes hR parts v
    | constant _ => exact hR.pure ()
    | indirect i =>
        exact hR.bind (hprocedure _ hf (hsource ▸ .writeIndirect)) fun _ => hR.pure ()
    | computed read write =>
        cases write with
        | none => exact hR.throw _
        | some write => exact hR.bind (hprocedure _ hf (hsource ▸ .write)) fun _ => hR.pure ()

end Tree

/-! ## Coming to an end -/

namespace Access

/-- From every state an access ends with a value or an error, and is not cut short by the bound. -/
def Finishes (a : Access σ α) : Prop :=
  ∀ s, (∃ x, (a.runOn s).1 = .ok x) ∨ ∃ e, (a.runOn s).1 = .error (.error e)

/-- The second access does the same as the first one from wherever that one is not cut short. -/
def CompletedBy (a b : Access σ α) : Prop :=
  ∀ s, (a.runOn s).1 ≠ .error .unfinished → b.runOn s = a.runOn s

theorem CompletedBy.trans {a b c : Access σ α} (h : CompletedBy a b) (h' : CompletedBy b c) :
    CompletedBy a c := by
  intro s hs
  have hb := h s hs
  rw [h' s (hb ▸ hs), hb]

theorem finishes_composes : Composes (σ := σ) fun _ a _ => Finishes a where
  pure x s := .inl ⟨x, rfl⟩
  throw e s := .inr ⟨e, rfl⟩
  ofFault a s := by
    rw [ofFault, Action.runOn_mapError]
    split
    · exact .inl ⟨_, rfl⟩
    · exact .inr ⟨_, rfl⟩
  bind {α β a a' k k'} h hk s := by
    rw [Action.runOn_bind]
    rcases h s with ⟨x, hx⟩ | ⟨e, he⟩
    · have hrun : a.runOn s = (.ok x, (a.runOn s).2) := Prod.ext hx rfl
      rw [hrun]
      exact hk x _
    · have hrun : a.runOn s = (.error (.error e), (a.runOn s).2) := Prod.ext he rfl
      rw [hrun]
      exact .inr ⟨e, rfl⟩
  locate {α a a'} path h s := by
    rw [Action.runOn_mapError]
    rcases h s with ⟨x, hx⟩ | ⟨e, he⟩
    · have hrun : a.runOn s = (.ok x, (a.runOn s).2) := Prod.ext hx rfl
      rw [hrun]
      exact .inl ⟨x, rfl⟩
    · have hrun : a.runOn s = (.error (.error e), (a.runOn s).2) := Prod.ext he rfl
      rw [hrun]
      exact .inr ⟨e.locate path, rfl⟩

theorem completedBy_composes : Composes (σ := σ) fun _ a b => CompletedBy a b where
  pure x s _ := rfl
  throw e s _ := rfl
  ofFault a s _ := rfl
  bind {α β a a' k k'} h hk s hs := by
    rw [Action.runOn_bind] at hs
    rw [Action.runOn_bind, Action.runOn_bind]
    split at hs
    · next x s' hx =>
        have hsame := h s (by rw [hx]; rintro ⟨⟩)
        rw [hsame, hx]
        exact hk x s' hs
    · next e s' he =>
        have hsame := h s (by rw [he]; rintro ⟨⟩; exact hs rfl)
        rw [hsame, he]
  locate {α a a'} path h s hs := by
    rw [Action.runOn_mapError] at hs
    rw [Action.runOn_mapError, Action.runOn_mapError, h s]
    intro hcut
    have hrun : a.runOn s = (.error .unfinished, (a.runOn s).2) := Prod.ext hcut rfl
    rw [hrun] at hs
    exact hs rfl

end Access

namespace Tree

open Access

variable [Bus σ]

theorem completedBy_succ (t : Tree) (depth : Nat) : ∀ id : EntryId,
    CompletedBy (t.readWithin depth id : Access σ Value) (t.readWithin (depth + 1) id) ∧
      ∀ v, CompletedBy (t.writeWithin depth id v : Access σ Unit)
        (t.writeWithin (depth + 1) id v) := by
  induction depth with
  | zero => exact fun id => ⟨fun s hs => (hs rfl).elim, fun v s hs => (hs rfl).elim⟩
  | succ depth ih =>
      intro id
      exact access_composes completedBy_composes depth (depth + 1) fun b _ => ih b

/-- Within a larger bound an access does what it does within a smaller one, unless that one cuts it
short. -/
theorem completedBy_of_le (t : Tree) {depth depth' : Nat} (hle : depth ≤ depth') (id : EntryId) :
    CompletedBy (t.readWithin depth id : Access σ Value) (t.readWithin depth' id) ∧
      ∀ v, CompletedBy (t.writeWithin depth id v : Access σ Unit) (t.writeWithin depth' id v) := by
  induction hle with
  | refl => exact ⟨fun s _ => rfl, fun v s _ => rfl⟩
  | @step depth' hle ih =>
      obtain ⟨hread, hwrite⟩ := t.completedBy_succ (σ := σ) depth' id
      exact ⟨ih.1.trans hread, fun v => (ih.2 v).trans (hwrite v)⟩

end Tree

end RegisterAtlas
