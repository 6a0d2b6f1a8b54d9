/-! # Actions

An action changes a state and ends with a result or an error. The state reached before an error is
kept: what a device did is not undone. -/

namespace RegisterAtlas

abbrev Action (ε σ α : Type) := ExceptT ε (StateM σ) α

namespace Action

variable {ε ε' σ α β : Type}

/-- The outcome of an action and the state that it leaves. -/
def runOn (a : Action ε σ α) (s : σ) : Except ε α × σ := a s

def mapError (f : ε → ε') (a : Action ε σ α) : Action ε' σ α := fun s =>
  match a s with
  | (.ok x, s') => (.ok x, s')
  | (.error e, s') => (.error (f e), s')

/-- A result that needs no state. -/
def ofExcept (r : Except ε α) : Action ε σ α := fun s => (r, s)

@[simp] theorem runOn_pure (x : α) (s : σ) : (pure x : Action ε σ α).runOn s = (.ok x, s) := rfl

@[simp] theorem runOn_throw (e : ε) (s : σ) :
    (throw e : Action ε σ α).runOn s = (.error e, s) := rfl

@[simp] theorem runOn_ofExcept (r : Except ε α) (s : σ) : (ofExcept r).runOn s = (r, s) := rfl

theorem runOn_bind (a : Action ε σ α) (f : α → Action ε σ β) (s : σ) :
    (a >>= f).runOn s =
      match a.runOn s with
      | (.ok x, s') => (f x).runOn s'
      | (.error e, s') => (.error e, s') := by
  show ExceptT.bindCont f (a s).1 (a s).2 = _
  simp only [runOn]
  rcases a s with ⟨_ | _, _⟩ <;> rfl

theorem runOn_mapError (f : ε → ε') (a : Action ε σ α) (s : σ) :
    (a.mapError f).runOn s =
      match a.runOn s with
      | (.ok x, s') => (.ok x, s')
      | (.error e, s') => (.error (f e), s') := rfl

theorem ext_runOn {a b : Action ε σ α} (h : ∀ s, a.runOn s = b.runOn s) : a = b := funext h

theorem throw_bind (e : ε) (k : α → Action ε σ β) :
    (throw e : Action ε σ α) >>= k = throw e := rfl

theorem mapError_pure (f : ε → ε') (x : α) : (pure x : Action ε σ α).mapError f = pure x := rfl

theorem mapError_bind (f : ε → ε') (a : Action ε σ α) (k : α → Action ε σ β) :
    (a >>= k).mapError f = a.mapError f >>= fun x => (k x).mapError f := by
  apply ext_runOn
  intro s
  rw [runOn_mapError, runOn_bind, runOn_bind, runOn_mapError]
  rcases a.runOn s with ⟨_ | x, s'⟩
  · rfl
  · exact (runOn_mapError f (k x) s').symm

end Action

end RegisterAtlas
