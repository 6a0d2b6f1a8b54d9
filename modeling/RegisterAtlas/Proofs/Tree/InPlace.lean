import RegisterAtlas.Action
import RegisterAtlas.Proofs.Tree.Addition

/-!
# Additions in place

A tree that is changed in place keeps what was done to it before a failure. `addSteps` adds an
entry in this way, check by check and change by change, and makes every check where it is made,
also between changes. It still is one step that happens as a whole or not at all: the checks that
come after a change repeat one that has been passed.
-/

namespace RegisterAtlas

/-! ## Kinds of steps -/

namespace Action

variable {ε σ α : Type}

/-- Looks at the state, and may fail. -/
def look (f : σ → Except ε α) : Action ε σ α := fun s => (f s, s)

/-- Changes the state, and does not fail. -/
def change (f : σ → α × σ) : Action ε σ α := fun s => (.ok (f s).1, (f s).2)

/-- Changes the state as a whole or, on failure, not at all. -/
def commit (f : σ → Except ε (α × σ)) : Action ε σ α := fun s =>
  match f s with
  | .ok (x, s') => (.ok x, s')
  | .error e => (.error e, s)

@[simp] theorem runOn_look (f : σ → Except ε α) (s : σ) : (look f).runOn s = (f s, s) := rfl

@[simp] theorem runOn_change (f : σ → α × σ) (s : σ) :
    (change f : Action ε σ α).runOn s = (.ok (f s).1, (f s).2) := rfl

theorem runOn_commit (f : σ → Except ε (α × σ)) (s : σ) :
    (commit f).runOn s =
      match f s with
      | .ok (x, s') => (.ok x, s')
      | .error e => (.error e, s) := rfl

end Action

namespace Tree

open RegisterAtlas.Action

/-! ## Steps of an addition -/

/-- Checks that an entry is an array of a kind. -/
def requireArray (t : Tree) (id : EntryId) (name : String) (kind : Kind) :
    Except Error EntryId :=
  match t.entry id with
  | .array items =>
      if items.kind = kind then .ok id
      else .error (.conversion name (.otherArray kind items.kind))
  | e => .error (.conversion name (.notArray e.kind))

/-- Allocates an entry and lists it in its scope, which is looked up again for that. -/
def childSteps (scope : EntryId) (name : String) (e : Entry) : Action Error Tree EntryId := do
  let id ← change (·.alloc scope e)
  let _ ← look (·.requireScope scope)
  change fun t => (id, t.setChild scope name id)

/-- Finds the array of a name, or else makes one. -/
def arraySteps (scope : EntryId) (s : Scope) (name : String) (kind : Kind) :
    Action Error Tree EntryId :=
  match s.children.get? name with
  | some child => look (·.requireArray child name kind)
  | none => childSteps scope name (.array ⟨kind, []⟩)

/-- Allocates an entry and makes it the last item of an array. -/
def itemSteps (array scope : EntryId) (e : Entry) : Action Error Tree EntryId := do
  let id ← change (·.alloc scope e)
  change fun t => (id, t.pushItem array id)

/-- Adds an entry in place. -/
def addSteps (scope : EntryId) (name : String) (e : Entry) : Action Error Tree EntryId := do
  match ← Action.ofExcept (Element.ofText name) with
  | .name n =>
      let _ ← look (·.requireScope scope)
      childSteps scope n e
  | .indexed n .append =>
      let s ← look (·.requireScope scope)
      let array ← arraySteps scope s n e.kind
      itemSteps array scope e
  | .indexed .. => throw (.invalidPath name .indexedInsertion)
  | .parent | .bookmark _ => throw (.invalidPath name .notEntryName)

def bookmarkSteps (scope : EntryId) (name : String) : Action Error Tree Unit := do
  let s ← look (·.requireScope scope)
  if name ∈ s.bookmarks then pure ()
  else change fun t =>
    ((), t.updateScope scope fun s => { s with bookmarks := s.bookmarks ++ [name] })

def datatypeSteps (scope : EntryId) (name : String) (datatype : Datatype) :
    Action Error Tree Unit := do
  let _ ← look (·.requireScope scope)
  change fun t =>
    ((), t.updateScope scope fun s => { s with datatypes := s.datatypes.insert name datatype })

variable {t : Tree} {scope : EntryId} {name : String} {e : Entry} {s : Scope}

/-- The scope is still one after the allocation. -/
theorem runOn_childSteps (hs : t.entry scope = .scope s) (hlt : scope < t.size) :
    (childSteps scope name e).runOn t =
      (.ok t.size, (t.alloc scope e).2.setChild scope name t.size) := by
  have hagain : (t.alloc scope e).2.requireScope scope = .ok s := by
    rw [requireScope_eq_ok_iff, entry_alloc_of_lt hlt, hs]
  simp only [childSteps, runOn_bind, runOn_change, runOn_look, hagain]
  rfl

theorem runOn_arraySteps {kind : Kind} (hs : t.entry scope = .scope s) (hlt : scope < t.size) :
    (arraySteps scope s name kind).runOn t = (commit (·.arrayFor scope s name kind)).runOn t := by
  unfold arraySteps
  rw [runOn_commit, arrayFor]
  cases hc : s.children.get? name with
  | none => exact runOn_childSteps hs hlt
  | some child =>
      simp only [runOn_look, requireArray]
      cases t.entry child with
      | array items => by_cases hk : items.kind = kind <;> simp only [hk, if_true, if_false]
      | _ => rfl

/-- An addition in place fails before it changes anything. -/
theorem runOn_addSteps (hlt : scope < t.size) :
    (addSteps scope name e).runOn t = (commit (·.add scope name e)).runOn t := by
  rw [runOn_commit]
  unfold addSteps add
  rw [runOn_bind, runOn_ofExcept]
  cases Element.ofText name with
  | error err => rfl
  | ok el =>
      cases el with
      | name n =>
          simp only [runOn_bind, runOn_look]
          cases hs : t.requireScope scope with
          | error err => rfl
          | ok s => exact runOn_childSteps (requireScope_eq_ok_iff.1 hs) hlt
      | indexed n index =>
          cases index with
          | append =>
              simp only [runOn_bind, runOn_look]
              cases hs : t.requireScope scope with
              | error err => rfl
              | ok s =>
                  simp only [runOn_arraySteps (requireScope_eq_ok_iff.1 hs) hlt, runOn_commit]
                  cases ha : t.arrayFor scope s n e.kind with
                  | error err => simp only [ha, bind, Except.bind]
                  | ok found =>
                      simp only [ha, bind, Except.bind]
                      rfl
          | pos _ | fromEnd _ => rfl
      | parent | bookmark _ => rfl

theorem runOn_bookmarkSteps :
    (bookmarkSteps scope name).runOn t =
      (commit fun t => (t.addBookmark scope name).map ((), ·)).runOn t := by
  rw [runOn_commit]
  unfold bookmarkSteps addBookmark
  simp only [runOn_bind, runOn_look]
  cases t.requireScope scope with
  | error err => rfl
  | ok s =>
      by_cases hname : name ∈ s.bookmarks
      · simp only [bind, Except.bind, if_pos hname]
        rfl
      · simp only [bind, Except.bind, if_neg hname]
        rfl

theorem runOn_datatypeSteps {datatype : Datatype} :
    (datatypeSteps scope name datatype).runOn t =
      (commit fun t => (t.addDatatype scope name datatype).map ((), ·)).runOn t := by
  rw [runOn_commit]
  unfold datatypeSteps addDatatype
  simp only [runOn_bind, runOn_look]
  cases t.requireScope scope <;> rfl

end Tree

end RegisterAtlas
