import RegisterAtlas.Tree.Resolve

/-! # Access to fields

Reading and writing fields through the registers behind them. The paths in a procedure are resolved
from the scope of its field, wherever the field is reached from.

A procedure may lead back to its own field, so accesses carry a bound on how deep they nest. The
bound stands for the room that a run has for calls within calls and is no rule of the tree: an
access that comes to its end within one bound does the same within every larger one. A run takes one
(`maxNesting`) that is large enough for every access that does not go round in a circle of fields,
and ends as `unfinished` where a real one would go on until its room is used up. -/

namespace RegisterAtlas

/-- Why an access ended without a value: an error, or accesses nested beyond the bound. -/
inductive Halt where
  | error (e : Error)
  | unfinished
deriving DecidableEq, Repr

/-- Adds where an error arose. -/
def Halt.locate (h : Halt) (path : String) : Halt :=
  match h with
  | error e => error (e.locate path)
  | unfinished => unfinished

abbrev Access (σ α : Type) := Action Halt σ α

variable {σ : Type}

/-- A result of the tree itself, without any access. -/
def Access.ofExcept {α : Type} (r : Except Error α) : Access σ α :=
  Action.mapError .error (Action.ofExcept r)

theorem Access.ofExcept_ok {α : Type} (x : α) : (ofExcept (.ok x) : Access σ α) = pure x := rfl

def Access.ofFault {α : Type} (a : Action Fault σ α) : Access σ α :=
  a.mapError fun f => .error (.access f)

namespace Tree

/-- The entry that an access through a path is meant for. -/
def target (t : Tree) (origin : EntryId) (path : String) : Except Error EntryId := do
  match ← t.resolveTextFollow origin path with
  | some id => pure id
  | none => throw (.notFound (.named path))

def requireField (t : Tree) (id : EntryId) : Except Error Field :=
  match t.entry id with
  | .field f => .ok f
  | e => .error (.conversion (t.pathOf id) (.notField e.kind))

theorem requireField_eq_ok_iff {t : Tree} {id : EntryId} {f : Field} :
    t.requireField id = .ok f ↔ t.entry id = .field f := by
  unfold requireField
  cases t.entry id <;> simp

/-- Reads until the bits in `mask` are as expected, at most `attempts` times. -/
def pollWith (read : Access σ Value) (timeout : Error) (mask expected : Value) :
    Nat → Access σ Value
  | 0 => throw (.error timeout)
  | attempts + 1 => do
      let v ← read
      if v &&& mask = expected then pure v
      else pollWith read timeout mask expected attempts

/-- Polls the entry at a path. -/
def pollAt (t : Tree) (read : EntryId → Access σ Value) (origin : EntryId) (path : String)
    (mask expected : Value) : Access σ Value := do
  let id ← Access.ofExcept (t.target origin path)
  pollWith (read id) (.timeout path t.pollLimit) mask expected t.pollLimit

/-- Runs a procedure in a scope, given how entries are read and written. -/
def run (t : Tree) (scope : EntryId) (read : EntryId → Access σ Value)
    (write : EntryId → Value → Access σ Unit) : Procedure → Access σ Value
  | .done v => pure v
  | .fail e => throw (.error e)
  | .read path next => do
      let v ← read (← Access.ofExcept (t.target scope path))
      t.run scope read write (next v)
  | .write path v next => do
      write (← Access.ofExcept (t.target scope path)) v
      t.run scope read write next
  | .poll path mask expected next => do
      let v ← t.pollAt read scope path mask expected
      t.run scope read write (next v)
  | .locate next => t.run scope read write (next scope t.size)

variable [Bus σ]

/-- Reads all parts and combines their bits. -/
def readDirect (parts : List Bits) : Access σ Value :=
  parts.foldlM (fun v part => do pure (v ||| (← Access.ofFault part.read))) 0

/-- Writes a value to every part. -/
def writeDirect (parts : List Bits) (v : Value) : Access σ Unit :=
  parts.forM fun part => Access.ofFault (part.write v)

mutual

/-- Reads a field with at most `depth` accesses nested in each other. -/
def readWithin (t : Tree) : Nat → EntryId → Access σ Value
  | 0, _ => throw .unfinished
  | depth + 1, id => do
      match (← Access.ofExcept (t.requireField id)).source with
      | .direct parts => readDirect parts
      | .constant v => pure v
      | .indirect protocol =>
          t.run (t.parent id) (t.readWithin depth) (t.writeWithin depth) protocol.readProcedure
      | .computed read _ => t.run (t.parent id) (t.readWithin depth) (t.writeWithin depth) read

/-- Writes a field with at most `depth` accesses nested in each other. -/
def writeWithin (t : Tree) : Nat → EntryId → Value → Access σ Unit
  | 0, _, _ => throw .unfinished
  | depth + 1, id, v => do
      match (← Access.ofExcept (t.requireField id)).source with
      | .direct parts => writeDirect parts v
      | .constant _ => pure ()
      | .indirect protocol =>
          let _ ← t.run (t.parent id) (t.readWithin depth) (t.writeWithin depth)
            (protocol.writeProcedure v)
          pure ()
      | .computed _ (some write) =>
          let _ ← t.run (t.parent id) (t.readWithin depth) (t.writeWithin depth) (write v)
          pure ()
      | .computed _ none =>
          throw (.error (.access (.readOnly (t.pathOf (t.parent id)))))

end

theorem readWithin_field {t : Tree} {id : EntryId} {f : Field} (h : t.entry id = .field f)
    (depth : Nat) :
    (t.readWithin (depth + 1) id : Access σ Value) =
      match f.source with
      | .direct parts => readDirect parts
      | .constant v => pure v
      | .indirect protocol =>
          t.run (t.parent id) (t.readWithin depth) (t.writeWithin depth) protocol.readProcedure
      | .computed read _ =>
          t.run (t.parent id) (t.readWithin depth) (t.writeWithin depth) read := by
  rw [readWithin, requireField_eq_ok_iff.2 h]
  rfl

theorem writeWithin_field {t : Tree} {id : EntryId} {f : Field} (h : t.entry id = .field f)
    (depth : Nat) (v : Value) :
    (t.writeWithin (depth + 1) id v : Access σ Unit) =
      match f.source with
      | .direct parts => writeDirect parts v
      | .constant _ => pure ()
      | .indirect protocol => do
          let _ ← t.run (t.parent id) (t.readWithin depth) (t.writeWithin depth)
            (protocol.writeProcedure v)
          pure ()
      | .computed _ (some write) => do
          let _ ← t.run (t.parent id) (t.readWithin depth) (t.writeWithin depth) (write v)
          pure ()
      | .computed _ none => throw (.error (.access (.readOnly (t.pathOf (t.parent id))))) := by
  rw [writeWithin, requireField_eq_ok_iff.2 h]
  rfl

/-- The room of a run. Accesses that nest deeper than the tree has entries have come to one of them
twice. -/
def maxNesting (t : Tree) : Nat := t.size + 4096

theorem maxNesting_eq_succ (t : Tree) : t.maxNesting = t.size + 4095 + 1 := rfl

def read (t : Tree) (id : EntryId) : Access σ Value := t.readWithin t.maxNesting id

theorem read_constant {t : Tree} {id : EntryId} {datatype : Datatype} {v : Value}
    (h : t.entry id = .field (.constant datatype v)) : (t.read id : Access σ Value) = pure v := by
  rw [read, maxNesting_eq_succ, readWithin_field h]
  rfl

def write (t : Tree) (id : EntryId) (v : Value) : Access σ Unit := t.writeWithin t.maxNesting id v

/-- The value of a field as its datatype shows it, read with at most `depth` accesses nested in each
other. -/
def evaluateWithin (t : Tree) (depth : Nat) (id : EntryId) : Access σ String := do
  let v ← t.readWithin depth id
  pure ((← Access.ofExcept (t.requireField id)).datatype.evaluate v)

def evaluate (t : Tree) (id : EntryId) : Access σ String := t.evaluateWithin t.maxNesting id

theorem evaluateWithin_field {t : Tree} {id : EntryId} {f : Field} (h : t.entry id = .field f)
    (depth : Nat) :
    (t.evaluateWithin depth id : Access σ String) =
      (do pure (f.datatype.evaluate (← t.readWithin depth id))) := by
  rw [evaluateWithin, requireField_eq_ok_iff.2 h]
  rfl

theorem evaluate_field {t : Tree} {id : EntryId} {f : Field} (h : t.entry id = .field f) :
    (t.evaluate id : Access σ String) = (do pure (f.datatype.evaluate (← t.read id))) :=
  evaluateWithin_field h t.maxNesting

/-- The value that a token stands for in a field. -/
def lookup (t : Tree) (id : EntryId) (token : String) : Except Error Value := do
  (← t.requireField id).datatype.lookup token

def readPath (t : Tree) (origin : EntryId) (path : String) : Access σ Value := do
  t.read (← Access.ofExcept (t.target origin path))

def writePath (t : Tree) (origin : EntryId) (path : String) (v : Value) : Access σ Unit := do
  t.write (← Access.ofExcept (t.target origin path)) v

def poll (t : Tree) (origin : EntryId) (path : String) (mask expected : Value) : Access σ Value :=
  t.pollAt t.read origin path mask expected

end Tree

end RegisterAtlas
