import RegisterAtlas.Tree.Access

/-! # Dumps and listings

A dump shows every field and alias at or below an entry, in the order in which they were declared. A
listing shows the entries directly below one. -/

namespace RegisterAtlas

inductive DumpEntry where
  | field (path value : String)
  | alias (path target : String)
deriving DecidableEq, Repr

namespace DumpEntry

def path : DumpEntry → String
  | .field path _ | .alias path _ => path

def text : DumpEntry → String
  | .field path value => path ++ " = " ++ value
  | .alias path target => path ++ " -> " ++ target

end DumpEntry

structure ListEntry where
  name : String
  kind : Kind
  detail : String
deriving DecidableEq, Repr

/-- Fills a text up with spaces to a number of characters. -/
def padded (width : Nat) (s : String) : String :=
  s ++ String.ofList (List.replicate (width - s.length) ' ')

def ListEntry.text (e : ListEntry) : String :=
  padded 24 e.name ++ " " ++ padded 6 e.kind.name ++ " " ++ e.detail

namespace Tree

/-- The fields and aliases at most `levels` levels below an entry. -/
def leavesWithin (t : Tree) : Nat → EntryId → List EntryId
  | 0, _ => []
  | levels + 1, id =>
      match t.entry id with
      | .field _ | .alias _ => [id]
      | .scope s => s.children.values.flatMap (t.leavesWithin levels)
      | .array items => items.ids.flatMap (t.leavesWithin levels)

/-- The fields and aliases at or below an entry, depth first. Entries come later in the arena than
what they lie below, so no entry lies deeper than the arena is long. -/
def leaves (t : Tree) (id : EntryId) : List EntryId := t.leavesWithin t.size id

variable {σ : Type} [Bus σ]

def dumpLeafWithin (t : Tree) (depth : Nat) (id : EntryId) : Access σ DumpEntry := do
  let path := t.pathOf id
  match t.alias? id with
  | some target => pure (.alias path target)
  | none => pure (.field path (← (t.evaluateWithin depth id).mapError (·.locate path)))

/-- Shows the leaves below an entry, each with at most `depth` accesses nested in each other. -/
def dumpWithin (t : Tree) (depth : Nat) (id : EntryId) : Access σ (List DumpEntry) :=
  (t.leaves id).mapM (t.dumpLeafWithin depth)

def dump (t : Tree) (id : EntryId) : Access σ (List DumpEntry) := t.dumpWithin t.maxNesting id

/-- What a listing says about an entry beside its name and kind. -/
def detail (t : Tree) (id : EntryId) : String :=
  match t.entry id with
  | .field f => f.datatype.kind.name
  | .alias target => target
  | .array items => toString items.size ++ " x " ++ items.kind.name
  | .scope s => (s.space.map Space.describe).getD ""

def listEntry (t : Tree) (name : String) (id : EntryId) : ListEntry :=
  ⟨name, t.kind id, t.detail id⟩

/-- The children of a scope, the items of an array, or any other entry itself. -/
def list (t : Tree) (id : EntryId) : List ListEntry :=
  match t.entry id with
  | .scope s => s.children.entries.map fun (name, child) => t.listEntry name child
  | .array items => items.ids.map fun item => t.listEntry ((t.nameOf? item).getD "") item
  | _ => [t.listEntry ((t.nameOf? id).getD "/") id]

end Tree

end RegisterAtlas
