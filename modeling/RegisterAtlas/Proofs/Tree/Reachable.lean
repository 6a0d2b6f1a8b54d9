import RegisterAtlas.Draft

/-!
# Trees that can be built

A tree starts as a root scope, bound to a register space or not, and grows by calls. Calls are
made on the tree itself or on a draft, which adds everything to the scope that it has open. A call
that fails leaves everything as it was, so every call leads from one tree or draft to the next:
`after` is the step, and a pass over a draft is a fold of steps. `Reachable` holds of the trees
that such steps build.
-/

namespace RegisterAtlas

/-- An entry that comes from outside: nothing has been defined in it yet, and it is no array, as
arrays are made by appending to them. -/
inductive Entry.IsFresh : Entry → Prop where
  | scope (space : Option Space) : IsFresh (.scope { space })
  | field (f : Field) : IsFresh (.field f)
  | alias (target : String) : IsFresh (.alias target)

namespace Tree

/-- The calls that define what a tree holds. -/
inductive Call where
  | add (scope : EntryId) (name : String) (e : Entry)
  | bookmark (scope : EntryId) (name : String)
  | datatype (scope : EntryId) (name : String) (datatype : Datatype)
  | pollLimit (limit : Nat)

/-- A call is made with an entry of the tree, of any kind, and adds only fresh entries. -/
inductive Call.Valid (t : Tree) : Call → Prop where
  | add {scope : EntryId} {name : String} {e : Entry} (hs : scope < t.size) (he : e.IsFresh) :
      Valid t (.add scope name e)
  | bookmark {scope : EntryId} {name : String} (hs : scope < t.size) :
      Valid t (.bookmark scope name)
  | datatype {scope : EntryId} {name : String} {datatype : Datatype} (hs : scope < t.size) :
      Valid t (.datatype scope name datatype)
  | pollLimit {limit : Nat} : Valid t (.pollLimit limit)

/-- The tree after a call. -/
def after (t : Tree) : Call → Tree
  | .add scope name e =>
      match t.add scope name e with
      | .ok (_, t') => t'
      | .error _ => t
  | .bookmark scope name =>
      match t.addBookmark scope name with
      | .ok t' => t'
      | .error _ => t
  | .datatype scope name datatype =>
      match t.addDatatype scope name datatype with
      | .ok t' => t'
      | .error _ => t
  | .pollLimit limit => t.setPollLimit limit

end Tree

namespace Draft

/-- The calls that define something in the open scope of a draft, or change which scope is open. -/
inductive Call where
  | openScope (name : String) (space : Option Space)
  | closeScope
  | bookmark (name : String)
  | datatype (name : String) (datatype : Datatype)
  | register (name : String) (address : Value) (width : Width)
  | field (name : String) (f : Field)
  | alias (name target : String)
  | pollLimit (limit : Nat)

/-- The draft that a call yields; the old one if the call failed. -/
def orElse {α : Type} (d : Draft) : Except Error (α × Draft) → Draft
  | .ok (_, d') => d'
  | .error _ => d

/-- The draft after a call. -/
def after (d : Draft) : Call → Draft
  | .openScope name space => d.orElse (d.openScope name space)
  | .closeScope => d.orElse d.closeScope
  | .bookmark name => d.orElse (d.bookmark name)
  | .datatype name datatype => d.orElse (d.datatype name datatype)
  | .register name address width => d.orElse (d.register name address width)
  | .field name f => d.orElse (d.field name f)
  | .alias name target => d.orElse (d.addAlias name target)
  | .pollLimit limit => d.setPollLimit limit

end Draft

namespace Tree

/-- The trees that can be built by calls on the tree itself and by passes of drafts, in any order.
-/
inductive Reachable : Tree → Prop where
  | empty : Reachable empty
  | bound (space : Space) : Reachable (withRoot { space := some space })
  | after {t : Tree} {c : Call} (h : Reachable t) (hc : c.Valid t) : Reachable (t.after c)
  | pass {t : Tree} (h : Reachable t) (calls : List Draft.Call) :
      Reachable (calls.foldl Draft.after (.ofTree t)).tree

end Tree

end RegisterAtlas
