import RegisterAtlas.Field
import RegisterAtlas.Path

/-! # Trees

A tree is an arena of entries: scopes with named children, fields, arrays of entries of one kind,
and aliases. Each entry knows the scope that it was added to. Scopes may also bind a register space,
declare datatypes and carry bookmarks, which are found from every scope below them.

Entries are numbered as far as numbers go. A program that keeps these numbers in words of 32 bits
runs out of them, which is left out here: what is said of trees is said of those with less than 2³²
entries. -/

namespace RegisterAtlas

structure Scope where
  space : Option Space := none
  children : Table String EntryId := ∅
  datatypes : Table String Datatype := ∅
  bookmarks : List String := []

/-- The items of an array, all of one kind. -/
structure Items where
  kind : Kind
  ids : List EntryId

namespace Items

def size (a : Items) : Nat := a.ids.length

def item? (a : Items) : Index → Option EntryId
  | .append => none
  | .pos n => a.ids[n]?
  | .fromEnd n => if 0 < n ∧ n ≤ a.ids.length then a.ids[a.ids.length - n]? else none

def position? (a : Items) (id : EntryId) : Option Nat := a.ids.findIdx? (· = id)

end Items

inductive Entry where
  | scope (s : Scope)
  | field (f : Field)
  | array (items : Items)
  | alias (target : String)

def Entry.kind : Entry → Kind
  | .scope _ => .scope
  | .field _ => .field
  | .array _ => .array
  | .alias _ => .alias

structure Node where
  parent : EntryId
  entry : Entry

structure Tree where
  nodes : Array Node
  /-- How often a field is read before waiting for it is given up. -/
  pollLimit : Nat

namespace Tree

def defaultPollLimit : Nat := 1000

/-- The entry that everything else lies below. -/
def root : EntryId := 0

def withRoot (s : Scope) : Tree := ⟨#[⟨root, .scope s⟩], defaultPollLimit⟩

def empty : Tree := withRoot {}

def size (t : Tree) : Nat := t.nodes.size

/-- The node of an entry; blank where there is none. -/
def node (t : Tree) (id : EntryId) : Node := t.nodes.getD id ⟨root, .scope {}⟩

def entry (t : Tree) (id : EntryId) : Entry := (t.node id).entry

def parent (t : Tree) (id : EntryId) : EntryId := (t.node id).parent

def kind (t : Tree) (id : EntryId) : Kind := (t.entry id).kind

def scope? (t : Tree) (id : EntryId) : Option Scope :=
  match t.entry id with
  | .scope s => some s
  | _ => none

def field? (t : Tree) (id : EntryId) : Option Field :=
  match t.entry id with
  | .field f => some f
  | _ => none

def array? (t : Tree) (id : EntryId) : Option Items :=
  match t.entry id with
  | .array items => some items
  | _ => none

def alias? (t : Tree) (id : EntryId) : Option String :=
  match t.entry id with
  | .alias target => some target
  | _ => none

/-! ## Growing -/

def setPollLimit (t : Tree) (limit : Nat) : Tree := { t with pollLimit := max limit 1 }

/-- Appends an entry to the arena; no scope lists it yet. -/
def alloc (t : Tree) (parent : EntryId) (e : Entry) : EntryId × Tree :=
  (t.nodes.size, { t with nodes := t.nodes.push ⟨parent, e⟩ })

def updateEntry (t : Tree) (id : EntryId) (f : Entry → Entry) : Tree :=
  { t with nodes := t.nodes.modify id fun n => { n with entry := f n.entry } }

def updateScope (t : Tree) (id : EntryId) (f : Scope → Scope) : Tree :=
  t.updateEntry id fun
    | .scope s => .scope (f s)
    | e => e

/-- Lists an entry under a name of a scope, in place of what had the name before. -/
def setChild (t : Tree) (scope : EntryId) (name : String) (id : EntryId) : Tree :=
  t.updateScope scope fun s => { s with children := s.children.insert name id }

/-- Makes an entry the last item of an array. -/
def pushItem (t : Tree) (array id : EntryId) : Tree :=
  t.updateEntry array fun
    | .array items => .array { items with ids := items.ids ++ [id] }
    | e => e

def requireScope (t : Tree) (id : EntryId) : Except Error Scope :=
  match t.entry id with
  | .scope s => .ok s
  | e => .error (.conversion ("#" ++ toString id) (.notScope e.kind))

/-- The array of a name to which an entry is to be appended; it is made on first use. -/
def arrayFor (t : Tree) (scope : EntryId) (s : Scope) (name : String) (kind : Kind) :
    Except Error (EntryId × Tree) :=
  match s.children.get? name with
  | some id =>
      match t.entry id with
      | .array items =>
          if items.kind = kind then .ok (id, t)
          else .error (.conversion name (.otherArray kind items.kind))
      | e => .error (.conversion name (.notArray e.kind))
  | none =>
      let (id, t) := t.alloc scope (.array ⟨kind, []⟩)
      .ok (id, t.setChild scope name id)

/-- Adds an entry to a scope under a plain name, or as last item of the array `name[]`. -/
def add (t : Tree) (scope : EntryId) (name : String) (e : Entry) :
    Except Error (EntryId × Tree) := do
  match ← Element.ofText name with
  | .name n =>
      let _ ← t.requireScope scope
      let (id, t) := t.alloc scope e
      pure (id, t.setChild scope n id)
  | .indexed n .append =>
      let s ← t.requireScope scope
      let (array, t) ← t.arrayFor scope s n e.kind
      let (id, t) := t.alloc scope e
      pure (id, t.pushItem array id)
  | .indexed .. => throw (.invalidPath name .indexedInsertion)
  | .parent | .bookmark _ => throw (.invalidPath name .notEntryName)

def addBookmark (t : Tree) (scope : EntryId) (name : String) : Except Error Tree := do
  let s ← t.requireScope scope
  if name ∈ s.bookmarks then pure t
  else pure (t.updateScope scope fun s => { s with bookmarks := s.bookmarks ++ [name] })

def addDatatype (t : Tree) (scope : EntryId) (name : String) (datatype : Datatype) :
    Except Error Tree := do
  let _ ← t.requireScope scope
  pure (t.updateScope scope fun s => { s with datatypes := s.datatypes.insert name datatype })

/-! ## Climbing -/

/-- At most `steps` steps upwards. -/
def climb (t : Tree) : Nat → EntryId → List EntryId
  | 0, id => [id]
  | steps + 1, id => if id = root then [id] else id :: t.climb steps (t.parent id)

/-- An entry and all that it lies below, up to the root. A parent comes before its children in the
arena, so an entry has no more ancestors than its number says. -/
def ancestors (t : Tree) (id : EntryId) : List EntryId := t.climb id id

/-- The nearest scope at or above an entry for which `f` finds something. -/
def findAbove {α : Type} (t : Tree) (id : EntryId) (f : Scope → Option α) : Option α :=
  (t.ancestors id).findSome? fun id => (t.scope? id).bind f

/-- The register space in effect. -/
def space? (t : Tree) (id : EntryId) : Option Space := t.findAbove id (·.space)

def datatype? (t : Tree) (id : EntryId) (name : String) : Option Datatype :=
  t.findAbove id (·.datatypes.get? name)

/-- The name under which the scope of an entry lists it. -/
def nameOf? (t : Tree) (id : EntryId) : Option String :=
  if id = root then none
  else
    (t.scope? (t.parent id)).bind fun s => s.children.entries.findSome? fun (name, child) =>
      if child = id then some name
      else
        ((t.array? child).bind (·.position? id)).map fun n =>
          (Element.indexed name (.pos n)).text

/-- The path of an entry from the root. An entry that is not listed any more shows its number. -/
def pathOf (t : Tree) (id : EntryId) : String :=
  "/" ++ String.intercalate "/"
    (((t.ancestors id).filter (· ≠ root)).map
      fun id => (t.nameOf? id).getD ("#" ++ toString id)).reverse

@[simp] theorem size_empty : empty.size = 1 := rfl

@[simp] theorem size_alloc (t : Tree) (parent : EntryId) (e : Entry) :
    (t.alloc parent e).2.size = t.size + 1 := by simp [alloc, size]

@[simp] theorem size_updateEntry (t : Tree) (id : EntryId) (f : Entry → Entry) :
    (t.updateEntry id f).size = t.size := by simp [updateEntry, size]

end Tree

end RegisterAtlas
