import RegisterAtlas.Tree.Access

/-! # Drafts

A draft is a tree in the making, together with the scope that is open. Each step of a description
either fails, and then there is no new draft, or yields the draft that it leaves. -/

namespace RegisterAtlas

structure Draft where
  tree : Tree
  current : EntryId

namespace Draft

def ofTree (t : Tree) : Draft := ⟨t, Tree.root⟩

def empty : Draft := ofTree .empty

/-- Adds an entry to the open scope. -/
def add (d : Draft) (name : String) (e : Entry) : Except Error (EntryId × Draft) := do
  let (id, tree) ← d.tree.add d.current name e
  pure (id, { d with tree })

/-- Adds a scope and opens it. -/
def openScope (d : Draft) (name : String) (space : Option Space) :
    Except Error (EntryId × Draft) := do
  let (id, d) ← d.add name (.scope { space })
  pure (id, { d with current := id })

/-- Goes back to the scope around the open one. -/
def closeScope (d : Draft) : Except Error (Unit × Draft) :=
  if d.current = Tree.root then .error (.definition .closeAtRoot)
  else .ok ((), { d with current := d.tree.parent d.current })

def bookmark (d : Draft) (name : String) : Except Error (Unit × Draft) := do
  let tree ← d.tree.addBookmark d.current name
  pure ((), { d with tree })

def datatype (d : Draft) (name : String) (datatype : Datatype) :
    Except Error (Datatype × Draft) := do
  let tree ← d.tree.addDatatype d.current name datatype
  pure (datatype, { d with tree })

def findDatatype (d : Draft) (name : String) : Except Error Datatype :=
  match d.tree.datatype? d.current name with
  | some datatype => .ok datatype
  | none => .error (.notFound (.datatype name))

/-- The register space in effect in the open scope. -/
def space (d : Draft) : Except Error Space :=
  match d.tree.space? d.current with
  | some space => .ok space
  | none => .error (.definition (.noBinding (d.tree.pathOf d.current)))

def field (d : Draft) (name : String) (f : Field) : Except Error (EntryId × Draft) :=
  d.add name (.field f)

/-- Declares a register of the space in effect, as a field that shows all of it. -/
def register (d : Draft) (name : String) (address : Value) (width : Width) :
    Except Error (Register × Draft) := do
  let register : Register := ⟨← d.space, address, width⟩
  let (_, d) ← d.field name (.direct (.hex width.bits none) register.all)
  pure (register, d)

/-- Adds an alias. Its target must be a path, but need not exist yet. -/
def addAlias (d : Draft) (name target : String) : Except Error (EntryId × Draft) := do
  let _ ← Path.ofText target
  d.add name (.alias target)

def setPollLimit (d : Draft) (limit : Nat) : Draft := { d with tree := d.tree.setPollLimit limit }

def find (d : Draft) (path : String) : Except Error (Option EntryId) :=
  d.tree.resolveText d.current path

def isDefined (d : Draft) (path : String) : Bool := d.tree.isDefined d.current path

/-- Reads a field that has been described already. -/
def read {σ : Type} [Bus σ] (d : Draft) (path : String) : Access σ Value :=
  d.tree.readPath d.current path

end Draft

end RegisterAtlas
