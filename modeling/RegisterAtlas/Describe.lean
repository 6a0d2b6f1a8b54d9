import RegisterAtlas.Draft

/-! # Describing

A description is an action on a draft and on the world whose registers the draft names. A step that
fails leaves the draft as it was; the steps before it stay done. -/

namespace RegisterAtlas

abbrev Describe (σ α : Type) := Action Halt (Draft × σ) α

namespace Describe

variable {σ α : Type}

/-- Takes a step on the draft. -/
def edit (f : Draft → Except Error (α × Draft)) : Describe σ α := fun (d, w) =>
  match f d with
  | .ok (x, d') => (.ok x, d', w)
  | .error e => (.error (.error e), d, w)

/-- Looks at the draft. -/
def inspect (f : Draft → Except Error α) : Describe σ α := edit fun d => (f d).map (·, d)

/-- Accesses registers through the draft, which stays as it is. -/
def access (a : Draft → Access σ α) : Describe σ α := fun (d, w) =>
  let (r, w') := a d w
  (r, d, w')

def fail (e : Error) : Describe σ α := throw (.error e)

def openScope (name : String) : Describe σ EntryId := edit (·.openScope name none)

def openBound (name : String) (space : Space) : Describe σ EntryId :=
  edit (·.openScope name (some space))

def closeScope : Describe σ Unit := edit (·.closeScope)

def bookmark (name : String) : Describe σ Unit := edit (·.bookmark name)

def datatype (name : String) (datatype : Datatype) : Describe σ Datatype :=
  edit (·.datatype name datatype)

def field (name : String) (f : Field) : Describe σ EntryId := edit (·.field name f)

def constant (name : String) (datatype : Datatype) (v : Value) : Describe σ EntryId :=
  field name (.constant datatype v)

/-- Declares a field that is computed when it is read. -/
def readOnly (name : String) (datatype : Datatype) (read : Procedure) : Describe σ EntryId :=
  field name (.readOnly datatype read)

def register (name : String) (address : Value) (width : Width) : Describe σ Register :=
  edit (·.register name address width)

/-- Declares a field over the bits `high` down to `low` of a register. -/
def bits (name : String) (datatype : Datatype) (r : Register) (high low : Nat) :
    Describe σ EntryId :=
  match r.bits high low with
  | .ok bits => field name (.direct datatype bits)
  | .error e => fail (.range e)

def bit (name : String) (datatype : Datatype) (r : Register) (n : Nat) : Describe σ EntryId :=
  bits name datatype r n n

def addAlias (name target : String) : Describe σ EntryId := edit (·.addAlias name target)

def read [Bus σ] (path : String) : Describe σ Value := access (·.read path)

/-- Carries out a description and returns its draft. -/
def run (a : Describe σ α) (d : Draft) : Access σ (α × Draft) := fun w =>
  match a (d, w) with
  | (.ok x, d', w') => (.ok (x, d'), w')
  | (.error h, _, w') => (.error h, w')

end Describe

end RegisterAtlas
