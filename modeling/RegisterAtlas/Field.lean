import RegisterAtlas.Datatype
import RegisterAtlas.Register

/-! # Fields

A field pairs a datatype with a source of values: bits of registers, a constant, an indirect
protocol over other fields, or a procedure. -/

namespace RegisterAtlas

/-- The place of an entry in the arena of its tree. -/
abbrev EntryId := Nat

/-- What a procedural field does, step by step. Its paths start at the scope of the field. -/
inductive Procedure where
  | done (v : Value)
  | fail (e : Error)
  | read (path : String) (next : Value → Procedure)
  | write (path : String) (v : Value) (next : Procedure)
  | poll (path : String) (mask expected : Value) (next : Value → Procedure)
  /-- Tells the scope in which the procedure runs, and how many entries its tree has. -/
  | locate (next : EntryId → Nat → Procedure)

namespace Procedure

/-- Goes on with the value that a procedure ends with. -/
def andThen : Procedure → (Value → Procedure) → Procedure
  | done v, k => k v
  | fail e, _ => fail e
  | read path next, k => read path fun v => (next v).andThen k
  | write path v next, k => write path v (next.andThen k)
  | poll path mask expected next, k => poll path mask expected fun v => (next v).andThen k
  | locate next, k => locate fun scope size => (next scope size).andThen k

@[simp] theorem andThen_done (p : Procedure) : p.andThen done = p := by
  induction p with
  | done v => rfl
  | fail e => rfl
  | read path next ih => simp [andThen, ih]
  | write path v next ih => simp [andThen, ih]
  | poll path mask expected next ih => simp [andThen, ih]
  | locate next ih => simp [andThen, ih]

theorem andThen_andThen (p : Procedure) (f g : Value → Procedure) :
    (p.andThen f).andThen g = p.andThen fun v => (f v).andThen g := by
  induction p with
  | done v => rfl
  | fail e => rfl
  | read path next ih => simp [andThen, ih]
  | write path v next ih => simp [andThen, ih]
  | poll path mask expected next ih => simp [andThen, ih]
  | locate next ih => simp [andThen, ih]

end Procedure

/-- A register behind an index register: the index is written first, and then, once a ready flag
shows if there is one, the data are accessed. -/
structure Indirect where
  indexPath : String
  index : Value
  dataPath : String
  /-- The path of the ready flag, and the bits that must all be set. -/
  ready : Option (String × Value) := none

namespace Indirect

def awaitReady (i : Indirect) (next : Procedure) : Procedure :=
  match i.ready with
  | some (path, mask) => .poll path mask mask fun _ => next
  | none => next

def readProcedure (i : Indirect) : Procedure :=
  .write i.indexPath i.index (i.awaitReady (.read i.dataPath .done))

def writeProcedure (i : Indirect) (v : Value) : Procedure :=
  .write i.indexPath i.index (.write i.dataPath v (i.awaitReady (.done 0)))

end Indirect

inductive Source where
  | direct (parts : List Bits)
  | constant (v : Value)
  | indirect (protocol : Indirect)
  /-- Without a procedure for writing, the field is read-only. -/
  | computed (read : Procedure) (write : Option (Value → Procedure))

structure Field where
  datatype : Datatype
  source : Source

namespace Field

def direct (datatype : Datatype) (bits : Bits) : Field := ⟨datatype, .direct [bits]⟩

def constant (datatype : Datatype) (v : Value) : Field := ⟨datatype, .constant v⟩

def readOnly (datatype : Datatype) (read : Procedure) : Field := ⟨datatype, .computed read none⟩

/-- A field as diagnostics show it. -/
def text (f : Field) : String :=
  "Field \x7b datatype: \"" ++ f.datatype.kind.name ++ "\", " ++
    (match f.source with
      | .direct parts => "regbits: " ++ (Bits.concat parts).text
      | .constant v => "constant: " ++ toString v.toNat
      | .indirect _ | .computed .. => "procedural: true") ++ " \x7d"

end Field

end RegisterAtlas
