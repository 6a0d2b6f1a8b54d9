import RegisterAtlas.Describe

/-! # Discovery

A registry holds descriptions together with the criteria of the hardware that they are for. Each
instance that is found is described by the first description whose criteria it meets, or else by
the catch-all, if there is one. -/

namespace RegisterAtlas

/-- Criteria `κ` that pick out identities `ι`. -/
class Criteria (κ : Type) (ι : outParam Type) where
  accepts : κ → ι → Bool

/-- An instance of some hardware: where it is, what it is, and its registers. -/
structure Found (α ι : Type) where
  address : α
  identity : ι
  space : Space

abbrev Description (σ α ι : Type) := Found α ι → Describe σ Unit

structure Registry (σ α ι κ : Type) where
  entries : List (κ × Description σ α ι) := []
  catchAll : Option (Description σ α ι) := none

namespace Registry

variable {σ α ι κ : Type}

def size (r : Registry σ α ι κ) : Nat := r.entries.length

def isEmpty (r : Registry σ α ι κ) : Bool := r.entries.isEmpty && r.catchAll.isNone

def register (r : Registry σ α ι κ) (criteria : κ) (description : Description σ α ι) :
    Registry σ α ι κ :=
  { r with entries := r.entries ++ [(criteria, description)] }

/-- Registers the description for whatever meets no criteria. There can be only one. -/
def registerCatchAll (r : Registry σ α ι κ) (description : Description σ α ι) :
    Except Error (Registry σ α ι κ) :=
  match r.catchAll with
  | some _ => .error (.configuration .secondCatchAll)
  | none => .ok { r with catchAll := some description }

variable [Criteria κ ι]

/-- The description in charge of an identity. -/
def select (r : Registry σ α ι κ) (identity : ι) : Option (Description σ α ι) :=
  match r.entries.find? fun (criteria, _) => Criteria.accepts criteria identity with
  | some (_, description) => some description
  | none => r.catchAll

/-- Describes an instance, and says whether there was a description for it. -/
def dispatch (r : Registry σ α ι κ) (found : Found α ι) : Describe σ Bool :=
  match r.select found.identity with
  | some description => do
      description found
      pure true
  | none => pure false

/-- Probes instances one after the other, describes those that have an identity, and counts those
for which there was a description. -/
def describeAll (r : Registry σ α ι κ) (probe : Space → Action Fault σ (Option ι)) :
    List (α × Space) → Describe σ Nat
  | [] => pure 0
  | (address, space) :: rest => do
      let described ← match ← Describe.access fun _ => Access.ofFault (probe space) with
        | some identity => r.dispatch { address, identity, space }
        | none => pure false
      let count ← r.describeAll probe rest
      pure (if described then count + 1 else count)

end Registry

/-! ## Drivers -/

/-- A driver hands out register spaces of one sort, and may be able to discover them. -/
structure Driver (σ : Type) where
  name : String
  attach : List Value → Action Error σ Space
  discover : Option (Describe σ Nat) := none

def checkArguments (driver : String) (names : List String) (args : List Value) :
    Except Error Unit :=
  if args.length = names.length then .ok ()
  else .error (.arguments (.wrongCount driver names args.length))

/-- An argument as a number of at most `bits` bits. -/
def narrow (driver name : String) (bits : Nat) (v : Value) : Except Error Nat :=
  if v.toNat < wordCount bits then .ok v.toNat else .error (.arguments (.outOfRange driver name v))

abbrev Drivers (σ : Type) := Table String (Driver σ)

namespace Drivers

variable {σ : Type}

/-- Adds a driver, unless there is one of that name already. -/
def register (ds : Drivers σ) (d : Driver σ) : Drivers σ := ds.insertNew d.name d

def ofList (ds : List (Driver σ)) : Drivers σ := ds.foldl register ∅

/-- Lets the driver of a name describe what it discovers. -/
def discover (ds : Drivers σ) (name : String) : Describe σ Nat :=
  match ds.get? name with
  | none => .fail (.notFound (.driver name))
  | some d => d.discover.getD (.fail (.noDiscovery d.name))

end Drivers

end RegisterAtlas
