import RegisterAtlas.CommandLine.Arguments
import RegisterAtlas.CommandLine.Failure
import RegisterAtlas.Description.System
import RegisterAtlas.Tree.Dump

/-! # Running commands

A command either accesses a register space directly, or works on the tree of the whole system, which
is described first. A run can make notes of what it does. Their texts are left out, but not the read
of a field that is needed for the note about a write. -/

namespace RegisterAtlas.CommandLine

/-- An action on the machine that prints lines. -/
abbrev Printing := Action Failure Machine (List String)

def ofAccess {α : Type} (a : Access Machine α) : Action Failure Machine α := a.mapError .halt

def ofExcept {α : Type} (r : Except Error α) : Action Failure Machine α :=
  (Action.ofExcept r).mapError Failure.error

def number (text : String) : Except Failure Value :=
  match parseNumber? text.toList with
  | some v => .ok v
  | none => .error (.notNumber text)

def width (bits : Nat) : Except Failure Width :=
  match Width.ofBits? bits with
  | some w => .ok w
  | none => .error (.unsupportedWidth bits)

/-! ## Commands on the tree -/

/-- The entry that was found at a path. -/
def required (path : String) : Option EntryId → Except Failure EntryId
  | some id => .ok id
  | none => .error (.noEntry path)

/-- The entry at a path, any alias at its end followed. -/
def locate (t : Tree) (path : String) : Action Failure Machine EntryId := do
  Action.ofExcept (required path (← ofExcept (t.resolveTextFollow Tree.root path)))

/-- The entry at a path; an alias at its end is shown itself. -/
def locateLink (t : Tree) (path : String) : Action Failure Machine EntryId := do
  Action.ofExcept (required path (← ofExcept (t.resolveText Tree.root path)))

/-- The value that a field takes for a typed text: what its datatype calls by that token, or else
the number that the text is, if the datatype has such a value. -/
def parseValue (t : Tree) (id : EntryId) (text : String) : Except Failure Value :=
  match t.lookup id text, parseNumber? text.toList, t.field? id with
  | .ok v, _, _ => .ok v
  | .error e, none, _ => .error (.error e)
  | .error _, some _, none => .error (.notField (t.pathOf id))
  | .error _, some n, some field => (field.datatype.lookupValue n).mapError .error

/-- Runs a command on a tree, with or without notes. -/
def runOnTree (notes : Bool) (t : Tree) : TreeCommand → Printing
  | .list path => do pure ((t.list (← locateLink t path)).map ListEntry.text)
  | .read path raw => do
      let id ← locate t path
      if raw then pure [valueText (← ofAccess (t.read id))]
      else pure [← ofAccess (t.evaluate id)]
  | .write path text => do
      let id ← locate t path
      let v ← Action.ofExcept (parseValue t id text)
      (ofAccess (t.write id v)).mapError (.during (.writing v path))
      if notes then
        -- shown as it is now, which need not be what was written
        let _ ← ofAccess (t.evaluate id)
      pure []
  | .dump path => do pure ((← ofAccess (t.dump (← locate t path))).map DumpEntry.text)

/-! ## Direct access -/

/-- The register that a target names. -/
def attach (drivers : Drivers Machine) (target : Target) : Action Failure Machine Register := do
  match drivers.get? target.driver with
  | none => throw (.unknownDriver target.driver)
  | some driver =>
      let args ← Action.ofExcept (target.arguments.mapM number)
      let space ← (driver.attach args).mapError Failure.error
      let address ← Action.ofExcept (number target.address)
      let width ← Action.ofExcept (width target.width)
      pure ⟨space, address, width⟩

def peek (drivers : Drivers Machine) (target : Target) : Printing := do
  let register ← attach drivers target
  pure [valueText (← ofAccess (Access.ofFault register.read))]

def poke (drivers : Drivers Machine) (target : Target) (text : String) : Printing := do
  let register ← attach drivers target
  let v ← Action.ofExcept (number text)
  ofAccess (Access.ofFault (register.write v))
  pure []

/-! ## Runs -/

/-- The configuration, with what the command line sets in place of what the file says. -/
def loadConfig (rootPrefix : Option String) (args : Arguments) : Action Failure Machine Config := do
  let standard := Config.standard rootPrefix
  let c ←
    match args.configFile with
    | none => pure standard
    | some file =>
        (Machine.readingDisk (standard.load · file)).mapError fun e =>
          .during (.loading file) (.error e)
  pure { c with
    cpus := args.cpus <|> c.cpus
    drivers := if args.drivers = [] then c.drivers else args.drivers }

def perform (rootPrefix : Option String) (notes : Bool) (args : Arguments) : Printing := do
  let c ← loadConfig rootPrefix args
  let drivers ← (Machine.readingDisk (systemDrivers c)).mapError Failure.error
  match args.command with
  | .peek target => peek drivers target
  | .poke target text => poke drivers target text
  | .onTree command => do
      let t ← (ofAccess (describeSystem c drivers)).mapError (.during .describing)
      runOnTree notes t command

/-- What a run leaves behind beside the machine. -/
structure Outcome where
  exit : Nat
  printed : String
  complaint : String
deriving DecidableEq, Repr

/-- What is said to those who use words wrongly. -/
def usage : String := String.join (List.map (· ++ "\n") [
  "usage: [-c FILE] [--cpus LIST] [--driver NAME]... [-v] COMMAND",
  "  ls [PATH]                 list what is directly below a path",
  "  dump [PATH]               show all fields at or below a path",
  "  read PATH [--raw]         show a field",
  "  write PATH VALUE          set a field",
  "  peek DRIVER [ARG]... -a ADDRESS [-w WIDTH]",
  "  poke DRIVER [ARG]... -a ADDRESS [-w WIDTH] --value VALUE"])

/-- Runs a command line in an environment that may name the directory of device files, and asks for
notes or not. -/
def run (rootPrefix : Option String) (notes : Bool) (words : List String) (m : Machine) :
    Outcome × Machine :=
  match Arguments.ofWords words with
  | none => (⟨2, "", usage⟩, m)
  | some args =>
      match (perform rootPrefix notes args).runOn m with
      | (.ok lines, m) => (⟨0, String.join (lines.map (· ++ "\n")), ""⟩, m)
      | (.error f, m) => (⟨f.ending.1, "", f.ending.2⟩, m)

end RegisterAtlas.CommandLine
