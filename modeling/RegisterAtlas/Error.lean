import RegisterAtlas.Fault
import RegisterAtlas.Kind

/-! # Errors

The causes for which a path is refused, a description is inconsistent, an access fails or a driver
gives up, and the wording of each. -/

namespace RegisterAtlas

/-- The flaws of a path text. -/
inductive PathFlaw where
  | emptySegment
  | badBookmark
  | unterminatedIndex
  | badArrayName
  | badIndex
  | badName
  | indexedInsertion
  | notEntryName
deriving DecidableEq, Repr

def PathFlaw.message : PathFlaw → String
  | emptySegment => "empty path segment"
  | badBookmark => "invalid bookmark name"
  | unterminatedIndex => "unterminated array index"
  | badArrayName => "invalid array name"
  | badIndex => "invalid array index"
  | badName => "invalid name"
  | indexedInsertion => "direct indexed insertion is not supported, use name[]"
  | notEntryName => "not a valid dirent name"

/-- The ways in which an entry is used as something that it is not. -/
inductive Misuse where
  | notScope (found : Kind)
  | notField (found : Kind)
  | notArray (found : Kind)
  | otherArray (item members : Kind)
  | indexed (name : String) (found : Kind)
  | leafInPath
  | aliasesTooDeep
deriving DecidableEq, Repr

def Misuse.message : Misuse → String
  | notScope found => "expected a scope, found " ++ found.name
  | notField found => "expected a field, found " ++ found.name
  | notArray found => found.name ++ " is not an array"
  | otherArray item members => "cannot append " ++ item.name ++ " to array of " ++ members.name
  | indexed name found => "'" ++ name ++ "' is a " ++ found.name ++ ", not an array"
  | leafInPath => "path element is not a scope"
  | aliasesTooDeep => "alias chain too deep"

/-- The flaws of the arguments handed to a driver. -/
inductive ArgumentFlaw where
  | wrongCount (driver : String) (names : List String) (got : Nat)
  | outOfRange (driver name : String) (value : Value)
  | portWindow (base size : Nat)
deriving DecidableEq, Repr

def ArgumentFlaw.message : ArgumentFlaw → String
  | wrongCount driver names got =>
      driver ++ " expects " ++ toString names.length ++ " argument(s) (" ++
        String.intercalate ", " names ++ "), got " ++ toString got
  | outOfRange driver name value =>
      driver ++ ": " ++ name ++ " " ++ addressText value ++ " is out of range"
  | portWindow base size =>
      "port window 0x" ++ Text.hex base ++ "+0x" ++ Text.hex size ++ " exceeds the I/O space"

/-- What was looked for in vain. -/
inductive Missing where
  | named (text : String)
  | datatype (name : String)
  | driver (name : String)
deriving DecidableEq, Repr

def Missing.message : Missing → String
  | named text => text
  | datatype name => "datatype '" ++ name ++ "'"
  | driver name => "driver '" ++ name ++ "'"

/-- The flaws of a description in progress. -/
inductive DefinitionFlaw where
  | closeAtRoot
  | noBinding (path : String)
deriving DecidableEq, Repr

def DefinitionFlaw.message : DefinitionFlaw → String
  | closeAtRoot => "close_scope called at the root"
  | noBinding path => "no binding in effect at " ++ path

/-- The flaws of a configuration. -/
inductive ConfigFlaw where
  | unreadable (file : String) (cause : SystemError)
  | malformed
  | zeroPollLimit
  | badCpuList (text : String)
  | secondCatchAll
deriving DecidableEq, Repr

def ConfigFlaw.message : ConfigFlaw → String
  | unreadable file cause => "Failed to read " ++ file ++ ": " ++ cause.message
  | malformed => "TOML parse error"
  | zeroPollLimit => "poll_limit must be at least 1"
  | badCpuList text => "Invalid CPU list '" ++ text ++ "'"
  | secondCatchAll => "a catch-all discovery callback is already registered"

inductive Error where
  | invalidPath (path : String) (flaw : PathFlaw)
  | conversion (path : String) (misuse : Misuse)
  | range (e : RangeError)
  | invalidValue (datatype : DatatypeKind) (value : String)
  | access (fault : Fault)
  | arguments (flaw : ArgumentFlaw)
  | noDiscovery (driver : String)
  | timeout (path : String) (attempts : Nat)
  | notFound (missing : Missing)
  | definition (flaw : DefinitionFlaw)
  | located (path : String) (source : Error)
  | configuration (flaw : ConfigFlaw)
  | system (cause : SystemError)
deriving DecidableEq, Repr

namespace Error

def message : Error → String
  | invalidPath path flaw => "Invalid path '" ++ path ++ "': " ++ flaw.message
  | conversion path misuse => "Conversion error at '" ++ path ++ "': " ++ misuse.message
  | range e => e.message
  | invalidValue datatype value =>
      "Invalid value '" ++ value ++ "' for " ++ datatype.name ++ " datatype"
  | access fault => fault.message
  | arguments flaw => "Invalid arguments: " ++ flaw.message
  | noDiscovery driver => "Driver '" ++ driver ++ "' does not support discovery"
  | timeout path attempts =>
      "Timed out after " ++ toString attempts ++ " polls of '" ++ path ++ "'"
  | notFound missing => "Not found: " ++ missing.message
  | definition flaw => "Definition error: " ++ flaw.message
  | located path source => path ++ ": " ++ source.message
  | configuration flaw => "Configuration error: " ++ flaw.message
  | system cause => "IO error: " ++ cause.message

/-- Says at which entry an error arose; an error that says so already keeps its place. Nothing is
said of an overflow. -/
def locate (e : Error) (path : String) : Error :=
  match e with
  | located .. | access .overflow => e
  | _ => located path e

/-- The messages of the errors behind an error, nearest first. -/
def causes : Error → List String
  | access fault => (fault.cause?.map SystemError.message).toList
  | located _ source => source.message :: source.causes
  | system cause => [cause.message]
  | _ => []

theorem locate_locate (e : Error) (p q : String) :
    (e.locate p).locate q = e.locate p := by
  cases e with
  | access fault => cases fault <;> rfl
  | _ => rfl

end Error

end RegisterAtlas
