import RegisterAtlas.CommandLine.Words
import RegisterAtlas.Text.Numeral
import RegisterAtlas.Word

/-! # Arguments of the command line

The commands, each with its operands and options, and the options in front of every command. -/

namespace RegisterAtlas.CommandLine

/-- A place in a register space that a driver hands out, all in the words that were typed. -/
structure Target where
  driver : String
  arguments : List String
  address : String
  width : Nat
deriving DecidableEq, Repr

/-- Commands on the tree of the system. -/
inductive TreeCommand where
  | list (path : String)
  | read (path : String) (raw : Bool)
  | write (path value : String)
  | dump (path : String)
deriving DecidableEq, Repr

inductive Command where
  | onTree (c : TreeCommand)
  | peek (target : Target)
  | poke (target : Target) (value : String)
deriving DecidableEq, Repr

structure Arguments where
  configFile : Option String
  cpus : Option String
  drivers : List String
  command : Command
deriving DecidableEq, Repr

def generalSwitches : List Switch := [
  { name := "config", letter := some 'c' }, { name := "cpus" }, { name := "driver" },
  { name := "verbose", letter := some 'v', hasValue := false }]

def readSwitches : List Switch := [{ name := "raw", hasValue := false }]

def targetSwitches : List Switch := [
  { name := "address", letter := some 'a' }, { name := "width", letter := some 'w' }]

def pokeSwitches : List Switch := targetSwitches ++ [{ name := "value" }]

/-- A width as it is typed: a number of 32 bits with or without a sign. -/
def readWidth (cs : List Char) : Option Nat :=
  match cs with
  | '-' :: digits => (Text.readDigits 10 digits).filter (· = 0)
  | _ => Text.readUnsigned 10 (wordCount 32) cs

def defaultWidth : Nat := 32

def readTarget (settings : List Setting) (operands : List String) : Option Target := do
  let address ← exactlyOnce "address" settings
  let width ←
    match ← atMostOnce "width" settings with
    | some text => readWidth text.toList
    | none => some defaultWidth
  match operands with
  | driver :: arguments => pure { driver, arguments, address, width }
  | [] => none

/-- The path among the operands, the root unless there is one. -/
def readPath? : List String → Option String
  | [] => some "/"
  | [path] => some path
  | _ => none

def readCommand (name : String) (words : List String) : Option Command :=
  match name with
  | "ls" => do
      let (_, operands) ← readWords [] false words
      pure (.onTree (.list (← readPath? operands)))
  | "dump" => do
      let (_, operands) ← readWords [] false words
      pure (.onTree (.dump (← readPath? operands)))
  | "read" => do
      let (settings, operands) ← readWords readSwitches false words
      let raw ← atMostOnce "raw" settings
      match operands with
      | [path] => pure (.onTree (.read path raw.isSome))
      | _ => none
  | "write" => do
      match ← readWords [] false words with
      | (_, [path, value]) => pure (.onTree (.write path value))
      | _ => none
  | "peek" => do
      let (settings, operands) ← readWords targetSwitches false words
      pure (.peek (← readTarget settings operands))
  | "poke" => do
      let (settings, operands) ← readWords pokeSwitches false words
      let value ← exactlyOnce "value" settings
      pure (.poke (← readTarget settings operands) value)
  | _ => none

/-- Reads all words; there is no result where they are used wrongly. -/
def Arguments.ofWords (words : List String) : Option Arguments := do
  let (settings, command) ← readWords generalSwitches true words
  let configFile ← atMostOnce "config" settings
  let cpus ← atMostOnce "cpus" settings
  let _ ← atMostOnce "verbose" settings
  match command with
  | name :: words =>
      if configFile = some "" then none
      else pure ⟨configFile, cpus, valuesOf "driver" settings, ← readCommand name words⟩
  | [] => none

end RegisterAtlas.CommandLine
