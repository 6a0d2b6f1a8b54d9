import RegisterAtlas.Text.Split

/-! # Words of a command line

The words of a command line are options, values of options, and operands. An option is written
`--name` or, where it has a letter, `-n`; letters may be run together. Its value is the next word,
or the rest of its own word, `--name=value`, `-nvalue` or `-n=value`. Behind `--` there are operands
only. -/

namespace RegisterAtlas.CommandLine

/-- An option that a command knows. -/
structure Switch where
  name : String
  letter : Option Char := none
  hasValue : Bool := true

/-- An option as it was set, with its value; flags have an empty one. -/
structure Setting where
  name : String
  value : String
deriving DecidableEq, Repr

inductive Word where
  | operand
  | escape
  | long (name : List Char) (value : Option (List Char))
  | short (letters : List Char)
deriving DecidableEq, Repr

/-- A lone dash is an operand. -/
def Word.ofChars : List Char → Word
  | ['-', '-'] => .escape
  | '-' :: '-' :: body =>
      match Text.splitOnce '=' body with
      | some (name, value) => .long name (some value)
      | none => .long body none
  | '-' :: c :: cs => .short (c :: cs)
  | _ => .operand

/-- The settings that one word makes, and the option whose value is the next word. -/
structure Reading where
  settings : List Setting := []
  awaiting : Option String := none

/-- Reads the letters of options that are run together. -/
def readLetters (switches : List Switch) : List Char → Option Reading
  | [] => some {}
  | c :: cs => do
      let s ← switches.find? fun s => s.letter = some c
      if s.hasValue then
        match cs with
        | [] => pure { awaiting := some s.name }
        | '=' :: value | value => pure { settings := [⟨s.name, String.ofList value⟩] }
      else
        let rest ← readLetters switches cs
        pure { rest with settings := ⟨s.name, ""⟩ :: rest.settings }

def readLong (switches : List Switch) (name : List Char) (value : Option (List Char)) :
    Option Reading := do
  let s ← switches.find? fun s => s.name.toList = name
  match s.hasValue, value with
  | true, some value => pure { settings := [⟨s.name, String.ofList value⟩] }
  | true, none => pure { awaiting := some s.name }
  | false, none => pure { settings := [⟨s.name, ""⟩] }
  | false, some _ => none

/-- Reads the words of a command into settings and operands. Where a command has commands of its
own, it ends at its first operand, and what stands behind that is left to the inner command. -/
def readWords (switches : List Switch) (hasCommands : Bool) :
    List String → Option (List Setting × List String)
  | [] => some ([], [])
  | word :: rest =>
      let finish : Option Reading → Option (List Setting × List String)
        | none => none
        | some { settings, awaiting := none } =>
            (readWords switches hasCommands rest).map fun (more, operands) =>
              (settings ++ more, operands)
        | some { settings, awaiting := some name } =>
            match rest with
            | [] => none
            | value :: rest =>
                if Word.ofChars value.toList = .operand then
                  (readWords switches hasCommands rest).map fun (more, operands) =>
                    (settings ++ ⟨name, value⟩ :: more, operands)
                else none
      match Word.ofChars word.toList with
      | .operand =>
          if hasCommands then some ([], word :: rest)
          else
            (readWords switches hasCommands rest).map fun (settings, operands) =>
              (settings, word :: operands)
      | .escape => if hasCommands then none else some ([], rest)
      | .long name value => finish (readLong switches name value)
      | .short letters => finish (readLetters switches letters)

/-- The values that an option was set to, in order. -/
def valuesOf (name : String) (settings : List Setting) : List String :=
  (settings.filter (·.name = name)).map Setting.value

/-- The value of an option that may be set once. -/
def atMostOnce (name : String) (settings : List Setting) : Option (Option String) :=
  match valuesOf name settings with
  | [] => some none
  | [value] => some (some value)
  | _ => none

/-- The value of an option that must be set once. -/
def exactlyOnce (name : String) (settings : List Setting) : Option String :=
  match valuesOf name settings with
  | [value] => some value
  | _ => none

end RegisterAtlas.CommandLine
