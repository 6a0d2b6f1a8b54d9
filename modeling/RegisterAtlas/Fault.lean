import RegisterAtlas.Text.Numeral
import RegisterAtlas.Value

/-! # Faults of register accesses

What can go wrong between a register and the device behind it, with the wording of each fault. One
of them is no refusal of a device: where a number outgrows its word, the program ends. It is found
among the faults because it comes up in the midst of accesses, and nothing is said of where it
arose. -/

namespace RegisterAtlas

/-- The refusals of the system that files are asked of. -/
inductive SystemError where
  | noEntry
  | badDescriptor
  | outOfMemory
  | notDirectory
  | isDirectory
  | invalidArgument
  | nameTooLong
  | valueTooLarge
  | shortRead
  | notUtf8
  | nulInName
deriving DecidableEq, Repr

def SystemError.message : SystemError → String
  | noEntry => "No such file or directory (os error 2)"
  | badDescriptor => "Bad file descriptor (os error 9)"
  | outOfMemory => "Cannot allocate memory (os error 12)"
  | notDirectory => "Not a directory (os error 20)"
  | isDirectory => "Is a directory (os error 21)"
  | invalidArgument => "Invalid argument (os error 22)"
  | nameTooLong => "File name too long (os error 36)"
  | valueTooLarge => "Value too large for defined data type (os error 75)"
  | shortRead => "failed to fill whole buffer"
  | notUtf8 => "stream did not contain valid UTF-8"
  | nulInName => "file name contained an unexpected NUL byte"

/-- The troubles that a device reports itself. -/
inductive Trouble where
  | readFault
  | writeFault
  | emptyWindow
  | unaligned (width : Width) (offset : Nat)
  | unpinnableCpu (cpu : Nat)
  | absentCpu
deriving DecidableEq, Repr

def Trouble.message : Trouble → String
  | readFault => "read fault"
  | writeFault => "write fault"
  | emptyWindow => "empty window"
  | unaligned width offset => "unaligned " ++ width.text ++ " access at 0x" ++ Text.hex offset
  | unpinnableCpu cpu =>
      "Invalid arguments: CPU " ++ toString cpu ++ " cannot be pinned: EINVAL: Invalid argument"
  | absentCpu => "Nix error: EINVAL: Invalid argument"

inductive Fault where
  | openFailed (device : String) (cause : SystemError)
  | readFailed (device : String) (address : Value) (width : Width) (cause : SystemError)
  | writeFailed (device : String) (address : Value) (width : Width) (cause : SystemError)
  | unsupportedWidth (device : String) (width : Width)
  | outOfRange (device : String) (address : Value)
  | readOnly (device : String)
  | trouble (device : String) (cause : Trouble)
  /-- A sum has outgrown its word, which ends the program. -/
  | overflow
deriving DecidableEq, Repr

/-- An address as faults show it. -/
def addressText (address : Value) : String := "0x" ++ Text.hexUpper address.toNat

namespace Fault

def message : Fault → String
  | openFailed device cause => "Failed to open " ++ device ++ ": " ++ cause.message
  | readFailed device address width cause =>
      "Failed to read " ++ width.text ++ " at " ++ addressText address ++ " on " ++ device ++
        ": " ++ cause.message
  | writeFailed device address width cause =>
      "Failed to write " ++ width.text ++ " at " ++ addressText address ++ " on " ++ device ++
        ": " ++ cause.message
  | unsupportedWidth device width => "Unsupported " ++ width.text ++ " access on " ++ device
  | outOfRange device address => "Address " ++ addressText address ++ " is outside " ++ device
  | readOnly device => device ++ " is read-only"
  | trouble device cause => device ++ ": " ++ cause.message
  | overflow => "attempt to add with overflow"

/-- The refusal of the system behind a fault, if there is one. -/
def cause? : Fault → Option SystemError
  | openFailed _ cause | readFailed _ _ _ cause | writeFailed _ _ _ cause => some cause
  | _ => none

end Fault

/-- A range of bits that does not fit its register. -/
structure RangeError where
  address : Value
  width : Width
  high : Nat
  low : Nat
deriving DecidableEq, Repr

def RangeError.message (e : RangeError) : String :=
  "Invalid bit range [" ++ toString e.high ++ ":" ++ toString e.low ++ "] for " ++ e.width.text ++
    " register at " ++ addressText e.address

end RegisterAtlas
