import RegisterAtlas.Tree.Access

/-! # Failures of a command

A failure is reported as what was being done, followed by its causes, each behind the one that it
caused. Where a sum outgrows its word or accesses nest without an end, the run is over on the spot,
and nothing is said of what was being done. -/

namespace RegisterAtlas.CommandLine

/-- What is done while something else fails. -/
inductive Activity where
  | loading (file : String)
  | describing
  | writing (v : Value) (path : String)
deriving DecidableEq, Repr

inductive Failure where
  | halt (h : Halt)
  | notNumber (text : String)
  | unsupportedWidth (bits : Nat)
  | unknownDriver (name : String)
  | noEntry (path : String)
  | notField (path : String)
  | during (activity : Activity) (failure : Failure)
deriving DecidableEq, Repr

/-- A value as commands print it. -/
def valueText (v : Value) : String := "0x" ++ Text.hex v.toNat

def Activity.message : Activity → String
  | loading file => "loading config " ++ file
  | describing => "describing system"
  | writing v path => "writing " ++ valueText v ++ " to " ++ path

namespace Failure

def error (e : Error) : Failure := .halt (.error e)

/-- The messages of a failure, each followed by that of its cause. -/
def messages : Failure → List String
  | halt (.error e) => e.message :: e.causes
  | halt .unfinished => ["accesses are nested too deeply"]
  | notNumber text => ["'" ++ text ++ "' is not a number"]
  | unsupportedWidth bits => ["unsupported width " ++ toString bits]
  | unknownDriver name => ["unknown driver '" ++ name ++ "'"]
  | noEntry path => [path ++ ": no such dirent"]
  | notField path => [path ++ ": not a field"]
  | during activity failure => activity.message :: failure.messages

/-- A text with a mark before its first line, and blanks before the others. -/
def indented (mark : String) (width : Nat) (text : String) : String :=
  let margin := '\n' :: List.replicate width ' '
  mark ++ String.ofList (text.toList.flatMap fun c => if c = '\n' then margin else [c])

/-- The number of a cause, right-aligned. -/
def causeMark (n : Nat) : String :=
  String.ofList (List.replicate (5 - (toString n).length) ' ') ++ toString n ++ ": "

/-- The causes of a failure, one below the other; they are numbered if there are several. -/
def causeLines : List String → List String
  | [] => []
  | [cause] => [indented "    " 4 cause]
  | causes => causes.mapIdx fun n cause => indented (causeMark n) 7 cause

def report (f : Failure) : String :=
  match f.messages with
  | [] => ""
  | message :: causes =>
      let below :=
        if causes = [] then ""
        else "\n\nCaused by:\n" ++ String.intercalate "\n" (causeLines causes)
      "Error: " ++ message ++ below ++ "\n"

/-- How a run is over on the spot, if it is: the code that it ends with, and what it says. -/
def crash : Failure → Option (Nat × String)
  | halt (.error (.access .overflow)) => some (101, Fault.overflow.message ++ "\n")
  | halt .unfinished => some (134, "accesses are nested too deeply\n")
  | during _ failure => failure.crash
  | _ => none

/-- How a run ends, with its code and what it says. -/
def ending (f : Failure) : Nat × String := f.crash.getD (1, f.report)

end Failure

end RegisterAtlas.CommandLine
