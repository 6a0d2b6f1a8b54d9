import RegisterAtlas.Text.Blank
import RegisterAtlas.Text.Numeral
import RegisterAtlas.Word

/-! # CPU lists

CPUs are listed as numbers and ranges separated by commas. What is read from a list is the set of
the CPUs that it covers, in ascending order. -/

namespace RegisterAtlas.CpuList

/-- The numbers of a list, ascending and without repetition. -/
def normalize (ns : List Nat) : List Nat := ((ns.mergeSort fun a b => a ≤ b).foldr
  (fun n rest => if rest.head? = some n then rest else n :: rest) [])

/-- CPU numbers have 32 bits. -/
def cpu? (cs : List Char) : Option Nat := Text.readUnsigned 10 (wordCount 32) cs

/-- The CPUs that a part of a list covers, first and last. -/
def part? (cs : List Char) : Option (Nat × Nat) :=
  match Text.splitOnce '-' cs with
  | some (first, last) => do
      let first ← cpu? (Text.trim first)
      let last ← cpu? (Text.trim last)
      if first ≤ last then pure (first, last) else none
  | none => (cpu? cs).map fun n => (n, n)

/-- The parts of a list that are not blank. -/
def parts (cs : List Char) : List (List Char) :=
  (((Text.trim cs).splitOn ',').map Text.trim).filter (· ≠ [])

/-- All CPUs of a range. -/
def cover (r : Nat × Nat) : List Nat := List.range' r.1 (r.2 + 1 - r.1)

def parse? (text : String) : Option (List Nat) := do
  let ranges ← (parts text.toList).mapM part?
  if ranges = [] then none else pure (normalize (ranges.flatMap cover))

end RegisterAtlas.CpuList
