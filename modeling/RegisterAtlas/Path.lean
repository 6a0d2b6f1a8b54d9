import RegisterAtlas.Error
import RegisterAtlas.Text.Numeral

/-! # Paths

A path is a list of elements separated by slashes: names, array items, steps to the parent and
bookmarks. Paths are read from text and printed back, and `..` can be cancelled lexically against
the element before it. -/

namespace RegisterAtlas

/-- Which item of an array is meant. -/
inductive Index where
  | append
  | pos (n : Nat)
  | fromEnd (n : Nat)
deriving DecidableEq, Repr

def Index.text : Index → String
  | append => ""
  | pos n => toString n
  | fromEnd n => "-" ++ toString n

inductive Element where
  | name (name : String)
  | indexed (name : String) (index : Index)
  | parent
  | bookmark (name : String)
deriving DecidableEq, Repr

structure Path where
  isAbsolute : Bool
  elements : List Element
deriving DecidableEq, Repr

/-! ## Names -/

def isIdentStart (c : Char) : Bool :=
  ('a' ≤ c && c ≤ 'z') || ('A' ≤ c && c ≤ 'Z') || c == '_'

def isIdentChar (c : Char) : Bool := isIdentStart c || ('0' ≤ c && c ≤ '9')

def isNameChar (c : Char) : Bool := isIdentChar c || c == '.'

/-- Identifiers name bookmarks. -/
def isIdent : List Char → Bool
  | [] => false
  | c :: cs => isIdentStart c && cs.all isIdentChar

/-- Names may hold dots, except for those of raw registers, which start with a percent sign. -/
def isName : List Char → Bool
  | [] => false
  | '%' :: cs => isIdent cs
  | c :: cs => isIdentStart c && cs.all isNameChar

/-! ## Reading -/

/-- Array positions are 64-bit numbers. -/
def indexLimit : Nat := wordCount 64

/-- A position: hexadecimal behind `0x`, octal behind a further `0`, decimal otherwise. -/
def parsePosition? (cs : List Char) : Option Nat :=
  let value? :=
    match Text.hexBody? cs, cs with
    | some digits, _ => Text.readDigits 16 digits
    | none, '0' :: c :: rest => Text.readDigits 8 (c :: rest)
    | none, _ => Text.readDigits 10 cs
  value?.filter (· < indexLimit)

def Index.parse? : List Char → Option Index
  | [] => some .append
  | '-' :: cs => ((parsePosition? cs).filter (0 < ·)).map .fromEnd
  | cs => (parsePosition? cs).map .pos

namespace Element

def parse : List Char → Except PathFlaw Element
  | [] => .error .emptySegment
  | ['.', '.'] => .ok .parent
  | '$' :: cs => if isIdent cs then .ok (.bookmark (String.ofList cs)) else .error .badBookmark
  | cs =>
      match Text.splitOnce '[' cs with
      | some (front, rest) =>
          match Text.stripEnd? [']'] rest with
          | none => .error .unterminatedIndex
          | some inner =>
              if isName front then
                match Index.parse? inner with
                | some index => .ok (.indexed (String.ofList front) index)
                | none => .error .badIndex
              else .error .badArrayName
      | none => if isName cs then .ok (.name (String.ofList cs)) else .error .badName

/-- Reads a single element. -/
def ofText (text : String) : Except Error Element :=
  match parse text.toList with
  | .ok e => .ok e
  | .error flaw => .error (.invalidPath text flaw)

def text : Element → String
  | name n => n
  | indexed n index => n ++ "[" ++ index.text ++ "]"
  | parent => ".."
  | bookmark n => "$" ++ n

end Element

namespace Path

/-- Reads the elements of a path. One slash at the start makes it absolute, and one at the end is
ignored. -/
def parseChars (cs : List Char) : Except PathFlaw Path := do
  let (isAbsolute, rest) := match cs with
    | '/' :: rest => (true, rest)
    | _ => (false, cs)
  let rest := (Text.stripEnd? ['/'] rest).getD rest
  if rest = [] then pure ⟨isAbsolute, []⟩
  else pure ⟨isAbsolute, ← (rest.splitOn '/').mapM Element.parse⟩

def ofText (text : String) : Except Error Path :=
  match parseChars text.toList with
  | .ok p => .ok p
  | .error flaw => .error (.invalidPath text flaw)

theorem ofText_eq_error {text : String} {err : Error} (h : ofText text = .error err) :
    ∃ flaw, err = .invalidPath text flaw := by
  unfold ofText at h
  split at h <;> cases h
  exact ⟨_, rfl⟩

def text (p : Path) : String :=
  (if p.isAbsolute then "/" else "") ++ String.intercalate "/" (p.elements.map Element.text)

def isEmpty (p : Path) : Bool := p.elements.isEmpty

/-- The path of the first `n` elements. -/
def take (p : Path) (n : Nat) : Path := { p with elements := p.elements.take n }

def push (p : Path) (e : Element) : Path := { p with elements := p.elements ++ [e] }

/-! ## Lexical normalization -/

/-- Puts an element on a stack of elements, last one first. A step to the parent takes away the
element before it, unless that is such a step itself or a bookmark; above the root there is
nothing. -/
def pushNormalized (isAbsolute : Bool) : List Element → Element → List Element
  | [], .parent => if isAbsolute then [] else [.parent]
  | .parent :: stack, .parent => .parent :: .parent :: stack
  | .bookmark n :: stack, .parent => .parent :: .bookmark n :: stack
  | _ :: stack, .parent => stack
  | stack, e => e :: stack

def normalized (p : Path) : Path :=
  { p with elements := (p.elements.foldl (pushNormalized p.isAbsolute) []).reverse }

end Path

@[simp] theorem Path.take_isAbsolute (p : Path) (n : Nat) :
    (p.take n).isAbsolute = p.isAbsolute := rfl

@[simp] theorem Path.take_elements (p : Path) (n : Nat) :
    (p.take n).elements = p.elements.take n := rfl

@[simp] theorem Path.normalized_isAbsolute (p : Path) :
    p.normalized.isAbsolute = p.isAbsolute := rfl

theorem parsePosition?_lt {cs : List Char} {n : Nat} (h : parsePosition? cs = some n) :
    n < indexLimit := by
  simpa using (Option.filter_eq_some_iff.1 h).2

end RegisterAtlas
