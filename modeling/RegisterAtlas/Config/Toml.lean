import RegisterAtlas.Text.Numeral
import RegisterAtlas.Text.Split
import RegisterAtlas.Word

/-! # Settings in TOML

A settings file is the part of TOML in which all settings are at the top level: lines with a key
and a value, where values are strings, integers and arrays. Everything else that TOML knows, such as
tables, dotted keys, floats, booleans and dates, is refused here because no setting takes it. -/

namespace RegisterAtlas.Toml

inductive Item where
  | string (s : String)
  | integer (n : Int)
  | array (items : List Item)
deriving Repr

def isSpace (c : Char) : Bool := c == ' ' || c == '\t'

def skipSpaces (cs : List Char) : List Char := cs.dropWhile isSpace

/-- Whether a character may stand in comments and literal strings: no control characters but the
tab. -/
def isPrintable (c : Char) : Bool := c == '\t' || (0x20 ≤ c.toNat && c.toNat ≠ 0x7F)

/-- The text behind a comment, if there is one. -/
def skipComment : List Char → List Char
  | '#' :: cs => cs.dropWhile isPrintable
  | cs => cs

/-- The text behind the end of a line. -/
def newline? : List Char → Option (List Char)
  | '\n' :: cs | '\r' :: '\n' :: cs => some cs
  | _ => none

/-! ## Strings -/

/-- The character with a code point given by exactly `count` hexadecimal digits. -/
def codePoint (count : Nat) (cs : List Char) : Option (Char × List Char) := do
  let digits := cs.take count
  if digits.length = count then
    let n ← Text.readDigits 16 digits
    if n.isValidChar then pure (Char.ofNat n, cs.drop count) else none
  else none

/-- The character that an escape behind a backslash stands for. -/
def escape : List Char → Option (Char × List Char)
  | 'b' :: cs => some ('\x08', cs)
  | 't' :: cs => some ('\t', cs)
  | 'n' :: cs => some ('\n', cs)
  | 'f' :: cs => some ('\x0c', cs)
  | 'r' :: cs => some ('\r', cs)
  | '"' :: cs => some ('"', cs)
  | '\\' :: cs => some ('\\', cs)
  | 'u' :: cs => codePoint 4 cs
  | 'U' :: cs => codePoint 8 cs
  | _ => none

/-- The text of a basic string up to its closing quote. -/
def basic : Nat → List Char → List Char → Option (String × List Char)
  | 0, _, _ => none
  | fuel + 1, acc, cs =>
      match cs with
      | '"' :: cs => some (String.ofList acc.reverse, cs)
      | '\\' :: cs => do
          let (c, cs) ← escape cs
          basic fuel (c :: acc) cs
      | c :: cs => if isPrintable c then basic fuel (c :: acc) cs else none
      | [] => none

/-- The text of a literal string up to its closing quote. -/
def literal (cs : List Char) : Option (String × List Char) :=
  match cs.span fun c => c != '\'' && isPrintable c with
  | (body, '\'' :: cs) => some (String.ofList body, cs)
  | _ => none

/-- How many quotes a text starts with. -/
def quotes (quote : Char) (cs : List Char) : Nat := (cs.takeWhile (· = quote)).length

/-- The text behind blank lines and the blanks in front of the next other character. -/
def skipLines : Nat → List Char → List Char
  | 0, cs => cs
  | fuel + 1, cs =>
      match newline? (skipSpaces cs) with
      | some rest => skipLines fuel rest
      | none => skipSpaces cs

/-- The text behind a backslash at the end of a line: what follows the line end goes on with the
next character that is not blank. -/
def skipLineEnd (cs : List Char) : Option (List Char) :=
  (newline? (skipSpaces cs)).map fun rest => skipLines rest.length rest

/-- The text of a string between triple quotes. Up to two quotes may stand before the closing
three. Line ends are read as newlines. -/
def multiline (quote : Char) (escapes : Bool) :
    Nat → List Char → List Char → Option (String × List Char)
  | 0, _, _ => none
  | fuel + 1, acc, cs =>
      let n := quotes quote cs
      if 3 ≤ n then
        if n ≤ 5 then
          some (String.ofList (List.replicate (n - 3) quote ++ acc).reverse, cs.drop n)
        else none
      else
        match cs with
        | [] => none
        | '\\' :: rest =>
            if escapes then
              match escape rest with
              | some (c, rest) => multiline quote escapes fuel (c :: acc) rest
              | none => do multiline quote escapes fuel acc (← skipLineEnd rest)
            else multiline quote escapes fuel ('\\' :: acc) rest
        | '\r' :: '\n' :: rest => multiline quote escapes fuel ('\n' :: acc) rest
        | c :: rest =>
            if isPrintable c || c == '\n' then multiline quote escapes fuel (c :: acc) rest
            else none

/-- The line end right behind the opening quotes is no part of the string. -/
def dropFirstNewline (cs : List Char) : List Char := (newline? cs).getD cs

def string (cs : List Char) : Option (String × List Char) :=
  match cs with
  | '"' :: '"' :: '"' :: cs => multiline '"' true (cs.length + 1) [] (dropFirstNewline cs)
  | '\'' :: '\'' :: '\'' :: cs => multiline '\'' false (cs.length + 1) [] (dropFirstNewline cs)
  | '"' :: cs => basic (cs.length + 1) [] cs
  | '\'' :: cs => literal cs
  | _ => none

/-! ## Integers -/

/-- Underscores may stand between digits only. -/
def dropUnderscores (cs : List Char) : Option (List Char) :=
  let groups := cs.splitOn '_'
  if groups.all (· ≠ []) then some groups.flatten else none

def magnitude (radix : Nat) (cs : List Char) : Option Nat := do
  Text.readDigits radix (← dropUnderscores cs)

/-- Decimal numbers have no leading zeros. -/
def decimal : List Char → Option Nat
  | ['0'] => some 0
  | '0' :: _ => none
  | cs => magnitude 10 cs

/-- Integers have 64 bits with sign. -/
def integer (cs : List Char) : Option Int := do
  let n : Int ←
    match cs with
    | '0' :: 'x' :: ds => (magnitude 16 ds).map Int.ofNat
    | '0' :: 'o' :: ds => (magnitude 8 ds).map Int.ofNat
    | '0' :: 'b' :: ds => (magnitude 2 ds).map Int.ofNat
    | '+' :: ds => (decimal ds).map Int.ofNat
    | '-' :: ds => (decimal ds).map fun n => -(n : Int)
    | ds => (decimal ds).map Int.ofNat
  if -(wordCount 63 : Int) ≤ n ∧ n < wordCount 63 then pure n else none

/-- The characters that numbers are made of. -/
def isNumeral (c : Char) : Bool :=
  (Text.alphanumericValue? c).isSome || c == '_' || c == '+' || c == '-' || c == '.' || c == ':'

/-! ## Values and files -/

/-- The text behind blanks, line ends and comments between the items of an array. -/
def skipFiller : Nat → List Char → List Char
  | 0, cs => cs
  | fuel + 1, cs =>
      match newline? (skipComment (skipSpaces cs)) with
      | some rest => skipFiller fuel rest
      | none => skipSpaces cs

mutual

def value : Nat → List Char → Option (Item × List Char)
  | 0, _ => none
  | fuel + 1, cs =>
      match cs with
      | '[' :: cs => (items fuel [] cs).map fun (is, rest) => (.array is, rest)
      | '"' :: _ | '\'' :: _ => (string cs).map fun (s, rest) => (.string s, rest)
      | _ => (integer (cs.takeWhile isNumeral)).map fun n => (.integer n, cs.dropWhile isNumeral)

/-- The items of an array up to its closing bracket; a comma may stand behind the last one. -/
def items : Nat → List Item → List Char → Option (List Item × List Char)
  | 0, _, _ => none
  | fuel + 1, acc, cs =>
      match skipFiller cs.length cs with
      | ']' :: rest => some (acc.reverse, rest)
      | cs => do
          let (item, rest) ← value fuel cs
          match skipFiller rest.length rest with
          | ',' :: rest => items fuel (item :: acc) rest
          | ']' :: rest => some ((item :: acc).reverse, rest)
          | _ => none

end

def isBareKey (c : Char) : Bool := (Text.alphanumericValue? c).isSome || c == '_' || c == '-'

def key (cs : List Char) : Option (String × List Char) :=
  match cs with
  | '"' :: cs => basic (cs.length + 1) [] cs
  | '\'' :: cs => literal cs
  | cs =>
      match cs.span isBareKey with
      | ([], _) => none
      | (name, rest) => some (String.ofList name, rest)

/-- A key, an equals sign and a value. -/
def setting (cs : List Char) : Option ((String × Item) × List Char) := do
  let (name, cs) ← key cs
  match skipSpaces cs with
  | '=' :: cs =>
      let cs := skipSpaces cs
      let (item, cs) ← value (cs.length + 1) cs
      pure ((name, item), cs)
  | _ => none

/-- The settings in the lines of a text. No key may be set twice. -/
def lines : Nat → List (String × Item) → List Char → Option (List (String × Item))
  | 0, _, _ => none
  | fuel + 1, acc, cs =>
      match newline? (skipComment (skipSpaces cs)), skipComment (skipSpaces cs) with
      | some rest, _ => lines fuel acc rest
      | none, [] => some acc.reverse
      | none, _ => do
          let ((name, item), rest) ← setting (skipSpaces cs)
          if acc.any (·.1 = name) then none
          else
            match newline? (skipComment (skipSpaces rest)), skipComment (skipSpaces rest) with
            | some rest, _ => lines fuel ((name, item) :: acc) rest
            | none, [] => some ((name, item) :: acc).reverse
            | none, _ => none

/-- The settings of a file, in order. A byte order mark at its start is ignored. -/
def settings? (text : String) : Option (List (String × Item)) :=
  let cs := text.toList
  let cs := (Text.stripStart? ['\ufeff'] cs).getD cs
  lines (cs.length + 1) [] cs

end RegisterAtlas.Toml
