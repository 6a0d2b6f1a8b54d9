import RegisterAtlas.Error
import RegisterAtlas.Table
import RegisterAtlas.Text.Blank

/-! # Datatypes

A datatype turns the raw value of a field into text for a human, and a token typed by a human back
into a raw value. -/

namespace RegisterAtlas

/-- How values without a name are shown. -/
def unknownToken (s : String) : String := "<!" ++ s ++ "!>"

/-- Numbers are typed in decimal, or in hexadecimal behind `0x`, with blanks around them. -/
def parseNumber? (cs : List Char) : Option Value :=
  let cs := Text.trim cs
  let value? :=
    match Text.hexBody? cs with
    | some digits => Text.readDigits 16 digits
    | none => Text.readDigits 10 cs
  (value?.filter (· < wordCount valueBits)).map (BitVec.ofNat 128)

/-- Named values, and the text for all others if there is one. -/
structure EnumType where
  names : Table String Value
  unknown : Option String

namespace EnumType

/-- Of several pairs with one name the first counts. -/
def ofList (pairs : List (String × Value)) (unknown : Option String) : EnumType :=
  ⟨pairs.foldl (fun t p => t.insertNew p.1 p.2) ∅, unknown⟩

def evaluate (e : EnumType) (v : Value) : String :=
  match e.names.entries.find? (·.2 = v), e.unknown with
  | some (name, _), _ => name
  | none, some text => text
  | none, none => unknownToken (toString v.toNat)

def has (e : EnumType) (v : Value) : Bool := e.names.values.any (· = v)

end EnumType

/-- The bit of a flag. -/
def flag (bit : Nat) : Value := 1#128 <<< bit

/-- A value without the lowest of its bits. -/
def clearLowest (v : Value) : Value := v &&& (v - 1)

theorem clearLowest_lt {v : Value} (h : v ≠ 0) : (clearLowest v).toNat < v.toNat := by
  have hpos : 1 ≤ v.toNat := Nat.one_le_iff_ne_zero.2 fun hzero => h (BitVec.eq_of_toNat_eq hzero)
  have hone : (v - 1).toNat = v.toNat - 1 := BitVec.toNat_sub_of_le hpos
  have hle : (clearLowest v).toNat ≤ (v - 1).toNat := by
    rw [clearLowest, BitVec.toNat_and]
    exact Nat.and_le_right
  omega

/-- A token for each bit that is set, from the lowest one on. -/
def bitTokens (v : Value) : List String :=
  if v = 0 then [] else unknownToken (toString v.ctz.toNat) :: bitTokens (clearLowest v)
termination_by v.toNat
decreasing_by exact clearLowest_lt ‹_›

/-- Named bits. -/
structure BitmaskType where
  names : Table String Nat

namespace BitmaskType

/-- Of several pairs with one name the first counts. No value has a bit 128. -/
def ofList (pairs : List (String × Nat)) : Except Error BitmaskType := do
  let names ← pairs.foldlM (fun t (name, bit) =>
    if bit < valueBits then .ok (t.insertNew name bit)
    else .error (.invalidValue .bitmask (toString bit))) ∅
  pure ⟨names⟩

def declared (b : BitmaskType) : Value := b.names.values.foldl (fun acc bit => acc ||| flag bit) 0

/-- The names of the bits that are set in a value, and what is left of `rest` without these bits. -/
def takeNames (v : Value) : List (String × Nat) → Value → List String × Value
  | [], rest => ([], rest)
  | (name, bit) :: entries, rest =>
      if v &&& flag bit = 0 then takeNames v entries rest
      else
        let (names, rest) := takeNames v entries (rest &&& ~~~flag bit)
        (name :: names, rest)

/-- The names of the bits that are set, and a token for each set bit without a name. -/
def tokens (b : BitmaskType) (v : Value) : List String :=
  let (names, rest) := takeNames v b.names.entries v
  names ++ bitTokens rest

def evaluate (b : BitmaskType) (v : Value) : String := String.intercalate " " (b.tokens v)

end BitmaskType

inductive Datatype where
  | enum (e : EnumType)
  | bitmask (b : BitmaskType)
  | bool (e : EnumType)
  | int (units : Option String)
  | hex (width : Nat) (units : Option String)

namespace Datatype

def boolean (trueName falseName : String) : Datatype :=
  .bool (.ofList [(trueName, 1), (falseName, 0)] none)

def kind : Datatype → DatatypeKind
  | enum _ => .enum
  | bitmask _ => .bitmask
  | bool _ => .bool
  | int _ => .int
  | hex .. => .hex

/-- A number with its unit behind it. -/
def withUnits (text : String) : Option String → String
  | some units => text ++ " " ++ units
  | none => text

def evaluate : Datatype → Value → String
  | enum e, v | bool e, v => e.evaluate v
  | bitmask b, v => b.evaluate v
  | int units, v => withUnits (toString v.toNat) units
  | hex width units, v => withUnits ("0x" ++ Text.hexPadded ((width + 3) / 4) v.toNat) units

/-- The number in a token, without the unit if that stands behind it. -/
def bareNumber (units : Option String) (token : List Char) : List Char :=
  match units with
  | some units => (Text.stripEnd? units.toList (Text.trim token)).getD (Text.trim token)
  | none => token

/-- The value that a token stands for. -/
def lookup (t : Datatype) (token : String) : Except Error Value :=
  let value? : Option Value :=
    match t with
    | enum e | bool e => e.names.get? token
    | bitmask b => (b.names.get? token).map flag
    | int units | hex _ units => parseNumber? (bareNumber units token.toList)
  match value? with
  | some v => .ok v
  | none => .error (.invalidValue t.kind token)

/-- The value that a raw number stands for. -/
def lookupValue (t : Datatype) (v : Value) : Except Error Value :=
  let value? : Option Value :=
    match t with
    | enum e => if e.has v then some v else none
    | bool _ => some (if v = 0 then 0 else 1)
    | bitmask b => if v &&& ~~~b.declared = 0 then some v else none
    | int _ | hex .. => some v
  match value? with
  | some v => .ok v
  | none => .error (.invalidValue t.kind (toString v.toNat))

end Datatype

end RegisterAtlas
