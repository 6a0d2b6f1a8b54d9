/-! # Kinds of entries and of datatypes -/

namespace RegisterAtlas

/-- The kinds of entries of a tree. -/
inductive Kind where
  | scope | field | array | alias
deriving DecidableEq, Repr

def Kind.name : Kind → String
  | .scope => "scope"
  | .field => "field"
  | .array => "array"
  | .alias => "alias"

/-- The kinds of datatypes. -/
inductive DatatypeKind where
  | enum | bitmask | bool | int | hex
deriving DecidableEq, Repr

def DatatypeKind.name : DatatypeKind → String
  | enum => "enum"
  | bitmask => "bitmask"
  | bool => "bool"
  | int => "int"
  | hex => "hex"

end RegisterAtlas
