import RegisterAtlas.Word

/-! # Reading UTF-8 that may be damaged

Each longest piece of bytes that cannot be part of a character is read as one replacement
character. -/

namespace RegisterAtlas.Text

def replacement : Char := '\ufffd'

def isContinuation (b : UInt8) : Bool := 0x80 ≤ b && b ≤ 0xBF

/-- How many bytes a character with this first byte has; 0 if none starts so. -/
def sequenceLength (b : UInt8) : Nat :=
  if b < 0x80 then 1
  else if 0xC2 ≤ b && b ≤ 0xDF then 2
  else if 0xE0 ≤ b && b ≤ 0xEF then 3
  else if 0xF0 ≤ b && b ≤ 0xF4 then 4
  else 0

/-- The second bytes that may follow a first byte: no longer form than needed, no surrogate, and
nothing beyond the last code point. -/
def isSecond (first second : UInt8) : Bool :=
  if first = 0xE0 then 0xA0 ≤ second && second ≤ 0xBF
  else if first = 0xED then 0x80 ≤ second && second ≤ 0x9F
  else if first = 0xF0 then 0x90 ≤ second && second ≤ 0xBF
  else if first = 0xF4 then 0x80 ≤ second && second ≤ 0x8F
  else isContinuation second

/-- The payload of bytes behind those that gave `acc`, six bits each. -/
def payload (acc : Nat) (bs : List UInt8) : Nat :=
  bs.foldl (fun n b => n * 64 + b.toNat % 64) acc

/-- The bytes behind a first byte that can belong to its character. -/
def tail (first : UInt8) : List UInt8 → List UInt8
  | [] => []
  | second :: rest =>
      if isSecond first second then
        second :: (rest.take (sequenceLength first - 2)).takeWhile isContinuation
      else []

/-- The character that starts with a byte, and how many of the bytes behind it belong to it. -/
def firstChar (first : UInt8) (rest : List UInt8) : Char × Nat :=
  match sequenceLength first with
  | 0 => (replacement, 0)
  | 1 => (Char.ofNat first.toNat, 0)
  | n + 2 =>
      let more := tail first rest
      if more.length = n + 1 then
        (Char.ofNat (payload (first.toNat % wordCount (5 - n)) more), more.length)
      else (replacement, more.length)

def decodeLossy : List UInt8 → List Char
  | [] => []
  | b :: rest => (firstChar b rest).1 :: decodeLossy (rest.drop (firstChar b rest).2)
termination_by bs => bs.length
decreasing_by simp only [List.length_drop, List.length_cons]; omega

end RegisterAtlas.Text
