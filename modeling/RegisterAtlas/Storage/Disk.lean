import RegisterAtlas.Fault
import RegisterAtlas.Storage.Image
import RegisterAtlas.Table

/-! # Disks

A disk holds directories and files under absolute locations, lists of names from the root down. A
file name is a text; names in it that do not start at the root start at the working directory.

The system has reasons of its own not to map part of a file into memory, such as a lack of room.
These are not gone into: which parts it refuses comes with the disk. -/

namespace RegisterAtlas

inductive Content where
  | directory
  | file (image : Image)

abbrev Location := List String

structure Disk where
  workingDirectory : Location
  contents : Table Location Content
  /-- What the system says against mapping so many bytes of a file from a place in it on. -/
  mapRefusal : (start length : UInt64) → Option SystemError := fun _ _ => none

/-- The name of something below a directory; an absolute name stands alone. -/
def joinNames (directory name : String) : String :=
  match name.toList, directory.toList.getLast? with
  | '/' :: _, _ => name
  | _, none | _, some '/' => directory ++ name
  | _, _ => directory ++ "/" ++ name

/-- File offsets are signed 64-bit numbers. -/
def offsetLimit : Nat := wordCount 63

namespace Disk

def empty : Disk where
  workingDirectory := []
  contents := ∅

/-- What stands at a location; the root is always a directory. -/
def content? (d : Disk) (place : Location) : Option Content :=
  if place = [] then some .directory else d.contents.get? place

def isDirectory (d : Disk) (place : Location) : Bool :=
  match d.content? place with
  | some .directory => true
  | _ => false

/-- Follows the parts of a name downwards from a location. -/
def descend (d : Disk) : Location → List String → Except SystemError Location
  | place, [] => .ok place
  | place, part :: rest =>
      if d.isDirectory place then
        if part = "" ∨ part = "." then d.descend place rest
        else if part = ".." then d.descend place.dropLast rest
        else if 255 < part.utf8ByteSize then .error .nameTooLong
        else match d.content? (place ++ [part]) with
          | some _ => d.descend (place ++ [part]) rest
          | none => .error .noEntry
      else .error .notDirectory

def locate (d : Disk) (name : String) : Except SystemError Location :=
  let cs := name.toList
  if '\x00' ∈ cs then .error .nulInName
  else if cs = [] then .error .noEntry
  else if 4096 ≤ name.utf8ByteSize then .error .nameTooLong
  else d.descend (if cs.head? = some '/' then [] else d.workingDirectory)
    ((cs.splitOn '/').map String.ofList)

/-- The location that a name stands for, whether there is something or not. -/
def place (d : Disk) (name : String) : Location :=
  ((name.toList.splitOn '/').map String.ofList).foldl
    (fun place part =>
      if part = "" ∨ part = "." then place
      else if part = ".." then place.dropLast
      else place ++ [part])
    (if name.toList.head? = some '/' then [] else d.workingDirectory)

/-- Adds a directory with those that it lies in. -/
def addDirectory (d : Disk) (place : Location) : Disk :=
  (List.range (place.length + 1)).foldl
    (fun d n => { d with contents := d.contents.insertNew (place.take n) .directory }) d

/-- Adds a file with the directories that it lies in. -/
def addFile (d : Disk) (place : Location) (image : Image) : Disk :=
  let d := d.addDirectory place.dropLast
  { d with contents := d.contents.insert place (.file image) }

/-- Opens a file for reading and writing. -/
def openFile (d : Disk) (name : String) : Except SystemError Location := do
  let place ← d.locate name
  if d.isDirectory place then .error .isDirectory else pure place

/-- The image of the file at a location. -/
def image? (d : Disk) (place : Location) : Option Image :=
  match d.content? place with
  | some (.file image) => some image
  | _ => none

/-- Reads exactly `count` bytes. The end of what is read must be an offset as well. -/
def readBytes (d : Disk) (place : Location) (offset count : Nat) :
    Except SystemError (List UInt8) :=
  if offsetLimit ≤ offset + count then .error .invalidArgument
  else match d.content? place with
    | some (.file image) =>
        if offset + count ≤ image.size then .ok (image.slice offset count) else .error .shortRead
    | some .directory => .error .isDirectory
    | none => .error .noEntry

/-- Writes bytes into a file. A directory can be opened for reading only. -/
def writeBytes (d : Disk) (place : Location) (offset : Nat) (bytes : List UInt8) :
    Except SystemError Disk :=
  if offsetLimit ≤ offset + bytes.length then .error .invalidArgument
  else match d.content? place with
    | some (.file image) =>
        .ok { d with contents := d.contents.insert place (.file (image.patch offset bytes)) }
    | some .directory => .error .badDescriptor
    | none => .error .noEntry

/-- The whole text of a file. -/
def readText (d : Disk) (name : String) : Except SystemError String := do
  let place ← d.openFile name
  match d.image? place with
  | some image =>
      match String.fromUTF8? ⟨image.bytes.toArray⟩ with
      | some text => pure text
      | none => .error .notUtf8
  | none => .error .noEntry

/-- The names in a directory, each with its location. -/
def list (d : Disk) (place : Location) : Except SystemError (List (String × Location)) :=
  if d.isDirectory place then
    .ok (d.contents.keys.filterMap fun loc =>
      match loc.getLast? with
      | some name => if loc.dropLast = place then some (name, loc) else none
      | none => none)
  else .error .notDirectory

end Disk

end RegisterAtlas
