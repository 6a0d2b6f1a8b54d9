import RegisterAtlas.Tree

/-! # Resolving paths

A path is walked element by element from an entry. An alias on the way is replaced by what its
target resolves to from the scope of the alias; the last element is followed only on request. A name
that is not there resolves to nothing, which is no error. Each walk also keeps the canonical path of
the entry that it has reached. -/

namespace RegisterAtlas.Tree

/-- A place on a walk: the entry reached, and the canonical steps that lead to it, last one first.
-/
structure Spot where
  entry : EntryId
  trail : List Element

namespace Spot

/-- Goes to an entry by one more step. -/
def step (s : Spot) (e : Element) (entry : EntryId) : Spot :=
  ⟨entry, Path.pushNormalized false s.trail e⟩

/-- Goes to an ancestor by a number of steps upwards. -/
def climb (s : Spot) (levels : Nat) (entry : EntryId) : Spot :=
  ⟨entry, (List.replicate levels Element.parent).foldl (Path.pushNormalized false) s.trail⟩

/-- Replaces the last step, which led to an alias, by the steps of its target. -/
def follow (s target : Spot) : Spot :=
  ⟨target.entry, target.trail.reverse.foldl (Path.pushNormalized false) s.trail.tail⟩

end Spot

/-- Aliases can be nested this deep. -/
def maxAliasDepth : Nat := 32

/-- The place where the walk of a path starts. -/
def start (t : Tree) (origin : EntryId) (path : Path) : Spot :=
  if path.isAbsolute then Spot.climb ⟨origin, []⟩ ((t.ancestors origin).length - 1) root
  else ⟨origin, []⟩

/-- The nearest scope at or above an entry with a bookmark, and how many levels up it is. -/
def bookmarked? (t : Tree) (id : EntryId) (name : String) : Option (Nat × EntryId) :=
  let above := t.ancestors id
  (above.findIdx? fun id => (t.scope? id).any (name ∈ ·.bookmarks)).bind fun level =>
    above[level]?.map (level, ·)

/-- Takes element `i` of a path; aliases are not followed yet. -/
def takeStep (t : Tree) (path : Path) (i : Nat) (spot : Spot) (e : Element) :
    Except Error (Option Spot) :=
  match t.scope? spot.entry with
  | none => .error (.conversion (path.take i).text .leafInPath)
  | some s =>
      match e with
      | .parent => .ok (some (spot.step .parent (t.parent spot.entry)))
      | .bookmark name =>
          .ok ((t.bookmarked? spot.entry name).map fun (levels, id) => spot.climb levels id)
      | .name name => .ok ((s.children.get? name).map (spot.step e))
      | .indexed name index =>
          match s.children.get? name with
          | none => .ok none
          | some array =>
              match t.entry array with
              | .array items =>
                  .ok ((items.item? index).map fun item =>
                    match items.position? item with
                    | some n => spot.step (.indexed name (.pos n)) item
                    | none => { spot with entry := item })
              | e => .error (.conversion (path.take (i + 1)).text (.indexed name e.kind))

/-- Walks the elements of a path from number `i` on. `enter` finds what an alias stands for. -/
def walkElements (t : Tree) (path : Path) (enter : EntryId → String → Except Error (Option Spot))
    (followLast : Bool) : Nat → Spot → List Element → Except Error (Option Spot)
  | _, spot, [] => .ok (some spot)
  | i, spot, e :: rest => do
      match ← t.takeStep path i spot e with
      | none => pure none
      | some next =>
          match t.alias? next.entry with
          | some target =>
              if rest = [] ∧ !followLast then pure (some next)
              else
                match ← enter (t.parent next.entry) target with
                | none => pure none
                | some found =>
                    t.walkElements path enter followLast (i + 1) (next.follow found) rest
          | none => t.walkElements path enter followLast (i + 1) next rest

/-- Walks a path with at most `depth` walks nested in each other, this one included. -/
def walk (t : Tree) : Nat → EntryId → Path → Bool → Except Error (Option Spot)
  | 0, _, path, _ => .error (.conversion path.text .aliasesTooDeep)
  | depth + 1, origin, path, followLast =>
      t.walkElements path
        (fun scope target => do t.walk depth scope (← Path.ofText target) true)
        followLast 0 (t.start origin path) path.elements

/-- Walks a path as deep as aliases can be nested. -/
def walkFrom (t : Tree) (origin : EntryId) (path : Path) (followLast : Bool) :
    Except Error (Option Spot) :=
  t.walk (maxAliasDepth + 1) origin path followLast

/-- The entry at a path. An alias at its end is not followed. -/
def resolve (t : Tree) (origin : EntryId) (path : Path) : Except Error (Option EntryId) :=
  (t.walkFrom origin path false).map (Option.map Spot.entry)

/-- The entry at a path, any alias at its end followed. -/
def resolveFollow (t : Tree) (origin : EntryId) (path : Path) : Except Error (Option EntryId) :=
  (t.walkFrom origin path true).map (Option.map Spot.entry)

def resolveText (t : Tree) (origin : EntryId) (text : String) : Except Error (Option EntryId) := do
  t.resolve origin (← Path.ofText text)

def resolveTextFollow (t : Tree) (origin : EntryId) (text : String) :
    Except Error (Option EntryId) := do
  t.resolveFollow origin (← Path.ofText text)

def isDefined (t : Tree) (origin : EntryId) (text : String) : Bool :=
  match t.resolveText origin text with
  | .ok (some _) => true
  | _ => false

/-- The relative path without aliases, bookmarks and places counted from the end that leads to the
same entry. -/
def canonicalPath (t : Tree) (origin : EntryId) (path : Path) : Except Error (Option Path) :=
  (t.walkFrom origin path true).map (Option.map fun spot => ⟨false, spot.trail.reverse⟩)

end RegisterAtlas.Tree
