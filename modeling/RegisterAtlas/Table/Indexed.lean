/-! # Indexed tables

An indexed table finds the position of a key in an index instead of going through its entries. The
entries and the index know the same keys, and every operation has to change both. Nothing in the
data holds them together: an operation for which the index points beyond the entries, or for which
a position would fall below zero, is stopped. -/

namespace RegisterAtlas

/-- The ways in which an index turns out not to fit its entries. -/
inductive Mismatch where
  | beyondEntries (pos : Nat)
  | belowZero
deriving DecidableEq, Repr

structure IndexedTable (α β : Type) where
  entries : Array (α × β)
  /-- The position of every listed key. -/
  index : α → Option Nat

namespace IndexedTable

variable {α β : Type}

def empty : IndexedTable α β := ⟨#[], fun _ => none⟩

instance : EmptyCollection (IndexedTable α β) := ⟨empty⟩

def size (t : IndexedTable α β) : Nat := t.entries.size

def isEmpty (t : IndexedTable α β) : Bool := t.entries.isEmpty

def keys (t : IndexedTable α β) : List α := t.entries.toList.map Prod.fst

def values (t : IndexedTable α β) : List β := t.entries.toList.map Prod.snd

def at? (t : IndexedTable α β) (pos : Nat) : Option β := t.entries[pos]?.map Prod.snd

def keyAt? (t : IndexedTable α β) (pos : Nat) : Option α := t.entries[pos]?.map Prod.fst

def position? (t : IndexedTable α β) (key : α) : Option Nat := t.index key

def contains (t : IndexedTable α β) (key : α) : Bool := (t.index key).isSome

/-- The entry at a position that the index has given. -/
def entryAt (t : IndexedTable α β) (pos : Nat) : Except Mismatch (α × β) :=
  match t.entries[pos]? with
  | some entry => .ok entry
  | none => .error (.beyondEntries pos)

def get? (t : IndexedTable α β) (key : α) : Except Mismatch (Option β) :=
  match t.index key with
  | none => .ok none
  | some pos => do pure (some (← t.entryAt pos).2)

/-- Changes the value of a listed key in place, and returns the one it had. -/
def modify (t : IndexedTable α β) (key : α) (f : β → β) :
    Except Mismatch (Option β × IndexedTable α β) :=
  match t.index key with
  | none => .ok (none, t)
  | some pos => do
      let (k, old) ← t.entryAt pos
      pure (some old, { t with entries := t.entries.setIfInBounds pos (k, f old) })

variable [DecidableEq α]

/-- An index with another position for a key, or with none. -/
def move (index : α → Option Nat) (key : α) (pos : Option Nat) : α → Option Nat :=
  fun k => if k = key then pos else index k

/-- Overwrites the value of a listed key and appends a new key. Returns the value that the key had
before. -/
def insert (t : IndexedTable α β) (key : α) (value : β) :
    Except Mismatch (Option β × IndexedTable α β) :=
  match t.index key with
  | some pos => do
      let (k, old) ← t.entryAt pos
      pure (some old, { t with entries := t.entries.setIfInBounds pos (k, value) })
  | none => .ok (none, ⟨t.entries.push (key, value), move t.index key (some t.entries.size)⟩)

/-- Lowers the positions of keys by one. -/
def lower (index : α → Option Nat) : List α → Except Mismatch (α → Option Nat)
  | [] => .ok index
  | key :: rest =>
      match index key with
      | none => lower index rest
      | some 0 => .error .belowZero
      | some (pos + 1) => lower (move index key (some pos)) rest

/-- Removes the entry at a position and renumbers those behind it. -/
def erase (t : IndexedTable α β) (pos : Nat) :
    Except Mismatch (Option (α × β) × IndexedTable α β) :=
  match t.entries[pos]? with
  | none => .ok (none, t)
  | some entry => do
      let entries := t.entries.eraseIdxIfInBounds pos
      let index ← lower (move t.index entry.1 none) ((entries.toList.drop pos).map Prod.fst)
      pure (some entry, ⟨entries, index⟩)

/-- Inserts the pairs one after the other. -/
def ofList (pairs : List (α × β)) : Except Mismatch (IndexedTable α β) :=
  pairs.foldlM (fun t p => do pure (← t.insert p.1 p.2).2) ∅

end IndexedTable

end RegisterAtlas
