/-! # Insertion-ordered tables

A table maps keys to values, lists its entries in the order in which their keys came, and can be
addressed by key or by position. The names in a scope and the symbols of an enumeration are kept in
tables. -/

namespace RegisterAtlas

structure Table (α β : Type) where
  entries : List (α × β)
  nodup : (entries.map Prod.fst).Nodup

namespace Table

variable {α β : Type}

def empty : Table α β := ⟨[], .nil⟩

instance : EmptyCollection (Table α β) := ⟨empty⟩
instance : Inhabited (Table α β) := ⟨empty⟩

def keys (t : Table α β) : List α := t.entries.map Prod.fst

def values (t : Table α β) : List β := t.entries.map Prod.snd

def size (t : Table α β) : Nat := t.entries.length

def isEmpty (t : Table α β) : Bool := t.entries.isEmpty

@[simp] theorem entries_empty : (∅ : Table α β).entries = [] := rfl
@[simp] theorem keys_empty : (∅ : Table α β).keys = [] := rfl
@[simp] theorem values_empty : (∅ : Table α β).values = [] := rfl

theorem nodup_keys (t : Table α β) : t.keys.Nodup := t.nodup

@[simp] theorem length_keys (t : Table α β) : t.keys.length = t.size := by simp [keys, size]

theorem ext_entries {t u : Table α β} (h : t.entries = u.entries) : t = u := by
  cases t; cases u; simp_all

def at? (t : Table α β) (pos : Nat) : Option β := t.values[pos]?

def keyAt? (t : Table α β) (pos : Nat) : Option α := t.keys[pos]?

/-- Removes the entry at a position; later entries move up by one. -/
def erase? (t : Table α β) (pos : Nat) : Option ((α × β) × Table α β) :=
  t.entries[pos]?.map fun entry =>
    (entry, ⟨t.entries.eraseIdx pos, t.nodup.sublist ((List.eraseIdx_sublist ..).map _)⟩)

variable [DecidableEq α]

def find? (key : α) : List (α × β) → Option β
  | [] => none
  | entry :: rest => if entry.1 = key then some entry.2 else find? key rest

def get? (t : Table α β) (key : α) : Option β := find? key t.entries

def contains (t : Table α β) (key : α) : Bool := (t.get? key).isSome

def position? (t : Table α β) (key : α) : Option Nat := t.keys.findIdx? (· = key)

/-- Overwrites the value of a listed key and appends a new key. -/
def insertEntry (key : α) (value : β) : List (α × β) → List (α × β)
  | [] => [(key, value)]
  | entry :: rest =>
      if entry.1 = key then (entry.1, value) :: rest else entry :: insertEntry key value rest

theorem map_fst_insertEntry (key : α) (value : β) (es : List (α × β)) :
    (insertEntry key value es).map Prod.fst =
      if key ∈ es.map Prod.fst then es.map Prod.fst else es.map Prod.fst ++ [key] := by
  induction es with
  | nil => simp [insertEntry]
  | cons e es ih =>
      by_cases h : e.1 = key
      · simp [insertEntry, h]
      · simp only [insertEntry, h, if_false, List.map_cons, ih, List.mem_cons, Ne.symm h, false_or]
        split <;> rfl

theorem nodup_insertEntry {es : List (α × β)} (h : (es.map Prod.fst).Nodup) (key : α) (value : β) :
    ((insertEntry key value es).map Prod.fst).Nodup := by
  rw [map_fst_insertEntry]
  split
  · exact h
  · next hk =>
      exact List.nodup_append.2 ⟨h, by simp, by simpa using fun x y hy he => hk (by simp_all)⟩

def insert (t : Table α β) (key : α) (value : β) : Table α β :=
  ⟨insertEntry key value t.entries, nodup_insertEntry t.nodup key value⟩

/-- Inserts, and returns the value that the key had before. -/
def exchange (t : Table α β) (key : α) (value : β) : Option β × Table α β :=
  (t.get? key, t.insert key value)

/-- Inserts only a key that is not listed yet. -/
def insertNew (t : Table α β) (key : α) (value : β) : Table α β :=
  if t.contains key then t else t.insert key value

/-- Changes the value of a listed key in place. -/
def modify (t : Table α β) (key : α) (f : β → β) : Table α β where
  entries := t.entries.map fun e => if e.1 = key then (e.1, f e.2) else e
  nodup := by
    have : (t.entries.map fun e => if e.1 = key then (e.1, f e.2) else e).map Prod.fst =
        t.entries.map Prod.fst := by
      rw [List.map_map]
      exact List.map_congr_left fun e _ => by simp only [Function.comp_apply]; split <;> rfl
    rw [this]
    exact t.nodup

/-- Inserts the pairs one after the other. -/
def ofList (pairs : List (α × β)) : Table α β :=
  pairs.foldl (fun t p => t.insert p.1 p.2) ∅

@[simp] theorem get?_empty (key : α) : (∅ : Table α β).get? key = none := rfl

theorem keys_insert (t : Table α β) (key : α) (value : β) :
    (t.insert key value).keys = if key ∈ t.keys then t.keys else t.keys ++ [key] :=
  map_fst_insertEntry key value t.entries

theorem mem_values_of_insertEntry {key : α} {value v : β} {es : List (α × β)}
    (h : v ∈ (insertEntry key value es).map Prod.snd) : v = value ∨ v ∈ es.map Prod.snd := by
  induction es with
  | nil => exact .inl (by simpa [insertEntry] using h)
  | cons e es ih =>
      by_cases hk : e.1 = key
      · simp only [insertEntry, hk, if_true, List.map_cons, List.mem_cons] at h ⊢
        exact h.imp_right .inr
      · simp only [insertEntry, hk, if_false, List.map_cons, List.mem_cons] at h ⊢
        exact h.elim (.inr ∘ .inl) fun h => (ih h).imp_right .inr

/-- A new value takes the place of at most one other. -/
theorem nodup_values_insertEntry {key : α} {value : β} {es : List (α × β)}
    (h : (es.map Prod.snd).Nodup) (hv : value ∉ es.map Prod.snd) :
    ((insertEntry key value es).map Prod.snd).Nodup := by
  induction es with
  | nil => simp [insertEntry]
  | cons e es ih =>
      simp only [List.map_cons, List.nodup_cons, List.mem_cons, not_or] at h hv
      by_cases hk : e.1 = key
      · simp only [insertEntry, hk, if_true, List.map_cons, List.nodup_cons]
        exact ⟨hv.2, h.2⟩
      · simp only [insertEntry, hk, if_false, List.map_cons, List.nodup_cons]
        refine ⟨fun hm => ?_, ih h.2 hv.2⟩
        exact (mem_values_of_insertEntry hm).elim (fun he => hv.1 he.symm) h.1

theorem mem_values_insert {t : Table α β} {key : α} {value v : β}
    (h : v ∈ (t.insert key value).values) : v = value ∨ v ∈ t.values :=
  mem_values_of_insertEntry h

theorem nodup_values_insert {t : Table α β} {key : α} {value : β} (h : t.values.Nodup)
    (hv : value ∉ t.values) : (t.insert key value).values.Nodup :=
  nodup_values_insertEntry h hv

theorem find?_insertEntry (key k : α) (value : β) (es : List (α × β)) :
    find? k (insertEntry key value es) = if key = k then some value else find? k es := by
  induction es with
  | nil => simp [insertEntry, find?]
  | cons e es ih =>
      by_cases he : e.1 = key
      · by_cases h : key = k <;> simp [insertEntry, find?, he, h]
      · by_cases h : e.1 = k
        · subst h
          simp [insertEntry, find?, he, Ne.symm he]
        · simp [insertEntry, find?, he, h, ih]

@[simp] theorem get?_insert (t : Table α β) (key k : α) (value : β) :
    (t.insert key value).get? k = if key = k then some value else t.get? k :=
  find?_insertEntry key k value t.entries

theorem get?_eq_some_iff {t : Table α β} {key : α} {value : β} :
    t.get? key = some value ↔ (key, value) ∈ t.entries := by
  obtain ⟨es, hn⟩ := t
  simp only [get?]
  induction es with
  | nil => simp [find?]
  | cons e es ih =>
      obtain ⟨a, b⟩ := e
      simp only [List.map_cons, List.nodup_cons] at hn
      by_cases h : a = key
      · subst h
        simp only [find?, if_true, Option.some.injEq, List.mem_cons, Prod.mk.injEq, true_and]
        exact ⟨fun h' => .inl h'.symm,
          fun h' => h'.elim Eq.symm fun hm => (hn.1 (List.mem_map_of_mem hm)).elim⟩
      · simp [find?, h, Ne.symm h, ih hn.2]

theorem mem_values_of_get? {t : Table α β} {key : α} {value : β} (h : t.get? key = some value) :
    value ∈ t.values := List.mem_map_of_mem (f := Prod.snd) (get?_eq_some_iff.1 h)

theorem find?_eq_none_iff {key : α} {es : List (α × β)} :
    find? key es = none ↔ key ∉ es.map Prod.fst := by
  induction es with
  | nil => simp [find?]
  | cons e es ih => by_cases h : e.1 = key <;> simp_all [find?, eq_comm]

theorem get?_eq_none_iff {t : Table α β} {key : α} : t.get? key = none ↔ key ∉ t.keys :=
  find?_eq_none_iff

theorem contains_iff {t : Table α β} {key : α} : t.contains key = true ↔ key ∈ t.keys := by
  rw [← Decidable.not_iff_not, ← get?_eq_none_iff, contains]
  simp

end Table

end RegisterAtlas
