import RegisterAtlas.Table
import RegisterAtlas.Table.Indexed
import Mathlib.Data.List.InsertIdx

/-!
# Indexed tables behave as lists of entries

A table is a list of entries with different keys. `Table.Alters` says what each call does to such a
list and what it returns, without looking at how tables are searched. `call_alters` shows that
tables do this, and `Mirrors.call` that an indexed table does the same as the table with its
entries: it is never stopped, and its index keeps giving a position to a key exactly if the key is
listed there. Whole runs follow by induction.
-/

namespace RegisterAtlas

variable {α β : Type}

/-! ## Calls on lists of entries -/

namespace Table

/-- The calls that change a table. -/
inductive Call (α β : Type) where
  | insert (key : α) (value : β)
  | erase (pos : Nat)
  | modify (key : α) (f : β → β)

/-- What a call returns: the value that a key had, or the entry that was removed. -/
inductive Answer (α β : Type) where
  | value (old : Option β)
  | entry (removed : Option (α × β))

/-- What a call does to the entries, and what it returns. -/
inductive Alters : Call α β → List (α × β) → Answer α β → List (α × β) → Prop where
  | overwritten {key : α} {old value : β} {front back : List (α × β)}
      (h : key ∉ (front ++ back).map Prod.fst) :
      Alters (.insert key value) (front ++ (key, old) :: back) (.value (some old))
        (front ++ (key, value) :: back)
  | appended {key : α} {value : β} {es : List (α × β)} (h : key ∉ es.map Prod.fst) :
      Alters (.insert key value) es (.value none) (es ++ [(key, value)])
  | erased {e : α × β} {front back : List (α × β)} :
      Alters (.erase front.length) (front ++ e :: back) (.entry (some e)) (front ++ back)
  | nothingErased {pos : Nat} {es : List (α × β)} (h : es.length ≤ pos) :
      Alters (.erase pos) es (.entry none) es
  | modified {key : α} {old : β} {f : β → β} {front back : List (α × β)}
      (h : key ∉ (front ++ back).map Prod.fst) :
      Alters (.modify key f) (front ++ (key, old) :: back) (.value (some old))
        (front ++ (key, f old) :: back)
  | nothingModified {key : α} {f : β → β} {es : List (α × β)} (h : key ∉ es.map Prod.fst) :
      Alters (.modify key f) es (.value none) es

/-- Calls one after the other. -/
inductive AltersAll : List (Call α β) → List (α × β) → List (Answer α β) → List (α × β) → Prop where
  | nil {es : List (α × β)} : AltersAll [] es [] es
  | cons {c : Call α β} {cs : List (Call α β)} {a : Answer α β} {as : List (Answer α β)}
      {es es' es'' : List (α × β)} (h : Alters c es a es') (hs : AltersAll cs es' as es'') :
      AltersAll (c :: cs) es (a :: as) es''

variable [DecidableEq α]

/-! ## Calls on tables -/

def call (t : Table α β) : Call α β → Answer α β × Table α β
  | .insert key value =>
      let (old, t) := t.exchange key value
      (.value old, t)
  | .erase pos =>
      match t.erase? pos with
      | some (e, t) => (.entry (some e), t)
      | none => (.entry none, t)
  | .modify key f => (.value (t.get? key), t.modify key f)

def calls (t : Table α β) : List (Call α β) → List (Answer α β) × Table α β
  | [] => ([], t)
  | c :: cs =>
      let (a, t) := t.call c
      let (as, t) := t.calls cs
      (a :: as, t)

section

variable {t : Table α β} {key : α}

/-- A key is not listed, or listed once. -/
theorem listed_cases (t : Table α β) (key : α) :
    (key ∉ t.keys ∧ t.get? key = none) ∨
    ∃ front back old, t.entries = front ++ (key, old) :: back ∧
      key ∉ (front ++ back).map Prod.fst ∧ t.get? key = some old := by
  cases hget : t.get? key with
  | none => exact .inl ⟨get?_eq_none_iff.1 hget, rfl⟩
  | some old =>
      obtain ⟨front, back, hes⟩ := List.append_of_mem (get?_eq_some_iff.1 hget)
      refine .inr ⟨front, back, old, hes, ?_, rfl⟩
      have hnodup := t.nodup
      rw [hes, List.map_append, List.map_cons] at hnodup
      rw [List.map_append]
      exact (List.nodup_cons.1 (List.perm_middle.nodup_iff.1 hnodup)).1

theorem insertEntry_of_notMem {es : List (α × β)} (h : key ∉ es.map Prod.fst) (value : β) :
    insertEntry key value es = es ++ [(key, value)] := by
  induction es with
  | nil => rfl
  | cons e es ih =>
      rw [List.map_cons, List.mem_cons, not_or] at h
      rw [insertEntry, if_neg (Ne.symm h.1), ih h.2, List.cons_append]

theorem insertEntry_of_listed {front back : List (α × β)} (h : key ∉ front.map Prod.fst)
    (old value : β) :
    insertEntry key value (front ++ (key, old) :: back) = front ++ (key, value) :: back := by
  induction front with
  | nil => rw [List.nil_append, insertEntry, if_pos rfl, List.nil_append]
  | cons e front ih =>
      rw [List.map_cons, List.mem_cons, not_or] at h
      rw [List.cons_append, insertEntry, if_neg (Ne.symm h.1), ih h.2, List.cons_append]

/-- What is done to the entry of a key leaves the entries of other keys alone. -/
theorem map_of_notMem {es : List (α × β)} (h : key ∉ es.map Prod.fst) (f : β → β) :
    (es.map fun e => if e.1 = key then (e.1, f e.2) else e) = es := by
  refine (List.map_congr_left fun e he => if_neg ?_).trans (List.map_id es)
  rintro rfl
  exact h (List.mem_map_of_mem he)

theorem entries_insert_of_listed {front back : List (α × β)} {old value : β}
    (hes : t.entries = front ++ (key, old) :: back) (h : key ∉ (front ++ back).map Prod.fst) :
    (t.insert key value).entries = front ++ (key, value) :: back := by
  rw [List.map_append, List.mem_append, not_or] at h
  calc insertEntry key value t.entries
      = insertEntry key value (front ++ (key, old) :: back) := by rw [hes]
    _ = front ++ (key, value) :: back := insertEntry_of_listed h.1 old value

theorem entries_insert_of_notMem {value : β} (h : key ∉ t.keys) :
    (t.insert key value).entries = t.entries ++ [(key, value)] := insertEntry_of_notMem h value

theorem entries_modify_of_listed {front back : List (α × β)} {old : β} {f : β → β}
    (hes : t.entries = front ++ (key, old) :: back) (h : key ∉ (front ++ back).map Prod.fst) :
    (t.modify key f).entries = front ++ (key, f old) :: back := by
  rw [List.map_append, List.mem_append, not_or] at h
  calc t.entries.map (fun e => if e.1 = key then (e.1, f e.2) else e)
      = (front ++ (key, old) :: back).map (fun e => if e.1 = key then (e.1, f e.2) else e) := by
        rw [hes]
    _ = front ++ (key, f old) :: back := by
      rw [List.map_append, List.map_cons, map_of_notMem h.1, map_of_notMem h.2, if_pos rfl]

theorem entries_modify_of_notMem {f : β → β} (h : key ∉ t.keys) :
    (t.modify key f).entries = t.entries := map_of_notMem h f

omit [DecidableEq α] in
theorem erase?_eq_some {t' : Table α β} {pos : Nat} {e : α × β} (h : t.erase? pos = some (e, t')) :
    t.entries[pos]? = some e ∧ t'.entries = t.entries.eraseIdx pos := by
  obtain ⟨_, he, herased⟩ := Option.map_eq_some_iff.1 h
  cases herased
  exact ⟨he, rfl⟩

theorem call_alters (t : Table α β) (c : Call α β) :
    Alters c t.entries (t.call c).1 (t.call c).2.entries := by
  cases c with
  | insert key value =>
      simp only [call, exchange]
      rcases t.listed_cases key with ⟨hkey, hget⟩ | ⟨front, back, old, hes, hkey, hget⟩
      · rw [hget, entries_insert_of_notMem hkey]
        exact .appended hkey
      · rw [hget, entries_insert_of_listed hes hkey, hes]
        exact .overwritten hkey
  | erase pos =>
      simp only [call, erase?]
      cases hpos : t.entries[pos]? with
      | none => exact .nothingErased (List.getElem?_eq_none_iff.1 hpos)
      | some e =>
          obtain ⟨hlt, he⟩ := List.getElem?_eq_some_iff.1 hpos
          have hes : t.entries = t.entries.take pos ++ e :: t.entries.drop (pos + 1) := by
            rw [← he, List.getElem_cons_drop, List.take_append_drop]
          have hlength : (t.entries.take pos).length = pos :=
            List.length_take_of_le (Nat.le_of_lt hlt)
          have herased : Alters (.erase (t.entries.take pos).length)
              (t.entries.take pos ++ e :: t.entries.drop (pos + 1)) (.entry (some e))
              (t.entries.take pos ++ t.entries.drop (pos + 1)) := .erased
          rw [← hes, hlength, ← List.eraseIdx_eq_take_drop_succ] at herased
          exact herased
  | modify key f =>
      simp only [call]
      rcases t.listed_cases key with ⟨hkey, hget⟩ | ⟨front, back, old, hes, hkey, hget⟩
      · rw [hget, entries_modify_of_notMem hkey]
        exact .nothingModified hkey
      · rw [hget, entries_modify_of_listed hes hkey, hes]
        exact .modified hkey

theorem calls_alter (t : Table α β) (cs : List (Call α β)) :
    AltersAll cs t.entries (t.calls cs).1 (t.calls cs).2.entries := by
  induction cs generalizing t with
  | nil => exact .nil
  | cons c cs ih => exact .cons (t.call_alters c) (ih _)

theorem find?_eq (key : α) (es : List (α × β)) :
    find? key es = (es.find? fun e => e.1 = key).map Prod.snd := by
  induction es with
  | nil => rfl
  | cons e es ih =>
      rw [find?, List.find?_cons]
      by_cases he : e.1 = key <;> simp [he, ih]

theorem position?_eq_some_iff {pos : Nat} :
    t.position? key = some pos ↔ t.keys[pos]? = some key := by
  rw [position?, List.findIdx?_eq_some_iff_getElem, List.getElem?_eq_some_iff]
  constructor
  · rintro ⟨hlt, hkey, -⟩
    exact ⟨hlt, of_decide_eq_true hkey⟩
  · rintro ⟨hlt, rfl⟩
    refine ⟨hlt, decide_eq_true rfl, fun j hj => ?_⟩
    have hne := List.pairwise_iff_getElem.1 t.nodup_keys j pos (Nat.lt_trans hj hlt) hlt hj
    simpa using hne

theorem inserts_alter (t : Table α β) (pairs : List (α × β)) :
    ∃ answers, AltersAll (pairs.map fun p => .insert p.1 p.2) t.entries answers
      (pairs.foldl (fun t p => t.insert p.1 p.2) t).entries := by
  induction pairs generalizing t with
  | nil => exact ⟨[], .nil⟩
  | cons p pairs ih =>
      obtain ⟨answers, h⟩ := ih (t.insert p.1 p.2)
      exact ⟨_, .cons (t.call_alters (.insert p.1 p.2)) h⟩

end

end Table

/-! ## Calls on indexed tables -/

namespace IndexedTable

/-- An indexed table has the entries of a table, and its index gives a position to a key exactly if
the key is listed there. -/
structure Mirrors (u : IndexedTable α β) (t : Table α β) : Prop where
  entries_eq : u.entries = t.entries.toArray
  index_iff : ∀ key pos, u.index key = some pos ↔ t.keys[pos]? = some key

section

variable {u : IndexedTable α β} {t t' : Table α β} {key : α}

theorem mirrors_empty : Mirrors (∅ : IndexedTable α β) ∅ :=
  ⟨rfl, fun _ _ => by simp [EmptyCollection.emptyCollection, empty, Table.empty, Table.keys]⟩

/-- The index finds the entry of a listed key. -/
theorem Mirrors.entryAt {front back : List (α × β)} {old : β} (h : Mirrors u t)
    (hes : t.entries = front ++ (key, old) :: back) :
    u.index key = some front.length ∧ u.entryAt front.length = .ok (key, old) := by
  constructor
  · rw [h.index_iff, Table.keys, hes]
    simp
  · rw [IndexedTable.entryAt, h.entries_eq, hes]
    simp

theorem Mirrors.index_eq_none (h : Mirrors u t) (hkey : key ∉ t.keys) : u.index key = none :=
  Option.eq_none_iff_forall_ne_some.2 fun pos hpos =>
    hkey (List.mem_of_getElem? ((h.index_iff key pos).1 hpos))

/-- A new value for a listed key moves no key. -/
theorem Mirrors.setValue {front back : List (α × β)} {old value : β} (h : Mirrors u t)
    (hes : t.entries = front ++ (key, old) :: back)
    (hes' : t'.entries = front ++ (key, value) :: back) :
    Mirrors { u with entries := u.entries.setIfInBounds front.length (key, value) } t' where
  entries_eq := by simp [h.entries_eq, hes, hes']
  index_iff := by
    have hkeys : t'.keys = t.keys := by simp [Table.keys, hes, hes']
    rw [hkeys]
    exact h.index_iff

end

variable [DecidableEq α]

def call (u : IndexedTable α β) :
    Table.Call α β → Except Mismatch (Table.Answer α β × IndexedTable α β)
  | .insert key value => do
      let (old, u) ← u.insert key value
      pure (.value old, u)
  | .erase pos => do
      let (removed, u) ← u.erase pos
      pure (.entry removed, u)
  | .modify key f => do
      let (old, u) ← u.modify key f
      pure (.value old, u)

def calls (u : IndexedTable α β) :
    List (Table.Call α β) → Except Mismatch (List (Table.Answer α β) × IndexedTable α β)
  | [] => pure ([], u)
  | c :: cs => do
      let (a, u) ← u.call c
      let (as, u) ← u.calls cs
      pure (a :: as, u)

/-! ## Renumbering -/

theorem move_apply (index : α → Option Nat) (key : α) (pos : Option Nat) (k : α) :
    move index key pos k = if k = key then pos else index k := rfl

/-- The positions of different keys, none of them zero, can be lowered. -/
theorem lower_eq_ok {index : α → Option Nat} {ks : List α} (hnodup : ks.Nodup)
    (hpos : ∀ k ∈ ks, index k ≠ some 0) :
    ∃ index', lower index ks = .ok index' ∧
      ∀ k, index' k = if k ∈ ks then (index k).map (· - 1) else index k := by
  induction ks generalizing index with
  | nil => exact ⟨index, rfl, fun k => by simp⟩
  | cons key ks ih =>
      obtain ⟨hkey, hnodup⟩ := List.nodup_cons.1 hnodup
      cases hindex : index key with
      | none =>
          obtain ⟨index', hlower, hindex'⟩ :=
            ih hnodup fun k hk => hpos k (List.mem_cons_of_mem _ hk)
          refine ⟨index', by rw [lower, hindex, hlower], fun k => ?_⟩
          rw [hindex']
          by_cases hk : k = key
          · subst hk
            simp [hkey, hindex]
          · simp [hk]
      | some pos =>
          obtain _ | pos := pos
          · exact (hpos key List.mem_cons_self hindex).elim
          have hmoved : ∀ k ∈ ks, move index key (some pos) k = index k := by
            intro k hk
            rw [move_apply, if_neg]
            rintro rfl
            exact hkey hk
          have hmovedPos : ∀ k ∈ ks, move index key (some pos) k ≠ some 0 := by
            intro k hk
            rw [hmoved k hk]
            exact hpos k (List.mem_cons_of_mem _ hk)
          obtain ⟨index', hlower, hindex'⟩ := ih hnodup hmovedPos
          refine ⟨index', by rw [lower, hindex]; exact hlower, fun k => ?_⟩
          rw [hindex', move_apply]
          by_cases hk : k = key
          · subst hk
            simp [hkey, hindex]
          · simp [hk]

/-- Where the keys behind an erased one are renumbered, an index fits the keys that are left. -/
theorem index_iff_eraseIdx {index index' : α → Option Nat} {ks : List α} {pos : Nat} {key : α}
    (hkey : ks[pos]? = some key) (hindex : ∀ k p, index k = some p ↔ ks[p]? = some k)
    (hindex' : ∀ k, index' k = if k ∈ (ks.eraseIdx pos).drop pos
      then (move index key none k).map (· - 1) else move index key none k) (k : α) (p : Nat) :
    index' k = some p ↔ (ks.eraseIdx pos)[p]? = some k := by
  have hinj : ∀ {i j : Nat} {k : α}, ks[i]? = some k → ks[j]? = some k → i = j := by
    intro i j k hi hj
    exact Option.some.inj (((hindex k i).2 hi).symm.trans ((hindex k j).2 hj))
  have hget : ∀ i, (ks.eraseIdx pos)[i]? = if i < pos then ks[i]? else ks[i + 1]? := fun i =>
    List.getElem?_eraseIdx
  have hbehind : k ∈ (ks.eraseIdx pos).drop pos ↔ ∃ q, pos ≤ q ∧ ks[q + 1]? = some k := by
    rw [List.mem_iff_getElem?]
    constructor
    · rintro ⟨i, hi⟩
      rw [List.getElem?_drop, hget, if_neg (by omega)] at hi
      exact ⟨pos + i, by omega, hi⟩
    · rintro ⟨q, hq, hk⟩
      refine ⟨q - pos, ?_⟩
      rw [List.getElem?_drop, hget, if_neg (by omega), show pos + (q - pos) = q by omega, hk]
  rw [hindex', move_apply, hget]
  by_cases hk : k = key
  · subst hk
    have hfront : ¬ (p < pos ∧ ks[p]? = some k) := fun ⟨hp, h⟩ => Nat.ne_of_lt hp (hinj h hkey)
    have hback : ¬ (¬ p < pos ∧ ks[p + 1]? = some k) := fun ⟨hp, h⟩ => by
      have := hinj h hkey
      omega
    simp only [if_true, Option.map_none, ite_self, reduceCtorEq, false_iff]
    split <;> rename_i hp
    · exact fun h => hfront ⟨hp, h⟩
    · exact fun h => hback ⟨hp, h⟩
  · simp only [if_neg hk]
    by_cases hmem : k ∈ (ks.eraseIdx pos).drop pos
    · obtain ⟨q, hq, hkq⟩ := hbehind.1 hmem
      rw [if_pos hmem, (hindex k (q + 1)).2 hkq, Option.map_some, Option.some.injEq,
        Nat.add_sub_cancel]
      constructor
      · rintro rfl
        rw [if_neg (by omega), hkq]
      · intro h
        split at h <;> rename_i hp
        · have := hinj h hkq
          omega
        · have := hinj h hkq
          omega
    · rw [if_neg hmem, hindex]
      have hfront : ∀ {i : Nat}, ks[i]? = some k → i < pos := by
        intro i hi
        refine Nat.lt_of_le_of_ne (Nat.le_of_not_lt fun hlt => hmem (hbehind.2 ?_)) ?_
        · refine ⟨i - 1, by omega, ?_⟩
          rw [show i - 1 + 1 = i by omega, hi]
        · rintro rfl
          exact hk (Option.some.inj (hi.symm.trans hkey))
      constructor
      · intro h
        rw [if_pos (hfront h), h]
      · intro h
        split at h <;> rename_i hp
        · exact h
        · have := hfront h
          omega

/-! ## Mirroring -/

section

variable {u : IndexedTable α β} {t t' : Table α β} {key : α}

theorem Mirrors.append {value : β} (h : Mirrors u t) (hkey : key ∉ t.keys)
    (hes' : t'.entries = t.entries ++ [(key, value)]) :
    Mirrors ⟨u.entries.push (key, value), move u.index key (some u.entries.size)⟩ t' where
  entries_eq := by simp [h.entries_eq, hes']
  index_iff k pos := by
    have hkeys : t'.keys = t.keys ++ [key] := by simp [Table.keys, hes']
    have hsize : u.entries.size = t.keys.length := by simp [h.entries_eq, Table.keys]
    show move u.index key (some u.entries.size) k = some pos ↔ t'.keys[pos]? = some k
    rw [hkeys, move_apply, hsize, List.getElem?_append]
    by_cases hk : k = key
    · subst hk
      rw [if_pos rfl, Option.some.injEq]
      split <;> rename_i hpos
      · have hne : t.keys[pos]? ≠ some k := fun hget => hkey (List.mem_of_getElem? hget)
        simp only [hne, iff_false]
        omega
      · rw [List.getElem?_singleton]
        split
        · exact iff_of_true (by omega) rfl
        · exact iff_of_false (by omega) (Option.some_ne_none k).symm
    · rw [if_neg hk, h.index_iff]
      split <;> rename_i hpos
      · rfl
      · rw [List.getElem?_eq_none (Nat.le_of_not_lt hpos), List.getElem?_singleton]
        split <;> simp [Ne.symm hk]

theorem Mirrors.insert (h : Mirrors u t) (key : α) (value : β) :
    ∃ u', u.insert key value = .ok (t.get? key, u') ∧ Mirrors u' (t.insert key value) := by
  rcases t.listed_cases key with ⟨hkey, hget⟩ | ⟨front, back, old, hes, hkey, hget⟩
  · refine ⟨_, ?_, h.append hkey (Table.entries_insert_of_notMem hkey)⟩
    rw [IndexedTable.insert, h.index_eq_none hkey, hget]
  · refine ⟨_, ?_, h.setValue hes (Table.entries_insert_of_listed hes hkey)⟩
    simp only [IndexedTable.insert, (h.entryAt hes).1, (h.entryAt hes).2, hget]
    rfl

theorem Mirrors.modify (h : Mirrors u t) (key : α) (f : β → β) :
    ∃ u', u.modify key f = .ok (t.get? key, u') ∧ Mirrors u' (t.modify key f) := by
  rcases t.listed_cases key with ⟨hkey, hget⟩ | ⟨front, back, old, hes, hkey, hget⟩
  · refine ⟨u, by rw [IndexedTable.modify, h.index_eq_none hkey, hget], ?_⟩
    rwa [Table.ext_entries (Table.entries_modify_of_notMem hkey)]
  · refine ⟨_, ?_, h.setValue hes (Table.entries_modify_of_listed hes hkey)⟩
    simp only [IndexedTable.modify, (h.entryAt hes).1, (h.entryAt hes).2, hget]
    rfl

/-- The entries behind an erased one move up in the index as they do in the table. -/
theorem Mirrors.erase {pos : Nat} {e : α × β} (h : Mirrors u t)
    (herase : t.erase? pos = some (e, t')) :
    ∃ u', u.erase pos = .ok (some e, u') ∧ Mirrors u' t' := by
  obtain ⟨he, hes'⟩ := Table.erase?_eq_some herase
  have hentry : u.entries[pos]? = some e := by rw [h.entries_eq, List.getElem?_toArray, he]
  have hkeys : t'.keys = t.keys.eraseIdx pos := by
    rw [Table.keys, hes', Table.keys, List.eraseIdx_map]
  have hkey : t.keys[pos]? = some e.1 := by rw [Table.keys, List.getElem?_map, he]; rfl
  have hentries : u.entries.eraseIdxIfInBounds pos = t'.entries.toArray := by
    rw [h.entries_eq, hes', List.eraseIdxIfInBounds_toArray]
  have hbehind : ((t'.entries.toArray.toList.drop pos).map Prod.fst) =
      (t.keys.eraseIdx pos).drop pos := by rw [← hkeys, Table.keys, List.map_drop]
  have hnodup : ((t.keys.eraseIdx pos).drop pos).Nodup :=
    (hkeys ▸ t'.nodup_keys).sublist (List.drop_sublist ..)
  -- Keys behind the erased one have positions above it.
  have hpositive : ∀ k ∈ (t.keys.eraseIdx pos).drop pos, move u.index e.1 none k ≠ some 0 := by
    intro k hk hzero
    rw [move_apply] at hzero
    split at hzero
    · cases hzero
    · have hfirst := (h.index_iff k 0).1 hzero
      obtain ⟨i, hi⟩ := List.mem_iff_getElem?.1 hk
      rw [List.getElem?_drop, List.getElem?_eraseIdx, if_neg (by omega)] at hi
      have hindex := (h.index_iff k (pos + i + 1)).2 hi
      rw [(h.index_iff k 0).2 hfirst] at hindex
      cases hindex
  obtain ⟨index', hlower, hindex'⟩ := lower_eq_ok hnodup hpositive
  refine ⟨⟨t'.entries.toArray, index'⟩, ?_, rfl, fun k p => ?_⟩
  · rw [IndexedTable.erase, hentry]
    simp only [hentries, hbehind, hlower]
    rfl
  · rw [hkeys]
    exact index_iff_eraseIdx hkey h.index_iff hindex' k p

theorem Mirrors.call (h : Mirrors u t) (c : Table.Call α β) :
    ∃ u', u.call c = .ok ((t.call c).1, u') ∧ Mirrors u' (t.call c).2 := by
  cases c with
  | insert key value =>
      obtain ⟨u', hu', h'⟩ := h.insert key value
      exact ⟨u', by rw [IndexedTable.call, hu']; rfl, h'⟩
  | erase pos =>
      simp only [Table.call]
      cases herase : t.erase? pos with
      | none =>
          have hentry : u.entries[pos]? = none := by
            rw [h.entries_eq, List.getElem?_toArray, Option.map_eq_none_iff.1 herase]
          exact ⟨u, by rw [IndexedTable.call, IndexedTable.erase, hentry]; rfl, h⟩
      | some erased =>
          obtain ⟨u', hu', h'⟩ := h.erase herase
          exact ⟨u', by rw [IndexedTable.call, hu']; rfl, h'⟩
  | modify key f =>
      obtain ⟨u', hu', h'⟩ := h.modify key f
      exact ⟨u', by rw [IndexedTable.call, hu']; rfl, h'⟩

theorem Mirrors.calls (h : Mirrors u t) (cs : List (Table.Call α β)) :
    ∃ u', u.calls cs = .ok ((t.calls cs).1, u') ∧ Mirrors u' (t.calls cs).2 := by
  induction cs generalizing u t with
  | nil => exact ⟨u, rfl, h⟩
  | cons c cs ih =>
      obtain ⟨u₁, hcall, h₁⟩ := h.call c
      obtain ⟨u₂, hcalls, h₂⟩ := ih h₁
      refine ⟨u₂, ?_, h₂⟩
      rw [IndexedTable.calls, hcall]
      simp only [bind, Except.bind, hcalls]
      rfl

theorem Mirrors.inserts {pairs : List (α × β)} (h : Mirrors u t) :
    ∃ u', pairs.foldlM (fun u p => do pure (← u.insert p.1 p.2).2) u = .ok u' ∧
      Mirrors u' (pairs.foldl (fun t p => t.insert p.1 p.2) t) := by
  induction pairs generalizing u t with
  | nil => exact ⟨u, rfl, h⟩
  | cons p pairs ih =>
      obtain ⟨u₁, hinsert, h₁⟩ := h.insert p.1 p.2
      obtain ⟨u₂, hinserts, h₂⟩ := ih h₁
      refine ⟨u₂, ?_, h₂⟩
      rw [List.foldlM_cons, hinsert]
      exact hinserts

theorem ofList_mirrors (pairs : List (α × β)) :
    ∃ u, ofList pairs = .ok u ∧ Mirrors u (Table.ofList pairs) := mirrors_empty.inserts

end

/-! ## What can be seen of an indexed table -/

/-- An indexed table shows a list of entries: its keys differ, its index is the one of the list, and
everything that can be asked about the table is answered as the list answers it. -/
structure Shows (u : IndexedTable α β) (es : List (α × β)) : Prop where
  entries : u.entries.toList = es
  nodup_keys : (es.map Prod.fst).Nodup
  index : ∀ key pos, u.index key = some pos ↔ (es[pos]?).map Prod.fst = some key
  get? : ∀ key, u.get? key = .ok ((es.find? fun e => e.1 = key).map Prod.snd)
  contains : ∀ key, u.contains key = decide (key ∈ es.map Prod.fst)
  position? : ∀ key, u.position? key = es.findIdx? fun e => e.1 = key
  at? : ∀ pos, u.at? pos = (es[pos]?).map Prod.snd
  keyAt? : ∀ pos, u.keyAt? pos = (es[pos]?).map Prod.fst
  size : u.size = es.length
  isEmpty : u.isEmpty = decide (es = [])
  keys : u.keys = es.map Prod.fst
  values : u.values = es.map Prod.snd

theorem Mirrors.position? {u : IndexedTable α β} {t : Table α β} (h : Mirrors u t) (key : α) :
    u.position? key = t.position? key :=
  Option.ext fun pos => (h.index_iff key pos).trans Table.position?_eq_some_iff.symm

theorem Mirrors.get? {u : IndexedTable α β} {t : Table α β} (h : Mirrors u t) (key : α) :
    u.get? key = .ok (t.get? key) := by
  rcases t.listed_cases key with ⟨hkey, hget⟩ | ⟨front, back, old, hes, -, hget⟩
  · rw [IndexedTable.get?, h.index_eq_none hkey, hget]
  · simp only [IndexedTable.get?, (h.entryAt hes).1, (h.entryAt hes).2, hget]
    rfl

theorem Mirrors.contains {u : IndexedTable α β} {t : Table α β} (h : Mirrors u t) (key : α) :
    u.contains key = t.contains key := by
  rw [IndexedTable.contains, Table.contains]
  rcases t.listed_cases key with ⟨hkey, hget⟩ | ⟨front, back, old, hes, -, hget⟩
  · rw [h.index_eq_none hkey, hget]; rfl
  · rw [(h.entryAt hes).1, hget]; rfl

theorem Mirrors.shows {u : IndexedTable α β} {t : Table α β} (h : Mirrors u t) :
    Shows u t.entries where
  entries := by rw [h.entries_eq]
  nodup_keys := t.nodup
  index key pos := by rw [h.index_iff, Table.keys, List.getElem?_map]
  get? key := by rw [h.get?, Table.get?, Table.find?_eq]
  contains key := by rw [h.contains, Bool.eq_iff_iff, Table.contains_iff, decide_eq_true_iff]; rfl
  position? key := by rw [h.position?, Table.position?, Table.keys, List.findIdx?_map]; rfl
  at? pos := by rw [IndexedTable.at?, h.entries_eq, List.getElem?_toArray]
  keyAt? pos := by rw [IndexedTable.keyAt?, h.entries_eq, List.getElem?_toArray]
  size := by rw [IndexedTable.size, h.entries_eq, List.size_toArray]
  isEmpty := by rw [IndexedTable.isEmpty, h.entries_eq, Bool.eq_iff_iff]; simp
  keys := by rw [IndexedTable.keys, h.entries_eq]
  values := by rw [IndexedTable.values, h.entries_eq]

/-- An indexed table that is made from pairs and then called again and again does to its entries
what the calls do to a list, is never stopped, and shows the list at every moment. -/
theorem calls_show (pairs : List (α × β)) (cs : List (Table.Call α β)) :
    ∃ u₀ u inserted answers es₀ es,
      ofList pairs = .ok u₀ ∧
      Table.AltersAll (pairs.map fun p => .insert p.1 p.2) [] inserted es₀ ∧ Shows u₀ es₀ ∧
      u₀.calls cs = .ok (answers, u) ∧ Table.AltersAll cs es₀ answers es ∧ Shows u es ∧
      es₀ = (Table.ofList pairs).entries ∧ answers = ((Table.ofList pairs).calls cs).1 ∧
      es = ((Table.ofList pairs).calls cs).2.entries := by
  obtain ⟨u₀, hu₀, h₀⟩ := ofList_mirrors pairs
  obtain ⟨u, hu, h⟩ := h₀.calls cs
  obtain ⟨inserted, hinserted⟩ := Table.inserts_alter (∅ : Table α β) pairs
  exact ⟨u₀, u, inserted, _, _, _, hu₀, hinserted, h₀.shows, hu, Table.calls_alter _ cs, h.shows,
    rfl, rfl, rfl⟩

end IndexedTable

end RegisterAtlas
