import RegisterAtlas.Tree

/-!
# Growing a tree, entry by entry

Each operation that grows a tree is described by the entries and the parents that the new tree
has. The four of them are `alloc`, `setChild`, `pushItem` and the update of a scope;
`add_eq_ok_iff` says how `Tree.add` is made of them. Proofs about trees rest on these equations
and do not look into the arena.
-/

namespace RegisterAtlas

/-- The entries that an entry lists: the children of a scope and the items of an array. -/
def Entry.members : Entry → List EntryId
  | .scope s => s.children.values
  | .array items => items.ids
  | .field _ | .alias _ => []

/-! ## Positions of items -/

theorem Items.getElem?_of_position? {items : Items} {n : Nat} {id : EntryId}
    (h : items.position? id = some n) : items.ids[n]? = some id := by
  obtain ⟨hn, hid, -⟩ := List.findIdx?_eq_some_iff_getElem.1 h
  rw [List.getElem?_eq_getElem hn, of_decide_eq_true hid]

theorem Items.position?_of_getElem? {items : Items} {n : Nat} {id : EntryId}
    (hnodup : items.ids.Nodup) (h : items.ids[n]? = some id) : items.position? id = some n := by
  obtain ⟨hn, rfl⟩ := List.getElem?_eq_some_iff.1 h
  refine List.findIdx?_eq_some_iff_getElem.2 ⟨hn, by simp, fun j hj => ?_⟩
  have hne := List.pairwise_iff_getElem.1 hnodup j n (Nat.lt_trans hj hn) hn hj
  simpa using hne

namespace Tree

section

variable {t : Tree} {id : EntryId} {s : Scope}

theorem kind_of_entry {e : Entry} (h : t.entry id = e) : t.kind id = e.kind := by rw [kind, h]

theorem exists_scope_of_kind (h : t.kind id = .scope) : ∃ s, t.entry id = .scope s := by
  rw [kind] at h
  cases he : t.entry id with
  | scope s => exact ⟨s, rfl⟩
  | _ => rw [he] at h; cases h

theorem scope?_eq_some_iff : t.scope? id = some s ↔ t.entry id = .scope s := by
  unfold scope?
  cases t.entry id <;> simp

theorem scope?_of_entry (h : t.entry id = .scope s) : t.scope? id = some s :=
  scope?_eq_some_iff.2 h

theorem scope?_eq_none (h : ∀ s, t.entry id ≠ .scope s) : t.scope? id = none :=
  Option.eq_none_iff_forall_not_mem.2 fun s hs => h s (scope?_eq_some_iff.1 hs)

theorem alias?_of_kind (h : t.kind id = .scope) : t.alias? id = none := by
  obtain ⟨s, hs⟩ := exists_scope_of_kind h
  rw [alias?, hs]

theorem alias?_of_scope (h : t.entry id = .scope s) : t.alias? id = none :=
  alias?_of_kind (kind_of_entry h)

end

theorem node_alloc (t : Tree) (parent : EntryId) (e : Entry) (id : EntryId) :
    (t.alloc parent e).2.node id = if id = t.size then ⟨parent, e⟩ else t.node id := by
  simp only [alloc, node, size, Array.getD_eq_getD_getElem?, Array.getElem?_push]
  split <;> rfl

theorem entry_alloc (t : Tree) (parent : EntryId) (e : Entry) (id : EntryId) :
    (t.alloc parent e).2.entry id = if id = t.size then e else t.entry id := by
  rw [entry, node_alloc]
  split <;> rfl

theorem parent_alloc (t : Tree) (parent : EntryId) (e : Entry) (id : EntryId) :
    (t.alloc parent e).2.parent id = if id = t.size then parent else t.parent id := by
  rw [Tree.parent, node_alloc]
  split <;> rfl

theorem size_lt_size_alloc (t : Tree) (parent : EntryId) (e : Entry) :
    t.size < (t.alloc parent e).2.size := by
  rw [size_alloc]
  exact Nat.lt_succ_self _

theorem lt_size_alloc {t : Tree} {parent : EntryId} {e : Entry} {id : EntryId} (h : id < t.size) :
    id < (t.alloc parent e).2.size := Nat.lt_trans h (size_lt_size_alloc ..)

theorem entry_alloc_of_lt {t : Tree} {parent : EntryId} {e : Entry} {id : EntryId}
    (h : id < t.size) : (t.alloc parent e).2.entry id = t.entry id := by
  rw [entry_alloc, if_neg (Nat.ne_of_lt h)]

theorem parent_alloc_of_lt {t : Tree} {parent : EntryId} {e : Entry} {id : EntryId}
    (h : id < t.size) : (t.alloc parent e).2.parent id = t.parent id := by
  rw [parent_alloc, if_neg (Nat.ne_of_lt h)]

theorem kind_alloc (t : Tree) (parent : EntryId) (e : Entry) (id : EntryId) :
    (t.alloc parent e).2.kind id = if id = t.size then e.kind else t.kind id := by
  rw [kind, entry_alloc]
  split <;> rfl

theorem kind_alloc_of_lt {t : Tree} {parent : EntryId} {e : Entry} {id : EntryId}
    (h : id < t.size) : (t.alloc parent e).2.kind id = t.kind id := by
  rw [kind_alloc, if_neg (Nat.ne_of_lt h)]

theorem node_updateEntry (t : Tree) (i : EntryId) (f : Entry → Entry) (id : EntryId)
    (hi : i < t.size) :
    (t.updateEntry i f).node id =
      if id = i then { t.node id with entry := f (t.entry id) } else t.node id := by
  simp only [updateEntry, entry, node, Array.getD_eq_getD_getElem?, Array.getElem?_modify]
  by_cases h : id = i
  · subst h
    have hi : id < t.nodes.size := hi
    simp [hi]
  · simp [h, Ne.symm h]

theorem entry_updateEntry (t : Tree) {i : EntryId} (f : Entry → Entry) (id : EntryId)
    (hi : i < t.size) :
    (t.updateEntry i f).entry id = if id = i then f (t.entry id) else t.entry id := by
  rw [entry, node_updateEntry t i f id hi]
  split <;> rfl

@[simp] theorem parent_updateEntry (t : Tree) (i : EntryId) (f : Entry → Entry) (id : EntryId) :
    (t.updateEntry i f).parent id = t.parent id := by
  simp only [updateEntry, Tree.parent, node, Array.getD_eq_getD_getElem?, Array.getElem?_modify]
  split
  · cases t.nodes[id]? <;> rfl
  · rfl

theorem kind_updateEntry (t : Tree) (i : EntryId) {f : Entry → Entry}
    (hf : ∀ e, (f e).kind = e.kind) (id : EntryId) : (t.updateEntry i f).kind id = t.kind id := by
  simp only [updateEntry, kind, entry, node, Array.getD_eq_getD_getElem?, Array.getElem?_modify]
  split
  · cases t.nodes[id]? with
    | none => rfl
    | some n => exact hf n.entry
  · rfl

/-- Where the arena has no entry there is a blank scope, so anything else is an entry of the
arena. -/
theorem lt_size_of_entry_ne {t : Tree} {id : EntryId} (h : ∀ s, t.entry id ≠ .scope s) :
    id < t.size := by
  refine Nat.lt_of_not_le fun hid => h {} ?_
  have hnone : t.nodes[id]? = none := Array.getElem?_eq_none hid
  rw [entry, node, Array.getD_eq_getD_getElem?, hnone]
  rfl

theorem lt_size_of_array {t : Tree} {id : EntryId} {items : Items}
    (h : t.entry id = .array items) : id < t.size := by
  refine lt_size_of_entry_ne fun s hs => ?_
  rw [h] at hs
  cases hs

theorem lt_size_of_alias {t : Tree} {id : EntryId} {target : String}
    (h : t.alias? id = some target) : id < t.size := by
  refine lt_size_of_entry_ne fun s hs => ?_
  rw [alias?_of_scope hs] at h
  cases h

/-! ## Changes of scopes and arrays -/

section

variable {t : Tree} {scope array : EntryId} {s : Scope} {items : Items}

theorem entry_updateScope (hs : t.entry scope = .scope s) (hlt : scope < t.size)
    (f : Scope → Scope) (i : EntryId) :
    (t.updateScope scope f).entry i = if i = scope then .scope (f s) else t.entry i := by
  rw [updateScope, entry_updateEntry t _ i hlt]
  split
  · next h => rw [h, hs]
  · rfl

@[simp] theorem parent_updateScope (t : Tree) (scope : EntryId) (f : Scope → Scope) (i : EntryId) :
    (t.updateScope scope f).parent i = t.parent i := parent_updateEntry ..

@[simp] theorem size_updateScope (t : Tree) (scope : EntryId) (f : Scope → Scope) :
    (t.updateScope scope f).size = t.size := size_updateEntry ..

@[simp] theorem kind_updateScope (t : Tree) (scope : EntryId) (f : Scope → Scope) (i : EntryId) :
    (t.updateScope scope f).kind i = t.kind i :=
  kind_updateEntry t scope (fun e => by cases e <;> rfl) i

theorem entry_setChild (hs : t.entry scope = .scope s) (hlt : scope < t.size) (name : String)
    (id i : EntryId) :
    (t.setChild scope name id).entry i =
      if i = scope then .scope { s with children := s.children.insert name id } else t.entry i :=
  entry_updateScope hs hlt _ i

@[simp] theorem parent_setChild (t : Tree) (scope : EntryId) (name : String) (id i : EntryId) :
    (t.setChild scope name id).parent i = t.parent i := parent_updateScope ..

@[simp] theorem size_setChild (t : Tree) (scope : EntryId) (name : String) (id : EntryId) :
    (t.setChild scope name id).size = t.size := size_updateScope ..

@[simp] theorem kind_setChild (t : Tree) (scope : EntryId) (name : String) (id i : EntryId) :
    (t.setChild scope name id).kind i = t.kind i := kind_updateScope ..

theorem entry_pushItem (ha : t.entry array = .array items) (id i : EntryId) :
    (t.pushItem array id).entry i =
      if i = array then .array { items with ids := items.ids ++ [id] } else t.entry i := by
  have hlt : array < t.size := lt_size_of_array ha
  rw [pushItem, entry_updateEntry t _ i hlt]
  split
  · next h => rw [h, ha]
  · rfl

@[simp] theorem parent_pushItem (t : Tree) (array id i : EntryId) :
    (t.pushItem array id).parent i = t.parent i := parent_updateEntry ..

@[simp] theorem kind_pushItem (t : Tree) (array id i : EntryId) :
    (t.pushItem array id).kind i = t.kind i :=
  kind_updateEntry t array (fun e => by cases e <;> rfl) i

@[simp] theorem size_pushItem (t : Tree) (array id : EntryId) :
    (t.pushItem array id).size = t.size := size_updateEntry ..

end

/-! ## What an added entry changes -/

/-- How an entry comes into a tree: as child of a plain name, as last item of an array, or as the
only item of an array that is made for it. -/
inductive Added (t : Tree) (scope : EntryId) (name : String) (e : Entry) :
    EntryId → Tree → Prop where
  | child {n : String} {s : Scope} (hn : Element.ofText name = .ok (.name n))
      (hs : t.entry scope = .scope s) :
      Added t scope name e t.size ((t.alloc scope e).2.setChild scope n t.size)
  | item {n : String} {s : Scope} {array : EntryId} {items : Items}
      (hn : Element.ofText name = .ok (.indexed n .append)) (hs : t.entry scope = .scope s)
      (hc : s.children.get? n = some array) (ha : t.entry array = .array items)
      (hk : items.kind = e.kind) :
      Added t scope name e t.size ((t.alloc scope e).2.pushItem array t.size)
  | firstItem {n : String} {s : Scope} {u : Tree}
      (hn : Element.ofText name = .ok (.indexed n .append)) (hs : t.entry scope = .scope s)
      (hc : s.children.get? n = none)
      (hu : u = (t.alloc scope (.array ⟨e.kind, []⟩)).2.setChild scope n t.size) :
      Added t scope name e u.size ((u.alloc scope e).2.pushItem t.size u.size)

theorem requireScope_eq_ok_iff {t : Tree} {id : EntryId} {s : Scope} :
    t.requireScope id = .ok s ↔ t.entry id = .scope s := by
  unfold requireScope
  cases t.entry id <;> simp

theorem arrayFor_eq_ok_iff {t t' : Tree} {scope array : EntryId} {s : Scope} {name : String}
    {kind : Kind} :
    t.arrayFor scope s name kind = .ok (array, t') ↔
      (∃ items, s.children.get? name = some array ∧ t.entry array = .array items ∧
        items.kind = kind ∧ t' = t) ∨
      (s.children.get? name = none ∧ array = t.size ∧
        t' = (t.alloc scope (.array ⟨kind, []⟩)).2.setChild scope name t.size) := by
  unfold arrayFor
  cases hc : s.children.get? name with
  | none =>
      simp only [alloc, Except.ok.injEq, Prod.mk.injEq, reduceCtorEq, false_and, exists_false,
        false_or, true_and]
      exact ⟨fun h => ⟨h.1.symm, h.2.symm⟩, fun h => ⟨h.1.symm, h.2.symm⟩⟩
  | some id =>
      simp only [Option.some.injEq, reduceCtorEq, false_and, or_false]
      cases ha : t.entry id with
      | array items =>
          by_cases hk : items.kind = kind
          · simp only [hk, if_true, Except.ok.injEq, Prod.mk.injEq]
            constructor
            · rintro ⟨rfl, rfl⟩
              exact ⟨items, rfl, ha, hk, rfl⟩
            · rintro ⟨items', rfl, -, -, rfl⟩
              exact ⟨rfl, rfl⟩
          · simp only [hk, if_false, reduceCtorEq, false_iff]
            rintro ⟨items', rfl, ha', hk', -⟩
            rw [ha] at ha'
            cases ha'
            exact hk hk'
      | _ =>
          simp only [reduceCtorEq, false_iff]
          rintro ⟨items', rfl, ha', -⟩
          rw [ha] at ha'
          cases ha'

theorem add_eq_ok_iff {t t' : Tree} {scope id : EntryId} {name : String} {e : Entry} :
    t.add scope name e = .ok (id, t') ↔ Added t scope name e id t' := by
  constructor
  · intro h
    unfold add at h
    cases hn : Element.ofText name with
    | error err => simp [hn, bind, Except.bind] at h
    | ok el =>
        rw [hn] at h
        cases el with
        | name n =>
            cases hs : t.requireScope scope with
            | error err => simp [hs, bind, Except.bind] at h
            | ok s =>
                simp only [hs, bind, Except.bind, pure, Except.pure] at h
                cases h
                exact .child hn (requireScope_eq_ok_iff.1 hs)
        | indexed n index =>
            cases index with
            | append =>
                cases hs : t.requireScope scope with
                | error err => simp [hs, bind, Except.bind] at h
                | ok s =>
                    cases ha : t.arrayFor scope s n e.kind with
                    | error err => simp [hs, ha, bind, Except.bind] at h
                    | ok found =>
                        simp only [hs, ha, bind, Except.bind, pure, Except.pure] at h
                        cases h
                        have hs := requireScope_eq_ok_iff.1 hs
                        rcases arrayFor_eq_ok_iff.1 ha with
                          ⟨items, hc, hitems, hk, ht⟩ | ⟨hc, harray, ht⟩
                        · rw [ht]
                          exact .item hn hs hc hitems hk
                        · rw [harray]
                          exact .firstItem hn hs hc ht
            | _ => cases h
        | _ => cases h
  · intro h
    unfold add
    cases h with
    | child hn hs =>
        rw [hn]
        simp only [bind, Except.bind, pure, Except.pure, requireScope_eq_ok_iff.2 hs]
        rfl
    | @item n s array items hn hs hc ha hk =>
        have harray : t.arrayFor scope s n e.kind = .ok (array, t) :=
          arrayFor_eq_ok_iff.2 (.inl ⟨items, hc, ha, hk, rfl⟩)
        rw [hn]
        simp only [bind, Except.bind, pure, Except.pure, requireScope_eq_ok_iff.2 hs, harray]
        rfl
    | @firstItem n s u hn hs hc hu =>
        have harray : t.arrayFor scope s n e.kind = .ok (t.size, u) :=
          arrayFor_eq_ok_iff.2 (.inr ⟨hc, rfl, hu⟩)
        rw [hn]
        simp only [bind, Except.bind, pure, Except.pure, requireScope_eq_ok_iff.2 hs, harray]
        rfl

end Tree

end RegisterAtlas
