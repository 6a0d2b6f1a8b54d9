import RegisterAtlas.Proofs.Path.PlainName
import RegisterAtlas.Proofs.Tree.Entries
import RegisterAtlas.Proofs.Tree.Reachable

/-!
# The shape of trees

`Linked` says that the links of a tree agree: a parent is a scope that came before its children,
whatever a scope or an array lists has the parent that it should have, and nothing is listed
twice. An entry need not be listed at all, as its name can be given to another entry; such an
entry keeps its parent and everything below it.

A tree stays linked when an entry is allocated and when one entry is changed to list more, and
`add` is made of these. A tree is `WellFormed` if besides no array is empty, which does not hold
while the first item of an array is being appended.
-/

namespace RegisterAtlas.Tree

variable {t : Tree}

/-! ## What an entry may list -/

/-- Whether an entry may stand at a place of a tree, going by the parents and kinds of what it
lists. -/
inductive Fits (t : Tree) (id : EntryId) : Entry → Prop where
  | scope {s : Scope} (parent : ∀ child ∈ s.children.values, t.parent child = id)
      (name : ∀ name ∈ s.children.keys, Element.ofText name = .ok (.name name)) :
      Fits t id (.scope s)
  | array {items : Items} (parent : ∀ item ∈ items.ids, t.parent item = t.parent id)
      (kind : ∀ item ∈ items.ids, t.kind item = items.kind) (items_kind : items.kind ≠ .array) :
      Fits t id (.array items)
  | field {f : Field} : Fits t id (.field f)
  | alias {target : String} : Fits t id (.alias target)

/-- Only the parents and kinds of what is listed count. -/
theorem Fits.congr {t' : Tree} {id : EntryId} {e : Entry} (h : t.Fits id e)
    (hid : t'.parent id = t.parent id)
    (hparent : ∀ member ∈ e.members, t'.parent member = t.parent member)
    (hkind : ∀ member ∈ e.members, t'.kind member = t.kind member) : t'.Fits id e := by
  cases h with
  | scope parent name =>
      exact .scope (fun child hc => (hparent child hc).trans (parent child hc)) name
  | array parent kind items_kind =>
      refine .array (fun item hi => ?_) (fun item hi => (hkind item hi).trans (kind item hi))
        items_kind
      rw [hparent item hi, hid]
      exact parent item hi
  | field => exact .field
  | «alias» => exact .alias

/-- An entry that lists nothing may stand anywhere. -/
theorem fits_of_members_eq_nil {id : EntryId} {e : Entry} (h : e.members = [])
    (hk : ∀ items, e = .array items → items.kind ≠ .array) : t.Fits id e := by
  cases e with
  | scope s =>
      have hentries : s.children.entries = [] := List.map_eq_nil_iff.1 h
      refine .scope (fun child hc => ?_) (fun name hn => ?_)
      · rw [Table.values, hentries] at hc
        cases hc
      · rw [Table.keys, hentries] at hn
        cases hn
  | array items =>
      have hids : items.ids = [] := h
      refine .array (fun item hi => ?_) (fun item hi => ?_) (hk items rfl) <;>
        · rw [hids] at hi
          cases hi
  | field f => exact .field
  | «alias» target => exact .alias

/-! ## Linked trees -/

structure Linked (t : Tree) : Prop where
  root_lt : root < t.size
  root_kind : t.kind root = .scope
  root_parent : t.parent root = root
  parent_lt : ∀ id, id < t.size → id ≠ root → t.parent id < id
  parent_kind : ∀ id, id < t.size → t.kind (t.parent id) = .scope
  member : ∀ id, ∀ member ∈ (t.entry id).members, member < t.size ∧ member ≠ root
  fits : ∀ id, t.Fits id (t.entry id)
  nodup_members : ∀ id, (t.entry id).members.Nodup
  unique_member : ∀ i j, ∀ member ∈ (t.entry i).members, member ∈ (t.entry j).members → i = j
  pollLimit_pos : 0 < t.pollLimit

structure WellFormed (t : Tree) : Prop extends Linked t where
  items_ne_nil : ∀ id items, t.entry id = .array items → items.ids ≠ []

namespace Linked

theorem parent_lt_size (h : t.Linked) {id : EntryId} (hid : id < t.size) :
    t.parent id < t.size := by
  by_cases hr : id = root
  · rw [hr, h.root_parent]
    exact h.root_lt
  · exact Nat.lt_trans (h.parent_lt id hid hr) hid

theorem child_parent (h : t.Linked) {id child : EntryId} {s : Scope} (hs : t.entry id = .scope s)
    (hc : child ∈ s.children.values) : t.parent child = id := by
  cases hs ▸ h.fits id with
  | scope parent _ => exact parent child hc

theorem child_name (h : t.Linked) {id : EntryId} {s : Scope} {name : String}
    (hs : t.entry id = .scope s) (hn : name ∈ s.children.keys) :
    Element.ofText name = .ok (.name name) := by
  cases hs ▸ h.fits id with
  | scope _ names => exact names name hn

theorem item_parent (h : t.Linked) {id item : EntryId} {items : Items}
    (ha : t.entry id = .array items) (hi : item ∈ items.ids) : t.parent item = t.parent id := by
  cases ha ▸ h.fits id with
  | array parent _ _ => exact parent item hi

theorem item_kind (h : t.Linked) {id item : EntryId} {items : Items}
    (ha : t.entry id = .array items) (hi : item ∈ items.ids) : t.kind item = items.kind := by
  cases ha ▸ h.fits id with
  | array _ kind _ => exact kind item hi

theorem items_kind (h : t.Linked) {id : EntryId} {items : Items} (ha : t.entry id = .array items) :
    items.kind ≠ .array := by
  cases ha ▸ h.fits id with
  | array _ _ items_kind => exact items_kind

/-! ## What keeps a tree linked -/

/-- A new entry that lists nothing itself, below a scope. -/
theorem alloc (h : t.Linked) {scope : EntryId} {e : Entry} (hs : t.kind scope = .scope)
    (hlt : scope < t.size) (he : e.members = [])
    (hk : ∀ items, e = .array items → items.kind ≠ .array) : (t.alloc scope e).2.Linked := by
  -- Whatever is listed was listed before, as the new entry lists nothing.
  have hlisted : ∀ {id member}, member ∈ ((t.alloc scope e).2.entry id).members →
      id ≠ t.size ∧ member ∈ (t.entry id).members := by
    intro id member hm
    by_cases hid : id = t.size
    · rw [entry_alloc, if_pos hid, he] at hm
      cases hm
    · rw [entry_alloc, if_neg hid] at hm
      exact ⟨hid, hm⟩
  constructor
  case root_lt => exact lt_size_alloc h.root_lt
  case root_kind => rw [kind_alloc_of_lt h.root_lt]; exact h.root_kind
  case root_parent => rw [parent_alloc_of_lt h.root_lt]; exact h.root_parent
  case parent_lt =>
    intro id hid hr
    rw [size_alloc] at hid
    rcases Nat.lt_or_eq_of_le (Nat.le_of_lt_succ hid) with hid | rfl
    · rw [parent_alloc_of_lt hid]
      exact h.parent_lt id hid hr
    · rw [parent_alloc, if_pos rfl]
      exact hlt
  case parent_kind =>
    intro id hid
    rw [size_alloc] at hid
    rcases Nat.lt_or_eq_of_le (Nat.le_of_lt_succ hid) with hid | rfl
    · rw [parent_alloc_of_lt hid, kind_alloc_of_lt (h.parent_lt_size hid)]
      exact h.parent_kind id hid
    · rw [parent_alloc, if_pos rfl, kind_alloc_of_lt hlt]
      exact hs
  case member =>
    intro id member hm
    obtain ⟨hlt, hr⟩ := h.member id member (hlisted hm).2
    exact ⟨lt_size_alloc hlt, hr⟩
  case fits =>
    intro id
    by_cases hid : id = t.size
    · rw [entry_alloc, if_pos hid]
      exact fits_of_members_eq_nil he hk
    · rw [entry_alloc, if_neg hid]
      refine (h.fits id).congr (by rw [parent_alloc, if_neg hid]) (fun member hm => ?_)
        (fun member hm => kind_alloc_of_lt (h.member id member hm).1)
      exact parent_alloc_of_lt (h.member id member hm).1
  case nodup_members =>
    intro id
    rw [entry_alloc]
    split
    · rw [he]
      exact .nil
    · exact h.nodup_members id
  case unique_member =>
    intro i j member hi hj
    exact h.unique_member i j member (hlisted hi).2 (hlisted hj).2
  case pollLimit_pos => exact h.pollLimit_pos

/-- A change of one entry, which may then list entries that nothing has listed before. -/
theorem updateEntry (h : t.Linked) {owner : EntryId} {f : Entry → Entry} {e : Entry}
    (hlt : owner < t.size) (he : f (t.entry owner) = e) (hk : e.kind = t.kind owner)
    (hfits : t.Fits owner e) (hnodup : e.members.Nodup)
    (hnew : ∀ member ∈ e.members, member ∈ (t.entry owner).members ∨
      member < t.size ∧ member ≠ root ∧ ∀ i, member ∉ (t.entry i).members) :
    (t.updateEntry owner f).Linked := by
  have hentry : ∀ id, (t.updateEntry owner f).entry id = if id = owner then e else t.entry id := by
    intro id
    rw [entry_updateEntry t f id hlt]
    split
    · next hid => rw [hid, he]
    · rfl
  have hkind : ∀ id, (t.updateEntry owner f).kind id = t.kind id := by
    intro id
    rw [kind, hentry]
    split
    · next hid => rw [hid, hk]
    · rfl
  -- What the owner lists now and did not list before is listed nowhere else.
  have hown : ∀ {id member}, id ≠ owner → member ∈ (t.entry id).members → member ∉ e.members := by
    intro id member hid hm hme
    rcases hnew member hme with hm' | ⟨-, -, hm'⟩
    · exact hid (h.unique_member id owner member hm hm')
    · exact hm' id hm
  constructor
  case root_lt => rw [size_updateEntry]; exact h.root_lt
  case root_kind => rw [hkind]; exact h.root_kind
  case root_parent => rw [parent_updateEntry]; exact h.root_parent
  case parent_lt =>
    intro id hid hr
    rw [size_updateEntry] at hid
    rw [parent_updateEntry]
    exact h.parent_lt id hid hr
  case parent_kind =>
    intro id hid
    rw [size_updateEntry] at hid
    rw [parent_updateEntry, hkind]
    exact h.parent_kind id hid
  case member =>
    intro id member hm
    rw [size_updateEntry]
    rw [hentry] at hm
    split at hm
    · rcases hnew member hm with hm | ⟨hlt, hr, -⟩
      · exact h.member owner member hm
      · exact ⟨hlt, hr⟩
    · exact h.member id member hm
  case fits =>
    intro id
    have hfits : t.Fits id ((t.updateEntry owner f).entry id) := by
      rw [hentry]
      split
      · next hid => rw [hid]; exact hfits
      · exact h.fits id
    exact hfits.congr (parent_updateEntry ..) (fun _ _ => parent_updateEntry ..)
      (fun member _ => hkind member)
  case nodup_members =>
    intro id
    rw [hentry]
    split
    · exact hnodup
    · exact h.nodup_members id
  case unique_member =>
    intro i j member hi hj
    rw [hentry] at hi hj
    split at hi <;> split at hj
    · next hi' hj' => rw [hi', hj']
    · next hj' => exact (hown hj' hj hi).elim
    · next hi' _ => exact (hown hi' hi hj).elim
    · exact h.unique_member i j member hi hj
  case pollLimit_pos => exact h.pollLimit_pos

/-- A child of a scope that nothing lists yet. -/
theorem setChild (h : t.Linked) {scope id : EntryId} {s : Scope} {name : String}
    (hs : t.entry scope = .scope s) (hlt : scope < t.size)
    (hname : Element.ofText name = .ok (.name name)) (hid : id < t.size) (hr : id ≠ root)
    (hp : t.parent id = scope) (hun : ∀ i, id ∉ (t.entry i).members) :
    (t.setChild scope name id).Linked := by
  have hmem : ∀ child, child ∈ (s.children.insert name id).values →
      child = id ∨ child ∈ (t.entry scope).members := fun child hc => by
    rw [hs]
    exact Table.mem_values_insert hc
  rw [Tree.setChild, Tree.updateScope]
  refine h.updateEntry (e := .scope { s with children := s.children.insert name id }) hlt
    (by rw [hs]) (kind_of_entry hs).symm (.scope (fun child hc => ?_) (fun n hn => ?_)) ?_
    (fun child hc => ?_)
  · rcases hmem child hc with rfl | hc
    · exact hp
    · rw [hs] at hc
      exact h.child_parent hs hc
  · rw [Table.keys_insert] at hn
    split at hn
    · exact h.child_name hs hn
    · rcases List.mem_append.1 hn with hn | hn
      · exact h.child_name hs hn
      · rw [List.mem_singleton.1 hn]
        exact hname
  · have hnodup := h.nodup_members scope
    have hun := hun scope
    rw [hs] at hnodup hun
    exact Table.nodup_values_insert hnodup hun
  · rcases hmem child hc with rfl | hc
    · exact .inr ⟨hid, hr, hun⟩
    · exact .inl hc

/-- An item of an array that nothing lists yet. -/
theorem pushItem (h : t.Linked) {array id : EntryId} {items : Items}
    (ha : t.entry array = .array items) (hid : id < t.size) (hr : id ≠ root)
    (hp : t.parent id = t.parent array) (hk : t.kind id = items.kind)
    (hun : ∀ i, id ∉ (t.entry i).members) : (t.pushItem array id).Linked := by
  have hlt : array < t.size := lt_size_of_array ha
  have hmem : ∀ item, item ∈ items.ids ++ [id] → item = id ∨ item ∈ items.ids := fun item hi =>
    (List.mem_append.1 hi).symm.imp_left List.mem_singleton.1
  have hkind : items.kind ≠ .array := h.items_kind ha
  rw [Tree.pushItem]
  refine h.updateEntry (e := .array { items with ids := items.ids ++ [id] }) hlt (by rw [ha])
    (kind_of_entry ha).symm (.array (fun item hi => ?_) (fun item hi => ?_) hkind) ?_
    (fun item hi => ?_)
  · rcases hmem item hi with rfl | hi
    · exact hp
    · exact h.item_parent ha hi
  · rcases hmem item hi with rfl | hi
    · exact hk
    · exact (h.item_kind ha hi :)
  · have hnodup := h.nodup_members array
    have hun := hun array
    rw [ha] at hnodup hun
    refine List.nodup_append.2 ⟨hnodup, by simp, fun item hi other ho => ?_⟩
    rw [List.mem_singleton.1 ho]
    rintro rfl
    exact hun hi
  · rcases hmem item hi with rfl | hi
    · exact .inr ⟨hid, hr, hun⟩
    · exact .inl (by rw [ha]; exact hi)

/-- A change of a scope that leaves its children alone. -/
theorem updateScope (h : t.Linked) {scope : EntryId} {s : Scope} {f : Scope → Scope}
    (hs : t.entry scope = .scope s) (hlt : scope < t.size) (hf : (f s).children = s.children) :
    (t.updateScope scope f).Linked := by
  have hmem : (Entry.scope (f s)).members = (t.entry scope).members := by
    rw [hs, Entry.members, hf, Entry.members]
  rw [Tree.updateScope]
  refine h.updateEntry (e := .scope (f s)) hlt (by rw [hs]) (kind_of_entry hs).symm
    (.scope ?_ ?_) ?_ (fun child hc => .inl (hmem ▸ hc))
  · rw [hf]
    exact fun child hc => h.child_parent hs hc
  · rw [hf]
    exact fun name hn => h.child_name hs hn
  · rw [hmem]
    exact h.nodup_members scope

theorem setPollLimit (h : t.Linked) (limit : Nat) : (t.setPollLimit limit).Linked where
  root_lt := h.root_lt
  root_kind := h.root_kind
  root_parent := h.root_parent
  parent_lt := h.parent_lt
  parent_kind := h.parent_kind
  member := h.member
  fits := fun id => (h.fits id).congr rfl (fun _ _ => rfl) (fun _ _ => rfl)
  nodup_members := h.nodup_members
  unique_member := h.unique_member
  pollLimit_pos := Nat.lt_of_lt_of_le Nat.zero_lt_one (Nat.le_max_right ..)

end Linked

end RegisterAtlas.Tree
