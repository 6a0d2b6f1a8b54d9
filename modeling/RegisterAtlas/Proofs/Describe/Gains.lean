import RegisterAtlas.Proofs.Tree.Addition
import RegisterAtlas.Proofs.Tree.Attached

/-!
# What a scope shows

A scope shows an entry for each of its names. `Gains` says what an addition means for that: the
scope shows one more entry, or another one, under one name. All entries but the scope and its
arrays stay as they are, and every scope stays bound to the register space that it was bound to.
`add_child` and `add_item` are additions of a child and of an item, each with the condition under
which it succeeds.
-/

namespace RegisterAtlas

/-- What is shown under each name. -/
abbrev View := String → Option Entry

namespace View

/-- Nothing is shown. -/
def none : View := fun _ => .none

/-- Another entry is shown under a name. -/
def put (view : View) (name : String) (e : Entry) : View :=
  fun n => if n = name then some e else view n

@[simp] theorem put_apply (view : View) (name : String) (e : Entry) (n : String) :
    view.put name e n = if n = name then some e else view n := rfl

/-- The items that are shown under the name of an array. -/
def items (view : View) (name : String) : List EntryId :=
  match view name with
  | some (.array items) => items.ids
  | _ => []

/-- An item of a kind can be appended: the array holds such items, or can still be made. -/
def Takes (view : View) (name : String) (kind : Kind) : Prop :=
  ∀ e, view name = some e → ∃ items, e = .array items ∧ items.kind = kind

theorem Takes.of_none {view : View} {name : String} {kind : Kind} (h : view name = .none) :
    view.Takes name kind := fun e he => by rw [h] at he; cases he

end View

namespace Tree

/-- What a scope of a tree shows. -/
def view (t : Tree) (scope : EntryId) : View := fun name =>
  ((t.scope? scope).bind fun s => s.children.get? name).map t.entry

/-- The register space that a scope is bound to itself. -/
def ownSpace? (t : Tree) (id : EntryId) : Option Space := (t.scope? id).bind (·.space)

variable {t t' : Tree} {scope id : EntryId} {name : String} {s : Scope} {e content : Entry}

theorem view_of_scope (hs : t.entry scope = .scope s) (name : String) :
    t.view scope name = (s.children.get? name).map t.entry := by
  rw [view, scope?_of_entry hs, Option.bind_some]

theorem ownSpace?_of_scope (hs : t.entry scope = .scope s) : t.ownSpace? scope = s.space := by
  rw [ownSpace?, scope?_of_entry hs, Option.bind_some]

/-- No scope is among its own children. -/
theorem Linked.child_ne (h : t.Linked) (hs : t.entry scope = .scope s) {child : EntryId}
    (hc : child ∈ s.children.values) : child ≠ scope := by
  rintro rfl
  have hparent := h.child_parent hs hc
  obtain ⟨hlt, hr⟩ := h.member child child (hs ▸ hc)
  exact Nat.lt_irrefl _ (hparent ▸ h.parent_lt child hlt hr)

/-- A scope shows the same as long as it and its children stay the same. -/
theorem view_congr (hscope : t'.entry scope = t.entry scope)
    (hchild : ∀ child ∈ (t.entry scope).members, t'.entry child = t.entry child) :
    t'.view scope = t.view scope := by
  funext name
  cases hs : t.scope? scope with
  | none => rw [view, view, scope?, hscope, ← scope?, hs]; rfl
  | some s =>
      have hs := scope?_eq_some_iff.1 hs
      rw [view_of_scope hs, view_of_scope (hscope.trans hs)]
      cases hc : s.children.get? name with
      | none => rfl
      | some child =>
          have hmem : child ∈ (t.entry scope).members := hs ▸ Table.mem_values_of_get? hc
          rw [Option.map_some, Option.map_some, hchild child hmem]

/-- The register space in effect follows from what is above. -/
theorem space?_eq (h : t.Linked) (hid : id < t.size) (hp : ∀ a ≤ id, t'.parent a = t.parent a)
    (hs : ∀ a ≤ id, t'.ownSpace? a = t.ownSpace? a) : t'.space? id = t.space? id := by
  have hbound : ∀ (ids : List EntryId), (∀ b ∈ ids, b ≤ id) →
      ids.findSome? t'.ownSpace? = ids.findSome? t.ownSpace? := by
    intro ids hids
    induction ids with
    | nil => rfl
    | cons a ids ih =>
        obtain ⟨ha, hids⟩ := List.forall_mem_cons.1 hids
        rw [List.findSome?_cons, List.findSome?_cons, hs a ha, ih hids]
  calc t'.space? id = (t'.climb id id).findSome? t'.ownSpace? := rfl
    _ = (t.climb id id).findSome? t.ownSpace? := by
        rw [h.climb_congr id hid hp, hbound _ fun b hb => h.le_of_mem_climb id hid hb]
    _ = t.space? id := rfl

/-! ## Additions -/

/-- A scope shows an entry under one name, and apart from that the tree is as before. -/
structure Gains (t t' : Tree) (scope : EntryId) (name : String) (content : Entry) : Prop where
  size_le : t.size ≤ t'.size
  parent_eq : ∀ i, i < t.size → t'.parent i = t.parent i
  entry_eq : ∀ i, i < t.size → i ≠ scope → (t.parent i ≠ scope ∨ t.kind i ≠ .array) →
    t'.entry i = t.entry i
  ownSpace_eq : ∀ i, i < t.size → t'.ownSpace? i = t.ownSpace? i
  view_eq : t'.view scope = (t.view scope).put name content

/-- A new child, which no array of the tree has to do with. -/
theorem Extends.gains_child {children : Table String EntryId} {new : List Node} (hw : t.WellFormed)
    (hs : t.entry scope = .scope s) (hlt : scope < t.size)
    (h : t.Extends t' scope (.scope { s with children }) new)
    (hnew : ∀ n, children.get? n = if name = n then some t.size else s.children.get? n)
    (hentry : t'.entry t.size = content) : t.Gains t' scope name content where
  size_le := h.size_eq ▸ Nat.le_add_right ..
  parent_eq := h.parent_eq
  entry_eq i hi hne _ := h.entry_eq i hi hne
  ownSpace_eq i hi := by
    by_cases hne : i = scope
    · subst hne
      rw [ownSpace?_of_scope h.entry_owner, ownSpace?_of_scope hs]
    · rw [ownSpace?, scope?, h.entry_eq i hi hne]
      rfl
  view_eq := by
    funext n
    rw [view_of_scope h.entry_owner, View.put_apply, view_of_scope hs]
    simp only [hnew]
    by_cases hn : name = n
    · rw [if_pos hn, if_pos hn.symm, Option.map_some, hentry]
    · rw [if_neg hn, if_neg (Ne.symm hn)]
      cases hc : s.children.get? n with
      | none => rfl
      | some child =>
          have hmem := Table.mem_values_of_get? hc
          have hchild := (hw.member scope child (hs ▸ hmem)).1
          rw [Option.map_some, Option.map_some, h.entry_eq child hchild (hw.child_ne hs hmem)]

/-- A new item of an array that is there already. -/
theorem Extends.gains_item {array : EntryId} {items items' : Items} {new : List Node}
    (hw : t.WellFormed) (hs : t.entry scope = .scope s) (hc : s.children.get? name = some array)
    (ha : t.entry array = .array items) (h : t.Extends t' array (.array items') new) :
    t.Gains t' scope name (.array items') := by
  have hmem := Table.mem_values_of_get? hc
  have hparent := hw.child_parent hs hmem
  have hscope : t'.entry scope = t.entry scope := by
    have hne : scope ≠ array := (hw.child_ne hs hmem).symm
    refine h.entry_eq scope ?_ hne
    exact hparent ▸ hw.parent_lt_size (lt_size_of_array ha)
  constructor
  case size_le => exact h.size_eq ▸ Nat.le_add_right ..
  case parent_eq => exact h.parent_eq
  case entry_eq =>
    intro i hi _ hother
    refine h.entry_eq i hi ?_
    rintro rfl
    exact hother.elim (· hparent) (· (kind_of_entry ha))
  case ownSpace_eq =>
    intro i hi
    by_cases hne : i = array
    · subst hne
      rw [ownSpace?, ownSpace?, scope?, scope?, h.entry_owner, ha]
    · rw [ownSpace?, scope?, h.entry_eq i hi hne]
      rfl
  case view_eq =>
    funext n
    rw [view_of_scope (hscope.trans hs), View.put_apply, view_of_scope hs]
    by_cases hn : n = name
    · subst hn
      rw [if_pos rfl, hc, Option.map_some, h.entry_owner]
    · rw [if_neg hn]
      cases hc' : s.children.get? n with
      | none => rfl
      | some child =>
          have hchild := (hw.member scope child (hs ▸ Table.mem_values_of_get? hc')).1
          have hne : child ≠ array := by
            rintro rfl
            exact hn (hw.name_unique hs hc' hc)
          rw [Option.map_some, Option.map_some, h.entry_eq child hchild hne]

/-- A child of a plain name can always be added. -/
theorem add_child (hw : t.WellFormed) (hlt : scope < t.size) (hk : t.kind scope = .scope)
    (hname : isName name.toList = true) (e : Entry) :
    ∃ t', t.add scope name e = .ok (t.size, t') ∧ t.Gains t' scope name e ∧
      t'.size = t.size + 1 ∧ t'.entry t.size = e ∧ t'.Lists scope (.name name) t.size := by
  obtain ⟨s, hs⟩ := exists_scope_of_kind hk
  have hadded : Added t scope name e _ _ := .child (Element.ofText_of_isName hname) hs
  have hext : t.Extends ((t.alloc scope e).2.setChild scope name t.size) scope _ [⟨scope, e⟩] :=
    extends_addChild hs hlt
  have hentry := congrArg Node.entry (hext.node_new 0 _ rfl)
  have hchildren := fun n => Table.get?_insert s.children name n t.size
  exact ⟨_, add_eq_ok_iff.2 hadded, hext.gains_child hw hs hlt hchildren hentry, hext.size_eq,
    hentry, .child hext.entry_owner (by rw [hchildren, if_pos rfl])⟩

/-- An item can be added where nothing but an array of its kind is in the way. -/
theorem add_item (hw : t.WellFormed) (hlt : scope < t.size) (hk : t.kind scope = .scope)
    (hname : isName name.toList = true) (htakes : (t.view scope).Takes name e.kind) :
    ∃ id t', t.add scope (name ++ "[]") e = .ok (id, t') ∧
      t.Gains t' scope name (.array ⟨e.kind, (t.view scope).items name ++ [id]⟩) ∧
      t.size ≤ id ∧ t'.size = id + 1 ∧ t'.entry id = e := by
  obtain ⟨s, hs⟩ := exists_scope_of_kind hk
  have htext : Element.ofText (name ++ "[]") = .ok (.indexed name .append) :=
    Element.ofText_eq_append_iff.2 ⟨rfl, Grammar.isName_iff.1 hname⟩
  cases hc : s.children.get? name with
  | some array =>
      have hview : t.view scope name = some (t.entry array) := by
        rw [view_of_scope hs, hc, Option.map_some]
      obtain ⟨items, ha, hkind⟩ := htakes _ hview
      have hitems : (t.view scope).items name = items.ids := by rw [View.items, hview, ha]
      have hadded : Added t scope (name ++ "[]") e _ _ := .item htext hs hc ha hkind
      have hext : t.Extends _ array _ [⟨scope, e⟩] := extends_addItem ha
      rw [hitems, ← hkind]
      exact ⟨_, _, add_eq_ok_iff.2 hadded, hext.gains_item hw hs hc ha, Nat.le_refl _,
        hext.size_eq, congrArg Node.entry (hext.node_new 0 _ rfl)⟩
  | none =>
      have hview : t.view scope name = none := by rw [view_of_scope hs, hc, Option.map_none]
      have hitems : (t.view scope).items name = [] := by rw [View.items, hview]
      -- the array comes into the tree first, and then the item into the array
      obtain ⟨u, hu⟩ :
          ∃ u, u = (t.alloc scope (.array ⟨e.kind, []⟩)).2.setChild scope name t.size := ⟨_, rfl⟩
      have hadded : Added t scope (name ++ "[]") e _ _ := .firstItem htext hs hc hu
      obtain ⟨hsize, hext⟩ := extends_addFirstItem hs hlt hu
      have hentry := congrArg Node.entry (hext.node_new 1 _ rfl)
      rw [← hsize] at hentry
      rw [hitems]
      exact ⟨u.size, _, add_eq_ok_iff.2 hadded,
        hext.gains_child hw hs hlt (fun n => Table.get?_insert s.children name n t.size)
          (congrArg Node.entry (hext.node_new 0 _ rfl)),
        hsize ▸ Nat.le_succ _, by rw [hext.size_eq, hsize]; rfl, hentry⟩

/-- Items are listed at their positions. -/
theorem lists_of_view {items : Items} {n : Nat} (hview : t.view scope name = some (.array items))
    (hi : items.ids[n]? = some id) : t.Lists scope (.indexed name (.pos n)) id := by
  obtain ⟨array, hc, ha⟩ := Option.map_eq_some_iff.1 hview
  obtain ⟨s, hs, hc⟩ := Option.bind_eq_some_iff.1 hc
  exact .item (scope?_eq_some_iff.1 hs) hc ha hi

/-- Bookmarks and datatypes of a scope do not change what it shows. -/
theorem updateScope_view (hw : t.WellFormed) (hlt : scope < t.size) (hs : t.entry scope = .scope s)
    {f : Scope → Scope} (hchildren : (f s).children = s.children) (hspace : (f s).space = s.space) :
    (∀ i, i ≠ scope → (t.updateScope scope f).entry i = t.entry i) ∧
    (∀ i, (t.updateScope scope f).ownSpace? i = t.ownSpace? i) ∧
    (t.updateScope scope f).view scope = t.view scope := by
  have hentry := entry_updateScope hs hlt f
  have hscope : (t.updateScope scope f).entry scope = .scope (f s) := by rw [hentry, if_pos rfl]
  have hother : ∀ i, i ≠ scope → (t.updateScope scope f).entry i = t.entry i := fun i hi => by
    rw [hentry, if_neg hi]
  refine ⟨hother, fun i => ?_, ?_⟩
  · by_cases hi : i = scope
    · rw [hi, ownSpace?_of_scope hscope, ownSpace?_of_scope hs, hspace]
    · rw [ownSpace?, scope?, hother i hi]
      rfl
  · funext name
    rw [view_of_scope hscope, view_of_scope hs, hchildren]
    cases hc : s.children.get? name with
    | none => rfl
    | some child =>
        rw [Option.map_some, Option.map_some,
          hother child (hw.child_ne hs (Table.mem_values_of_get? hc))]

end Tree

end RegisterAtlas
