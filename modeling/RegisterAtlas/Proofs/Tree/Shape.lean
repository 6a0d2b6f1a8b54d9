import RegisterAtlas.Proofs.Tree.WellFormed
import Mathlib.Data.List.Nodup

/-!
# The shape of reachable trees

Every call keeps a tree well formed, whether it succeeds or not, and every call of a draft keeps
besides the open scope a scope of the tree. So all reachable trees are well formed.
-/

namespace RegisterAtlas

/-! ## Fresh entries -/

namespace Entry.IsFresh

theorem members_eq_nil {e : Entry} (h : e.IsFresh) : e.members = [] := by
  cases h <;> rfl

theorem ne_array {e : Entry} (h : e.IsFresh) (items : Items) : e ≠ .array items := by
  cases h <;> exact fun he => by cases he

theorem kind_ne_array {e : Entry} (h : e.IsFresh) : e.kind ≠ .array := by
  cases h <;> exact fun he => by cases he

end Entry.IsFresh

namespace Tree

variable {t t' : Tree} {scope id : EntryId} {name : String} {e : Entry}

/-! ## Added entries -/

namespace Added

theorem size_lt (h : Added t scope name e id t') : t.size < t'.size := by
  cases h with
  | child hn hs => rw [size_setChild]; exact size_lt_size_alloc ..
  | item hn hs hc ha hk => rw [size_pushItem]; exact size_lt_size_alloc ..
  | firstItem hn hs hc hu =>
      rw [size_pushItem]
      refine lt_size_alloc ?_
      rw [hu, size_setChild]
      exact size_lt_size_alloc ..

theorem lt_size (h : Added t scope name e id t') : id < t'.size := by
  cases h <;> first | rw [size_setChild] | rw [size_pushItem]
  all_goals exact size_lt_size_alloc ..

theorem kind_of_lt (h : Added t scope name e id t') {i : EntryId} (hi : i < t.size) :
    t'.kind i = t.kind i := by
  cases h with
  | child hn hs => rw [kind_setChild, kind_alloc_of_lt hi]
  | item hn hs hc ha hk => rw [kind_pushItem, kind_alloc_of_lt hi]
  | @firstItem n s u hn hs hc hu =>
      have hiu : i < u.size := by
        rw [hu, size_setChild]
        exact lt_size_alloc hi
      rw [kind_pushItem, kind_alloc_of_lt hiu, hu, kind_setChild, kind_alloc_of_lt hi]

theorem kind_self (h : Added t scope name e id t') : t'.kind id = e.kind := by
  cases h <;> first | rw [kind_setChild] | rw [kind_pushItem]
  all_goals rw [kind_alloc, if_pos rfl]

end Added

theorem entry_addChild {s : Scope} (hs : t.entry scope = .scope s) (hlt : scope < t.size)
    (i : EntryId) :
    ((t.alloc scope e).2.setChild scope name t.size).entry i =
      if i = scope then .scope { s with children := s.children.insert name t.size }
      else if i = t.size then e else t.entry i := by
  rw [entry_setChild (by rw [entry_alloc_of_lt hlt, hs]) (lt_size_alloc hlt), entry_alloc]

theorem entry_newArray {u : Tree} {s : Scope} {a : Items} (hs : t.entry scope = .scope s)
    (hlt : scope < t.size) (hu : u = (t.alloc scope (.array a)).2.setChild scope name t.size) :
    u.entry t.size = .array a := by
  rw [hu, entry_addChild hs hlt, if_neg (Nat.ne_of_gt hlt), if_pos rfl]

theorem entry_addItem {array : EntryId} {items : Items} (ha : t.entry array = .array items)
    (i : EntryId) :
    ((t.alloc scope e).2.pushItem array t.size).entry i =
      if i = array then .array { items with ids := items.ids ++ [t.size] }
      else if i = t.size then e else t.entry i := by
  have harray : array < t.size := lt_size_of_array ha
  rw [entry_pushItem (by rw [entry_alloc_of_lt harray, ha]), entry_alloc]

namespace Linked

/-- What is allocated and lists nothing is not listed itself yet. -/
theorem not_mem_members_alloc (h : t.Linked) (he : e.members = []) (i : EntryId) :
    t.size ∉ ((t.alloc scope e).2.entry i).members := by
  rw [entry_alloc]
  split
  · rw [he]
    exact List.not_mem_nil
  · exact fun hm => Nat.lt_irrefl _ (h.member i _ hm).1

theorem addChild (h : t.Linked) {s : Scope} (hs : t.entry scope = .scope s) (hlt : scope < t.size)
    (hname : Element.ofText name = .ok (.name name)) (he : e.members = [])
    (hk : ∀ items, e = .array items → items.kind ≠ .array) :
    ((t.alloc scope e).2.setChild scope name t.size).Linked := by
  refine (h.alloc (kind_of_entry hs) hlt he hk).setChild (s := s) ?_ (lt_size_alloc hlt) hname
    (size_lt_size_alloc ..) (Nat.ne_of_gt h.root_lt) ?_ (h.not_mem_members_alloc he)
  · rw [entry_alloc_of_lt hlt, hs]
  · rw [parent_alloc, if_pos rfl]

theorem addItem (h : t.Linked) {array : EntryId} {items : Items} (hs : t.kind scope = .scope)
    (hlt : scope < t.size) (ha : t.entry array = .array items) (hp : t.parent array = scope)
    (he : e.IsFresh) (hk : e.kind = items.kind) :
    ((t.alloc scope e).2.pushItem array t.size).Linked := by
  have harray : array < t.size := lt_size_of_array ha
  have ha' : (t.alloc scope e).2.entry array = .array items := by rw [entry_alloc_of_lt harray, ha]
  have halloc : (t.alloc scope e).2.Linked :=
    h.alloc hs hlt he.members_eq_nil fun items hi => (he.ne_array items hi).elim
  refine halloc.pushItem ha' (size_lt_size_alloc ..) (Nat.ne_of_gt h.root_lt) ?_ ?_
    (h.not_mem_members_alloc he.members_eq_nil)
  · rw [parent_alloc, if_pos rfl, parent_alloc_of_lt harray, hp]
  · rw [kind_alloc, if_pos rfl, hk]

end Linked

theorem Linked.added (h : t.Linked) (he : e.IsFresh) (hlt : scope < t.size)
    (ha : Added t scope name e id t') : t'.Linked := by
  cases ha with
  | @child n s hn hs =>
      exact h.addChild hs hlt (Element.ofText_eq_name hn).2 he.members_eq_nil
        fun items hi => (he.ne_array items hi).elim
  | @item n s array items hn hs hc harray hk =>
      have hchild := h.child_parent hs (Table.mem_values_of_get? hc)
      exact h.addItem (kind_of_entry hs) hlt harray hchild he hk.symm
  | @firstItem n s u hn hs hc hu =>
      -- The new array is listed first, and then the new entry in it.
      have hlinked : u.Linked := by
        rw [hu]
        refine h.addChild hs hlt (Element.ofText_name_of_indexed hn) rfl ?_
        rintro items ⟨⟩
        exact he.kind_ne_array
      have hscope : u.kind scope = .scope := by
        rw [hu, kind_setChild, kind_alloc_of_lt hlt]
        exact kind_of_entry hs
      have hparent : u.parent t.size = scope := by
        rw [hu, parent_setChild, parent_alloc, if_pos rfl]
      have hlt' : scope < u.size := by
        rw [hu, size_setChild]
        exact lt_size_alloc hlt
      exact hlinked.addItem hscope hlt' (entry_newArray hs hlt hu) hparent he rfl

theorem WellFormed.added (h : t.WellFormed) (he : e.IsFresh) (hlt : scope < t.size)
    (ha : Added t scope name e id t') : t'.WellFormed := by
  refine ⟨h.toLinked.added he hlt ha, fun i items hi => ?_⟩
  cases ha with
  | child hn hs =>
      rw [entry_addChild hs hlt] at hi
      split at hi
      · cases hi
      split at hi
      · exact (he.ne_array items hi).elim
      · exact h.items_ne_nil i items hi
  | item hn hs hc harray hk =>
      rw [entry_addItem harray] at hi
      split at hi
      · cases hi
        exact List.append_ne_nil_of_right_ne_nil _ (List.cons_ne_nil _ _)
      split at hi
      · exact (he.ne_array items hi).elim
      · exact h.items_ne_nil i items hi
  | firstItem hn hs hc hu =>
      rw [entry_addItem (entry_newArray hs hlt hu)] at hi
      split at hi
      · cases hi
        exact List.append_ne_nil_of_right_ne_nil _ (List.cons_ne_nil _ _)
      next hne =>
      split at hi
      · exact (he.ne_array items hi).elim
      · rw [hu, entry_addChild hs hlt, if_neg hne] at hi
        split at hi
        · cases hi
        · exact h.items_ne_nil i items hi

/-! ## Calls -/

namespace WellFormed

/-- A change of a scope that leaves its children alone. -/
theorem updateScope (h : t.WellFormed) {s : Scope} {f : Scope → Scope}
    (hs : t.entry scope = .scope s) (hlt : scope < t.size) (hf : (f s).children = s.children) :
    (t.updateScope scope f).WellFormed := by
  refine ⟨h.toLinked.updateScope hs hlt hf, fun i items hi => ?_⟩
  rw [entry_updateScope hs hlt] at hi
  split at hi
  · cases hi
  · exact h.items_ne_nil i items hi

theorem addBookmark (h : t.WellFormed) (hlt : scope < t.size)
    (hok : t.addBookmark scope name = .ok t') :
    t'.WellFormed ∧ t'.size = t.size ∧ ∀ i, t'.kind i = t.kind i := by
  unfold Tree.addBookmark at hok
  cases hs : t.requireScope scope with
  | error err => rw [hs] at hok; cases hok
  | ok s =>
      simp only [hs, bind, Except.bind, pure, Except.pure] at hok
      split at hok <;> cases hok
      · exact ⟨h, rfl, fun _ => rfl⟩
      · exact ⟨h.updateScope (requireScope_eq_ok_iff.1 hs) hlt rfl, size_updateScope ..,
          kind_updateScope _ _ _⟩

theorem addDatatype (h : t.WellFormed) {datatype : Datatype} (hlt : scope < t.size)
    (hok : t.addDatatype scope name datatype = .ok t') :
    t'.WellFormed ∧ t'.size = t.size ∧ ∀ i, t'.kind i = t.kind i := by
  unfold Tree.addDatatype at hok
  cases hs : t.requireScope scope with
  | error err => rw [hs] at hok; cases hok
  | ok s =>
      rw [hs] at hok
      cases hok
      exact ⟨h.updateScope (requireScope_eq_ok_iff.1 hs) hlt rfl, size_updateScope ..,
        kind_updateScope _ _ _⟩

theorem setPollLimit (h : t.WellFormed) (limit : Nat) : (t.setPollLimit limit).WellFormed :=
  ⟨h.toLinked.setPollLimit limit, h.items_ne_nil⟩

theorem after (h : t.WellFormed) {c : Call} (hc : c.Valid t) : (t.after c).WellFormed := by
  cases hc with
  | @add scope name e hs he =>
      simp only [Tree.after]
      cases hadd : t.add scope name e with
      | error err => exact h
      | ok found => exact h.added he hs (add_eq_ok_iff.1 hadd)
  | @bookmark scope name hs =>
      simp only [Tree.after]
      cases hadd : t.addBookmark scope name with
      | error err => exact h
      | ok t' => exact (h.addBookmark hs hadd).1
  | @datatype scope name datatype hs =>
      simp only [Tree.after]
      cases hadd : t.addDatatype scope name datatype with
      | error err => exact h
      | ok t' => exact (h.addDatatype hs hadd).1
  | @pollLimit limit => exact h.setPollLimit limit

/-- A root scope in which nothing has been defined. -/
theorem withRoot (space : Option Space) : (withRoot { space }).WellFormed := by
  have hentry : ∀ id, ∃ space',
      (Tree.withRoot { space }).entry id = .scope { space := space' } := by
    intro id
    cases id with
    | zero => exact ⟨space, rfl⟩
    | succ n => exact ⟨none, rfl⟩
  have hmembers : ∀ id, ((Tree.withRoot { space }).entry id).members = [] := fun id => by
    obtain ⟨space', h⟩ := hentry id
    rw [h]
    rfl
  have hroot : ∀ id, id < (Tree.withRoot { space }).size → id = root := fun id hid =>
    Nat.lt_one_iff.1 hid
  constructor
  case items_ne_nil =>
    intro id items hi
    obtain ⟨space', h⟩ := hentry id
    rw [h] at hi
    cases hi
  constructor
  case root_lt => exact Nat.zero_lt_one
  case root_kind => rfl
  case root_parent => rfl
  case parent_lt => exact fun id hid hr => (hr (hroot id hid)).elim
  case parent_kind =>
    intro id hid
    rw [hroot id hid]
    rfl
  case member =>
    intro id member hm
    rw [hmembers] at hm
    cases hm
  case fits =>
    intro id
    obtain ⟨space', h⟩ := hentry id
    exact fits_of_members_eq_nil (hmembers id) fun items hi => by rw [h] at hi; cases hi
  case nodup_members =>
    intro id
    rw [hmembers]
    exact .nil
  case unique_member =>
    intro i j member hi
    rw [hmembers] at hi
    cases hi
  case pollLimit_pos => exact Nat.zero_lt_succ _

end WellFormed

end Tree

namespace Draft

/-- A draft of a well-formed tree, whose open scope is a scope of the tree. -/
structure WellFormed (d : Draft) : Prop where
  tree : d.tree.WellFormed
  current_lt : d.current < d.tree.size
  current_kind : d.tree.kind d.current = .scope

variable {d d' : Draft}

theorem ofTree_wellFormed {t : Tree} (h : t.WellFormed) : (ofTree t).WellFormed :=
  ⟨h, h.root_lt, h.root_kind⟩

theorem orElse_wellFormed {α : Type} {r : Except Error (α × Draft)} (h : d.WellFormed)
    (hr : ∀ a d', r = .ok (a, d') → d'.WellFormed) : (d.orElse r).WellFormed := by
  cases r with
  | error err => exact h
  | ok found => exact hr found.1 found.2 rfl

namespace WellFormed

theorem add (h : d.WellFormed) {name : String} {e : Entry} {id : EntryId} (he : e.IsFresh)
    (hok : d.add name e = .ok (id, d')) :
    d'.WellFormed ∧ id < d'.tree.size ∧ d'.tree.kind id = e.kind := by
  unfold Draft.add at hok
  cases hadd : d.tree.add d.current name e with
  | error err => rw [hadd] at hok; cases hok
  | ok found =>
      rw [hadd] at hok
      cases hok
      have hadded := Tree.add_eq_ok_iff.1 hadd
      refine ⟨⟨h.tree.added he h.current_lt hadded, ?_, ?_⟩, hadded.lt_size, hadded.kind_self⟩
      · exact Nat.lt_trans h.current_lt hadded.size_lt
      · exact (hadded.kind_of_lt h.current_lt).trans h.current_kind

theorem after (h : d.WellFormed) (c : Call) : (d.after c).WellFormed := by
  cases c with
  | openScope name space =>
      refine orElse_wellFormed h fun a d' hok => ?_
      unfold Draft.openScope at hok
      cases hadd : d.add name (.scope { space }) with
      | error err => rw [hadd] at hok; cases hok
      | ok found =>
          rw [hadd] at hok
          cases hok
          obtain ⟨hd, hlt, hk⟩ := h.add (.scope space) hadd
          exact ⟨hd.tree, hlt, hk⟩
  | closeScope =>
      refine orElse_wellFormed h fun a d' hok => ?_
      unfold Draft.closeScope at hok
      split at hok <;> cases hok
      exact ⟨h.tree, h.tree.parent_lt_size h.current_lt, h.tree.parent_kind _ h.current_lt⟩
  | bookmark name =>
      refine orElse_wellFormed h fun a d' hok => ?_
      unfold Draft.bookmark at hok
      cases hadd : d.tree.addBookmark d.current name with
      | error err => rw [hadd] at hok; cases hok
      | ok t' =>
          rw [hadd] at hok
          cases hok
          obtain ⟨ht, hsize, hkind⟩ := h.tree.addBookmark h.current_lt hadd
          exact ⟨ht, hsize ▸ h.current_lt, (hkind _).trans h.current_kind⟩
  | datatype name datatype =>
      refine orElse_wellFormed h fun a d' hok => ?_
      unfold Draft.datatype at hok
      cases hadd : d.tree.addDatatype d.current name datatype with
      | error err => rw [hadd] at hok; cases hok
      | ok t' =>
          rw [hadd] at hok
          cases hok
          obtain ⟨ht, hsize, hkind⟩ := h.tree.addDatatype h.current_lt hadd
          exact ⟨ht, hsize ▸ h.current_lt, (hkind _).trans h.current_kind⟩
  | register name address width =>
      refine orElse_wellFormed h fun a d' hok => ?_
      unfold Draft.register at hok
      cases hspace : d.space with
      | error err => rw [hspace] at hok; cases hok
      | ok space =>
          simp only [hspace, bind, Except.bind] at hok
          split at hok
          · cases hok
          · next found hadd =>
              cases hok
              exact (h.add (.field _) hadd).1
  | field name f => exact orElse_wellFormed h fun a d' hok => (h.add (.field f) hok).1
  | «alias» name target =>
      refine orElse_wellFormed h fun a d' hok => ?_
      unfold Draft.addAlias at hok
      cases hp : Path.ofText target with
      | error err => rw [hp] at hok; cases hok
      | ok p =>
          rw [hp] at hok
          exact (h.add (.alias target) hok).1
  | pollLimit limit => exact ⟨h.tree.setPollLimit limit, h.current_lt, h.current_kind⟩

theorem foldl (h : d.WellFormed) (calls : List Call) : (calls.foldl Draft.after d).WellFormed := by
  induction calls generalizing d with
  | nil => exact h
  | cons c calls ih => exact ih (h.after c)

end WellFormed

end Draft

namespace Tree

theorem Reachable.wellFormed {t : Tree} (h : Reachable t) : t.WellFormed := by
  induction h with
  | empty => exact .withRoot none
  | bound space => exact .withRoot (some space)
  | after h hc ih => exact ih.after hc
  | pass h calls ih =>
      exact ((Draft.ofTree_wellFormed ih).foldl calls).tree

/-! ## The shape -/

/-- Whatever the scopes and the arrays of a tree list, in the order of the arena. -/
def listed (t : Tree) : List EntryId := (List.range t.size).flatMap fun id => (t.entry id).members

theorem Linked.nodup_listed {t : Tree} (h : t.Linked) : t.listed.Nodup := by
  refine List.nodup_flatMap.2 ⟨fun id _ => h.nodup_members id, ?_⟩
  refine List.pairwise_lt_range.imp fun {i j} hij member hi hj => ?_
  exact Nat.ne_of_lt hij (h.unique_member i j member hi hj)

theorem Linked.lt_size_of_mem_listed {t : Tree} (h : t.Linked) {id : EntryId}
    (hid : id ∈ t.listed) : id < t.size := by
  obtain ⟨owner, -, hm⟩ := List.mem_flatMap.1 hid
  exact (h.member owner id hm).1

/-- The root is a scope and its own parent; any other entry lies in a scope that came before it.
Scopes and arrays list entries that have the right parents, arrays only such of their one kind and
at least one; nothing is listed twice. Names of children are read back as what they are. -/
theorem shape_of_reachable {t : Tree} (h : Reachable t) :
    (∃ s, t.entry root = .scope s) ∧ root < t.size ∧ t.parent root = root ∧
    (∀ id, id < t.size → id ≠ root → t.parent id < id ∧ ∃ s, t.entry (t.parent id) = .scope s) ∧
    (∀ id s, t.entry id = .scope s → ∀ child ∈ s.children.values, t.parent child = id) ∧
    (∀ id items, t.entry id = .array items →
      items.ids ≠ [] ∧ ∀ item ∈ items.ids, t.kind item = items.kind ∧ t.kind item ≠ .array ∧
        t.parent item = t.parent id) ∧
    (t.listed.Nodup ∧ ∀ id ∈ t.listed, id < t.size) ∧
    (∀ id s, t.entry id = .scope s → ∀ name ∈ s.children.keys,
      Element.parse name.toList = .ok (.name name)) ∧
    1 ≤ t.pollLimit := by
  have hw := h.wellFormed
  refine ⟨exists_scope_of_kind hw.root_kind, hw.root_lt, hw.root_parent, fun id hid hr => ?_,
    fun id s hs child hc => hw.child_parent hs hc, fun id items ha => ?_,
    ⟨hw.nodup_listed, fun id => hw.lt_size_of_mem_listed⟩, fun id s hs name hn => ?_,
    hw.pollLimit_pos⟩
  · exact ⟨hw.parent_lt id hid hr, exists_scope_of_kind (hw.parent_kind id hid)⟩
  · refine ⟨hw.items_ne_nil id items ha, fun item hi => ?_⟩
    have hkind := hw.item_kind ha hi
    exact ⟨hkind, hkind ▸ hw.items_kind ha, hw.item_parent ha hi⟩
  · exact Element.parse_of_ofText (hw.child_name hs hn)

/-- Here the scope `cpu`, which holds an array, has lost its name to an alias, and the last call
failed. -/
def redefinedScope : Tree :=
  ([.openScope "cpu" none, .alias "id[]" "/cpu", .alias "id[]" "..", .closeScope,
    .alias "cpu" "id[-1]", .alias "id[-1]" "/"].foldl Draft.after (.ofTree empty)).tree

theorem shape_of_reachable_redefinedScope :
    Reachable redefinedScope ∧ redefinedScope.listed = [5, 2, 3, 4] ∧ redefinedScope.listed.Nodup ∧
      ∀ id s, redefinedScope.entry id = .scope s → ∀ child ∈ s.children.values,
        redefinedScope.parent child = id := by
  have hr : Reachable redefinedScope := .pass .empty _
  obtain ⟨-, -, -, -, hchild, -, ⟨hnodup, -⟩, -⟩ := shape_of_reachable hr
  exact ⟨hr, by decide +kernel, hnodup, hchild⟩

end Tree

end RegisterAtlas
