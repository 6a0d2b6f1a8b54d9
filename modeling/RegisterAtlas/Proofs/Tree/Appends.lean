import RegisterAtlas.Proofs.Describe.Gains
import RegisterAtlas.Proofs.Tree.Evolution

/-!
# Items appended to an array

Calls on a tree append to many arrays in turn, and some of them are refused. `appends` picks out of
all that what was appended to one array of a scope, in the order of the calls. As long as no call
gives the scope a child of the array's own name, these are the items that the array holds: an
addition changes what its scope shows under one name (`Added.gains`), and no array of another scope
(`Added.holds_of_ne`). `Holds.after` is the step and `holds_foldl` the run.
-/

namespace RegisterAtlas.Tree

/-! ## Histories -/

/-- Each call of a list has a property on the tree that it is made on. -/
def Along (P : Tree → Call → Prop) : Tree → List Call → Prop
  | _, [] => True
  | t, c :: calls => P t c ∧ Along P (t.after c) calls

/-- The call gives a scope a child of a plain name. -/
def NamesChild (scope : EntryId) (name : String) (t : Tree) : Call → Prop
  | .add s text e =>
      s = scope ∧ Element.ofText text = .ok (.name name) ∧ ∃ found, t.add s text e = .ok found
  | _ => False

/-- The item that a call appends to the array of a name in a scope. -/
def appended? (scope : EntryId) (name : String) (t : Tree) : Call → Option EntryId
  | .add s text e =>
      match t.add s text e with
      | .ok (id, _) => if s = scope ∧ text = name ++ "[]" then some id else none
      | .error _ => none
  | _ => none

/-- The items that calls append to an array, in the order of the calls. -/
def appends (scope : EntryId) (name : String) : Tree → List Call → List EntryId
  | _, [] => []
  | t, c :: calls => (t.appended? scope name c).toList ++ appends scope name (t.after c) calls

variable {t t' : Tree} {scope owner id : EntryId} {name text : String} {e content : Entry}
  {ids : List EntryId} {c : Call} {calls : List Call}

theorem not_namesChild_of_ne {s : EntryId} (h : text ≠ name) :
    ¬ NamesChild scope name t (.add s text e) :=
  fun hnames => h (Element.ofText_eq_name_iff.1 hnames.2.1).1.symm

theorem WellFormed.foldl (hw : t.WellFormed) (h : Along Call.Valid t calls) :
    (calls.foldl Tree.after t).WellFormed := by
  induction calls generalizing t with
  | nil => exact hw
  | cons c calls ih => exact ih (hw.after h.1) h.2

/-! ## What an addition shows -/

/-- An addition shows the new entry under a plain name, or behind the items of an array. -/
theorem Added.gains (h : Added t owner text e id t') (hw : t.WellFormed) (hlt : owner < t.size) :
    (∃ n, Element.ofText text = .ok (.name n) ∧ t.Gains t' owner n e) ∨
    ∃ n, text = n ++ "[]" ∧
      t.Gains t' owner n (.array ⟨e.kind, (t.view owner).items n ++ [id]⟩) := by
  cases h with
  | @child n s hn hs =>
      have hext : t.Extends ((t.alloc owner e).2.setChild owner n t.size) owner _ [⟨owner, e⟩] :=
        extends_addChild hs hlt
      exact .inl ⟨n, hn, hext.gains_child hw hs hlt
        (fun m => Table.get?_insert s.children n m t.size)
        (congrArg Node.entry (hext.node_new 0 _ rfl))⟩
  | @item n s array items hn hs hc ha hk =>
      have hitems : (t.view owner).items n = items.ids := by
        rw [View.items, view_of_scope hs, hc, Option.map_some, ha]
      refine .inr ⟨n, (Element.ofText_eq_append_iff.1 hn).1, ?_⟩
      rw [hitems, ← hk]
      exact (extends_addItem ha).gains_item hw hs hc ha
  | @firstItem n s u hn hs hc hu =>
      have hitems : (t.view owner).items n = [] := by
        rw [View.items, view_of_scope hs, hc, Option.map_none]
      have hext := (extends_addFirstItem hs hlt hu).2
      refine .inr ⟨n, (Element.ofText_eq_append_iff.1 hn).1, ?_⟩
      rw [hitems]
      exact hext.gains_child hw hs hlt (fun m => Table.get?_insert s.children n m t.size)
        (congrArg Node.entry (hext.node_new 0 _ rfl))

/-! ## Children -/

/-- The child that a scope has under a name. -/
def child? (t : Tree) (scope : EntryId) (name : String) : Option EntryId :=
  (t.scope? scope).bind fun s => s.children.get? name

theorem child?_of_scope {s : Scope} (hs : t.entry scope = .scope s) :
    t.child? scope name = s.children.get? name := by
  rw [child?, scope?_of_entry hs, Option.bind_some]

theorem view_eq (t : Tree) (scope : EntryId) (name : String) :
    t.view scope name = (t.child? scope name).map t.entry := rfl

/-- What is shown is shown under a plain name. -/
theorem WellFormed.name_of_view (hw : t.WellFormed) (h : t.view scope name = some e) :
    Grammar.Name name.toList := by
  obtain ⟨child, hc, -⟩ := Option.map_eq_some_iff.1 h
  obtain ⟨s, hs, hc⟩ := Option.bind_eq_some_iff.1 hc
  have hname := hw.child_name (scope?_eq_some_iff.1 hs)
    (List.mem_map_of_mem (Table.get?_eq_some_iff.1 hc))
  exact (Element.ofText_eq_name_iff.1 hname).2

/-! ## Where nothing is shown -/

theorem view_of_kind_ne (h : t.kind scope ≠ .scope) (name : String) : t.view scope name = none := by
  rw [view, scope?_eq_none fun s hs => h (kind_of_entry hs)]
  rfl

theorem view_of_members_eq_nil (h : (t.entry scope).members = []) (name : String) :
    t.view scope name = none := by
  by_cases hk : t.kind scope = .scope
  · obtain ⟨s, hs⟩ := exists_scope_of_kind hk
    rw [view_of_scope hs, Option.map_eq_none_iff, Option.eq_none_iff_forall_not_mem]
    intro child hc
    have hmem : child ∈ (t.entry scope).members := hs ▸ Table.mem_values_of_get? hc
    rw [h] at hmem
    cases hmem
  · exact view_of_kind_ne hk name

/-- New entries show nothing, unless there is a scope among them that has children already. -/
theorem Extends.view_new {new : List Node} (h : t.Extends t' owner content new)
    (hplain : ∀ n ∈ new, n.entry.kind = .array ∨ n.entry.members = []) (hnew : t.size ≤ scope)
    (name : String) : t'.view scope name = none := by
  -- behind the old entries are the new ones, and then nothing
  obtain ⟨k, rfl⟩ := Nat.exists_eq_add_of_le hnew
  cases hk : new[k]? with
  | some n =>
      have hentry : t'.entry (t.size + k) = n.entry := congrArg Node.entry (h.node_new k n hk)
      rcases hplain n (List.mem_of_getElem? hk) with harray | hnil
      · refine view_of_kind_ne ?_ name
        rw [kind_of_entry hentry, harray]
        exact nofun
      · exact view_of_members_eq_nil (hentry ▸ hnil) name
  | none =>
      refine view_of_members_eq_nil (members_of_size_le ?_) name
      rw [h.size_eq]
      exact Nat.add_le_add_left (List.getElem?_eq_none_iff.1 hk) _

theorem Adds.view_new (h : Adds t owner text e id t') (he : e.IsFresh) (hnew : t.size ≤ scope)
    (name : String) : t'.view scope name = none := by
  have hfresh : ∀ n ∈ [(⟨owner, e⟩ : Node)], n.entry.kind = .array ∨ n.entry.members = [] := by
    intro n hn
    rw [List.mem_singleton.1 hn]
    exact .inr he.members_eq_nil
  cases h with
  | child hname hs hplaced h => exact h.view_new hfresh hnew name
  | item hn hname hs hc ha hk h => exact h.view_new hfresh hnew name
  | firstItem hn hname hs hc hlast h =>
      exact h.view_new (List.forall_mem_cons.2 ⟨.inl rfl, hfresh⟩) hnew name

/-! ## What an array holds -/

/-- A scope shows an array of the items under a name, or nothing as long as there are none. -/
inductive Holds (t : Tree) (scope : EntryId) (name : String) : List EntryId → Prop where
  | nothing (hview : t.view scope name = none) : Holds t scope name []
  | items {kind : Kind} {ids : List EntryId}
      (hview : t.view scope name = some (.array ⟨kind, ids⟩)) : Holds t scope name ids

theorem Holds.congr (h : t.Holds scope name ids) (hview : t'.view scope name = t.view scope name) :
    t'.Holds scope name ids := by
  cases h with
  | nothing h => exact .nothing (hview.trans h)
  | items h => exact .items (hview.trans h)

theorem Holds.items_eq (h : t.Holds scope name ids) : (t.view scope).items name = ids := by
  rw [View.items]
  cases h with
  | nothing h => rw [h]
  | items h => rw [h]

theorem Holds.eq_nil (h : t.Holds scope name ids) (hview : t.view scope name = none) :
    ids = [] := by
  rw [← h.items_eq, View.items, hview]

/-- The array is the same as long as the scope has the same child of the name, and this child is the
same array. -/
theorem Holds.frame (h : t.Holds scope name ids)
    (hchild : t'.child? scope name = t.child? scope name)
    (harray : ∀ array items, t.child? scope name = some array → t.entry array = .array items →
      t'.entry array = t.entry array) : t'.Holds scope name ids := by
  refine h.congr ?_
  rw [view_eq, view_eq, hchild]
  cases hc : t.child? scope name with
  | none => rfl
  | some array =>
      cases h with
      | nothing hview => rw [view_eq, hc] at hview; cases hview
      | items hview =>
          rw [view_eq, hc] at hview
          rw [Option.map_some, Option.map_some, harray array _ hc (Option.some.inj hview)]

theorem Gains.holds_of_ne (g : t.Gains t' owner text content) (hw : t.WellFormed)
    (howner : t.kind owner = .scope) (hne : scope ≠ owner) (hlt : scope < t.size)
    (hk : t.kind scope = .scope) (h : t.Holds scope name ids) : t'.Holds scope name ids := by
  obtain ⟨s, hs⟩ := exists_scope_of_kind hk
  have hs' : t'.entry scope = .scope s := by
    rw [g.entry_eq scope hlt hne (.inr (by rw [hk]; exact nofun)), hs]
  refine h.frame (by rw [child?_of_scope hs', child?_of_scope hs]) fun array items hc ha => ?_
  rw [child?_of_scope hs] at hc
  have hparent := hw.child_parent hs (Table.mem_values_of_get? hc)
  have harray : array ≠ owner := by
    rintro rfl
    rw [kind_of_entry ha] at howner
    cases howner
  exact g.entry_eq array (lt_size_of_array ha) harray (.inl (hparent ▸ hne))

/-- Declarations in a scope concern no array. -/
theorem Holds.updateScope (h : t.Holds scope name ids) {s : Scope} {f : Scope → Scope}
    (hs : t.entry owner = .scope s) (hlt : owner < t.size) (hf : (f s).children = s.children) :
    (t.updateScope owner f).Holds scope name ids := by
  have hentry := entry_updateScope hs hlt f
  refine h.frame ?_ fun array items _ ha => ?_
  · by_cases hne : scope = owner
    · subst hne
      have hs' := hentry scope
      rw [if_pos rfl] at hs'
      rw [child?_of_scope hs', child?_of_scope hs, hf]
    · rw [child?, child?, scope?, hentry, if_neg hne]
      rfl
  · have harray : array ≠ owner := by
      rintro rfl
      rw [hs] at ha
      cases ha
    rw [hentry, if_neg harray]

theorem Added.kind_owner (h : Added t owner text e id t') : t.kind owner = .scope := by
  cases h with
  | child _ hs | item _ hs _ _ _ | firstItem _ hs _ _ => exact kind_of_entry hs

/-- An addition to another scope concerns no array, even if that scope is a child of the one with
the array. -/
theorem Added.holds_of_ne (h : Added t owner text e id t') (hw : t.WellFormed) (he : e.IsFresh)
    (hlt : owner < t.size) (hne : scope ≠ owner) (hh : t.Holds scope name ids) :
    t'.Holds scope name ids := by
  rcases Nat.lt_or_ge scope t.size with hscope | hscope
  · by_cases hk : t.kind scope = .scope
    · rcases h.gains hw hlt with ⟨n, -, g⟩ | ⟨n, -, g⟩
      · exact g.holds_of_ne hw h.kind_owner hne hscope hk hh
      · exact g.holds_of_ne hw h.kind_owner hne hscope hk hh
    · rw [hh.eq_nil (view_of_kind_ne hk name)]
      exact .nothing (view_of_kind_ne (by rwa [h.kind_of_lt hscope]) name)
  · rw [hh.eq_nil (view_of_members_eq_nil (members_of_size_le hscope) name)]
    exact .nothing ((h.adds hlt).view_new he hscope name)

/-- An addition to the scope appends to the array of its name, or concerns another name. -/
theorem Added.holds_self (h : Added t scope text e id t') (hw : t.WellFormed)
    (hlt : scope < t.size) (hplain : Element.ofText text ≠ .ok (.name name))
    (hh : t.Holds scope name ids) :
    t'.Holds scope name (ids ++ (if text = name ++ "[]" then some id else none).toList) := by
  rcases h.gains hw hlt with ⟨n, hn, g⟩ | ⟨n, rfl, g⟩
  · have hname : name ≠ n := fun heq => hplain (heq ▸ hn)
    have htext : text ≠ name ++ "[]" := by
      rintro rfl
      exact not_name_append_brackets name (Element.ofText_eq_name_iff.1 hn).2
    rw [if_neg htext, Option.toList_none, List.append_nil]
    exact hh.congr (by rw [g.view_eq, View.put_apply, if_neg hname])
  · by_cases hname : name = n
    · subst hname
      rw [if_pos rfl, Option.toList_some, ← hh.items_eq]
      exact .items (by rw [g.view_eq, View.put_apply, if_pos rfl])
    · have htext : n ++ "[]" ≠ name ++ "[]" := fun heq => hname (by simpa using heq.symm)
      rw [if_neg htext, Option.toList_none, List.append_nil]
      exact hh.congr (by rw [g.view_eq, View.put_apply, if_neg hname])

/-- A call appends the item that it yields, if any, and apart from that the array is as before. -/
theorem Holds.after (h : t.Holds scope name ids) (hw : t.WellFormed) (hc : c.Valid t)
    (hplain : ¬ NamesChild scope name t c) :
    (t.after c).Holds scope name (ids ++ (t.appended? scope name c).toList) := by
  have hchanges := changes_after hc
  cases hc with
  | @add owner text e hlt he =>
      simp only [Tree.after, appended?]
      cases hadd : t.add owner text e with
      | error err => simpa using h
      | ok found =>
          have hadded := add_eq_ok_iff.1 hadd
          by_cases hne : owner = scope
          · subst hne
            have hself := hadded.holds_self hw hlt (fun hn => hplain ⟨rfl, hn, found, hadd⟩) h
            simpa only [true_and] using hself
          · simp only [hne, false_and, if_false, Option.toList_none, List.append_nil]
            exact hadded.holds_of_ne hw he hlt (Ne.symm hne) h
  | bookmark | datatype =>
      simp only [appended?, Option.toList_none, List.append_nil]
      generalize t.after _ = t' at hchanges ⊢
      cases hchanges with
      | refused => exact h
      | declares _ hs hlt hf => exact h.updateScope hs hlt hf
  | pollLimit =>
      simp only [appended?, Option.toList_none, List.append_nil]
      exact h.congr rfl

theorem holds_foldl (h : t.Holds scope name ids) (hw : t.WellFormed)
    (hvalid : Along Call.Valid t calls)
    (hplain : Along (fun t c => ¬ NamesChild scope name t c) t calls) :
    (calls.foldl Tree.after t).Holds scope name (ids ++ appends scope name t calls) := by
  induction calls generalizing t ids with
  | nil =>
      rw [appends, List.append_nil]
      exact h
  | cons c calls ih =>
      rw [appends, ← List.append_assoc]
      exact ih (h.after hw hvalid.1 hplain.1) (hw.after hvalid.1) hvalid.2 hplain.2

end RegisterAtlas.Tree
