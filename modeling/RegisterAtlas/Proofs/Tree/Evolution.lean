import RegisterAtlas.Proofs.Tree.Addition
import RegisterAtlas.Proofs.Tree.Leaves

/-!
# Later trees

Calls never move an entry and never list one again that is listed no more: `Evolves` says this of a
tree and a later one, and every call keeps it, on the tree itself or on a draft. So an entry that
has been detached stays detached, whatever is defined later (`Attached.of_evolves`). What a call of
a draft does to its tree is a call on the tree (`tree_after`). `Becomes` is what any number of calls
make of a tree.
-/

namespace RegisterAtlas

theorem Table.Placed.mem_values {α β : Type} {key : α} {value v : β} {es es' : List (α × β)}
    (h : Placed key value es es') (hv : v ∈ es'.map Prod.snd) :
    v = value ∨ v ∈ es.map Prod.snd := by
  cases h with
  | replaced front back old =>
      simp only [List.map_append, List.map_cons, List.mem_append, List.mem_cons] at hv ⊢
      rcases hv with hv | hv | hv
      · exact .inr (.inl hv)
      · exact .inl hv
      · exact .inr (.inr (.inr hv))
  | last =>
      rw [List.map_append, List.mem_append] at hv
      rcases hv with hv | hv
      · exact .inr hv
      · exact .inl (List.mem_singleton.1 hv)

namespace Tree

variable {t t' t'' : Tree} {scope owner id : EntryId} {name : String} {e : Entry}

/-- What is attached is what lies below the root. -/
theorem attached_iff_below (hw : t.WellFormed) : t.Attached id ↔ t.Below root id := by
  constructor
  · intro h
    induction h with
    | of_root => exact .refl
    | of_lists _ hl ih =>
        cases hl with
        | child hs hc => exact ih.tail (by rw [hs]; exact Table.mem_values_of_get? hc)
        | @item s name array items n id hs hc ha hi =>
            have harray : t.Below root array :=
              ih.tail (by rw [hs]; exact Table.mem_values_of_get? hc)
            exact harray.tail (by rw [ha]; exact List.mem_of_getElem? hi)
  · exact fun h => Attached.of_root.of_below hw h

theorem Attached.parent (hw : t.WellFormed) (h : t.Attached id) : t.Attached (t.parent id) := by
  by_cases hr : id = root
  · rw [hr, hw.root_parent]
    exact .of_root
  · exact ((attached_iff_of_ne_root hw hr).1 h).2

/-! ## Later trees -/

/-- A tree and one that it may become: entries keep their parents, and nothing lists an entry of the
first tree that has not listed it before. -/
structure Evolves (t t' : Tree) : Prop where
  size_le : t.size ≤ t'.size
  parent_eq : ∀ id, id < t.size → t'.parent id = t.parent id
  mem_members : ∀ owner id, id < t.size → id ∈ (t'.entry owner).members →
    id ∈ (t.entry owner).members

namespace Evolves

theorem refl (t : Tree) : t.Evolves t := ⟨Nat.le_refl _, fun _ _ => rfl, fun _ _ _ hm => hm⟩

theorem trans (h : t.Evolves t') (h' : t'.Evolves t'') : t.Evolves t'' where
  size_le := Nat.le_trans h.size_le h'.size_le
  parent_eq id hid := by
    rw [h'.parent_eq id (Nat.lt_of_lt_of_le hid h.size_le), h.parent_eq id hid]
  mem_members owner id hid hm :=
    h.mem_members owner id hid (h'.mem_members owner id (Nat.lt_of_lt_of_le hid h.size_le) hm)

/-- Ancestors are climbed to as before. -/
theorem above_eq (h : t.Evolves t') (hl : t.Linked) (levels : Nat) :
    ∀ {id : EntryId}, id < t.size → t'.above levels id = t.above levels id := by
  induction levels with
  | zero => exact fun _ => rfl
  | succ levels ih =>
      intro id hid
      rw [above, above, h.parent_eq id hid, ih (hl.parent_lt_size hid)]

end Evolves

/-- What is attached in a later tree and was there before was attached before. -/
theorem Attached.of_evolves (h : t.Evolves t') (hw : t.WellFormed) (hw' : t'.WellFormed)
    (hid : id < t.size) (hat : t'.Attached id) : t.Attached id := by
  rw [attached_iff_below hw'] at hat
  rw [attached_iff_below hw]
  -- what lists an entry of the first tree is such an entry itself
  induction hat with
  | refl => exact .refl
  | @tail owner id _ hm ih =>
      have hm := h.mem_members owner id hid hm
      exact (ih (hw.lt_size_of_mem_members hm)).tail hm

/-- Where the arena has no entry, nothing is listed. -/
theorem members_of_size_le (h : t.size ≤ id) : (t.entry id).members = [] := by
  have hnone : t.nodes[id]? = none := Array.getElem?_eq_none h
  rw [entry, node, Array.getD_eq_getD_getElem?, hnone]
  rfl

theorem Extends.evolves {content : Entry} {new : List Node} (h : t.Extends t' owner content new)
    (hcontent : ∀ id ∈ content.members, id < t.size → id ∈ (t.entry owner).members)
    (hnew : ∀ n ∈ new, ∀ id ∈ n.entry.members, t.size ≤ id) : t.Evolves t' := by
  refine ⟨h.size_eq ▸ Nat.le_add_right .., h.parent_eq, fun i id hid hm => ?_⟩
  by_cases howner : i = owner
  · rw [howner, h.entry_owner] at hm
    rw [howner]
    exact hcontent id hm hid
  · rcases Nat.lt_or_ge i t.size with hi | hi
    · rwa [h.entry_eq i hi howner] at hm
    · -- behind the old entries are the new ones, and then nothing
      obtain ⟨k, rfl⟩ := Nat.exists_eq_add_of_le hi
      cases hk : new[k]? with
      | some n =>
          rw [entry, h.node_new k n hk] at hm
          exact (Nat.not_lt_of_le (hnew n (List.mem_of_getElem? hk) id hm) hid).elim
      | none =>
          have hsize : t'.size ≤ t.size + k := by
            rw [h.size_eq]
            exact Nat.add_le_add_left (List.getElem?_eq_none_iff.1 hk) _
          rw [members_of_size_le hsize] at hm
          cases hm

theorem Adds.evolves (h : Adds t scope name e id t') (he : e.IsFresh) : t.Evolves t' := by
  have hfresh : ∀ n ∈ [(⟨scope, e⟩ : Node)], ∀ id ∈ n.entry.members, t.size ≤ id := by
    intro n hn id hid
    rw [List.mem_singleton.1 hn, he.members_eq_nil] at hid
    cases hid
  cases h with
  | child hname hs hplaced h =>
      refine h.evolves (fun id hid hlt => ?_) hfresh
      rw [hs]
      exact (hplaced.mem_values hid).resolve_left (Nat.ne_of_lt hlt)
  | item hn hname hs hc ha hk h =>
      refine h.evolves (fun id hid hlt => ?_) hfresh
      rw [ha]
      rcases List.mem_append.1 hid with hid | hid
      · exact hid
      · exact (Nat.ne_of_lt hlt (List.mem_singleton.1 hid)).elim
  | @firstItem n s children _ hn hname hs hc hlast h =>
      refine h.evolves (fun id hid hlt => ?_) ?_
      · have hid : id ∈ children.entries.map Prod.snd := hid
        rw [hlast, List.map_append, List.mem_append] at hid
        rw [hs]
        exact hid.resolve_right fun hid => Nat.ne_of_lt hlt (List.mem_singleton.1 hid)
      · refine List.forall_mem_cons.2 ⟨fun id hid => ?_, hfresh⟩
        rw [List.mem_singleton.1 hid]
        exact Nat.le_succ _

theorem evolves_updateScope {s : Scope} {f : Scope → Scope} (hs : t.entry scope = .scope s)
    (hlt : scope < t.size) (hf : (f s).children = s.children) :
    t.Evolves (t.updateScope scope f) := by
  refine ⟨Nat.le_of_eq (size_updateScope ..).symm, fun id _ => parent_updateScope ..,
    fun i id _ hm => ?_⟩
  rw [entry_updateScope hs hlt] at hm
  split at hm
  · next h =>
      have hm : id ∈ (f s).children.values := hm
      rw [hf] at hm
      rw [h, hs]
      exact hm
  · exact hm

/-- What a call does to a tree: nothing, if it is refused, an addition, or a change of what else a
scope or the tree has. -/
inductive Changes (t : Tree) : Call → Tree → Prop where
  | refused (c : Call) : Changes t c t
  | adds {scope : EntryId} {name : String} {e : Entry} {id : EntryId} {t' : Tree} (he : e.IsFresh)
      (h : Adds t scope name e id t') : Changes t (.add scope name e) t'
  | declares (c : Call) {scope : EntryId} {s : Scope} {f : Scope → Scope}
      (hs : t.entry scope = .scope s) (hlt : scope < t.size)
      (hf : (f s).children = s.children) : Changes t c (t.updateScope scope f)
  | pollLimit (limit : Nat) : Changes t (.pollLimit limit) (t.setPollLimit limit)

theorem changes_after {c : Call} (hc : c.Valid t) : t.Changes c (t.after c) := by
  cases hc with
  | @add scope name e hs he =>
      simp only [after]
      cases hadd : t.add scope name e with
      | error err => exact .refused _
      | ok found => exact .adds he ((add_eq_ok_iff.1 hadd).adds hs)
  | @bookmark scope name hs =>
      simp only [after, addBookmark]
      cases hscope : t.requireScope scope with
      | error err => exact .refused _
      | ok s =>
          by_cases hname : name ∈ s.bookmarks
          · simp only [bind, Except.bind, if_pos hname]
            exact .refused _
          · simp only [bind, Except.bind, if_neg hname]
            exact .declares _ (requireScope_eq_ok_iff.1 hscope) hs rfl
  | @datatype scope name datatype hs =>
      simp only [after, addDatatype]
      cases hscope : t.requireScope scope with
      | error err => exact .refused _
      | ok s => exact .declares _ (requireScope_eq_ok_iff.1 hscope) hs rfl
  | @pollLimit limit => exact .pollLimit limit

theorem evolves_after {c : Call} (hc : c.Valid t) : t.Evolves (t.after c) := by
  have hchanges := changes_after hc
  generalize t.after c = t' at hchanges
  cases hchanges with
  | refused => exact .refl t
  | adds he h => exact h.evolves he
  | declares _ hs hlt hf => exact evolves_updateScope hs hlt hf
  | pollLimit limit => exact ⟨Nat.le_refl _, fun _ _ => rfl, fun _ _ _ hm => hm⟩

end Tree

/-! ## Drafts -/

namespace Draft

variable {d : Draft}

/-- The call on its tree that a call of a draft comes down to, if there is one. -/
def treeCall? (d : Draft) : Call → Option Tree.Call
  | .openScope name space => some (.add d.current name (.scope { space }))
  | .closeScope => none
  | .bookmark name => some (.bookmark d.current name)
  | .datatype name datatype => some (.datatype d.current name datatype)
  | .register name address width =>
      d.space.toOption.map fun space =>
        .add d.current name (.field (.direct (.hex width.bits none)
          (Register.all ⟨space, address, width⟩)))
  | .field name f => some (.add d.current name (.field f))
  | .alias name target =>
      (Path.ofText target).toOption.map fun _ => .add d.current name (.alias target)
  | .pollLimit limit => some (.pollLimit limit)

theorem tree_orElse_add (name : String) (e : Entry) :
    (d.orElse (d.add name e)).tree = d.tree.after (.add d.current name e) := by
  simp only [Draft.add, Tree.after]
  cases d.tree.add d.current name e <;> rfl

theorem tree_after (d : Draft) (c : Call) :
    (d.after c).tree = ((d.treeCall? c).map d.tree.after).getD d.tree := by
  cases c with
  | openScope name space =>
      simp only [after, treeCall?, Draft.openScope, Draft.add, Tree.after, Option.map_some,
        Option.getD_some]
      cases d.tree.add d.current name (.scope { space }) <;> rfl
  | closeScope =>
      simp only [after, treeCall?, Draft.closeScope]
      split <;> rfl
  | bookmark name =>
      simp only [after, treeCall?, Draft.bookmark, Tree.after, Option.map_some, Option.getD_some]
      cases d.tree.addBookmark d.current name <;> rfl
  | datatype name datatype =>
      simp only [after, treeCall?, Draft.datatype, Tree.after, Option.map_some, Option.getD_some]
      cases d.tree.addDatatype d.current name datatype <;> rfl
  | register name address width =>
      simp only [after, treeCall?, Draft.register]
      cases d.space with
      | error err => rfl
      | ok space =>
          simp only [Except.toOption, Option.map_some, Option.getD_some, ← tree_orElse_add]
          simp only [bind, Except.bind, Draft.field]
          cases d.add name _ <;> rfl
  | field name f => exact tree_orElse_add name (.field f)
  | «alias» name target =>
      simp only [after, treeCall?, Draft.addAlias]
      cases Path.ofText target with
      | error err => rfl
      | ok path => exact tree_orElse_add name (.alias target)
  | pollLimit limit => rfl

/-- The call adds fresh entries only, and to the open scope. -/
theorem treeCall?_valid {c : Call} {c' : Tree.Call} (hlt : d.current < d.tree.size)
    (h : d.treeCall? c = some c') :
    c'.Valid d.tree ∧ ∀ scope name e, c' = .add scope name e → scope = d.current := by
  cases c with
  | openScope name space =>
      cases h
      exact ⟨.add hlt (.scope space), by rintro _ _ _ ⟨⟩; rfl⟩
  | closeScope => cases h
  | bookmark name =>
      cases h
      exact ⟨.bookmark hlt, nofun⟩
  | datatype name datatype =>
      cases h
      exact ⟨.datatype hlt, nofun⟩
  | register name address width =>
      obtain ⟨space, -, rfl⟩ := Option.map_eq_some_iff.1 h
      exact ⟨.add hlt (.field _), by rintro _ _ _ ⟨⟩; rfl⟩
  | field name f =>
      cases h
      exact ⟨.add hlt (.field f), by rintro _ _ _ ⟨⟩; rfl⟩
  | «alias» name target =>
      obtain ⟨path, -, rfl⟩ := Option.map_eq_some_iff.1 h
      exact ⟨.add hlt (.alias target), by rintro _ _ _ ⟨⟩; rfl⟩
  | pollLimit limit =>
      cases h
      exact ⟨.pollLimit, nofun⟩

theorem WellFormed.evolves_after (h : d.WellFormed) (c : Call) :
    d.tree.Evolves (d.after c).tree := by
  rw [tree_after]
  cases hc : d.treeCall? c with
  | none => exact .refl _
  | some c' => exact Tree.evolves_after (treeCall?_valid h.current_lt hc).1

theorem WellFormed.evolves_foldl (h : d.WellFormed) (calls : List Call) :
    d.tree.Evolves (calls.foldl Draft.after d).tree := by
  induction calls generalizing d with
  | nil => exact .refl _
  | cons c calls ih => exact (h.evolves_after c).trans (ih (h.after c))

end Draft

namespace Tree

/-- The trees that a tree becomes by calls on it and by passes of drafts, in any order. -/
inductive Becomes (t : Tree) : Tree → Prop where
  | refl : Becomes t t
  | after {u : Tree} {c : Call} (h : Becomes t u) (hc : c.Valid u) : Becomes t (u.after c)
  | pass {u : Tree} (h : Becomes t u) (calls : List Draft.Call) :
      Becomes t (calls.foldl Draft.after (.ofTree u)).tree

variable {t u : Tree}

theorem Becomes.wellFormed (hw : t.WellFormed) (h : t.Becomes u) : u.WellFormed := by
  induction h with
  | refl => exact hw
  | after h hc ih => exact ih.after hc
  | pass h calls ih => exact ((Draft.ofTree_wellFormed ih).foldl calls).tree

theorem Becomes.evolves (hw : t.WellFormed) (h : t.Becomes u) : t.Evolves u := by
  induction h with
  | refl => exact .refl t
  | after h hc ih => exact ih.trans (evolves_after hc)
  | pass h calls ih =>
      exact ih.trans ((Draft.ofTree_wellFormed (h.wellFormed hw)).evolves_foldl calls)

end Tree

end RegisterAtlas
