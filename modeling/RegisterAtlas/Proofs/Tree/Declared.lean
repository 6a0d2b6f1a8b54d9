import RegisterAtlas.Proofs.Tree.Appends

/-!
# Names in the order of their declaration

A scope lists its children in the order in which their names were declared: under a plain name or,
for an array, by its first item. A name that is declared again stays where it is. `childNames_after`
is the step and `childNames_foldl` the run.

Every tree that can be built is made by calls on the tree alone, as what a draft does to its tree is
such a call (`reachable_iff`). So each has a history by which its names are ordered.
-/

namespace RegisterAtlas.Tree

/-! ## Declarations -/

/-- The names that a scope lists. -/
def childNames (t : Tree) (scope : EntryId) : List String :=
  ((t.scope? scope).map fun s => s.children.keys).getD []

/-- The name that a call declares in a scope: that of a child, or that of the array which it appends
to. -/
def declared? (scope : EntryId) (t : Tree) : Call → Option String
  | .add s text e =>
      match Element.ofText text, t.add s text e with
      | .ok (.name n), .ok _ | .ok (.indexed n _), .ok _ => if s = scope then some n else none
      | _, _ => none
  | _ => none

/-- The names that calls declare in a scope, in the order of the calls. -/
def declarations (scope : EntryId) : Tree → List Call → List String
  | _, [] => []
  | t, c :: calls => (t.declared? scope c).toList ++ declarations scope (t.after c) calls

variable {t t' : Tree} {scope owner id : EntryId} {text : String} {e content : Entry}
  {known : List String} {c : Call} {calls : List Call}

theorem childNames_of_scope {s : Scope} (hs : t.entry scope = .scope s) :
    t.childNames scope = s.children.keys := by
  rw [childNames, scope?_of_entry hs]
  rfl

theorem childNames_congr (h : t'.entry scope = t.entry scope) :
    t'.childNames scope = t.childNames scope := by
  rw [childNames, childNames, scope?, scope?, h]

theorem childNames_eq_nil (h : ∀ name, t.view scope name = none) : t.childNames scope = [] := by
  cases hs : t.scope? scope with
  | none => rw [childNames, hs]; rfl
  | some s =>
      have hs := scope?_eq_some_iff.1 hs
      rw [childNames_of_scope hs, List.eq_nil_iff_forall_not_mem]
      intro name hname
      have hnone := h name
      rw [view_of_scope hs, Option.map_eq_none_iff] at hnone
      exact Table.get?_eq_none_iff.1 hnone hname

/-! ## What an addition declares -/

/-- The names in a scope stay the same where another entry gets more to list. -/
theorem Extends.childNames_of_ne {new : List Node} (h : t.Extends t' owner content new)
    (hnew : ∀ n ∈ new, n.entry.kind = .array ∨ n.entry.members = []) (hne : scope ≠ owner) :
    t'.childNames scope = t.childNames scope := by
  rcases Nat.lt_or_ge scope t.size with hlt | hle
  · exact childNames_congr (h.entry_eq scope hlt hne)
  · rw [childNames_eq_nil (h.view_new hnew hle),
      childNames_eq_nil (view_of_members_eq_nil (members_of_size_le hle))]

/-- An addition puts its name last in its scope, unless the scope lists the name already. -/
theorem Added.childNames_eq (h : Added t owner text e id t') (he : e.IsFresh)
    (hlt : owner < t.size) :
    ∃ n, (Element.ofText text = .ok (.name n) ∨ Element.ofText text = .ok (.indexed n .append)) ∧
      ∀ scope, t'.childNames scope =
        if owner = scope ∧ n ∉ t.childNames scope then t.childNames scope ++ [n]
        else t.childNames scope := by
  have hplain : (⟨owner, e⟩ : Node).entry.kind = .array ∨ (⟨owner, e⟩ : Node).entry.members = [] :=
    .inr he.members_eq_nil
  cases h with
  | @child n s hn hs =>
      have hext : t.Extends ((t.alloc owner e).2.setChild owner n t.size) owner _ [⟨owner, e⟩] :=
        extends_addChild hs hlt
      refine ⟨n, .inl hn, fun scope => ?_⟩
      by_cases hscope : owner = scope
      · subst hscope
        rw [childNames_of_scope hext.entry_owner, childNames_of_scope hs, Table.keys_insert]
        by_cases hmem : n ∈ s.children.keys <;> simp [hmem]
      · rw [if_neg fun h => hscope h.1]
        exact hext.childNames_of_ne (List.forall_mem_singleton.2 hplain) (Ne.symm hscope)
  | @item n s array items hn hs hc ha hk =>
      have hext : t.Extends ((t.alloc owner e).2.pushItem array t.size) array _ [⟨owner, e⟩] :=
        extends_addItem ha
      have hmem : n ∈ t.childNames owner := by
        rw [childNames_of_scope hs]
        exact List.mem_map_of_mem (Table.get?_eq_some_iff.1 hc)
      refine ⟨n, .inr hn, fun scope => ?_⟩
      rw [if_neg fun h => h.2 (h.1 ▸ hmem)]
      by_cases hscope : scope = array
      · subst hscope
        have hnone : ∀ {u : Tree} {items : Items}, u.entry scope = .array items →
            u.childNames scope = [] := fun hu =>
          childNames_eq_nil (view_of_kind_ne (by rw [kind_of_entry hu]; exact nofun))
        rw [hnone hext.entry_owner, hnone ha]
      · exact hext.childNames_of_ne (List.forall_mem_singleton.2 hplain) hscope
  | @firstItem n s u hn hs hc hu =>
      have hext : t.Extends ((u.alloc owner e).2.pushItem t.size u.size) owner _ _ :=
        (extends_addFirstItem hs hlt hu).2
      refine ⟨n, .inr hn, fun scope => ?_⟩
      by_cases hscope : owner = scope
      · subst hscope
        have hmem := Table.get?_eq_none_iff.1 hc
        rw [childNames_of_scope hext.entry_owner, childNames_of_scope hs, Table.keys_insert,
          if_neg hmem, if_pos ⟨rfl, hmem⟩]
      · rw [if_neg fun h => hscope h.1]
        exact hext.childNames_of_ne (List.forall_mem_cons.2 ⟨.inl rfl,
          List.forall_mem_singleton.2 hplain⟩) (Ne.symm hscope)

theorem declared?_add {n : String} {found : EntryId × Tree}
    (hn : Element.ofText text = .ok (.name n) ∨ Element.ofText text = .ok (.indexed n .append))
    (hadd : t.add owner text e = .ok found) :
    t.declared? scope (.add owner text e) = if owner = scope then some n else none := by
  rcases hn with hn | hn <;> simp only [declared?, hn, hadd]

theorem declared?_of_error {err : Error} (hadd : t.add owner text e = .error err) :
    t.declared? scope (.add owner text e) = none := by
  rw [declared?, hadd]
  split
  · next hok => cases hok
  · next hok => cases hok
  · rfl

/-! ## Steps and runs -/

theorem childNames_updateScope {s : Scope} {f : Scope → Scope} (hs : t.entry owner = .scope s)
    (hlt : owner < t.size) (hf : (f s).children = s.children) (scope : EntryId) :
    (t.updateScope owner f).childNames scope = t.childNames scope := by
  have hentry := entry_updateScope hs hlt f scope
  by_cases hscope : scope = owner
  · subst hscope
    rw [if_pos rfl] at hentry
    rw [childNames_of_scope hentry, childNames_of_scope hs, hf]
  · rw [if_neg hscope] at hentry
    exact childNames_congr hentry

/-- A call adds the name that it declares to those known, if it is new. -/
theorem childNames_after (hc : c.Valid t) (h : t.childNames scope = known.eraseDups) :
    (t.after c).childNames scope = (known ++ (t.declared? scope c).toList).eraseDups := by
  have hchanges := changes_after hc
  cases hc with
  | @add owner text e hlt he =>
      simp only [Tree.after]
      cases hadd : t.add owner text e with
      | error err =>
          rw [declared?_of_error hadd, Option.toList_none, List.append_nil]
          exact h
      | ok found =>
          obtain ⟨n, hn, hnames⟩ := (add_eq_ok_iff.1 hadd).childNames_eq he hlt
          rw [hnames, declared?_add hn hadd]
          by_cases hscope : owner = scope
          · rw [if_pos hscope, Option.toList_some, eraseDups_concat]
            by_cases hmem : n ∈ known <;> simp [hscope, hmem, h]
          · rw [if_neg hscope, if_neg fun h => hscope h.1, Option.toList_none, List.append_nil, h]
  | bookmark | datatype =>
      simp only [declared?, Option.toList_none, List.append_nil]
      generalize t.after _ = t' at hchanges ⊢
      cases hchanges with
      | refused => exact h
      | declares _ hs hlt hf => exact (childNames_updateScope hs hlt hf scope).trans h
  | pollLimit =>
      simp only [declared?, Option.toList_none, List.append_nil]
      exact h

theorem childNames_foldl (hvalid : Along Call.Valid t calls)
    (h : t.childNames scope = known.eraseDups) :
    (calls.foldl Tree.after t).childNames scope =
      (known ++ declarations scope t calls).eraseDups := by
  induction calls generalizing t known with
  | nil =>
      rw [declarations, List.append_nil]
      exact h
  | cons c calls ih =>
      rw [declarations, ← List.append_assoc]
      exact ih hvalid.2 (childNames_after hvalid.1 h)

theorem childNames_withRoot (space : Option Space) (scope : EntryId) :
    (withRoot { space }).childNames scope = [] := by
  cases scope <;> rfl

/-! ## Histories of trees -/

theorem along_append {P : Tree → Call → Prop} {front back : List Call} :
    Along P t (front ++ back) ↔ Along P t front ∧ Along P (front.foldl Tree.after t) back := by
  induction front generalizing t with
  | nil => exact (and_iff_right trivial).symm
  | cons c front ih => exact (and_congr_right fun _ => ih).trans and_assoc.symm

/-- What calls of a draft make of its tree is made by calls on the tree. -/
theorem exists_calls_of_draft {d : Draft} (h : d.WellFormed) (run : List Draft.Call) :
    ∃ calls, Along Call.Valid d.tree calls ∧
      calls.foldl Tree.after d.tree = (run.foldl Draft.after d).tree := by
  induction run generalizing d with
  | nil => exact ⟨[], trivial, rfl⟩
  | cons c run ih =>
      obtain ⟨calls, hvalid, hcalls⟩ := ih (h.after c)
      rw [Draft.tree_after] at hvalid hcalls
      cases hc : d.treeCall? c with
      | none =>
          rw [hc] at hvalid hcalls
          exact ⟨calls, hvalid, hcalls⟩
      | some c' =>
          rw [hc] at hvalid hcalls
          exact ⟨c' :: calls, ⟨(Draft.treeCall?_valid h.current_lt hc).1, hvalid⟩, hcalls⟩

theorem Reachable.foldl (h : Reachable t) (hvalid : Along Call.Valid t calls) :
    Reachable (calls.foldl Tree.after t) := by
  induction calls generalizing t with
  | nil => exact h
  | cons c calls ih => exact ih (h.after hvalid.1) hvalid.2

/-- The trees that can be built are those that calls on a tree make of a root. -/
theorem reachable_iff : Reachable t ↔ ∃ space calls,
    Along Call.Valid (withRoot { space }) calls ∧
      calls.foldl Tree.after (withRoot { space }) = t := by
  constructor
  · intro h
    induction h with
    | empty => exact ⟨none, [], trivial, rfl⟩
    | bound space => exact ⟨some space, [], trivial, rfl⟩
    | @after t c _ hc ih =>
        obtain ⟨space, calls, hvalid, rfl⟩ := ih
        exact ⟨space, calls ++ [c], along_append.2 ⟨hvalid, hc, trivial⟩, List.foldl_concat ..⟩
    | @pass t ht run ih =>
        obtain ⟨space, calls, hvalid, rfl⟩ := ih
        obtain ⟨more, hmore, hrun⟩ :=
          exists_calls_of_draft (Draft.ofTree_wellFormed ht.wellFormed) run
        exact ⟨space, calls ++ more, along_append.2 ⟨hvalid, hmore⟩,
          List.foldl_append.trans hrun⟩
  · rintro ⟨space, calls, hvalid, rfl⟩
    have hroot : Reachable (withRoot { space }) := by
      cases space with
      | none => exact .empty
      | some space => exact .bound space
    exact hroot.foldl hvalid

end RegisterAtlas.Tree
