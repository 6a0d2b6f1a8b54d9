import RegisterAtlas.Proofs.Describe.Ensures
import RegisterAtlas.Proofs.Describe.Gains
import RegisterAtlas.Proofs.Resolve.PathOf

/-!
# Filling a scope

A description fills the scope that it has opened. `Filling` is what stays true meanwhile: the open
scope is still the one that was opened, what it shows is known, it is bound to a register space, and
everything that came before it in the arena is as it was (`Inside`). So a scope that was opened
inside another one can be filled and closed without the outer one noticing more than one new entry:
`of_new` starts to fill it, and `closed` goes on with the outer one.
-/

namespace RegisterAtlas

namespace Tree

/-- Up to a scope all entries are as they were, and the scope is where it was. -/
structure Inside (t : Tree) (scope : EntryId) (t' : Tree) : Prop where
  size_le : t.size ≤ t'.size
  parent_eq : ∀ i, i ≤ scope → t'.parent i = t.parent i
  entry_eq : ∀ i, i < scope → t'.entry i = t.entry i

variable {t t' t'' : Tree} {scope inner id : EntryId} {name : String} {e content : Entry}

theorem Inside.refl (t : Tree) (scope : EntryId) : t.Inside scope t :=
  ⟨Nat.le_refl _, fun _ _ => rfl, fun _ _ => rfl⟩

theorem Inside.trans (h : t.Inside scope t') (h' : t'.Inside scope t'') : t.Inside scope t'' where
  size_le := Nat.le_trans h.size_le h'.size_le
  parent_eq i hi := (h'.parent_eq i hi).trans (h.parent_eq i hi)
  entry_eq i hi := (h'.entry_eq i hi).trans (h.entry_eq i hi)

theorem Inside.mono (h : t.Inside inner t') (hle : scope ≤ inner) : t.Inside scope t' where
  size_le := h.size_le
  parent_eq i hi := h.parent_eq i (Nat.le_trans hi hle)
  entry_eq i hi := h.entry_eq i (Nat.lt_of_lt_of_le hi hle)

theorem Inside.ownSpace?_eq (h : t.Inside scope t') (hi : id < scope) :
    t'.ownSpace? id = t.ownSpace? id := by
  rw [ownSpace?, scope?, h.entry_eq id hi]
  rfl

theorem space?_of_ne_root (h : t.Linked) (hid : id < t.size) (hr : id ≠ root) :
    t.space? id = (t.ownSpace? id).or (t.space? (t.parent id)) := by
  rw [space?, findAbove, h.ancestors_of_ne_root hid hr, List.findSome?_cons]
  cases hown : t.ownSpace? id <;> rw [ownSpace?] at hown <;> rw [hown] <;> rfl

/-- An addition to a scope changes nothing that came before the scope. -/
theorem Gains.inside (h : t.Gains t' scope name content) (hw : t.WellFormed) (hlt : scope < t.size)
    (hr : scope ≠ root) : t.Inside scope t' where
  size_le := h.size_le
  parent_eq i hi := h.parent_eq i (Nat.lt_of_le_of_lt hi hlt)
  entry_eq i hi := by
    refine h.entry_eq i (Nat.lt_trans hi hlt) (Nat.ne_of_lt hi) (.inl ?_)
    by_cases hir : i = root
    · rw [hir, hw.root_parent]
      exact hr.symm
    · exact Nat.ne_of_lt (Nat.lt_trans (hw.parent_lt i (Nat.lt_trans hi hlt) hir) hi)

/-- What an outer scope shows after the last entry of the arena has been filled: the entry, if it is
one of its children, and the rest as before. -/
theorem Inside.view_outer (h : t.Inside inner t') (hw : t.WellFormed) (hsize : t.size = inner + 1)
    {el : Element} (hl : t.Lists scope el inner) (n : String) :
    t'.view scope n = if el = .name n then some (t'.entry inner) else t.view scope n := by
  have hr : inner ≠ root := hl.ne_root hw
  have hlt : inner < t.size := hl.lt_size hw
  have hscope : scope < inner := hl.parent_eq hw ▸ hw.parent_lt inner hlt hr
  obtain ⟨s, hs⟩ := exists_scope_of_kind (hl.parent_eq hw ▸ hw.parent_kind inner hlt)
  rw [view_of_scope hs, view_of_scope ((h.entry_eq scope hscope).trans hs)]
  cases hc : s.children.get? n with
  | none =>
      rw [if_neg]
      · rfl
      · rintro rfl
        cases hl with
        | child hs' hc' =>
            cases hs.symm.trans hs'
            rw [hc] at hc'
            cases hc'
  | some child =>
      have hchild : t.Lists scope (.name n) child := .child hs hc
      rw [Option.map_some, Option.map_some]
      by_cases hi : child = inner
      · subst hi
        rw [if_pos (hl.unique hw hchild)]
      · have hle := hchild.lt_size hw
        rw [hsize] at hle
        have hlt' : child < inner := Nat.lt_of_le_of_ne (Nat.le_of_lt_succ hle) hi
        rw [h.entry_eq child hlt', if_neg]
        rintro rfl
        cases hl with
        | child hs' hc' =>
            cases hs.symm.trans hs'
            exact hi (Option.some.inj (hc.symm.trans hc'))

end Tree

/-! ## Scopes being filled -/

namespace Draft

/-- The draft with the scope around the open one opened instead. -/
def closed (d : Draft) : Draft := { d with current := d.tree.parent d.current }

/-- A scope of a draft is open, is bound to a register space, and shows certain entries. All that
came before it is as in the tree `t`. -/
structure Filling (t : Tree) (scope : EntryId) (space : Space) (view : View) (d : Draft) :
    Prop where
  wellFormed : d.WellFormed
  current_eq : d.current = scope
  ne_root : scope ≠ Tree.root
  inside : t.Inside scope d.tree
  space_eq : d.tree.space? scope = some space
  view_eq : d.tree.view scope = view

/-- A scope is being filled so that `F` holds of what it shows. -/
def Filled (t : Tree) (scope : EntryId) (space : Space) (F : View → Prop) (d : Draft) : Prop :=
  ∃ view, F view ∧ Filling t scope space view d

/-- A scope was filled so that `F` holds of what it shows, and closed again. -/
def Closed (t : Tree) (scope : EntryId) (space : Space) (F : View → Prop) (d' : Draft) : Prop :=
  ∃ d, Filled t scope space F d ∧ d' = d.closed

namespace Filling

variable {t : Tree} {scope : EntryId} {space : Space} {view : View} {d : Draft} {name : String}
  {e content : Entry}

theorem current_lt (h : Filling t scope space view d) : scope < d.tree.size :=
  h.current_eq ▸ h.wellFormed.current_lt

theorem kind_eq (h : Filling t scope space view d) : d.tree.kind scope = .scope :=
  h.current_eq ▸ h.wellFormed.current_kind

/-- The scope goes on being filled after an addition to it. -/
theorem gains (h : Filling t scope space view d) {t' : Tree}
    (hg : d.tree.Gains t' scope name content) (hw : ({ d with tree := t' } : Draft).WellFormed) :
    Filling t scope space (view.put name content) { d with tree := t' } where
  wellFormed := hw
  current_eq := h.current_eq
  ne_root := h.ne_root
  inside := h.inside.trans (hg.inside h.wellFormed.tree h.current_lt h.ne_root)
  space_eq := by
    have hle : ∀ a ≤ scope, a < d.tree.size := fun a ha => Nat.lt_of_le_of_lt ha h.current_lt
    rw [← h.space_eq]
    exact Tree.space?_eq h.wellFormed.tree.toLinked h.current_lt
      (fun a ha => hg.parent_eq a (hle a ha)) fun a ha => hg.ownSpace_eq a (hle a ha)
  view_eq := by rw [← h.view_eq]; exact hg.view_eq

theorem add_child (h : Filling t scope space view d) (hname : isName name.toList = true)
    (he : e.IsFresh) :
    ∃ id d', d.add name e = .ok (id, d') ∧ Filling t scope space (view.put name e) d' ∧
      d'.tree.size = id + 1 ∧ d'.tree.entry id = e ∧ d'.tree.Lists scope (.name name) id := by
  obtain ⟨t', hadd, hg, hsize, hentry, hlists⟩ :=
    Tree.add_child h.wellFormed.tree h.current_lt h.kind_eq hname e
  have hok : d.add name e = .ok (d.tree.size, { d with tree := t' }) := by
    rw [Draft.add, h.current_eq, hadd]
    rfl
  exact ⟨_, _, hok, h.gains hg (h.wellFormed.add he hok).1, hsize, hentry, hlists⟩

theorem add_item (h : Filling t scope space view d) (hname : isName name.toList = true)
    (he : e.IsFresh) (htakes : view.Takes name e.kind) :
    ∃ id d' items, d.add (name ++ "[]") e = .ok (id, d') ∧ items.kind = e.kind ∧
      Filling t scope space (view.put name (.array items)) d' ∧
      d'.tree.size = id + 1 ∧ d'.tree.entry id = e ∧
      ∃ n, d'.tree.Lists scope (.indexed name (.pos n)) id := by
  rw [← h.view_eq] at htakes
  obtain ⟨id, t', hadd, hg, -, hsize, hentry⟩ :=
    Tree.add_item h.wellFormed.tree h.current_lt h.kind_eq hname htakes
  have hok : d.add (name ++ "[]") e = .ok (id, { d with tree := t' }) := by
    rw [Draft.add, h.current_eq, hadd]
    rfl
  have hview : t'.view scope name =
      some (.array ⟨e.kind, (d.tree.view scope).items name ++ [id]⟩) := by
    rw [hg.view_eq, View.put_apply, if_pos rfl]
  have hlists := Tree.lists_of_view hview (List.getElem?_concat_length ..)
  exact ⟨id, _, _, hok, rfl, h.gains hg (h.wellFormed.add he hok).1, hsize, hentry, _, hlists⟩

theorem space_ok (h : Filling t scope space view d) : d.space = .ok space := by
  rw [Draft.space, h.current_eq, h.space_eq]

/-- A change of the scope that leaves alone what it shows and what it is bound to. -/
theorem updateScope (h : Filling t scope space view d) {f : Scope → Scope}
    (hchildren : ∀ s, (f s).children = s.children) (hspace : ∀ s, (f s).space = s.space) :
    Filling t scope space view { d with tree := d.tree.updateScope d.current f } := by
  obtain rfl := h.current_eq
  have hw := h.wellFormed.tree
  obtain ⟨s, hs⟩ := Tree.exists_scope_of_kind h.kind_eq
  obtain ⟨hentry, hown, hview⟩ :=
    Tree.updateScope_view hw h.current_lt hs (hchildren s) (hspace s)
  constructor
  case wellFormed =>
    refine ⟨hw.updateScope hs h.current_lt (hchildren s), ?_, ?_⟩
    · rw [Tree.size_updateScope]
      exact h.wellFormed.current_lt
    · rw [Tree.kind_updateScope]
      exact h.wellFormed.current_kind
  case current_eq => exact h.current_eq
  case ne_root => exact h.ne_root
  case inside =>
    refine h.inside.trans ⟨?_, fun i _ => Tree.parent_updateScope .., fun i hi => ?_⟩
    · rw [Tree.size_updateScope]
    · exact hentry i (Nat.ne_of_lt hi)
  case space_eq =>
    rw [← h.space_eq]
    exact Tree.space?_eq hw.toLinked h.current_lt (fun _ _ => Tree.parent_updateScope ..)
      fun a _ => hown a
  case view_eq => rw [hview, h.view_eq]

/-- A scope that has just come into the tree can be filled. -/
theorem of_new {outer : EntryId} {el : Element} {own : Option Space} (hw : d.WellFormed)
    (hentry : d.tree.entry scope = .scope { space := own }) (hl : d.tree.Lists outer el scope)
    (hspace : own.or (d.tree.space? outer) = some space) :
    Filling d.tree scope space View.none { d with current := scope } where
  wellFormed := ⟨hw.tree, hl.lt_size hw.tree, Tree.kind_of_entry hentry⟩
  current_eq := rfl
  ne_root := hl.ne_root hw.tree
  inside := .refl ..
  space_eq := by
    rw [Tree.space?_of_ne_root hw.tree.toLinked (hl.lt_size hw.tree) (hl.ne_root hw.tree),
      hl.parent_eq hw.tree, Tree.ownSpace?_of_scope hentry, hspace]
  view_eq := funext fun _ => Tree.view_of_scope hentry _

theorem closed_wellFormed (h : Filling t scope space view d) : d.closed.WellFormed :=
  ⟨h.wellFormed.tree, h.wellFormed.tree.parent_lt_size h.wellFormed.current_lt,
    h.wellFormed.tree.parent_kind _ h.wellFormed.current_lt⟩

theorem closed_current (h : Filling t scope space view d) : d.closed.current = t.parent scope := by
  rw [closed, h.current_eq]
  exact h.inside.parent_eq scope (Nat.le_refl _)

/-- A scope goes on being filled after one inside it has been filled and closed. -/
theorem closed {d' : Draft} {inner : EntryId} {space' : Space} {view' : View} {el : Element}
    (h : Filling t scope space view d) (hsize : d.tree.size = inner + 1)
    (hl : d.tree.Lists scope el inner) (h' : Filling d.tree inner space' view' d') :
    Filling t scope space
      (fun n => if el = .name n then some (d'.tree.entry inner) else view n) d'.closed := by
  have hw := h.wellFormed.tree
  have hparent := hl.parent_eq hw
  have hlt : scope < inner := hparent ▸ hw.parent_lt inner (hl.lt_size hw) (hl.ne_root hw)
  constructor
  case wellFormed => exact h'.closed_wellFormed
  case current_eq => exact h'.closed_current.trans hparent
  case ne_root => exact h.ne_root
  case inside => exact h.inside.trans (h'.inside.mono (Nat.le_of_lt hlt))
  case space_eq =>
    rw [← h.space_eq]
    refine Tree.space?_eq hw.toLinked h.current_lt
      (fun a ha => h'.inside.parent_eq a (Nat.le_trans ha (Nat.le_of_lt hlt)))
      fun a ha => h'.inside.ownSpace?_eq (Nat.lt_of_le_of_lt ha hlt)
  case view_eq =>
    funext n
    have hview := h'.inside.view_outer hw hsize hl n
    rw [h.view_eq] at hview
    exact hview

end Filling

end Draft

end RegisterAtlas
