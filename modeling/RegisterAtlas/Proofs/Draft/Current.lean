import RegisterAtlas.Proofs.Resolve.PathOf
import RegisterAtlas.Proofs.Tree.Replacement
import Mathlib.Data.List.Infix

/-!
# The open scope

A draft adds to its open scope only, so what an addition replaces is newer than the open scope and
never one of those around it: whatever is not newer stays attached (`attached_after`). So the open
scope is attached, however often names are given to other entries, and closing scopes leads back the
way that opening them has led. A run of calls in which both balance ends in the scope in which it
has begun (`above_foldl`).
-/

namespace RegisterAtlas

namespace Tree

variable {t t' : Tree} {scope top id : EntryId} {el : Element}

theorem Attached.mono (h : ∀ {top el id}, t.Lists top el id → t'.Lists top el id)
    (hat : t.Attached id) : t'.Attached id := by
  induction hat with
  | of_root => exact .of_root
  | of_lists _ hl ih => exact .of_lists ih (h hl)

/-- A change of a scope that keeps its children keeps what is listed. -/
theorem Lists.updateScope {s : Scope} {f : Scope → Scope} (hl : t.Lists top el id)
    (hs : t.entry scope = .scope s) (hlt : scope < t.size) (hf : (f s).children = s.children) :
    (t.updateScope scope f).Lists top el id := by
  have hscope : ∀ {s' : Scope}, t.entry top = .scope s' →
      ∃ s'', (t.updateScope scope f).entry top = .scope s'' ∧ s''.children = s'.children := by
    intro s' hs'
    rw [entry_updateScope hs hlt]
    split
    · next heq =>
        subst heq
        cases hs.symm.trans hs'
        exact ⟨_, rfl, hf⟩
    · exact ⟨s', hs', rfl⟩
  cases hl with
  | child hs' hc =>
      obtain ⟨s'', hs'', hchildren⟩ := hscope hs'
      exact .child hs'' (hchildren ▸ hc)
  | @item s' name array items n id hs' hc ha hi =>
      obtain ⟨s'', hs'', hchildren⟩ := hscope hs'
      refine .item hs'' (hchildren ▸ hc) ?_ hi
      have hne : array ≠ scope := fun heq => by rw [heq, hs] at ha; cases ha
      rw [entry_updateScope hs hlt, if_neg hne, ha]

/-- What is not newer than the scope of an addition stays attached. -/
theorem Attached.after {c : Call} (hw : t.WellFormed) (hc : c.Valid t)
    (hle : ∀ scope name e, c = .add scope name e → id ≤ scope) (hat : t.Attached id) :
    (t.after c).Attached id := by
  have hchanges := changes_after hc
  generalize t.after c = t' at hchanges
  cases hchanges with
  | refused => exact hat
  | adds _ h =>
      refine h.attached hw (fun old hold => ?_) hat
      exact not_under_of_le hw hold (hat.lt_size hw) (hle _ _ _ rfl)
  | declares _ hs hlt hf => exact hat.mono fun hl => hl.updateScope hs hlt hf
  | pollLimit limit =>
      refine hat.mono fun hl => ?_
      cases hl with
      | child hs hc => exact .child hs hc
      | item hs hc ha hi => exact .item hs hc ha hi

end Tree

namespace Draft

variable {d : Draft} {c : Call} {run : List Call} {levels : Nat}

/-! ## Opening and closing -/

/-- Whether a call opens a scope. -/
def opens (d : Draft) : Call → Bool
  | .openScope name space => (d.openScope name space).isOk
  | _ => false

/-- Whether a call closes a scope. -/
def closes (d : Draft) : Call → Bool
  | .closeScope => d.closeScope.isOk
  | _ => false

/-- How many calls of a run open a scope. -/
def openCount (d : Draft) : List Call → Nat
  | [] => 0
  | c :: run => (d.opens c).toNat + (d.after c).openCount run

/-- How many calls of a run close a scope. -/
def closeCount (d : Draft) : List Call → Nat
  | [] => 0
  | c :: run => (d.closes c).toNat + (d.after c).closeCount run

/-- As many scopes are closed as are opened, and at no time more. -/
structure Balances (d : Draft) (run : List Call) : Prop where
  closeCount_le : ∀ front, front <+: run → d.closeCount front ≤ d.openCount front
  closeCount_eq : d.closeCount run = d.openCount run

theorem balances_iff : d.Balances run ↔
    (∀ front ∈ run.inits, d.closeCount front ≤ d.openCount front) ∧
      d.closeCount run = d.openCount run := by
  simp only [List.mem_inits]
  exact ⟨fun h => ⟨h.closeCount_le, h.closeCount_eq⟩, fun h => ⟨h.1, h.2⟩⟩

instance : Decidable (d.Balances run) := decidable_of_iff _ balances_iff.symm

/-- What a call does to the open scope, by whether it opens or closes one. -/
inductive Turns (d : Draft) : Bool → Bool → Draft → Prop where
  | opened {name : String} {space : Option Space} {id : EntryId} {tree : Tree}
      (h : d.tree.add d.current name (.scope { space }) = .ok (id, tree)) :
      Turns d true false ⟨tree, id⟩
  | closed (h : d.current ≠ Tree.root) : Turns d false true ⟨d.tree, d.tree.parent d.current⟩
  | stays {d' : Draft} (h : d'.current = d.current) : Turns d false false d'

theorem closeScope_eq_error_iff :
    (∃ err, d.closeScope = .error err) ↔ d.current = Tree.root := by
  unfold closeScope
  split
  · next h => exact iff_of_true ⟨_, rfl⟩ h
  · next h => exact iff_of_false (by rintro ⟨err, ⟨⟩⟩) h

theorem current_orElse_add (name : String) (e : Entry) :
    (d.orElse (d.add name e)).current = d.current := by
  unfold Draft.add
  cases d.tree.add d.current name e <;> rfl

theorem turns_after (d : Draft) (c : Call) : d.Turns (d.opens c) (d.closes c) (d.after c) := by
  cases c with
  | openScope name space =>
      simp only [opens, closes, after, Draft.openScope, Draft.add]
      cases hadd : d.tree.add d.current name (.scope { space }) with
      | error err => exact .stays rfl
      | ok found => exact .opened hadd
  | closeScope =>
      simp only [opens, closes, after, Draft.closeScope]
      split
      · exact .stays rfl
      · next h => exact .closed h
  | bookmark name =>
      refine .stays ?_
      simp only [after, Draft.bookmark]
      cases d.tree.addBookmark d.current name <;> rfl
  | datatype name datatype =>
      refine .stays ?_
      simp only [after, Draft.datatype]
      cases d.tree.addDatatype d.current name datatype <;> rfl
  | register name address width =>
      refine .stays ?_
      simp only [after, Draft.register]
      cases d.space with
      | error err => rfl
      | ok space =>
          refine Eq.trans ?_ (current_orElse_add (d := d) name
            (.field (.direct (.hex width.bits none) (Register.all ⟨space, address, width⟩))))
          simp only [bind, Except.bind, Draft.field]
          cases d.add name _ <;> rfl
  | field name f => exact .stays (current_orElse_add name (.field f))
  | «alias» name target =>
      refine .stays ?_
      simp only [after, Draft.addAlias]
      cases Path.ofText target with
      | error err => rfl
      | ok path => exact current_orElse_add name (.alias target)
  | pollLimit limit => exact .stays rfl

/-! ## Single calls -/

namespace WellFormed

/-- What is attached and not newer than the open scope stays attached. -/
theorem attached_after (h : d.WellFormed) {id : EntryId} (hle : id ≤ d.current)
    (hat : d.tree.Attached id) (c : Call) : (d.after c).tree.Attached id := by
  rw [tree_after]
  cases hc : d.treeCall? c with
  | none => exact hat
  | some c' =>
      obtain ⟨hvalid, hscope⟩ := treeCall?_valid h.current_lt hc
      refine hat.after h.tree hvalid fun scope name e heq => ?_
      rwa [hscope scope name e heq]

/-- A scope that is opened is listed by the one that was open before. -/
theorem lists_opened (h : d.WellFormed) {name : String} {space : Option Space} {id : EntryId}
    {tree : Tree} (hadd : d.tree.add d.current name (.scope { space }) = .ok (id, tree)) :
    ∃ el, tree.Lists d.current el id :=
  ((Tree.add_eq_ok_iff.1 hadd).adds h.current_lt).lists_new h.tree

theorem attached_current_after (h : d.WellFormed) (hat : d.tree.Attached d.current) (c : Call) :
    (d.after c).tree.Attached (d.after c).current := by
  have hkept := h.attached_after (Nat.le_refl _) hat c
  have hturns := d.turns_after c
  generalize d.after c = d', d.opens c = o, d.closes c = cl at hkept hturns
  cases hturns with
  | opened hadd =>
      obtain ⟨el, hl⟩ := h.lists_opened hadd
      exact .of_lists hkept hl
  | closed hr => exact hkept.parent h.tree
  | stays hcurrent => rwa [hcurrent]

/-- A call leads one level down when it opens a scope, and one level up when it closes one. -/
theorem above_after (h : d.WellFormed)
    (hlevels : (d.closes c).toNat ≤ levels + (d.opens c).toNat) :
    (d.after c).tree.above (levels + (d.opens c).toNat - (d.closes c).toNat) (d.after c).current =
      d.tree.above levels d.current := by
  have hevolves := (h.evolves_after c).above_eq h.tree.toLinked levels h.current_lt
  have hw := (h.after c).tree
  have hturns := d.turns_after c
  generalize d.after c = d', d.opens c = o, d.closes c = cl at hevolves hw hturns hlevels
  cases hturns with
  | opened hadd =>
      obtain ⟨el, hl⟩ := h.lists_opened hadd
      rw [← hevolves, ← hl.parent_eq hw]
      rfl
  | closed hr =>
      obtain ⟨upper, rfl⟩ := Nat.exists_eq_add_of_le' (show 1 ≤ levels from hlevels)
      rfl
  | stays hcurrent => rw [hcurrent, ← hevolves]; rfl

/-! ## Runs -/

theorem attached_current_foldl (h : d.WellFormed) (hat : d.tree.Attached d.current)
    (calls : List Call) :
    (calls.foldl Draft.after d).tree.Attached (calls.foldl Draft.after d).current := by
  induction calls generalizing d with
  | nil => exact hat
  | cons c calls ih => exact ih (h.after c) (h.attached_current_after hat c)

/-- After a run, one is so many levels below an entry as scopes have been opened and not closed, as
long as never more are closed than there are levels. -/
theorem above_foldl (h : d.WellFormed)
    (hrun : ∀ front, front <+: run → d.closeCount front ≤ levels + d.openCount front) :
    (run.foldl Draft.after d).tree.above (levels + d.openCount run - d.closeCount run)
      (run.foldl Draft.after d).current = d.tree.above levels d.current := by
  induction run generalizing d levels with
  | nil => rfl
  | cons c run ih =>
      have hfirst : (d.closes c).toNat ≤ levels + (d.opens c).toNat :=
        hrun [c] ⟨run, rfl⟩
      have hrest : ∀ front, front <+: run → (d.after c).closeCount front ≤
          levels + (d.opens c).toNat - (d.closes c).toNat + (d.after c).openCount front := by
        intro front hfront
        have hle := hrun (c :: front) (List.cons_prefix_cons.2 ⟨rfl, hfront⟩)
        simp only [closeCount, openCount] at hle
        omega
      have hlevels : levels + d.openCount (c :: run) - d.closeCount (c :: run) =
          levels + (d.opens c).toNat - (d.closes c).toNat + (d.after c).openCount run -
            (d.after c).closeCount run := by
        simp only [closeCount, openCount]
        omega
      rw [hlevels, List.foldl_cons, ih (h.after c) hrest, h.above_after hfirst]

theorem current_of_balances (h : d.WellFormed) (hrun : d.Balances run) :
    (run.foldl Draft.after d).current = d.current := by
  have hfronts : ∀ front, front <+: run → d.closeCount front ≤ 0 + d.openCount front := by
    intro front hfront
    rw [Nat.zero_add]
    exact hrun.closeCount_le front hfront
  have habove := h.above_foldl hfronts
  rwa [Nat.zero_add, hrun.closeCount_eq, Nat.sub_self] at habove

end WellFormed

/-! ## All drafts -/

/-- Whatever calls have been made on a draft, failing ones and redefinitions among them, the open
scope is a scope that is attached and found at its path. From there, calls among which opening and
closing scopes balance lead back to it. Only at the root there is nothing to close. -/
theorem current_attached {t : Tree} (h : Tree.Reachable t) (calls : List Call) {d : Draft}
    (hd : calls.foldl Draft.after (.ofTree t) = d) :
    d.tree.kind d.current = .scope ∧ d.tree.Attached d.current ∧
      (d.tree.Addressable →
        d.tree.resolveText Tree.root (d.tree.pathOf d.current) = .ok (some d.current)) ∧
      (∀ run, d.Balances run → (run.foldl Draft.after d).current = d.current) ∧
      ((∃ err, d.closeScope = .error err) ↔ d.current = Tree.root) := by
  subst hd
  have hstart := ofTree_wellFormed h.wellFormed
  have hd := hstart.foldl calls
  have hat := hstart.attached_current_foldl .of_root calls
  exact ⟨hd.current_kind, hat, fun ha => hat.resolveText_pathOf hd.tree ha,
    fun run hrun => hd.current_of_balances hrun, closeScope_eq_error_iff⟩

/-- Here an item of an array is open. -/
def openItem : List Call :=
  [.closeScope, .openScope "dev" none, .openScope "id[]" none, .closeScope, .openScope "id[]" none]

/-- Here a name is given to another scope with a scope of the first one still open, and two calls
fail. -/
def redefinitions : List Call :=
  [.openScope "x" none, .openScope "y" none, .closeScope, .openScope "y" none, .openScope "" none,
    .closeScope, .closeScope, .alias "x[]" "/", .openScope "x" none, .closeScope]

theorem current_attached_redefinitions :
    Tree.Reachable .empty ∧
      (openItem.foldl Draft.after (.ofTree .empty)).Balances redefinitions ∧
      (openItem.foldl Draft.after (.ofTree .empty)).tree.Attached 4 ∧
      (openItem.foldl Draft.after (.ofTree .empty)).tree.resolveText Tree.root "/dev/id[1]" =
        .ok (some 4) ∧
      ((openItem ++ redefinitions).foldl Draft.after (.ofTree .empty)).current = 4 := by
  have hr : Tree.Reachable .empty := .empty
  have hbalances : (openItem.foldl Draft.after (.ofTree .empty)).Balances redefinitions := by
    decide +kernel
  have hcurrent : (openItem.foldl Draft.after (.ofTree .empty)).current = 4 := by decide +kernel
  have hpath : (openItem.foldl Draft.after (.ofTree .empty)).tree.pathOf 4 = "/dev/id[1]" := by
    decide +kernel
  obtain ⟨-, hat, hfound, hback, -⟩ := current_attached hr openItem rfl
  have hw := (ofTree_wellFormed hr.wellFormed).foldl openItem
  have ha := hw.tree.addressable (by decide +kernel)
  have hfound := hfound ha
  rw [hcurrent, hpath] at hfound
  rw [hcurrent] at hat
  refine ⟨hr, hbalances, hat, hfound, ?_⟩
  rw [List.foldl_append, hback redefinitions hbalances, hcurrent]

end Draft

end RegisterAtlas
