import RegisterAtlas.Proofs.Tree.InPlace

/-!
# All or nothing

The calls of a draft, made in place on its tree and on its open scope. A call that fails leaves both
as they were, and so does an addition to a tree.
-/

namespace RegisterAtlas

namespace Draft

open RegisterAtlas.Action

variable {α : Type} {d : Draft}

/-- What a step yields besides the new draft is left out. -/
def discard (r : Except Error (α × Draft)) : Except Error (Unit × Draft) :=
  r.map fun (_, d) => ((), d)

/-- The draft that a call yields, or the error with which it fails. -/
def call (d : Draft) : Call → Except Error (Unit × Draft)
  | .openScope name space => discard (d.openScope name space)
  | .closeScope => d.closeScope
  | .bookmark name => d.bookmark name
  | .datatype name datatype => discard (d.datatype name datatype)
  | .register name address width => discard (d.register name address width)
  | .field name f => discard (d.field name f)
  | .alias name target => discard (d.addAlias name target)
  | .pollLimit limit => .ok ((), d.setPollLimit limit)

theorem orElse_discard (r : Except Error (α × Draft)) : d.orElse (discard r) = d.orElse r := by
  cases r <;> rfl

theorem orElse_call (d : Draft) (c : Call) : d.orElse (d.call c) = d.after c := by
  cases c <;> first | rfl | exact orElse_discard _

/-! ## Calls step by step -/

/-- Works on the tree of a draft. -/
def onTree (a : Action Error Tree α) : Action Error Draft α := fun d =>
  let (r, tree) := a.runOn d.tree
  (r, { d with tree })

/-- Works on the tree of a draft and the scope that is open. -/
def onOpen (a : EntryId → Action Error Tree α) : Action Error Draft α := do
  let scope ← look fun d => .ok d.current
  onTree (a scope)

def addSteps (name : String) (e : Entry) : Action Error Draft EntryId :=
  onOpen fun scope => Tree.addSteps scope name e

/-- Makes a call in place. -/
def steps : Call → Action Error Draft Unit
  | .openScope name space => do
      let id ← addSteps name (.scope { space })
      change fun d => ((), { d with current := id })
  | .closeScope => do
      look fun d => if d.current = Tree.root then .error (.definition .closeAtRoot) else .ok ()
      change fun d => ((), { d with current := d.tree.parent d.current })
  | .bookmark name => onOpen fun scope => Tree.bookmarkSteps scope name
  | .datatype name datatype => onOpen fun scope => Tree.datatypeSteps scope name datatype
  | .register name address width => do
      let space ← look (·.space)
      let register : Register := ⟨space, address, width⟩
      let _ ← addSteps name (.field (.direct (.hex width.bits none) register.all))
  | .field name f => do
      let _ ← addSteps name (.field f)
  | .alias name target => do
      let _ ← Action.ofExcept (Path.ofText target)
      let _ ← addSteps name (.alias target)
  | .pollLimit limit => change fun d => ((), d.setPollLimit limit)

theorem runOn_onOpen {a : EntryId → Action Error Tree α} {f : Tree → Except Error (α × Tree)}
    (h : (a d.current).runOn d.tree = (commit f).runOn d.tree) :
    (onOpen a).runOn d =
      (commit fun d => (f d.tree).map fun (x, tree) => (x, { d with tree })).runOn d := by
  have hopen : (onOpen a).runOn d =
      (((a d.current).runOn d.tree).1, { d with tree := ((a d.current).runOn d.tree).2 }) := rfl
  rw [hopen, h]
  simp only [runOn_commit]
  cases f d.tree <;> rfl

theorem runOn_addSteps (hlt : d.current < d.tree.size) (name : String) (e : Entry) :
    (addSteps name e).runOn d = (commit (·.add name e)).runOn d := by
  unfold addSteps
  rw [runOn_onOpen (Tree.runOn_addSteps hlt)]
  simp only [runOn_commit, Draft.add]
  cases d.tree.add d.current name e <;> rfl

theorem runOn_steps (hlt : d.current < d.tree.size) (c : Call) :
    (steps c).runOn d = (commit (·.call c)).runOn d := by
  rw [runOn_commit]
  cases c with
  | openScope name space =>
      simp only [steps, call, Draft.openScope, runOn_bind, runOn_addSteps hlt, runOn_commit]
      cases d.add name (.scope { space }) <;> rfl
  | closeScope =>
      simp only [steps, call, Draft.closeScope, runOn_bind, runOn_look]
      by_cases hroot : d.current = Tree.root
      · simp only [if_pos hroot]
      · simp only [if_neg hroot, runOn_change]
  | bookmark name =>
      have hsteps := runOn_onOpen (a := fun scope => Tree.bookmarkSteps scope name) (d := d)
        Tree.runOn_bookmarkSteps
      simp only [steps, call, Draft.bookmark, hsteps, runOn_commit]
      cases d.tree.addBookmark d.current name <;> rfl
  | datatype name datatype =>
      have hsteps := runOn_onOpen (a := fun scope => Tree.datatypeSteps scope name datatype)
        (d := d) Tree.runOn_datatypeSteps
      simp only [steps, call, Draft.datatype, hsteps, runOn_commit]
      cases d.tree.addDatatype d.current name datatype <;> rfl
  | register name address width =>
      simp only [steps, call, Draft.register, runOn_bind, runOn_look]
      cases d.space with
      | error err => rfl
      | ok space =>
          simp only [runOn_addSteps hlt, runOn_commit, Draft.field]
          cases hadd : d.add name _ with
          | _ =>
              simp only [hadd, bind, Except.bind]
              rfl
  | field name f =>
      simp only [steps, call, Draft.field, runOn_bind, runOn_addSteps hlt, runOn_commit]
      cases d.add name (.field f) <;> rfl
  | «alias» name target =>
      simp only [steps, call, Draft.addAlias, runOn_bind, runOn_ofExcept]
      cases Path.ofText target with
      | error err => rfl
      | ok p =>
          simp only [runOn_addSteps hlt, runOn_commit]
          cases d.add name (.alias target) <;> rfl
  | pollLimit limit => rfl

/-- A call in place fails and leaves the draft as it was, or yields the draft that it leaves. -/
theorem runOn_steps_cases (hlt : d.current < d.tree.size) (c : Call) :
    (∃ err, d.call c = .error err ∧ (steps c).runOn d = (.error err, d) ∧ d.after c = d) ∨
    ∃ d', d.call c = .ok ((), d') ∧ (steps c).runOn d = (.ok (), d') ∧ d.after c = d' := by
  rw [runOn_steps hlt, runOn_commit, ← orElse_call]
  cases d.call c with
  | error err => exact .inl ⟨err, rfl, rfl, rfl⟩
  | ok found => exact .inr ⟨found.2, rfl, rfl, rfl⟩

end Draft

namespace Tree

open RegisterAtlas.Action

/-- An addition in place fails for one of the reasons for a refusal, and nothing is different then,
or there is no such reason, and what is different then is said by `Adds`. Whatever calls have been
made on a draft of the tree, the next one leaves the draft as it was if it fails. -/
theorem addition_all_or_nothing {t : Tree} (h : Reachable t) :
    (∀ scope name e, scope < t.size →
      (∃ err, t.add scope name e = .error err ∧
        (addSteps scope name e).runOn t = (.error err, t) ∧ Refusal t scope name e err) ∨
      ∃ id t', t.add scope name e = .ok (id, t') ∧
        (addSteps scope name e).runOn t = (.ok id, t') ∧ Adds t scope name e id t' ∧
        ∀ err, ¬ Refusal t scope name e err) ∧
    ∀ (calls : List Draft.Call) (c : Draft.Call) (d : Draft),
      calls.foldl Draft.after (.ofTree t) = d →
      (∃ err, d.call c = .error err ∧ (Draft.steps c).runOn d = (.error err, d) ∧ d.after c = d) ∨
      ∃ d', d.call c = .ok ((), d') ∧ (Draft.steps c).runOn d = (.ok (), d') ∧ d.after c = d' := by
  constructor
  · intro scope name e hlt
    rw [runOn_addSteps hlt, runOn_commit]
    rcases add_cases hlt with ⟨err, hadd, hrefusal⟩ | ⟨id, t', hadd, hadds, hno⟩
    · exact .inl ⟨err, hadd, by simp only [hadd], hrefusal⟩
    · exact .inr ⟨id, t', hadd, by simp only [hadd], hadds, hno⟩
  · rintro calls c d rfl
    exact Draft.runOn_steps_cases ((Draft.ofTree_wellFormed h.wellFormed).foldl calls).current_lt c

theorem addition_all_or_nothing_redefinedScope :
    Reachable redefinedScope ∧ root < redefinedScope.size ∧
    (∃ err, (addSteps root "cpu[]" (.alias "/")).runOn redefinedScope =
      (.error err, redefinedScope)) ∧
    (∃ id t', (addSteps root "dev[]" (.alias "/")).runOn redefinedScope = (.ok id, t') ∧
      Adds redefinedScope root "dev[]" (.alias "/") id t') ∧
    ∃ err, (Draft.steps .closeScope).runOn (.ofTree redefinedScope) =
      (.error err, .ofTree redefinedScope) := by
  have hr : Reachable redefinedScope := .pass .empty _
  have hroot : root < redefinedScope.size := by decide +kernel
  obtain ⟨hadd, hcall⟩ := addition_all_or_nothing hr
  refine ⟨hr, hroot, ?_, ?_, ?_⟩
  · have hrefused : (redefinedScope.add root "cpu[]" (.alias "/")).isOk = false := by
      decide +kernel
    rcases hadd root "cpu[]" (.alias "/") hroot with ⟨err, -, hrun, -⟩ | ⟨id, t', hok, -⟩
    · exact ⟨err, hrun⟩
    · rw [hok] at hrefused
      cases hrefused
  · have hadded : (redefinedScope.add root "dev[]" (.alias "/")).isOk = true := by
      decide +kernel
    rcases hadd root "dev[]" (.alias "/") hroot with ⟨err, hno, -⟩ | ⟨id, t', -, hrun, hadds, -⟩
    · rw [hno] at hadded
      cases hadded
    · exact ⟨id, t', hrun, hadds⟩
  · rcases hcall [] .closeScope _ rfl with ⟨err, -, hrun, -⟩ | ⟨d', hok, -⟩
    · exact ⟨err, hrun⟩
    · cases hok

end Tree

end RegisterAtlas
