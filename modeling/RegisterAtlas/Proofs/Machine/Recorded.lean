import RegisterAtlas.Register

/-!
# Recorded accesses

A bus answers accesses, and what it answers may depend on all accesses before. To say which
accesses an action makes, the action is run on a bus that passes every access on and enters it,
with its answer, in a record. `Makes` says that an action does on such a bus what it does on the
bus itself, and describes what is entered; `Records` says it of actions that fail in other ways than
accesses do. `InTurn` describes a sequence of steps of which the first that fails is the last.
-/

namespace RegisterAtlas

/-- An access to a register, with the answer of the bus. -/
inductive Exchange where
  | read (register : Register) (answer : Except Fault Value)
  | write (register : Register) (value : Value) (answer : Except Fault Unit)

/-- The register that was accessed. -/
def Exchange.register : Exchange → Register
  | read register _ => register
  | write register _ _ => register

/-- A state of a bus, and the accesses that were made so far in their order. -/
structure Recorded (σ : Type) where
  state : σ
  log : List Exchange

variable {ε ε' σ α β : Type}

namespace Recorded

/-- Lets the bus act and enters the access that it has answered. -/
def entering (access : Except Fault α → Exchange) (a : Action Fault σ α) :
    Action Fault (Recorded σ) α := fun s =>
  let (answer, state) := a s.state
  (answer, ⟨state, s.log ++ [access answer]⟩)

instance [Bus σ] : Bus (Recorded σ) where
  read space address width :=
    entering (.read ⟨space, address, width⟩) (Bus.read space address width)
  write space address width v :=
    entering (.write ⟨space, address, width⟩ v) (Bus.write space address width v)

/-- The first action does with a record what the second one does without. What it enters in the
record goes with its result as described. -/
def Makes (recorded : Action Fault (Recorded σ) α) (a : Action Fault σ α)
    (described : List Exchange → Except Fault α → Prop) : Prop :=
  ∀ (s : σ) (before : List Exchange), ∃ log,
    recorded.runOn ⟨s, before⟩ = ((a.runOn s).1, ⟨(a.runOn s).2, before ++ log⟩) ∧
      described log (a.runOn s).1

/-- The same of actions that fail in any other way. -/
def Records (recorded : Action ε (Recorded σ) α) (a : Action ε σ α)
    (described : List Exchange → Except ε α → Prop) : Prop :=
  ∀ (s : σ) (before : List Exchange), ∃ log,
    recorded.runOn ⟨s, before⟩ = ((a.runOn s).1, ⟨(a.runOn s).2, before ++ log⟩) ∧
      described log (a.runOn s).1

namespace Records

variable {recorded : Action ε (Recorded σ) α} {a : Action ε σ α}
  {described described' : List Exchange → Except ε α → Prop}

theorem mono (h : Records recorded a described)
    (himp : ∀ log r, described log r → described' log r) :
    Records recorded a described' := by
  intro s before
  obtain ⟨log, hrun, hd⟩ := h s before
  exact ⟨log, hrun, himp log _ hd⟩

theorem pure {x : α} (hd : described [] (.ok x)) :
    Records (Pure.pure x) (Pure.pure x : Action ε σ α) described :=
  fun s before => ⟨[], by rw [List.append_nil]; rfl, hd⟩

/-- What an action enters stands before what the action behind it enters, unless it fails and the
latter is not taken. -/
theorem bind {f' : α → Action ε (Recorded σ) β} {f : α → Action ε σ β}
    {next : List Exchange → Except ε β → Prop} (h : Records recorded a described)
    (hstop : ∀ log e, described log (.error e) → next log (.error e))
    (hf : ∀ log x, described log (.ok x) →
      Records (f' x) (f x) fun log' r => next (log ++ log') r) :
    Records (recorded >>= f') (a >>= f) next := by
  intro s before
  obtain ⟨log, hrun, hd⟩ := h s before
  rw [Action.runOn_bind, Action.runOn_bind, hrun]
  cases hanswer : a.runOn s with
  | mk answer s' =>
  rw [hanswer] at hd
  cases answer with
  | error e => exact ⟨log, rfl, hstop log e hd⟩
  | ok x =>
      obtain ⟨log', hrun', hd'⟩ := hf log x hd s' (before ++ log)
      exact ⟨log ++ log', by rw [← List.append_assoc]; exact hrun', hd'⟩

/-- Errors can be changed on the way. -/
theorem mapError {g : ε → ε'} {next : List Exchange → Except ε' α → Prop}
    (h : Records recorded a described)
    (hd : ∀ log r, described log r → next log (r.mapError g)) :
    Records (recorded.mapError g) (a.mapError g) next := by
  intro s before
  obtain ⟨log, hrun, hlog⟩ := h s before
  have hlog := hd log _ hlog
  rw [Action.runOn_mapError, Action.runOn_mapError, hrun]
  cases hanswer : a.runOn s with
  | mk answer s' =>
  rw [hanswer] at hlog
  cases answer <;> exact ⟨log, rfl, hlog⟩

end Records

namespace Makes

variable {recorded : Action Fault (Recorded σ) α} {a : Action Fault σ α}
  {described described' : List Exchange → Except Fault α → Prop}

theorem mono (h : Makes recorded a described)
    (himp : ∀ log r, described log r → described' log r) :
    Makes recorded a described' := Records.mono h himp

theorem pure {x : α} (hd : described [] (.ok x)) :
    Makes (Pure.pure x) (Pure.pure x : Action Fault σ α) described := Records.pure hd

theorem bind {f' : α → Action Fault (Recorded σ) β} {f : α → Action Fault σ β}
    {next : List Exchange → Except Fault β → Prop} (h : Makes recorded a described)
    (hstop : ∀ log fault, described log (.error fault) → next log (.error fault))
    (hf : ∀ log x, described log (.ok x) →
      Makes (f' x) (f x) fun log' r => next (log ++ log') r) :
    Makes (recorded >>= f') (a >>= f) next := Records.bind h hstop hf

end Makes

/-- What goes as described and then ends in an overflow, unless it has failed before. -/
def ThenOverflows (described : List Exchange → Except Fault α → Prop) (log : List Exchange)
    (r : Except Fault β) : Prop :=
  ∃ answer, described log answer ∧ r = answer.bind fun _ => .error .overflow

theorem Makes.thenOverflows {recorded : Action Fault (Recorded σ) α} {a : Action Fault σ α}
    {described : List Exchange → Except Fault α → Prop} (h : Makes recorded a described) :
    Makes (recorded >>= fun _ => throw .overflow) (a >>= fun _ => throw .overflow)
      (ThenOverflows described : List Exchange → Except Fault β → Prop) := by
  refine h.bind (fun log fault hlog => ⟨.error fault, hlog, rfl⟩) fun log x hlog s before => ?_
  refine ⟨[], by rw [List.append_nil]; rfl, .ok x, ?_, rfl⟩
  rwa [List.append_nil]

variable [Bus σ]

theorem makes_read (r : Register) :
    Makes (r.read : Action Fault (Recorded σ) Value) r.read
      fun log answer => log = [.read r answer] :=
  fun _ _ => ⟨_, rfl, rfl⟩

theorem makes_write (r : Register) (v : Value) :
    Makes (r.write v : Action Fault (Recorded σ) Unit) (r.write v)
      fun log answer => log = [.write r v answer] :=
  fun _ _ => ⟨_, rfl, rfl⟩

end Recorded

/-! ## Steps one after the other -/

/-- `InTurn step items b log r`: a step is taken for each item, which makes accesses and turns
the value `b` into the one for the next step. The first step that fails ends the sequence, and its
fault is the result. -/
inductive InTurn {ι : Type} (step : ι → β → List Exchange → Except Fault β → Prop) :
    List ι → β → List Exchange → Except Fault β → Prop where
  | done {b : β} : InTurn step [] b [] (.ok b)
  | stop {item : ι} {items : List ι} {b : β} {log : List Exchange} {fault : Fault}
      (h : step item b log (.error fault)) :
      InTurn step (item :: items) b log (.error fault)
  | next {item : ι} {items : List ι} {b b' : β} {log log' : List Exchange}
      {r : Except Fault β} (h : step item b log (.ok b'))
      (hnext : InTurn step items b' log' r) :
      InTurn step (item :: items) b (log ++ log') r

namespace InTurn

variable {ι : Type} {step : ι → β → List Exchange → Except Fault β → Prop} {items items' : List ι}
  {b b' : β} {log log' : List Exchange} {r : Except Fault β}

theorem single {item : ι} (h : step item b log r) : InTurn step [item] b log r := by
  cases r with
  | error fault => exact .stop h
  | ok b' =>
      have hnext : InTurn step [item] b (log ++ []) (.ok b') := .next h .done
      rwa [List.append_nil] at hnext

theorem append_stop {fault : Fault} (h : InTurn step items b log (.error fault)) :
    InTurn step (items ++ items') b log (.error fault) := by
  generalize hr : (Except.error fault : Except Fault β) = r at h
  induction h with
  | done => cases hr
  | stop h => exact .stop h
  | next h hnext ih => exact .next h (ih hr)

theorem append (h : InTurn step items b log (.ok b')) (h' : InTurn step items' b' log' r) :
    InTurn step (items ++ items') b (log ++ log') r := by
  generalize hr : (Except.ok b' : Except Fault β) = r₀ at h
  induction h with
  | done =>
      cases hr
      exact h'
  | stop h => cases hr
  | next h hnext ih =>
      rw [List.append_assoc]
      exact .next h (ih hr)

/-- What holds of the accesses of each step holds of all accesses. -/
theorem forall_log {P : Exchange → Prop} (h : InTurn step items b log r)
    (hstep : ∀ item ∈ items, ∀ b log r, step item b log r → ∀ x ∈ log, P x) : ∀ x ∈ log, P x := by
  induction h with
  | done => exact fun x hx => absurd hx List.not_mem_nil
  | @stop item _ _ _ _ h => exact hstep item List.mem_cons_self _ _ _ h
  | @next item _ _ _ _ _ _ h hnext ih =>
      intro x hx
      rcases List.mem_append.1 hx with hx | hx
      · exact hstep item List.mem_cons_self _ _ _ h x hx
      · exact ih (fun item hitem => hstep item (List.mem_cons_of_mem _ hitem)) x hx

/-- What is passed from step to step can be shown in another form. -/
theorem map {γ : Type} {step' : ι → γ → List Exchange → Except Fault γ → Prop} (g : β → γ)
    (hstep : ∀ item b log r, step item b log r → step' item (g b) log (r.map g))
    (h : InTurn step items b log r) : InTurn step' items (g b) log (r.map g) := by
  induction h with
  | done => exact .done
  | stop h => exact .stop (hstep _ _ _ _ h)
  | next h hnext ih => exact .next (hstep _ _ _ _ h) ih

end InTurn

end RegisterAtlas
