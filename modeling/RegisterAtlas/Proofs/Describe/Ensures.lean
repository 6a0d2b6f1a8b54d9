import RegisterAtlas.Describe

/-!
# What a description ensures

`Ensures` says of an action on a draft that it succeeds and what the draft is like afterwards. The
registers that it reads on the way have to answer, and what they answer depends on the state of the
world; an invariant of that state goes in and comes out again. There is one rule for each way to put
actions together. `Refuses` says that the action fails with a certain error whatever the draft is
like.
-/

namespace RegisterAtlas

/-- An action that keeps `I` and succeeds wherever it holds. -/
def Answers {ε σ α : Type} (I : σ → Prop) (a : Action ε σ α) : Prop :=
  ∀ w, I w → ∃ x w', a.runOn w = (.ok x, w') ∧ I w'

/-- An action that keeps `I` and has the same result wherever it holds. -/
def Yields {ε σ α : Type} (I : σ → Prop) (a : Action ε σ α) (x : α) : Prop :=
  ∀ w, I w → ∃ w', a.runOn w = (.ok x, w') ∧ I w'

/-- Some state with `I` in which an action gives a result. -/
def MayGive {ε σ α : Type} (I : σ → Prop) (a : Action ε σ α) (x : α) : Prop :=
  ∃ w w', I w ∧ a.runOn w = (.ok x, w')

/-- An action that has the same error wherever `I` holds. -/
def FailsWith {ε σ α : Type} (I : σ → Prop) (a : Action ε σ α) (e : ε) : Prop :=
  ∀ w, I w → ∃ w', a.runOn w = (.error e, w')

/-- An action that has the same outcome wherever `I` holds. -/
def Settled {ε σ α : Type} (I : σ → Prop) (a : Action ε σ α) : Prop :=
  (∃ x, Yields I a x) ∨ ∃ e, FailsWith I a e

section

variable {ε σ α β : Type} {I : σ → Prop} {a : Action ε σ α} {k : α → Action ε σ β}

theorem Answers.pure (x : α) : Answers I (Pure.pure x : Action ε σ α) :=
  fun w hw => ⟨x, w, rfl, hw⟩

theorem Answers.bind (h : Answers I a) (hk : ∀ x, Answers I (k x)) : Answers I (a >>= k) := by
  intro w hw
  obtain ⟨x, w₁, hrun₁, hw₁⟩ := h w hw
  obtain ⟨y, w₂, hrun₂, hw₂⟩ := hk x w₁ hw₁
  exact ⟨y, w₂, by rw [Action.runOn_bind, hrun₁]; exact hrun₂, hw₂⟩

theorem Yields.pure (x : α) : Yields I (Pure.pure x : Action ε σ α) x := fun w hw => ⟨w, rfl, hw⟩

theorem Yields.bind {x : α} {y : β} (h : Yields I a x) (hk : Yields I (k x) y) :
    Yields I (a >>= k) y := by
  intro w hw
  obtain ⟨w₁, hrun₁, hw₁⟩ := h w hw
  obtain ⟨w₂, hrun₂, hw₂⟩ := hk w₁ hw₁
  exact ⟨w₂, by rw [Action.runOn_bind, hrun₁]; exact hrun₂, hw₂⟩

theorem Yields.mapError {ε' : Type} {x : α} (h : Yields I a x) (f : ε → ε') :
    Yields I (a.mapError f) x := by
  intro w hw
  obtain ⟨w', hrun, hw'⟩ := h w hw
  exact ⟨w', by rw [Action.runOn_mapError, hrun], hw'⟩

theorem Yields.answers {x : α} (h : Yields I a x) : Answers I a := fun w hw =>
  let ⟨w', hrun, hw'⟩ := h w hw
  ⟨x, w', hrun, hw'⟩

theorem Yields.mayGive {x : α} {w : σ} (h : Yields I a x) (hw : I w) : MayGive I a x :=
  let ⟨w', hrun, _⟩ := h w hw
  ⟨w, w', hw, hrun⟩

/-- No other result is possible. -/
theorem MayGive.eq_of_yields {x y : α} (h : MayGive I a x) (hy : Yields I a y) : x = y := by
  obtain ⟨w, w', hw, hrun⟩ := h
  obtain ⟨_, hrun', -⟩ := hy w hw
  cases hrun.symm.trans hrun'
  rfl

theorem Settled.exists_yields {w : σ} (h : Settled I a) (ha : Answers I a) (hw : I w) :
    ∃ x, Yields I a x := by
  refine h.resolve_right fun ⟨e, he⟩ => ?_
  obtain ⟨_, hfails⟩ := he w hw
  obtain ⟨_, _, hanswers, -⟩ := ha w hw
  cases hfails.symm.trans hanswers

/-- What is reckoned from the result of an action goes back to such a result. -/
theorem MayGive.of_map {f : α → β} {y : β} (h : MayGive I (a >>= fun x => Pure.pure (f x)) y) :
    ∃ x, MayGive I a x ∧ f x = y := by
  obtain ⟨w, w', hw, hrun⟩ := h
  rw [Action.runOn_bind] at hrun
  split at hrun
  · next x w₁ hx =>
      cases hrun
      exact ⟨x, ⟨w, _, hw, hx⟩, rfl⟩
  · cases hrun

end

namespace Describe

variable {σ α β : Type}

/-- From drafts with `P` and states with `I` an action succeeds, and leaves a state with `I` and
what `Q` says of its result and of the draft. -/
def Ensures (I : σ → Prop) (P : Draft → Prop) (a : Describe σ α) (Q : α → Draft → Prop) : Prop :=
  ∀ d w, P d → I w → ∃ x d' w', a.runOn (d, w) = (.ok x, d', w') ∧ Q x d' ∧ I w'

theorem run_runOn {a : Describe σ α} {d d' : Draft} {w w' : σ} {x : α}
    (h : a.runOn (d, w) = (.ok x, d', w')) : (a.run d).runOn w = (.ok (x, d'), w') := by
  rw [Action.runOn] at h ⊢
  rw [run, h]

theorem run_runOn_error {a : Describe σ α} {d : Draft} {w : σ} {s : Draft × σ} {h : Halt}
    (hrun : a.runOn (d, w) = (.error h, s)) : (a.run d).runOn w = (.error h, s.2) := by
  rw [Action.runOn] at hrun ⊢
  rw [run, hrun]

namespace Ensures

variable {I : σ → Prop} {P P' : Draft → Prop} {a : Describe σ α} {k : α → Describe σ β}
  {Q Q' : α → Draft → Prop} {R : β → Draft → Prop}

theorem bind (h : Ensures I P a Q) (hk : ∀ x, Ensures I (Q x) (k x) R) :
    Ensures I P (a >>= k) R := by
  intro d w hd hw
  obtain ⟨x, d₁, w₁, hrun₁, hd₁, hw₁⟩ := h d w hd hw
  obtain ⟨y, d₂, w₂, hrun₂, hd₂, hw₂⟩ := hk x d₁ w₁ hd₁ hw₁
  exact ⟨y, d₂, w₂, by rw [Action.runOn_bind, hrun₁]; exact hrun₂, hd₂, hw₂⟩

theorem pure {x : α} (h : ∀ d, P d → Q x d) : Ensures I P (Pure.pure x) Q :=
  fun d w hd hw => ⟨x, d, w, rfl, h d hd, hw⟩

theorem mono (h : Ensures I P a Q) (hp : ∀ d, P' d → P d) (hq : ∀ x d, Q x d → Q' x d) :
    Ensures I P' a Q' := by
  intro d w hd hw
  obtain ⟨x, d', w', hrun, hd', hw'⟩ := h d w (hp d hd) hw
  exact ⟨x, d', w', hrun, hq x d' hd', hw'⟩

/-- What is known of a draft besides. -/
theorem of_exists {ι : Type} {p : ι → Draft → Prop} (h : ∀ i, Ensures I (p i) a Q) :
    Ensures I (fun d => ∃ i, p i d) a Q := fun d w ⟨i, hd⟩ hw => h i d w hd hw

theorem of_and {p : Prop} (h : p → Ensures I P a Q) : Ensures I (fun d => p ∧ P d) a Q :=
  fun d w ⟨hp, hd⟩ hw => h hp d w hd hw

/-- An action whose result is known. -/
theorem bind_eq {x : α} (h : Ensures I P a fun y d => y = x ∧ P' d) (hk : Ensures I P' (k x) R) :
    Ensures I P (a >>= k) R :=
  bind h fun _ => of_and fun heq => heq ▸ hk

/-- A step that is taken on a condition only. -/
theorem when {M : Draft → Prop} {c : Prop} [Decidable c] {step : Describe σ Unit}
    {k : Unit → Describe σ β} (hstep : c → Ensures I P step fun _ => M)
    (hskip : ¬ c → ∀ d, P d → M d) (hk : Ensures I M (k ()) R) :
    Ensures I P (if c then step >>= k else k ()) R := by
  by_cases h : c
  · rw [if_pos h]
    exact bind (hstep h) fun _ => hk
  · rw [if_neg h]
    exact hk.mono (hskip h) fun _ _ hr => hr

theorem forM {γ : Type} {f : γ → Describe σ PUnit} {xs : List γ}
    (h : ∀ x ∈ xs, Ensures I P (f x) fun _ => P) : Ensures I P (xs.forM f) fun _ => P := by
  induction xs with
  | nil => exact pure fun _ hd => hd
  | cons x xs ih =>
      exact bind (h x List.mem_cons_self) fun _ => ih fun y hy => h y (List.mem_cons_of_mem _ hy)

theorem edit {f : Draft → Except Error (α × Draft)}
    (h : ∀ d, P d → ∃ x d', f d = .ok (x, d') ∧ Q x d') : Ensures I P (Describe.edit f) Q := by
  intro d w hd hw
  obtain ⟨x, d', hf, hd'⟩ := h d hd
  refine ⟨x, d', w, ?_, hd', hw⟩
  simp only [Action.runOn, Describe.edit, hf]

/-- An access leaves the draft alone. -/
theorem access {a : Draft → Access σ α}
    (h : ∀ d w, P d → I w → ∃ x w', (a d).runOn w = (.ok x, w') ∧ Q x d ∧ I w') :
    Ensures I P (Describe.access a) Q := by
  intro d w hd hw
  obtain ⟨x, w', hrun, hd', hw'⟩ := h d w hd hw
  exact ⟨x, d, w', congrArg (fun r => (r.1, d, r.2)) hrun, hd', hw'⟩

/-- An access that comes to a known result without looking at any register. -/
theorem access_pure {a : Draft → Access σ α} {x : α} (h : ∀ d, P d → a d = Pure.pure x) :
    Ensures I P (Describe.access a) fun y d => y = x ∧ P d :=
  access fun d w hd hw => ⟨x, w, by rw [h d hd]; rfl, ⟨rfl, hd⟩, hw⟩

/-- An action of the world alone, for which only its errors get another form. -/
theorem access_world {ε : Type} {f : ε → Halt} {a : Action ε σ α} (h : Answers I a) :
    Ensures I P (Describe.access fun _ => a.mapError f) fun x d => MayGive I a x ∧ P d := by
  refine access fun d w hd hw => ?_
  obtain ⟨x, w', hrun, hw'⟩ := h w hw
  exact ⟨x, w', by rw [Action.runOn_mapError, hrun], ⟨⟨w, w', hw, hrun⟩, hd⟩, hw'⟩

end Ensures

/-- From drafts with `P` and states with `I` an action fails with the error `h`. -/
def Refuses (I : σ → Prop) (P : Draft → Prop) (a : Describe σ α) (h : Halt) : Prop :=
  ∀ d w, P d → I w → ∃ s, a.runOn (d, w) = (.error h, s)

namespace Refuses

variable {I : σ → Prop} {P P' : Draft → Prop} {a : Describe σ α} {k : α → Describe σ β}
  {Q : α → Draft → Prop} {h : Halt}

theorem fail (e : Error) : Refuses I P (Describe.fail e : Describe σ α) (.error e) :=
  fun d w _ _ => ⟨(d, w), rfl⟩

theorem bind_left (ha : Refuses I P a h) (k : α → Describe σ β) : Refuses I P (a >>= k) h := by
  intro d w hd hw
  obtain ⟨s, hrun⟩ := ha d w hd hw
  exact ⟨s, by rw [Action.runOn_bind, hrun]⟩

theorem bind (ha : Ensures I P a Q) (hk : ∀ x, Refuses I (Q x) (k x) h) :
    Refuses I P (a >>= k) h := by
  intro d w hd hw
  obtain ⟨x, d₁, w₁, hrun₁, hd₁, hw₁⟩ := ha d w hd hw
  obtain ⟨s, hrun⟩ := hk x d₁ w₁ hd₁ hw₁
  exact ⟨s, by rw [Action.runOn_bind, hrun₁]; exact hrun⟩

theorem mono (ha : Refuses I P a h) (hp : ∀ d, P' d → P d) : Refuses I P' a h :=
  fun d w hd hw => ha d w (hp d hd) hw

theorem of_exists {ι : Type} {p : ι → Draft → Prop} (ha : ∀ i, Refuses I (p i) a h) :
    Refuses I (fun d => ∃ i, p i d) a h := fun d w ⟨i, hd⟩ hw => ha i d w hd hw

theorem of_and {p : Prop} (ha : p → Refuses I P a h) : Refuses I (fun d => p ∧ P d) a h :=
  fun d w ⟨hp, hd⟩ hw => ha hp d w hd hw

theorem access_world {ε : Type} {f : ε → Halt} {a : Action ε σ α} {e : ε} (ha : FailsWith I a e) :
    Refuses I P (Describe.access fun _ => a.mapError f) (f e) := by
  intro d w _ hw
  obtain ⟨w', hrun⟩ := ha w hw
  have hmap : (a.mapError f).runOn w = (.error (f e), w') := by rw [Action.runOn_mapError, hrun]
  exact ⟨(d, w'), congrArg (fun r => (r.1, d, r.2)) hmap⟩

end Refuses

end Describe

end RegisterAtlas
