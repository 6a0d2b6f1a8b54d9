import Mathlib.Tactic.IntervalCases
import RegisterAtlas.Machine
import RegisterAtlas.Proofs.Tree.Shape
import RegisterAtlas.Tree.Access

/-!
# Polls

A poll reads a field again and again. A register may change between two reads, so what a poll sees
is the stream of the outcomes of all reads that could follow each other (`Action.outcome`). `Polls`
says which of them is the last one and what the result is, without any state: the first that is as
expected, the first that fails, or the last that the limit admits. `pollWith_of_polls` says that the
loop comes to this result and to the state after so many reads. An action that counts its own runs
(`Action.counted`) shows that it is these reads that are made.
-/

namespace RegisterAtlas

namespace Action

variable {ε σ α : Type}

/-- The state after an action was run `n` times in a row, however the runs ended. -/
def stateAfter (a : Action ε σ α) : Nat → σ → σ
  | 0, s => s
  | n + 1, s => stateAfter a n (a.runOn s).2

/-- How an action ends that was run `n` times before. -/
def outcome (a : Action ε σ α) (s : σ) (n : Nat) : Except ε α := (a.runOn (a.stateAfter n s)).1

theorem stateAfter_succ (a : Action ε σ α) (n : Nat) (s : σ) :
    a.stateAfter (n + 1) s = a.stateAfter n (a.runOn s).2 := rfl

theorem runOn_eq_outcome (a : Action ε σ α) (s : σ) :
    a.runOn s = (a.outcome s 0, a.stateAfter 1 s) := rfl

/-- An action that counts, beside the state, how often it was run. -/
def counted (a : Action ε σ α) : Action ε (σ × Nat) α := fun s =>
  ((a.runOn s.1).1, (a.runOn s.1).2, s.2 + 1)

theorem stateAfter_counted (a : Action ε σ α) (n : Nat) (s : σ) (count : Nat) :
    a.counted.stateAfter n (s, count) = (a.stateAfter n s, count + n) := by
  induction n generalizing s count with
  | zero => rfl
  | succ n ih =>
      have hstep : (a.counted.runOn (s, count)).2 = ((a.runOn s).2, count + 1) := rfl
      rw [stateAfter_succ, stateAfter_succ, hstep, ih, Nat.add_assoc, Nat.add_comm 1 n]

theorem outcome_counted (a : Action ε σ α) (s : σ) (count n : Nat) :
    a.counted.outcome (s, count) n = a.outcome s n := by
  rw [outcome, stateAfter_counted]
  rfl

end Action

variable {ε : Type} {mask expected : Value} {timeout : ε} {limit : Nat}
  {outcomes : Nat → Except ε Value}

/-! ## Streams of outcomes -/

/-- A read that succeeds, with other bits than a poll waits for. -/
def Misses (mask expected : Value) (r : Except ε Value) : Prop :=
  ∃ v, r = .ok v ∧ v &&& mask ≠ expected

theorem misses_ok_iff {v : Value} :
    Misses mask expected (.ok v : Except ε Value) ↔ v &&& mask ≠ expected := by
  refine ⟨?_, fun h => ⟨v, rfl, h⟩⟩
  rintro ⟨v', ⟨⟩, h⟩
  exact h

theorem not_misses_error {e : ε} : ¬ Misses mask expected (.error e) := by
  rintro ⟨v, ⟨⟩, -⟩

/-- `Polls outcomes mask expected timeout limit n r`: a poll of reads that end one after the other
in `outcomes` has the result `r` after `n` of them. -/
inductive Polls (outcomes : Nat → Except ε Value) (mask expected : Value) (timeout : ε)
    (limit : Nat) : Nat → Except ε Value → Prop where
  | matched {k : Nat} {v : Value} (hk : k < limit)
      (before : ∀ j < k, Misses mask expected (outcomes j)) (hread : outcomes k = .ok v)
      (hmatch : v &&& mask = expected) :
      Polls outcomes mask expected timeout limit (k + 1) (.ok v)
  | failed {k : Nat} {e : ε} (hk : k < limit)
      (before : ∀ j < k, Misses mask expected (outcomes j)) (hread : outcomes k = .error e) :
      Polls outcomes mask expected timeout limit (k + 1) (.error e)
  | timedOut (before : ∀ j < limit, Misses mask expected (outcomes j)) :
      Polls outcomes mask expected timeout limit limit (.error timeout)

theorem misses_before_succ {k : Nat} (hfirst : Misses mask expected (outcomes 0))
    (hrest : ∀ j < k, Misses mask expected (outcomes (j + 1))) :
    ∀ j < k + 1, Misses mask expected (outcomes j) := by
  rintro (_ | j) hj
  · exact hfirst
  · exact hrest j (Nat.lt_of_succ_lt_succ hj)

namespace Polls

/-- After a read that misses, a poll goes on with the reads that are left. -/
theorem again {n : Nat} {r : Except ε Value} (hfirst : Misses mask expected (outcomes 0))
    (h : Polls (fun j => outcomes (j + 1)) mask expected timeout limit n r) :
    Polls outcomes mask expected timeout (limit + 1) (n + 1) r := by
  cases h with
  | matched hk before hread hmatch =>
      exact .matched (Nat.succ_lt_succ hk) (misses_before_succ hfirst before) hread hmatch
  | failed hk before hread =>
      exact .failed (Nat.succ_lt_succ hk) (misses_before_succ hfirst before) hread
  | timedOut before => exact .timedOut (misses_before_succ hfirst before)

/-- The first read of a poll is its last one, or misses. -/
theorem first_or_again {n : Nat} {r : Except ε Value}
    (h : Polls outcomes mask expected timeout (limit + 1) n r) :
    (n = 1 ∧ r = outcomes 0 ∧ ¬ Misses mask expected (outcomes 0)) ∨
      ∃ m, n = m + 1 ∧ Misses mask expected (outcomes 0) ∧
        Polls (fun j => outcomes (j + 1)) mask expected timeout limit m r := by
  have hrest : ∀ k, (∀ j < k + 1, Misses mask expected (outcomes j)) →
      Misses mask expected (outcomes 0) ∧ ∀ j < k, Misses mask expected (outcomes (j + 1)) :=
    fun k before => ⟨before 0 (Nat.succ_pos k), fun j hj => before (j + 1) (Nat.succ_lt_succ hj)⟩
  cases h with
  | @matched k v hk before hread hmatch =>
      cases k with
      | zero =>
          refine .inl ⟨rfl, hread.symm, ?_⟩
          rw [hread, misses_ok_iff]
          exact not_not.2 hmatch
      | succ k =>
          obtain ⟨hfirst, before⟩ := hrest k before
          exact .inr ⟨k + 1, rfl, hfirst, .matched (Nat.lt_of_succ_lt_succ hk) before hread hmatch⟩
  | @failed k e hk before hread =>
      cases k with
      | zero => exact .inl ⟨rfl, hread.symm, hread ▸ not_misses_error⟩
      | succ k =>
          obtain ⟨hfirst, before⟩ := hrest k before
          exact .inr ⟨k + 1, rfl, hfirst, .failed (Nat.lt_of_succ_lt_succ hk) before hread⟩
  | timedOut before =>
      obtain ⟨hfirst, before⟩ := hrest limit before
      exact .inr ⟨limit, rfl, hfirst, .timedOut before⟩

theorem unique {n n' : Nat} {r r' : Except ε Value}
    (h : Polls outcomes mask expected timeout limit n r)
    (h' : Polls outcomes mask expected timeout limit n' r') : n = n' ∧ r = r' := by
  induction limit generalizing outcomes n n' with
  | zero =>
      cases h with
      | matched hk | failed hk => exact absurd hk (Nat.not_lt_zero _)
      | timedOut =>
          cases h' with
          | matched hk | failed hk => exact absurd hk (Nat.not_lt_zero _)
          | timedOut => exact ⟨rfl, rfl⟩
  | succ limit ih =>
      rcases h.first_or_again with ⟨rfl, rfl, hlast⟩ | ⟨m, rfl, hmiss, hrest⟩ <;>
        rcases h'.first_or_again with ⟨rfl, rfl, hlast'⟩ | ⟨m', rfl, hmiss', hrest'⟩
      · exact ⟨rfl, rfl⟩
      · exact absurd hmiss' hlast
      · exact absurd hmiss hlast'
      · obtain ⟨rfl, rfl⟩ := ih hrest hrest'
        exact ⟨rfl, rfl⟩

end Polls

/-- Whatever the outcomes are, a poll comes to a result. -/
theorem exists_polls (outcomes : Nat → Except ε Value) (mask expected : Value) (timeout : ε)
    (limit : Nat) : ∃ n r, Polls outcomes mask expected timeout limit n r := by
  induction limit generalizing outcomes with
  | zero => exact ⟨0, _, .timedOut fun j hj => absurd hj (Nat.not_lt_zero j)⟩
  | succ limit ih =>
      have before : ∀ j < 0, Misses mask expected (outcomes j) :=
        fun j hj => absurd hj (Nat.not_lt_zero j)
      cases hfirst : outcomes 0 with
      | error e => exact ⟨1, _, .failed (Nat.succ_pos limit) before hfirst⟩
      | ok v =>
          by_cases hmatch : v &&& mask = expected
          · exact ⟨1, _, .matched (Nat.succ_pos limit) before hfirst hmatch⟩
          · obtain ⟨n, r, hrest⟩ := ih fun j => outcomes (j + 1)
            exact ⟨n + 1, r, hrest.again (hfirst ▸ misses_ok_iff.2 hmatch)⟩

namespace Tree

/-! ## The loop -/

variable {σ : Type} {t : Tree}

/-- One round of a poll. -/
theorem runOn_pollWith_succ (read : Access σ Value) (timeout : Error) (mask expected : Value)
    (attempts : Nat) (s : σ) :
    (Misses mask expected (read.outcome s 0) →
      (pollWith read timeout mask expected (attempts + 1)).runOn s =
        (pollWith read timeout mask expected attempts).runOn (read.stateAfter 1 s)) ∧
    (¬ Misses mask expected (read.outcome s 0) →
      (pollWith read timeout mask expected (attempts + 1)).runOn s =
        (read.outcome s 0, read.stateAfter 1 s)) := by
  rw [pollWith, Action.runOn_bind, Action.runOn_eq_outcome read s]
  cases hread : read.outcome s 0 with
  | error e => exact ⟨fun h => (not_misses_error h).elim, fun _ => rfl⟩
  | ok v =>
      simp only [misses_ok_iff, ne_eq, not_not]
      exact ⟨fun hmiss => by rw [if_neg hmiss], fun hmatch => by rw [if_pos hmatch]; rfl⟩

theorem pollWith_of_polls (read : Access σ Value) (timeout : Error) (mask expected : Value)
    (limit : Nat) (s : σ) {n : Nat} {r : Except Halt Value}
    (h : Polls (read.outcome s) mask expected (.error timeout) limit n r) :
    (pollWith read timeout mask expected limit).runOn s = (r, read.stateAfter n s) := by
  induction limit generalizing s n with
  | zero =>
      cases h with
      | matched hk | failed hk => exact absurd hk (Nat.not_lt_zero _)
      | timedOut => rfl
  | succ limit ih =>
      obtain ⟨hmiss, hlast⟩ := runOn_pollWith_succ read timeout mask expected limit s
      rcases h.first_or_again with ⟨rfl, rfl, hfirst⟩ | ⟨m, rfl, hfirst, hrest⟩
      · exact hlast hfirst
      · rw [hmiss hfirst, Action.stateAfter_succ]
        exact ih _ hrest

theorem pollAt_of_target {read : EntryId → Access σ Value} {origin id : EntryId} {path : String}
    (h : t.target origin path = .ok id) (mask expected : Value) :
    t.pollAt read origin path mask expected =
      pollWith (read id) (.timeout path t.pollLimit) mask expected t.pollLimit := by
  rw [pollAt, h, Access.ofExcept_ok, pure_bind]

/-- However the reads of a field end one after the other, exactly one number of reads and one result
are those of a poll of these outcomes with the limit of the tree, which is at least one. A poll of
the path of the field has this result, leaves the registers as they are after so many reads, and has
read the field so often. -/
theorem poll_ends_as_outcomes_say {t : Tree} (h : Reachable t) {origin id : EntryId} {path : String}
    (hpath : t.target origin path = .ok id) (mask expected : Value) (σ : Type) [Bus σ] :
    (1 ≤ t.pollLimit ∧ ∀ limit, (t.setPollLimit limit).pollLimit = max limit 1) ∧
    (t.poll origin path mask expected : Access σ Value) =
      t.pollAt (t.readWithin t.maxNesting) origin path mask expected ∧
    ∀ depth (s : σ), ∃ n r,
      (Polls ((t.readWithin depth id).outcome s) mask expected (.error (.timeout path t.pollLimit))
          t.pollLimit n r ∧
        ∀ n' r', Polls ((t.readWithin depth id).outcome s) mask expected
          (.error (.timeout path t.pollLimit)) t.pollLimit n' r' → n' = n ∧ r' = r) ∧
      (t.pollAt (t.readWithin depth) origin path mask expected).runOn s =
        (r, (t.readWithin depth id).stateAfter n s) ∧
      (t.pollAt (fun id => (t.readWithin depth id).counted) origin path mask expected).runOn
          (s, 0) =
        (r, (t.readWithin depth id).stateAfter n s, n) := by
  refine ⟨⟨h.wellFormed.pollLimit_pos, fun limit => rfl⟩, rfl, fun depth s => ?_⟩
  have ⟨n, r, hpolls⟩ := exists_polls ((t.readWithin depth id).outcome s) mask expected
    (.error (.timeout path t.pollLimit)) t.pollLimit
  have hcounted : (t.readWithin depth id).counted.outcome (s, 0) =
      (t.readWithin depth id).outcome s := funext fun k => Action.outcome_counted ..
  refine ⟨n, r, ⟨hpolls, fun n' r' hpolls' => hpolls'.unique hpolls⟩, ?_, ?_⟩
  · rw [pollAt_of_target hpath]
    exact pollWith_of_polls _ _ mask expected _ s hpolls
  · rw [pollAt_of_target hpath, pollWith_of_polls _ _ mask expected _ (s, 0) (hcounted ▸ hpolls),
      Action.stateAfter_counted, Nat.zero_add]

/-- A field over one bit of a bank, and a limit of five reads. -/
def flagTree : Tree :=
  ([.field "flag" (.direct (.int none) (.range ⟨.simulated "dev", 8, .w32⟩ 0 1)), .pollLimit 5]
    |>.foldl Draft.after (.ofTree empty)).tree

/-- A machine on which the bit is set for the third read. -/
def busyMachine : Machine :=
  ({} : Machine).setBank { name := "dev", script := ⟨[(8, [0, 2, 3])], by decide⟩ }

/-- The third read is as expected, so the fourth and the fifth are not made. -/
theorem poll_ends_as_outcomes_say_flagTree :
    Reachable flagTree ∧ flagTree.target 0 "flag" = .ok 1 ∧
      Polls ((flagTree.read 1).outcome busyMachine) 1 1 (.error (.timeout "flag" 5)) 5 3 (.ok 1) ∧
      (flagTree.poll 0 "flag" 1 1).runOn busyMachine =
        (.ok 1, (flagTree.read 1).stateAfter 3 busyMachine) := by
  have hr : Reachable flagTree := .pass .empty _
  have hpath : flagTree.target 0 "flag" = .ok 1 := by decide +kernel
  have hmiss : ∀ j < 2, Misses 1 1 ((flagTree.read 1).outcome busyMachine j) := by
    intro j hj
    have hzero : (flagTree.read 1).outcome busyMachine j = .ok 0 := by
      interval_cases j <;> decide +kernel
    exact ⟨0, hzero, by decide⟩
  have hpolls : Polls ((flagTree.read 1).outcome busyMachine) 1 1 (.error (.timeout "flag" 5)) 5 3
      (.ok 1) := .matched (by decide) hmiss (by decide +kernel) (by decide)
  obtain ⟨-, hpoll, hends⟩ := poll_ends_as_outcomes_say hr hpath 1 1 Machine
  obtain ⟨n, r, ⟨-, hunique⟩, hrun, -⟩ := hends flagTree.maxNesting busyMachine
  obtain ⟨rfl, rfl⟩ := hunique 3 (.ok 1) hpolls
  exact ⟨hr, hpath, hpolls, by rw [hpoll]; exact hrun⟩

end Tree

end RegisterAtlas
