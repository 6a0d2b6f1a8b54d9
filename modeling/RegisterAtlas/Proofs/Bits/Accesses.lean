import RegisterAtlas.Machine
import RegisterAtlas.Proofs.Bits.Flatten
import RegisterAtlas.Proofs.Machine.Recorded

/-!
# The accesses of a selection

Reading a selection reads the register of each of its ranges once, from the most to the least
significant range. Writing goes the other way: a whole register is written without being read, and
a part of one is read once and written once. The first access that fails is the last one.

Both depend on the ranges of the selection alone, whatever its nesting, on every bus: also where an
access fails or a register changes between two reads. They do so as long as the bits of each part
can be counted. Where there are too many, some of the ranges are accessed in the same way before the
access ends in an overflow (`Reads`, `Writes`).
-/

namespace RegisterAtlas.Bits

/-! ## One range -/

def Range.IsWhole (p : Range) : Prop := p.low = 0 ∧ p.count = p.register.width.bits

/-- Reading a range puts its bits to the right of those read before. -/
inductive Range.Reads (p : Range) (acc : Value) : List Exchange → Except Fault Value → Prop where
  | failed (fault : Fault) : Reads p acc [.read p.register (.error fault)] (.error fault)
  | read (raw : Value) : Reads p acc [.read p.register (.ok raw)]
      (.ok (shiftIn acc p.count ((raw >>> p.low) &&& mask p.count)))

/-- Writing a range leaves the bits beyond it for the next one. -/
inductive Range.Writes (p : Range) (v : Value) : List Exchange → Except Fault Value → Prop where
  | whole (h : p.IsWhole) (answer : Except Fault Unit) :
      Writes p v [.write p.register (v &&& mask p.count) answer]
        (answer.map fun _ => shiftOut v p.count)
  | unread (h : ¬ p.IsWhole) (fault : Fault) :
      Writes p v [.read p.register (.error fault)] (.error fault)
  | part (h : ¬ p.IsWhole) (old : Value) (answer : Except Fault Unit) :
      Writes p v [.read p.register (.ok old),
        .write p.register (merge old p.low p.count v) answer]
        (answer.map fun _ => shiftOut v p.count)

open Recorded

variable {σ : Type} [Bus σ]

theorem makes_readRange (p : Range) (acc : Value) :
    Makes (p.toBits.read >>= fun bits => pure (shiftIn acc p.count bits) :
        Action Fault (Recorded σ) Value)
      (p.toBits.read >>= fun bits => pure (shiftIn acc p.count bits)) (p.Reads acc) := by
  simp only [Range.toBits, read, bind_assoc, pure_bind]
  refine (makes_read p.register).bind ?_ ?_
  · rintro log fault rfl
    exact .failed fault
  · rintro log raw rfl
    exact .pure (.read raw)

theorem makes_writeRange (p : Range) (v : Value) :
    Makes (p.toBits.write v : Action Fault (Recorded σ) Unit) (p.toBits.write v)
      fun log answer => p.Writes v log (answer.map fun _ => shiftOut v p.count) := by
  simp only [Range.toBits, write]
  split
  · next h =>
      refine (makes_write p.register _).mono ?_
      rintro log answer rfl
      exact .whole h answer
  · next h =>
      refine (makes_read p.register).bind ?_ ?_
      · rintro log fault rfl
        exact .unread h fault
      · rintro log old rfl
        refine (makes_write p.register _).mono ?_
        rintro log answer rfl
        exact .part h old answer

/-! ## Ranges in turn -/

theorem makes_readRanges (acc : Value) (ps : List Range) :
    Makes (readRanges acc ps : Action Fault (Recorded σ) Value) (readRanges acc ps)
      (InTurn Range.Reads ps acc) := by
  induction ps generalizing acc with
  | nil => exact .pure .done
  | cons p ps ih =>
      have hstep : ∀ {τ : Type} [Bus τ], (readRanges acc (p :: ps) : Action Fault τ Value) =
          (p.toBits.read >>= fun bits => pure (shiftIn acc p.count bits)) >>=
            fun acc => readRanges acc ps := by
        intro τ _
        simp only [readRanges, bind_assoc, pure_bind]
      rw [hstep, hstep]
      refine (makes_readRange p acc).bind ?_ ?_
      · exact fun log fault h => .stop h
      · exact fun log acc' h => (ih acc').mono fun log' r hr => .next h hr

theorem makes_writeRanges (ps : List Range) (v : Value) :
    Makes (writeRanges ps v : Action Fault (Recorded σ) Unit) (writeRanges ps v)
      fun log answer =>
        InTurn Range.Writes ps.reverse v log (answer.map fun _ => shiftOut v (widthOf ps)) := by
  induction ps with
  | nil =>
      refine .pure ?_
      rw [widthOf_nil, Except.map, shiftOut_zero]
      exact .done
  | cons p ps ih =>
      rw [writeRanges, writeRanges, List.reverse_cons]
      refine ih.bind ?_ ?_
      · exact fun log fault h => h.append_stop
      · intro log _ h
        refine (makes_writeRange p _).mono fun log' answer h' => ?_
        have hleft : (answer.map fun _ => shiftOut v (widthOf (p :: ps))) =
            answer.map fun _ => shiftOut (shiftOut v (widthOf ps)) p.count := by
          rw [shiftOut_shiftOut, widthOf_cons, Nat.add_comm]
        rw [hleft]
        exact h.append (.single h')

/-! ## Selections -/

/-- A selection is read range by range, from the most significant one on. Where a part has too many
bits to be counted, only ranges in front are read, and no value comes of it. -/
inductive Reads (b : Bits) : List Exchange → Except Fault Value → Prop where
  | ranges {log : List Exchange} {r : Except Fault Value} (hb : b.Countable)
      (h : InTurn Range.Reads b.flatten 0 log r) : Reads b log r
  | overflow {front back : List Range} {log : List Exchange} {r : Except Fault Value}
      (hb : ¬ b.Countable) (hsplit : b.flatten = front ++ back)
      (h : ThenOverflows (InTurn Range.Reads front 0) log r) : Reads b log r

/-- A value is written to a selection range by range, from the least significant one on. Where a
part has too many bits to be counted, only ranges at the back are written. -/
inductive Writes (b : Bits) (v : Value) : List Exchange → Except Fault Unit → Prop where
  | ranges {log : List Exchange} {r : Except Fault Unit} (hb : b.Countable)
      (h : InTurn Range.Writes b.flatten.reverse v log (r.map fun _ => shiftOut v b.width)) :
      Writes b v log r
  | overflow {front back : List Range} {log : List Exchange} {r : Except Fault Unit}
      (hb : ¬ b.Countable) (hsplit : b.flatten = front ++ back)
      (h : ThenOverflows (InTurn Range.Writes back.reverse v) log r) : Writes b v log r

theorem makes_selection (b : Bits) :
    Makes (b.read : Action Fault (Recorded σ) Value) b.read b.Reads ∧
      ∀ v, Makes (b.write v : Action Fault (Recorded σ) Unit) (b.write v) (b.Writes v) := by
  by_cases hb : b.Countable
  · refine ⟨?_, fun v => ?_⟩
    · rw [read_eq_readRanges b hb, read_eq_readRanges b hb]
      exact (makes_readRanges 0 b.flatten).mono fun _ _ => .ranges hb
    · rw [write_eq_writeRanges b v hb, write_eq_writeRanges b v hb]
      refine (makes_writeRanges b.flatten v).mono fun _ _ h => .ranges hb ?_
      rwa [← widthOf_flatten]
  · refine ⟨?_, fun v => ?_⟩
    · obtain ⟨front, back, hsplit, hread⟩ := read_eq_overflow hb
      rw [hread, hread]
      exact (makes_readRanges 0 front).thenOverflows.mono fun _ _ => .overflow hb hsplit
    · obtain ⟨front, back, hsplit, hwrite⟩ := write_eq_overflow b hb
      rw [hwrite, hwrite]
      refine (makes_writeRanges back v).thenOverflows.mono ?_
      rintro log r ⟨answer, hturn, rfl⟩
      exact .overflow hb hsplit ⟨_, hturn, by cases answer <;> rfl⟩

end RegisterAtlas.Bits
