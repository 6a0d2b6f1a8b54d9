import RegisterAtlas.Proofs.Access.Polling
import RegisterAtlas.Proofs.Bits.Overlay
import RegisterAtlas.Proofs.Dump.Accesses

/-!
# The accesses of direct fields

A direct field is read and written part by part, and each part range by range, as far as its bits
can be counted with 32 bits. `ReadsParts` and `WritesParts` describe the accesses that this makes
and the result, `PollsBy` those of a poll. `Through` describes an access through a path: where the
path leads nowhere, no access is made.

Everything is stated with `Records`, so it holds on every bus: also where a register changes between
two reads and where an access fails.
-/

namespace RegisterAtlas

open Recorded Bits

variable {σ α β ι : Type}

/-! ## Faults -/

namespace Access

/-- The result of an access whose faults are described. -/
def OfFault (described : List Exchange → Except Fault α → Prop) (log : List Exchange)
    (r : Except Halt α) : Prop :=
  ∃ answer : Except Fault α, described log answer ∧
    r = answer.mapError fun fault => .error (.access fault)

variable {described : List Exchange → Except Fault α → Prop} {log : List Exchange}

theorem OfFault.ok {x : α} (h : described log (.ok x)) : OfFault described log (.ok x) :=
  ⟨.ok x, h, rfl⟩

theorem OfFault.error {fault : Fault} (h : described log (.error fault)) :
    OfFault described log (.error (.error (.access fault))) := ⟨.error fault, h, rfl⟩

theorem OfFault.of_ok {x : α} (h : OfFault described log (.ok x)) : described log (.ok x) := by
  obtain ⟨answer, hanswer, hr⟩ := h
  cases answer <;> cases hr
  exact hanswer

theorem OfFault.of_error {e : Halt} (h : OfFault described log (.error e)) :
    ∃ fault, e = .error (.access fault) ∧ described log (.error fault) := by
  obtain ⟨answer, hanswer, hr⟩ := h
  cases answer with
  | ok x => cases hr
  | error fault =>
      cases hr
      exact ⟨fault, rfl, hanswer⟩

theorem records_ofFault {recorded : Action Fault (Recorded σ) α} {a : Action Fault σ α}
    (h : Makes recorded a described) :
    Records (ofFault recorded) (ofFault a) (OfFault described) :=
  Records.mapError h fun _ answer hanswer => ⟨answer, hanswer, rfl⟩

/-- Steps that are taken in turn make their accesses in turn. -/
theorem records_foldlM {step : ι → β → List Exchange → Except Fault β → Prop}
    {f' : β → ι → Access (Recorded σ) β} {f : β → ι → Access σ β}
    (h : ∀ b item, Records (f' b item) (f b item) (OfFault (step item b))) (items : List ι)
    (b : β) :
    Records (items.foldlM f' b) (items.foldlM f b) (OfFault (InTurn step items b)) := by
  induction items generalizing b with
  | nil => exact Records.pure (.ok .done)
  | cons item items ih =>
      rw [List.foldlM_cons, List.foldlM_cons]
      refine (h b item).bind ?_ fun log b' hb' => (ih b').mono ?_
      · intro log e he
        obtain ⟨fault, rfl, hfault⟩ := he.of_error
        exact .error (.stop hfault)
      · rintro log' r ⟨answer, hanswer, rfl⟩
        exact ⟨answer, .next hb'.of_ok hanswer, rfl⟩

end Access

open Access

/-! ## Parts in turn -/

/-- The registers behind the parts of a field. -/
def Bits.registers (parts : List Bits) : List Register := (flattenParts parts).map Range.register

/-- Reading a part adds its bits to those read before. -/
def Bits.ReadsInto (part : Bits) (acc : Value) (log : List Exchange) (r : Except Fault Value) :
    Prop :=
  ∃ answer, part.Reads log answer ∧ r = answer.map (acc ||| ·)

/-- Writing a part leaves nothing for the next one. -/
def Bits.WritesOf (v : Value) (part : Bits) (_ : Unit) : List Exchange → Except Fault Unit → Prop :=
  part.Writes v

/-- The parts are read one after the other, up to the first that fails. -/
def ReadsParts (parts : List Bits) : List Exchange → Except Halt Value → Prop :=
  OfFault (InTurn ReadsInto parts 0)

/-- The value is written to the parts one after the other, up to the first that fails. -/
def WritesParts (v : Value) (parts : List Bits) : List Exchange → Except Halt Unit → Prop :=
  OfFault (InTurn (WritesOf v) parts ())

section

variable {parts : List Bits} {log : List Exchange}

theorem mem_registers {part : Bits} (hpart : part ∈ parts) {p : Range} (hp : p ∈ part.flatten) :
    p.register ∈ registers parts :=
  List.mem_map_of_mem (mem_flattenParts.2 ⟨part, hpart, hp⟩)

theorem exists_of_readsInTurn {ps : List Range} {acc : Value} {r : Except Fault Value}
    (h : InTurn Range.Reads ps acc log r) : ∀ x ∈ log, ∃ p ∈ ps, x.register = p.register := by
  refine h.forall_log fun p hp acc log r hrange x hx => ⟨p, hp, ?_⟩
  cases hrange <;> rw [List.mem_singleton.1 hx] <;> rfl

theorem exists_of_writesInTurn {ps : List Range} {v : Value} {r : Except Fault Value}
    (h : InTurn Range.Writes ps v log r) : ∀ x ∈ log, ∃ p ∈ ps, x.register = p.register := by
  refine h.forall_log fun p hp v log r hrange x hx => ⟨p, hp, ?_⟩
  cases hrange with
  | whole | unread => rw [List.mem_singleton.1 hx]; rfl
  | part => rcases List.mem_pair.1 hx with rfl | rfl <;> rfl

theorem Bits.Reads.register_mem {part : Bits} {r : Except Fault Value} (hpart : part ∈ parts)
    (h : part.Reads log r) : ∀ x ∈ log, x.register ∈ registers parts := by
  intro x hx
  obtain ⟨p, hp, hregister⟩ : ∃ p ∈ part.flatten, x.register = p.register := by
    cases h with
    | ranges hb h => exact exists_of_readsInTurn h x hx
    | overflow hb hsplit h =>
        obtain ⟨answer, hturn, -⟩ := h
        obtain ⟨p, hp, hregister⟩ := exists_of_readsInTurn hturn x hx
        exact ⟨p, hsplit ▸ List.mem_append_left _ hp, hregister⟩
  exact hregister ▸ mem_registers hpart hp

theorem Bits.Writes.register_mem {part : Bits} {v : Value} {r : Except Fault Unit}
    (hpart : part ∈ parts) (h : part.Writes v log r) :
    ∀ x ∈ log, x.register ∈ registers parts := by
  intro x hx
  obtain ⟨p, hp, hregister⟩ : ∃ p ∈ part.flatten, x.register = p.register := by
    cases h with
    | ranges hb h =>
        obtain ⟨p, hp, hregister⟩ := exists_of_writesInTurn h x hx
        exact ⟨p, List.mem_reverse.1 hp, hregister⟩
    | overflow hb hsplit h =>
        obtain ⟨answer, hturn, -⟩ := h
        obtain ⟨p, hp, hregister⟩ := exists_of_writesInTurn hturn x hx
        exact ⟨p, hsplit ▸ List.mem_append_right _ (List.mem_reverse.1 hp), hregister⟩
  exact hregister ▸ mem_registers hpart hp

theorem ReadsParts.register_mem {r : Except Halt Value} (h : ReadsParts parts log r) :
    ∀ x ∈ log, x.register ∈ registers parts := by
  obtain ⟨answer, hturn, -⟩ := h
  refine hturn.forall_log fun part hpart acc log r hread => ?_
  obtain ⟨answer, hreads, -⟩ := hread
  exact hreads.register_mem hpart

theorem WritesParts.register_mem {v : Value} {r : Except Halt Unit}
    (h : WritesParts v parts log r) :
    ∀ x ∈ log, x.register ∈ registers parts := by
  obtain ⟨answer, hturn, -⟩ := h
  exact hturn.forall_log fun part hpart _ _ _ hwrite => Bits.Writes.register_mem hpart hwrite

end

namespace Tree

variable [Bus σ]

theorem records_readDirect (parts : List Bits) :
    Records (readDirect parts : Access (Recorded σ) Value) (readDirect parts)
      (ReadsParts parts) := by
  refine records_foldlM (fun acc part => ?_) parts 0
  refine (records_ofFault (makes_selection part).1).bind ?_ fun log bits hbits => ?_
  · intro log e he
    obtain ⟨fault, rfl, hfault⟩ := he.of_error
    exact .error ⟨.error fault, hfault, rfl⟩
  · refine Records.pure (.ok ⟨.ok bits, ?_, rfl⟩)
    rw [List.append_nil]
    exact hbits.of_ok

theorem records_writeDirect (parts : List Bits) (v : Value) :
    Records (writeDirect parts v : Access (Recorded σ) Unit) (writeDirect parts v)
      (WritesParts v parts) := by
  have hfold : ∀ {τ : Type} [Bus τ], (writeDirect parts v : Access τ Unit) =
      parts.foldlM (fun _ part => Access.ofFault (part.write v)) () := by
    intro τ _
    unfold writeDirect
    induction parts with
    | nil => rfl
    | cons part parts ih =>
        rw [List.foldlM_cons]
        exact bind_congr fun _ => ih
  rw [hfold, hfold]
  exact records_foldlM (fun _ part => records_ofFault ((makes_selection part).2 v)) parts ()

end Tree

/-! ## Polls -/

/-- The reads that a poll makes one after the other, each of which goes as `once` describes. -/
def PollsBy (once : List Exchange → Except Halt Value → Prop) (mask expected : Value)
    (timeout : Error) (limit : Nat) (log : List Exchange) (r : Except Halt Value) : Prop :=
  ∃ (logs : Nat → List Exchange) (outcomes : Nat → Except Halt Value) (n : Nat),
    (∀ j < n, once (logs j) (outcomes j)) ∧
      Polls outcomes mask expected (.error timeout) limit n r ∧ log = (List.range n).flatMap logs

namespace PollsBy

variable {once : List Exchange → Except Halt Value → Prop} {mask expected : Value} {timeout : Error}
  {limit : Nat} {log log' : List Exchange}

theorem nil : PollsBy once mask expected timeout 0 [] (.error (.error timeout)) :=
  ⟨fun _ => [], fun _ => .error (.error timeout), 0, fun _ hj => absurd hj (Nat.not_lt_zero _),
    .timedOut fun _ hj => absurd hj (Nat.not_lt_zero _), rfl⟩

/-- The only read of a poll is one that does not miss. -/
theorem last {r : Except Halt Value} (h : once log r) (hr : ¬ Misses mask expected r) :
    PollsBy once mask expected timeout (limit + 1) log r := by
  refine ⟨fun _ => log, fun _ => r, 1, fun _ _ => h, ?_, by simp⟩
  have before : ∀ j < 0, Misses mask expected r := fun _ hj => absurd hj (Nat.not_lt_zero _)
  cases r with
  | error e => exact .failed (Nat.succ_pos limit) before rfl
  | ok v =>
      rw [misses_ok_iff, not_not] at hr
      exact .matched (Nat.succ_pos limit) before rfl hr

theorem again {r r' : Except Halt Value} (h : once log r) (hr : Misses mask expected r)
    (hrest : PollsBy once mask expected timeout limit log' r') :
    PollsBy once mask expected timeout (limit + 1) (log ++ log') r' := by
  obtain ⟨logs, outcomes, n, honce, hpolls, rfl⟩ := hrest
  refine ⟨fun j => j.casesOn log logs, fun j => j.casesOn r outcomes, n + 1, ?_,
    Polls.again hr hpolls, ?_⟩
  · rintro (_ | j) hj
    · exact h
    · exact honce j (Nat.lt_of_succ_lt_succ hj)
  · rw [List.range_succ_eq_map, List.flatMap_cons, List.flatMap_map]
    rfl

end PollsBy

namespace Tree

theorem records_pollWith {read' : Access (Recorded σ) Value} {read : Access σ Value}
    {once : List Exchange → Except Halt Value → Prop} (h : Records read' read once)
    (timeout : Error) (mask expected : Value) (limit : Nat) :
    Records (pollWith read' timeout mask expected limit)
      (pollWith read timeout mask expected limit)
      (PollsBy once mask expected timeout limit) := by
  induction limit with
  | zero => exact fun s before => ⟨[], by rw [List.append_nil]; rfl, .nil⟩
  | succ limit ih =>
      refine h.bind (fun log e he => .last he not_misses_error) fun log v hv => ?_
      split
      · next hmatch =>
          refine Records.pure (.last ?_ ?_)
          · rw [List.append_nil]
            exact hv
          · rw [misses_ok_iff]
            exact not_not.2 hmatch
      · next hmiss => exact ih.mono fun log' r hr => .again hv (misses_ok_iff.2 hmiss) hr

/-! ## Through paths -/

/-- An entry is a field over these parts. -/
def DirectAt (t : Tree) (id : EntryId) (parts : List Bits) : Prop :=
  ∃ f, t.entry id = .field f ∧ f.source = .direct parts

/-- An access to the direct field at a path: what is `described` for its parts, or no access and the
error of the path. -/
inductive Through (t : Tree) (scope : EntryId) (path : String)
    (described : List Bits → List Exchange → Except Halt α → Prop) :
    List Exchange → Except Halt α → Prop where
  | unresolved {e : Error} (h : t.target scope path = .error e) :
      Through t scope path described [] (.error (.error e))
  | resolved {id : EntryId} {parts : List Bits} {log : List Exchange} {r : Except Halt α}
      (h : t.target scope path = .ok id) (hid : t.DirectAt id parts) (hr : described parts log r) :
      Through t scope path described log r

variable {t : Tree} {scope : EntryId} {path : String}

/-- The registers of the field at a path. -/
def registersAt (t : Tree) (scope : EntryId) (path : String) : List Register :=
  match t.target scope path with
  | .ok id => (t.ranges id).map Range.register
  | .error _ => []

theorem Through.register_mem {described : List Bits → List Exchange → Except Halt α → Prop}
    {log : List Exchange} {r : Except Halt α} (h : t.Through scope path described log r)
    (hregister : ∀ parts log r, described parts log r →
      ∀ x ∈ log, x.register ∈ registers parts) :
    ∀ x ∈ log, x.register ∈ t.registersAt scope path := by
  cases h with
  | unresolved => exact fun x hx => absurd hx List.not_mem_nil
  | @resolved id parts _ _ h hid hr =>
      obtain ⟨f, hf, hparts⟩ := hid
      have hregisters : t.registersAt scope path = registers parts := by
        simp only [registersAt, h, ranges, hf, hparts, Source.ranges, registers]
      exact hregisters ▸ hregister parts _ _ hr

theorem records_through {described : List Bits → List Exchange → Except Halt α → Prop}
    {f' : EntryId → Access (Recorded σ) α} {f : EntryId → Access σ α}
    (hdirect : ∀ id, t.target scope path = .ok id → ∃ parts, t.DirectAt id parts)
    (h : ∀ id parts, t.DirectAt id parts → Records (f' id) (f id) (described parts)) :
    Records (Access.ofExcept (t.target scope path) >>= f')
      (Access.ofExcept (t.target scope path) >>= f) (t.Through scope path described) := by
  cases htarget : t.target scope path with
  | error e => exact fun s before => ⟨[], by rw [List.append_nil]; rfl, .unresolved htarget⟩
  | ok id =>
      obtain ⟨parts, hid⟩ := hdirect id htarget
      rw [ofExcept_ok, ofExcept_ok, pure_bind, pure_bind]
      exact (h id parts hid).mono fun log r hr => .resolved htarget hid hr

section

variable [Bus σ] {id : EntryId} {parts : List Bits}

theorem readWithin_direct (h : t.DirectAt id parts) (depth : Nat) :
    (t.readWithin (depth + 1) id : Access σ Value) = readDirect parts := by
  obtain ⟨f, hf, hparts⟩ := h
  rw [readWithin_field hf, hparts]

theorem writeWithin_direct (h : t.DirectAt id parts) (depth : Nat) (v : Value) :
    (t.writeWithin (depth + 1) id v : Access σ Unit) = writeDirect parts v := by
  obtain ⟨f, hf, hparts⟩ := h
  rw [writeWithin_field hf, hparts]

variable (hdirect : ∀ id, t.target scope path = .ok id → ∃ parts, t.DirectAt id parts) (depth : Nat)

include hdirect

theorem records_read_through :
    Records (Access.ofExcept (t.target scope path) >>= t.readWithin (depth + 1) :
        Access (Recorded σ) Value)
      (Access.ofExcept (t.target scope path) >>= t.readWithin (depth + 1))
      (t.Through scope path ReadsParts) := by
  refine records_through hdirect fun id parts hid => ?_
  rw [readWithin_direct hid, readWithin_direct hid]
  exact records_readDirect parts

theorem records_write_through (v : Value) :
    Records (Access.ofExcept (t.target scope path) >>= fun id => t.writeWithin (depth + 1) id v :
        Access (Recorded σ) Unit)
      (Access.ofExcept (t.target scope path) >>= fun id => t.writeWithin (depth + 1) id v)
      (t.Through scope path (WritesParts v)) := by
  refine records_through hdirect fun id parts hid => ?_
  rw [writeWithin_direct hid, writeWithin_direct hid]
  exact records_writeDirect parts v

theorem records_poll_through (mask expected : Value) :
    Records (t.pollAt (t.readWithin (depth + 1)) scope path mask expected :
        Access (Recorded σ) Value)
      (t.pollAt (t.readWithin (depth + 1)) scope path mask expected)
      (t.Through scope path fun parts =>
        PollsBy (ReadsParts parts) mask expected (.timeout path t.pollLimit) t.pollLimit) := by
  refine records_through hdirect fun id parts hid => ?_
  rw [readWithin_direct hid, readWithin_direct hid]
  exact records_pollWith (records_readDirect parts) _ mask expected t.pollLimit

end

end Tree

end RegisterAtlas
