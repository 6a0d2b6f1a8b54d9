import RegisterAtlas.Proofs.Bits.Accesses
import RegisterAtlas.Proofs.Dump.Run

/-!
# The accesses of a dump

Where all fields are bits of registers or constants, a dump only reads: one register for each range
of bits, in the order of the leaves, and no further one when a read has failed. `Records.then` puts
the reads of two actions one behind the other, and the rest goes along the definitions, from ranges
to selections, fields and leaves.
-/

namespace RegisterAtlas

open Recorded Bits

variable {ε ε' σ α β : Type}

/-! ## Reads of ranges -/

/-- The register of a range is read once. -/
def Bits.Range.IsRead (p : Range) (_ : Unit) (log : List Exchange) (r : Except Fault Unit) : Prop :=
  ∃ answer : Except Fault Value, log = [.read p.register answer] ∧ r = answer.map fun _ => ()

/-- The register of each range is read once, one after the other, and an action whose accesses these
are fails if one of them does. -/
def ReadsOnce (ps : List Range) (log : List Exchange) (r : Except ε α) : Prop :=
  ∃ answer : Except Fault Unit, InTurn Range.IsRead ps () log answer ∧ answer.isOk = r.isOk

namespace ReadsOnce

variable {ps qs : List Range} {log log' : List Exchange}

theorem nil {x : α} : ReadsOnce [] [] (.ok x : Except ε α) := ⟨.ok (), .done, rfl⟩

theorem congr {r : Except ε α} {r' : Except ε' β} (h : ReadsOnce ps log r)
    (hr : r.isOk = r'.isOk) : ReadsOnce ps log r' := by
  obtain ⟨answer, hturn, hok⟩ := h
  exact ⟨answer, hturn, hok.trans hr⟩

theorem append {x : α} {r : Except ε' β} (h : ReadsOnce ps log (.ok x : Except ε α))
    (h' : ReadsOnce qs log' r) : ReadsOnce (ps ++ qs) (log ++ log') r := by
  obtain ⟨answer, hturn, hok⟩ := h
  obtain ⟨answer', hturn', hok'⟩ := h'
  cases answer with
  | error fault => cases hok
  | ok u => exact ⟨answer', hturn.append hturn', hok'⟩

theorem append_stop {e : ε} (h : ReadsOnce ps log (.error e : Except ε α)) :
    ReadsOnce (ps ++ qs) log (.error e : Except ε β) := by
  obtain ⟨answer, hturn, hok⟩ := h
  cases answer with
  | error fault => exact ⟨.error fault, hturn.append_stop, rfl⟩
  | ok u => cases hok

theorem of_reads {acc : Value} {r : Except Fault Value} (h : InTurn Range.Reads ps acc log r) :
    ReadsOnce ps log r := by
  refine ⟨r.map fun _ => (), h.map (fun _ => ()) ?_, by cases r <;> rfl⟩
  rintro p acc log r (fault | raw)
  · exact ⟨.error fault, rfl, rfl⟩
  · exact ⟨.ok raw, rfl, rfl⟩

end ReadsOnce

section

variable {ps qs : List Range} {recorded : Action ε (Recorded σ) α} {a : Action ε σ α}

/-- Reads are put together as the actions are. -/
theorem readsOnce_bind {f' : α → Action ε (Recorded σ) β} {f : α → Action ε σ β}
    (h : Records recorded a (ReadsOnce ps)) (hf : ∀ x, Records (f' x) (f x) (ReadsOnce qs)) :
    Records (recorded >>= f') (a >>= f) (ReadsOnce (ps ++ qs)) :=
  h.bind (fun _ _ hlog => hlog.append_stop) fun _ x hlog => (hf x).mono fun _ _ hlog' =>
    hlog.append hlog'

/-- What is done to the result makes no accesses. -/
theorem readsOnce_map (h : Records recorded a (ReadsOnce ps)) (g : α → β) :
    Records (do pure (g (← recorded))) (do pure (g (← a))) (ReadsOnce ps) := by
  rw [← List.append_nil ps]
  exact readsOnce_bind h fun x => Records.pure .nil

theorem readsOnce_mapError {g : ε → ε'} (h : Records recorded a (ReadsOnce ps)) :
    Records (recorded.mapError g) (a.mapError g) (ReadsOnce ps) :=
  h.mapError fun _ r hlog => hlog.congr (by cases r <;> rfl)

end

variable [Bus σ]

/-! ## Fields and leaves -/

theorem readsOnce_selection {b : Bits} (hb : b.Countable) :
    Records (Access.ofFault b.read : Access (Recorded σ) Value) (Access.ofFault b.read)
      (ReadsOnce b.flatten) := by
  rw [read_eq_readRanges b hb, read_eq_readRanges b hb]
  exact readsOnce_mapError ((makes_readRanges 0 b.flatten).mono fun _ _ h => .of_reads h)

namespace Tree

theorem readsOnce_readDirect {parts : List Bits} (hparts : ∀ part ∈ parts, part.Countable) :
    Records (readDirect parts : Access (Recorded σ) Value) (readDirect parts)
      (ReadsOnce (flattenParts parts)) := by
  unfold readDirect
  generalize (0 : Value) = acc
  induction parts generalizing acc with
  | nil => exact Records.pure .nil
  | cons part parts ih =>
      obtain ⟨hpart, hparts⟩ := List.forall_mem_cons.1 hparts
      rw [List.foldlM_cons, List.foldlM_cons, flattenParts]
      exact readsOnce_bind (readsOnce_map (readsOnce_selection hpart) _) (ih hparts)

end Tree

/-- Fields whose value is that of registers or never changes. -/
inductive Source.IsPlain : Source → Prop where
  | direct {parts : List Bits} (h : ∀ part ∈ parts, part.Countable) : IsPlain (.direct parts)
  | constant {v : Value} : IsPlain (.constant v)

/-- The ranges of registers that a plain field shows. -/
def Source.ranges : Source → List Range
  | .direct parts => flattenParts parts
  | _ => []

namespace Tree

variable {t : Tree} {id : EntryId} {f : Field}

theorem readsOnce_evaluateWithin (h : t.entry id = .field f) (hplain : f.source.IsPlain)
    (depth : Nat) :
    Records (t.evaluateWithin (depth + 1) id : Access (Recorded σ) String)
      (t.evaluateWithin (depth + 1) id) (ReadsOnce f.source.ranges) := by
  rw [evaluateWithin_field h, evaluateWithin_field h]
  refine readsOnce_map ?_ _
  rw [readWithin_field h, readWithin_field h]
  cases hsource : f.source with
  | direct parts =>
      rw [hsource] at hplain
      cases hplain with
      | direct hparts => exact readsOnce_readDirect hparts
  | constant v => exact Records.pure .nil
  | _ => rw [hsource] at hplain; cases hplain

/-- What a dump reads at an entry. -/
def ranges (t : Tree) (id : EntryId) : List Range :=
  match t.entry id with
  | .field f => f.source.ranges
  | _ => []

theorem readsOnce_dumpLeafWithin (hleaf : (t.entry id).IsLeaf)
    (hplain : ∀ f, t.entry id = .field f → f.source.IsPlain) (depth : Nat) :
    Records (t.dumpLeafWithin (depth + 1) id : Access (Recorded σ) DumpEntry)
      (t.dumpLeafWithin (depth + 1) id) (ReadsOnce (t.ranges id)) := by
  rw [ranges]
  cases he : t.entry id with
  | field f =>
      rw [dumpLeafWithin_field he, dumpLeafWithin_field he]
      have hvalue := readsOnce_evaluateWithin (σ := σ) he (hplain f he) depth
      exact readsOnce_map (readsOnce_mapError hvalue) _
  | «alias» target =>
      rw [dumpLeafWithin_alias he, dumpLeafWithin_alias he]
      exact Records.pure .nil
  | _ => rw [he] at hleaf; cases hleaf

theorem readsOnce_mapM (ids : List EntryId) (hleaf : ∀ id ∈ ids, (t.entry id).IsLeaf)
    (hplain : ∀ id ∈ ids, ∀ f, t.entry id = .field f → f.source.IsPlain) (depth : Nat) :
    Records (ids.mapM (t.dumpLeafWithin (depth + 1)) : Access (Recorded σ) (List DumpEntry))
      (ids.mapM (t.dumpLeafWithin (depth + 1))) (ReadsOnce (ids.flatMap t.ranges)) := by
  induction ids with
  | nil => exact Records.pure .nil
  | cons id ids ih =>
      rw [List.forall_mem_cons] at hleaf hplain
      rw [List.mapM_cons, List.mapM_cons, List.flatMap_cons]
      exact readsOnce_bind (readsOnce_dumpLeafWithin hleaf.1 hplain.1 depth) fun entry =>
        readsOnce_map (ih hleaf.2 hplain.2) _

end Tree

end RegisterAtlas
