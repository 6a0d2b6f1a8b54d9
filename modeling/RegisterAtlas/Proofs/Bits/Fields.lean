import Mathlib.Logic.Function.Conjugate
import RegisterAtlas.Proofs.Bits.Overlay
import RegisterAtlas.Proofs.Dump.Accesses
import RegisterAtlas.Proofs.Tree.Reachable

/-!
# Fields that share registers

Fields over bits of registers may share registers, where each write keeps what it does not cover.
`Range.lay` says what a write to one range does to everything that registers hold, so that writes
are functions on contents. Where two ranges have no bit in common and access a register they share
with one width, these functions commute (`Range.Apart.commute`), and what one of the ranges shows
is not touched by the other. This carries over to lists of ranges, to selections and to fields, for
which the parts are written one after the other and read into one value.
-/

namespace RegisterAtlas

namespace Bits

open Machine

variable {p q : Range} {ps qs : List Range} {parts : List Bits} {c : String × Value} {bit : Nat}

/-! ## Writes as functions on contents -/

/-- A bit of a register stays when a range is written. -/
def Range.Spares (p : Range) (c : String × Value) (bit : Nat) : Prop :=
  p.register.cell? = some c → bit < p.register.width.bits ∧ ¬ p.Covers c bit

theorem Range.Spares.lay (h : p.Spares c bit) (v : Value) (f : String × Value → Value) :
    (p.lay v f c).getLsbD bit = (f c).getLsbD bit := by
  by_cases hc : p.register.cell? = some c
  · obtain ⟨hbit, hnot⟩ := h hc
    have hnot : ¬ (p.low ≤ bit ∧ bit < p.low + p.count) := fun hcovers => hnot ⟨hc, hcovers⟩
    rw [Range.getLsbD_lay hc, if_neg hnot, decide_eq_true hbit, Bool.and_true]
  · rw [Range.lay_of_ne hc]

/-- What selections show, joined into one value. -/
def shown (m : Machine) (parts : List Bits) (v : Value) : Value :=
  parts.foldl (fun v part => v ||| BitVec.ofNat 128 (slices m part.flatten)) v

end Bits

/-! ## Fields of a tree -/

namespace Tree

open Bits

variable {t : Tree} {a b : EntryId} {da db : Datatype} {xs ys : List Bits}

theorem shiftRight_and_mask (v : Value) (low count : Nat) :
    (v >>> low) &&& mask count = (v.extractLsb' low count).setWidth 128 := by
  ext i hi
  rw [← BitVec.getLsbD_eq_getElem, ← BitVec.getLsbD_eq_getElem, BitVec.getLsbD_and, getLsbD_mask,
    BitVec.getLsbD_setWidth, BitVec.getLsbD_extractLsb', BitVec.getLsbD_ushiftRight]
  simp [hi, Bool.and_comm]

/-- A field of a bit range reads the register and shows just the bits. -/
theorem readWithin_range {σ : Type} [Bus σ] {r : Register} {low count : Nat}
    (h : t.entry a = .field (.direct da (.range r low count))) (depth : Nat) :
    (t.readWithin (depth + 1) a : Access σ Value) =
      Access.ofFault r.read >>= fun v => pure ((v.extractLsb' low count).setWidth 128) := by
  refine (readWithin_field h depth).trans (Action.ext_runOn fun w => ?_)
  simp only [Field.direct, readDirect, List.foldlM_cons, List.foldlM_nil, Bits.read,
    Access.ofFault, Action.runOn_bind, Action.runOn_mapError]
  cases hrun : r.read.runOn w with
  | mk result w' =>
      cases result with
      | error fault => rfl
      | ok v =>
          have hzero (x : Value) : 0 ||| x = x := BitVec.zero_or
          simp only [Action.runOn_pure, shiftRight_and_mask, hzero]

theorem read_range {σ : Type} [Bus σ] {r : Register} {low count : Nat}
    (h : t.entry a = .field (.direct da (.range r low count))) :
    (t.read a : Access σ Value) =
      Access.ofFault r.read >>= fun v => pure ((v.extractLsb' low count).setWidth 128) := by
  rw [read, maxNesting_eq_succ, readWithin_range h]

end Tree

end RegisterAtlas
