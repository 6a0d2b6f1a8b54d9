import Mathlib.Algebra.BigOperators.Fin
import Mathlib.Tactic.FinCases
import Mathlib.Tactic.Ring
import RegisterAtlas.Proofs.Bits.Flatten
import RegisterAtlas.Proofs.Machine.PlainBank

/-!
# What selections show and what they overlay

Over plain banks a selection has a meaning bit by bit, whatever its nesting and also where its
ranges overlap. Reading puts the slices of its ranges side by side. Writing lays the bits of the
value over the registers: where several ranges cover a bit the most significant one decides,
because it is written last, and every other bit stays.

The ranges that reach one register must agree on the width of the access. Otherwise a narrow write
would cut off bits that a wider range had stored. A selection with a part whose bits are too many to
be counted has no such meaning, as no access to it comes to its end.
-/

namespace RegisterAtlas.Bits

open Machine

/-- The selections that can be built: bits of a register that fit it, whole registers, and what is
joined from such selections. -/
inductive Built : Bits → Prop where
  | bits {r : Register} {high low : Nat} {b : Bits} (h : r.bits high low = .ok b) : Built b
  | all (r : Register) : Built r.all
  | concat {parts : List Bits} (h : ∀ part ∈ parts, Built part) : Built (concat parts)
  | append {a b : Bits} (ha : Built a) (hb : Built b) : Built (a ++ b)

/-- A range lies within its register. -/
def Range.Fits (p : Range) : Prop := p.low + p.count ≤ p.register.width.bits

theorem mem_flattenParts {p : Range} {parts : List Bits} :
    p ∈ flattenParts parts ↔ ∃ part ∈ parts, p ∈ part.flatten := by
  induction parts with
  | nil => simp [flattenParts]
  | cons part rest ih => simp [flattenParts, ih]

theorem bits_eq_ok_iff {r : Register} {high low : Nat} {b : Bits} :
    r.bits high low = .ok b ↔
      (low ≤ high ∧ high < r.width.bits) ∧ b = .range r low (high - low + 1) := by
  unfold Register.bits
  split
  · next h => simp [h, eq_comm]
  · next h => simp [h]

/-- A range of at least one bit that lies within its register. -/
structure Range.Proper (p : Range) : Prop where
  pos : 1 ≤ p.count
  fits : p.Fits

theorem Built.proper {b : Bits} (hb : b.Built) : ∀ p ∈ b.flatten, p.Proper := by
  induction hb with
  | @bits r high low b h =>
      obtain ⟨hr, rfl⟩ := bits_eq_ok_iff.1 h
      intro p hp
      rw [List.mem_singleton.1 hp]
      refine ⟨Nat.le_add_left 1 _, ?_⟩
      show low + (high - low + 1) ≤ r.width.bits
      omega
  | all r =>
      intro p hp
      rw [List.mem_singleton.1 hp]
      exact ⟨r.width.bits_pos, Nat.le_of_eq (Nat.zero_add _)⟩
  | concat _ ih =>
      intro p hp
      obtain ⟨part, hpart, hp⟩ := mem_flattenParts.1 hp
      exact ih part hpart p hp
  | append _ _ iha ihb =>
      intro p hp
      rw [flatten_append] at hp
      exact (List.mem_append.1 hp).elim (iha p) (ihb p)

theorem Built.fits {b : Bits} (hb : b.Built) : ∀ p ∈ b.flatten, p.Fits :=
  fun p hp => (hb.proper p hp).fits

/-! ## Slices -/

/-- The number of bits to the right of a range of a list. -/
def offset (ps : List Range) (i : Nat) : Nat := widthOf (ps.drop (i + 1))

@[simp] theorem offset_cons_zero (p : Range) (ps : List Range) : offset (p :: ps) 0 = widthOf ps :=
  rfl

@[simp] theorem offset_cons_succ (p : Range) (ps : List Range) (i : Nat) :
    offset (p :: ps) (i + 1) = offset ps i := rfl

/-- What the bank of a register holds at its address. -/
def held (m : Machine) (r : Register) : Value := (r.cell?.map m.value).getD 0

/-- The bits of a range as its register holds them. -/
def slice (m : Machine) (p : Range) : Nat :=
  ((held m p.register).extractLsb' p.low p.count).toNat

/-- The slices of ranges side by side. -/
def slices (m : Machine) (ps : List Range) : Nat :=
  ∑ i : Fin ps.length, slice m ps[i] * 2 ^ offset ps i

theorem held_of_cell {m : Machine} {r : Register} {c : String × Value} (h : r.cell? = some c) :
    held m r = m.value c := by
  rw [held, h]
  rfl

/-- The ranges are taken from plain banks. -/
def OnPlainBanks (m : Machine) (ps : List Range) : Prop :=
  ∀ p ∈ ps, ∃ c, p.register.cell? = some c ∧ m.PlainBank c.1

theorem OnPlainBanks.mono {m : Machine} {ps qs : List Range} (h : OnPlainBanks m qs)
    (hps : ∀ p ∈ ps, p ∈ qs) : OnPlainBanks m ps := fun p hp => h p (hps p hp)

/-- A range contains a bit of a register of a bank. -/
def Range.Covers (p : Range) (c : String × Value) (bit : Nat) : Prop :=
  p.register.cell? = some c ∧ p.low ≤ bit ∧ bit < p.low + p.count

/-- What registers hold once the lowest bits of a value were put into a range. -/
def Range.lay (p : Range) (v : Value) (f : String × Value → Value) : String × Value → Value :=
  fun c =>
    if p.register.cell? = some c then p.register.width.truncate (merge (f c) p.low p.count v)
    else f c

theorem Range.lay_of_ne {p : Range} {c : String × Value} (hc : p.register.cell? ≠ some c)
    (v : Value) (f : String × Value → Value) : p.lay v f c = f c := if_neg hc

theorem Range.getLsbD_lay {p : Range} {c : String × Value} (hc : p.register.cell? = some c)
    (v : Value) (f : String × Value → Value) (bit : Nat) :
    (p.lay v f c).getLsbD bit =
      ((if p.low ≤ bit ∧ bit < p.low + p.count then v.getLsbD (bit - p.low)
        else (f c).getLsbD bit) && decide (bit < p.register.width.bits)) := by
  rw [Range.lay, if_pos hc, Width.getLsbD_truncate]
  by_cases hbit : bit < p.register.width.bits
  · rw [getLsbD_merge _ _ _ _ (Nat.lt_of_lt_of_le hbit p.register.width.bits_le)]
  · simp [hbit]

/-- The machine `m'` holds what `m` holds with the bits of a value laid over it along ranges. -/
structure Overlay (ps : List Range) (v : Value) (m m' : Machine) : Prop where
  /-- A bit is taken from the value at the place of the most significant range that covers it. -/
  covered : ∀ (i : Nat) (hi : i < ps.length) (c : String × Value) (bit : Nat),
    ps[i].Covers c bit → (∀ (j : Nat) (hj : j < i), ¬ ps[j].Covers c bit) →
      (m'.value c).getLsbD bit = v.getLsbD (offset ps i + (bit - ps[i].low))
  /-- Other bits of the registers that the ranges are taken from stay, as far as they are
  accessed. -/
  uncovered : ∀ p ∈ ps, ∀ (c : String × Value) (bit : Nat), p.register.cell? = some c →
    bit < p.register.width.bits → (∀ q ∈ ps, ¬ q.Covers c bit) →
      (m'.value c).getLsbD bit = (m.value c).getLsbD bit
  /-- All other registers stay. -/
  unnamed : ∀ c : String × Value, (∀ p ∈ ps, p.register.cell? ≠ some c) → m'.value c = m.value c

/-- The ranges taken from one register access it with one width. -/
def SameWidths (ps : List Range) : Prop :=
  ∀ p ∈ ps, ∀ q ∈ ps, p.register.cell? = q.register.cell? → p.register.width = q.register.width

theorem SameWidths.mono {ps qs : List Range} (h : SameWidths qs) (hps : ∀ p ∈ ps, p ∈ qs) :
    SameWidths ps := fun p hp q hq => h p (hps p hp) q (hps q hq)

theorem Overlay.nil (v : Value) (m : Machine) : Overlay [] v m m where
  covered _ hi := absurd hi (Nat.not_lt_zero _)
  uncovered _ hp := absurd hp List.not_mem_nil
  unnamed _ _ := rfl

/-- A range written after others lies above them. -/
theorem Overlay.cons {p : Range} {ps : List Range} {v : Value} {m m₁ m₂ : Machine}
    {c : String × Value} (h : Overlay ps v m m₁) (hc : p.register.cell? = some c)
    (hfit : ∀ q ∈ p :: ps, q.Fits) (hw : SameWidths (p :: ps))
    (hother : ∀ c', c' ≠ c → m₂.value c' = m₁.value c')
    (hbits : ∀ bit < p.register.width.bits, (m₂.value c).getLsbD bit =
      if p.low ≤ bit ∧ bit < p.low + p.count then (shiftOut v (widthOf ps)).getLsbD (bit - p.low)
      else (m₁.value c).getLsbD bit) :
    Overlay (p :: ps) v m m₂ := by
  -- the bits beside the new range are still those below it
  have hkept : ∀ q ∈ p :: ps, ∀ (c' : String × Value) (bit : Nat), q.register.cell? = some c' →
      bit < q.register.width.bits → ¬ p.Covers c' bit →
        (m₂.value c').getLsbD bit = (m₁.value c').getLsbD bit := by
    intro q hq c' bit hqc hbit hnot
    by_cases hcc : c' = c
    · subst hcc
      have hwidth : p.register.width = q.register.width :=
        hw p List.mem_cons_self q hq (hc.trans hqc.symm)
      rw [hbits bit (hwidth ▸ hbit), if_neg fun hin => hnot ⟨hc, hin⟩]
    · rw [hother c' hcc]
  refine ⟨?covered, ?uncovered, ?unnamed⟩
  case covered =>
    intro i hi c' bit hcov hfirst
    have hqfit : (p :: ps)[i].Fits := hfit _ (List.getElem_mem hi)
    have hbit : bit < (p :: ps)[i].register.width.bits := Nat.lt_of_lt_of_le hcov.2.2 hqfit
    cases i with
    | zero =>
        obtain rfl : c = c' := Option.some.inj (hc.symm.trans hcov.1)
        have hin : p.low ≤ bit ∧ bit < p.low + p.count := hcov.2
        rw [hbits bit hbit, if_pos hin, getLsbD_shiftOut]
        rfl
    | succ i =>
        have hnot : ¬ p.Covers c' bit := hfirst 0 (Nat.succ_pos i)
        rw [hkept _ (List.getElem_mem hi) c' bit hcov.1 hbit hnot]
        exact h.covered i (Nat.lt_of_succ_lt_succ hi) c' bit hcov
          fun j hj => hfirst (j + 1) (Nat.succ_lt_succ hj)
  case uncovered =>
    intro q hq c' bit hqc hbit hnone
    have hnone' : ∀ q ∈ ps, ¬ q.Covers c' bit := fun q hq => hnone q (List.mem_cons_of_mem _ hq)
    rw [hkept q hq c' bit hqc hbit (hnone p List.mem_cons_self)]
    by_cases hnamed : ∃ q' ∈ ps, q'.register.cell? = some c'
    · obtain ⟨q', hq', hqc'⟩ := hnamed
      have hwidth : q.register.width = q'.register.width :=
        hw q hq q' (List.mem_cons_of_mem _ hq') (hqc.trans hqc'.symm)
      exact h.uncovered q' hq' c' bit hqc' (hwidth ▸ hbit) hnone'
    · rw [h.unnamed c' fun q' hq' hqc' => hnamed ⟨q', hq', hqc'⟩]
  case unnamed =>
    intro c' hnone
    have hcc : c' ≠ c := fun hcc => hnone p List.mem_cons_self (hcc ▸ hc)
    rw [hother c' hcc, h.unnamed c' fun q hq => hnone q (List.mem_cons_of_mem _ hq)]

/-- No bit is covered by two ranges. -/
def NoOverlap (ps : List Range) : Prop :=
  ps.Pairwise fun p q => ∀ (c : String × Value) (bit : Nat), p.Covers c bit → ¬ q.Covers c bit

/-- Where nothing else covers a range, it holds its share of the value that was laid over it. -/
theorem Overlay.slice_eq {ps : List Range} {v : Value} {m m' : Machine} (h : Overlay ps v m m')
    (hno : NoOverlap ps) {i : Nat} (hi : i < ps.length) {c : String × Value}
    (hc : ps[i].register.cell? = some c) :
    slice m' ps[i] = v.toNat / 2 ^ offset ps i % 2 ^ ps[i].count := by
  have hbits : (m'.value c).extractLsb' ps[i].low ps[i].count =
      v.extractLsb' (offset ps i) ps[i].count := by
    apply BitVec.eq_of_getLsbD_eq
    intro k hk
    have hcov : ps[i].Covers c (ps[i].low + k) := ⟨hc, by omega, by omega⟩
    have hbit := h.covered i hi c _ hcov fun j hj hcov' =>
      List.pairwise_iff_getElem.1 hno j i (by omega) hi hj c _ hcov' hcov
    rw [Nat.add_sub_cancel_left] at hbit
    simp [hk, hbit]
  rw [slice, held_of_cell hc, hbits, BitVec.extractLsb'_toNat, Nat.shiftRight_eq_div_pow]

section

variable {b : Bits} {m : Machine}

end

end RegisterAtlas.Bits
