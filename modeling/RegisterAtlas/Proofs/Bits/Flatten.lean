import RegisterAtlas.Register

/-!
# Selections as lists of ranges

A selection joins ranges of registers in any nesting. This file shows that the nesting does not
matter: reading and writing a selection is reading and writing its ranges one after the other.
`read_eq_readRanges` and `write_eq_writeRanges` are equations between actions, so they hold on every
bus, whatever its registers answer and wherever an access fails.

The nesting matters only where it joins a part of 2³² bits or more, as the bits of a part are
counted with 32 bits. Selections without such a part are `Countable`, among them all that have fewer
bits themselves. An access to any other one goes through some of its ranges and then ends in an
overflow (`read_eq_overflow`, `write_eq_overflow`).

The value read is put together by `shiftIn` and the value written is taken apart by `shiftOut`. Both
are described bit by bit, which covers ranges of 128 bits and selections that are wider still.
-/

namespace RegisterAtlas.Bits

/-! ## Shifting bits in and out -/

theorem getLsbD_shiftIn (acc : Value) (width : Nat) (bits : Value) {i : Nat} (hi : i < 128) :
    (shiftIn acc width bits).getLsbD i =
      (decide (width ≤ i) && acc.getLsbD (i - width) || bits.getLsbD i) := by
  unfold shiftIn valueBits
  split
  · next h =>
      have hw : ¬ width ≤ i := by omega
      simp [hw]
  · simp only [BitVec.getLsbD_or, BitVec.getLsbD_shiftLeft]
    by_cases hw : width ≤ i
    · have hw' : ¬ i < width := by omega
      simp [hi, hw, hw']
    · have hw' : i < width := by omega
      simp [hw, hw']

theorem getLsbD_shiftOut (v : Value) (width i : Nat) :
    (shiftOut v width).getLsbD i = v.getLsbD (width + i) := by
  unfold shiftOut valueBits
  split
  · next h => simp [BitVec.getLsbD_of_ge v (width + i) (by omega)]
  · rw [BitVec.getLsbD_ushiftRight]

theorem getLsbD_merge (old : Value) (low count : Nat) (v : Value) {i : Nat} (hi : i < 128) :
    (merge old low count v).getLsbD i =
      if low ≤ i ∧ i < low + count then v.getLsbD (i - low) else old.getLsbD i := by
  simp only [merge, BitVec.getLsbD_or, BitVec.getLsbD_and, BitVec.getLsbD_not,
    BitVec.getLsbD_shiftLeft, getLsbD_mask, hi]
  by_cases hl : low ≤ i
  · have hl' : ¬ i < low := by omega
    have hk : i - low < 128 := by omega
    by_cases hc : i < low + count
    · have hc' : i - low < count := by omega
      simp [hl, hl', hk, hc, hc']
    · have hc' : ¬ i - low < count := by omega
      simp [hl', hk, hc, hc']
  · have hl' : i < low := by omega
    simp [hl, hl']

theorem shiftIn_zero_left (width : Nat) (bits : Value) : shiftIn 0 width bits = bits := by
  apply BitVec.eq_of_getLsbD_eq
  intro i hi
  rw [getLsbD_shiftIn _ _ _ hi]
  simp

theorem shiftIn_zero_zero (acc : Value) : shiftIn acc 0 0 = acc := by
  apply BitVec.eq_of_getLsbD_eq
  intro i hi
  rw [getLsbD_shiftIn _ _ _ hi]
  simp

/-- Bits can be put together before they are put to the right of others. -/
theorem shiftIn_shiftIn (acc : Value) (m n : Nat) (a b : Value) :
    shiftIn (shiftIn acc m a) n b = shiftIn acc (m + n) (shiftIn a n b) := by
  apply BitVec.eq_of_getLsbD_eq
  intro i hi
  rw [getLsbD_shiftIn _ _ _ hi, getLsbD_shiftIn _ _ _ hi, getLsbD_shiftIn _ _ _ hi]
  by_cases hn : n ≤ i
  · rw [getLsbD_shiftIn _ _ _ (show i - n < 128 by omega)]
    by_cases hm : m ≤ i - n
    · have hmn : m + n ≤ i := by omega
      have he : i - n - m = i - (m + n) := by omega
      simp [hn, hm, hmn, he, Bool.or_assoc]
    · have hmn : ¬ m + n ≤ i := by omega
      simp [hn, hm, hmn]
  · have hmn : ¬ m + n ≤ i := by omega
    simp [hn, hmn]

@[simp] theorem shiftOut_zero (v : Value) : shiftOut v 0 = v := by
  apply BitVec.eq_of_getLsbD_eq
  intro i _
  rw [getLsbD_shiftOut, Nat.zero_add]

theorem shiftOut_shiftOut (v : Value) (m n : Nat) :
    shiftOut (shiftOut v m) n = shiftOut v (m + n) := by
  apply BitVec.eq_of_getLsbD_eq
  intro i _
  rw [getLsbD_shiftOut, getLsbD_shiftOut, getLsbD_shiftOut, Nat.add_assoc]

/-! ## Ranges -/

/-- The number of bits of ranges side by side. -/
def widthOf : List Range → Nat
  | [] => 0
  | p :: ps => p.count + widthOf ps

@[simp] theorem widthOf_nil : widthOf [] = 0 := rfl

@[simp] theorem widthOf_cons (p : Range) (ps : List Range) :
    widthOf (p :: ps) = p.count + widthOf ps := rfl

@[simp] theorem widthOf_append (ps qs : List Range) :
    widthOf (ps ++ qs) = widthOf ps + widthOf qs := by
  induction ps with
  | nil => simp
  | cons p ps ih => rw [List.cons_append, widthOf_cons, ih, widthOf_cons, Nat.add_assoc]

mutual

theorem widthOf_flatten : ∀ b : Bits, widthOf b.flatten = b.width
  | .range r low count => rfl
  | .joined parts => by rw [flatten, width, widthOf_flattenParts parts]

theorem widthOf_flattenParts : ∀ parts : List Bits,
    widthOf (flattenParts parts) = totalWidth parts
  | [] => rfl
  | part :: rest => by
      rw [flattenParts, totalWidth, widthOf_append, widthOf_flatten part,
        widthOf_flattenParts rest]

end

theorem flattenParts_append (xs ys : List Bits) :
    flattenParts (xs ++ ys) = flattenParts xs ++ flattenParts ys := by
  induction xs with
  | nil => rfl
  | cons x xs ih => rw [List.cons_append, flattenParts, flattenParts, ih, List.append_assoc]

theorem flatten_append (a b : Bits) : (a ++ b).flatten = a.flatten ++ b.flatten := by
  cases a with
  | range r low count =>
      show flattenParts [.range r low count, b] = _
      rw [flattenParts, flattenParts, flattenParts, List.append_nil]
  | joined parts =>
      show flattenParts (parts ++ [b]) = flattenParts parts ++ b.flatten
      rw [flattenParts_append, flattenParts, flattenParts, List.append_nil]

/-! ## Counting bits -/

/-- The bits of each part that is joined can be counted with 32 bits. -/
def Countable : Bits → Prop
  | range .. => True
  | joined parts => ∀ part ∈ parts, part.width < wordCount 32

theorem word?_of_lt {n : Nat} (h : n < wordCount 32) : word? n = some n := if_pos h

theorem word?_of_le {n : Nat} (h : wordCount 32 ≤ n) : word? n = none := if_neg (Nat.not_lt.2 h)

mutual

theorem width?_eq : ∀ b : Bits, b.width? = word? b.width
  | .range r low count => rfl
  | .joined parts => by
      rw [width?, totalWidth?_eq 0 parts (wordCount_pos 32), Nat.zero_add, width]

/-- A sum that is out of range stays so, as nothing is taken from it. -/
theorem totalWidth?_eq : ∀ (sum : Nat) (parts : List Bits), sum < wordCount 32 →
    totalWidth? sum parts = word? (sum + totalWidth parts)
  | sum, [], hsum => (word?_of_lt hsum).symm
  | sum, part :: rest, hsum => by
      rw [totalWidth?, width?_eq part, totalWidth]
      by_cases hwidth : part.width < wordCount 32
      · rw [word?_of_lt hwidth, Option.bind_eq_bind, Option.bind_some, add?]
        by_cases hnext : sum + part.width < wordCount 32
        · rw [word?_of_lt hnext, Option.bind_some, totalWidth?_eq _ rest hnext, Nat.add_assoc]
        · rw [word?_of_le (Nat.le_of_not_lt hnext), word?_of_le (by omega)]
          rfl
      · rw [word?_of_le (Nat.le_of_not_lt hwidth), word?_of_le (by omega)]
        rfl

end

theorem width_le_totalWidth {part : Bits} {parts : List Bits} (h : part ∈ parts) :
    part.width ≤ totalWidth parts := by
  induction parts with
  | nil => cases h
  | cons first rest ih =>
      rw [totalWidth]
      rcases List.mem_cons.1 h with rfl | h
      · exact Nat.le_add_right ..
      · exact Nat.le_trans (ih h) (Nat.le_add_left ..)

theorem Countable.of_width_lt {b : Bits} (h : b.width < wordCount 32) : b.Countable := by
  cases b with
  | range r low count => trivial
  | joined parts => exact fun part hpart => Nat.lt_of_le_of_lt (width_le_totalWidth hpart) h

section

variable {σ : Type} {part : Bits}

theorem counted_of_lt (h : part.width < wordCount 32) :
    (part.counted : Action Fault σ Nat) = pure part.width := by
  rw [counted, width?_eq, word?_of_lt h]

theorem counted_of_le (h : wordCount 32 ≤ part.width) :
    (part.counted : Action Fault σ Nat) = throw .overflow := by
  rw [counted, width?_eq, word?_of_le h]

end

/-! ## Access range by range -/

variable {σ : Type} [Bus σ]

/-- Reads ranges from the most to the least significant, behind the bits that `acc` holds. -/
def readRanges (acc : Value) : List Range → Action Fault σ Value
  | [] => pure acc
  | p :: ps => do
      let bits ← p.toBits.read
      readRanges (shiftIn acc p.count bits) ps

/-- Writes ranges from the least to the most significant; each takes the bits above those of the
ranges behind it. -/
def writeRanges : List Range → Value → Action Fault σ Unit
  | [], _ => pure ()
  | p :: ps, v => do
      writeRanges ps v
      p.toBits.write (shiftOut v (widthOf ps))

theorem readRanges_append (acc : Value) (ps qs : List Range) :
    (readRanges acc (ps ++ qs) : Action Fault σ Value) =
      readRanges acc ps >>= fun v => readRanges v qs := by
  induction ps generalizing acc with
  | nil => rw [List.nil_append, readRanges, pure_bind]
  | cons p ps ih => simp only [List.cons_append, readRanges, ih, bind_assoc]

/-- What ranges hold can be read on its own and then be put behind other bits. -/
theorem readRanges_eq_shiftIn (acc : Value) (ps : List Range) :
    (readRanges acc ps : Action Fault σ Value) =
      readRanges 0 ps >>= fun v => pure (shiftIn acc (widthOf ps) v) := by
  induction ps generalizing acc with
  | nil => rw [readRanges, readRanges, pure_bind, widthOf_nil, shiftIn_zero_zero]
  | cons p ps ih =>
      simp only [readRanges, bind_assoc]
      refine bind_congr fun bits => ?_
      rw [shiftIn_zero_left, ih (shiftIn acc p.count bits), ih bits, bind_assoc]
      refine bind_congr fun v => ?_
      rw [pure_bind, shiftIn_shiftIn, widthOf_cons]

theorem writeRanges_append (ps qs : List Range) (v : Value) :
    (writeRanges (ps ++ qs) v : Action Fault σ Unit) =
      writeRanges qs v >>= fun _ => writeRanges ps (shiftOut v (widthOf qs)) := by
  induction ps with
  | nil => simp [writeRanges]
  | cons p ps ih =>
      simp only [List.cons_append, writeRanges, ih, bind_assoc, shiftOut_shiftOut, widthOf_append]
      refine bind_congr fun _ => bind_congr fun _ => ?_
      rw [Nat.add_comm]

mutual

theorem read_eq_readRanges : ∀ b : Bits, b.Countable →
    (b.read : Action Fault σ Value) = readRanges 0 b.flatten
  | .range r low count, _ => by
      simp only [flatten, readRanges, Range.toBits, shiftIn_zero_left, bind_pure]
  | .joined parts, h => by rw [read, flatten, readParts_eq_readRanges 0 parts h]

theorem readParts_eq_readRanges : ∀ (acc : Value) (parts : List Bits),
    (∀ part ∈ parts, part.width < wordCount 32) →
      (readParts acc parts : Action Fault σ Value) = readRanges acc (flattenParts parts)
  | acc, [], _ => rfl
  | acc, part :: rest, h => by
      obtain ⟨hpart, hrest⟩ := List.forall_mem_cons.1 h
      rw [readParts, counted_of_lt hpart, pure_bind, flattenParts, readRanges_append,
        readRanges_eq_shiftIn acc part.flatten, read_eq_readRanges part (.of_width_lt hpart),
        bind_assoc]
      refine bind_congr fun bits => ?_
      rw [pure_bind, widthOf_flatten, readParts_eq_readRanges _ rest hrest]

end

mutual

theorem write_eq_writeRanges : ∀ (b : Bits) (v : Value), b.Countable →
    (b.write v : Action Fault σ Unit) = writeRanges b.flatten v
  | .range r low count, v, _ => by simp [flatten, writeRanges, Range.toBits]
  | .joined parts, v, h => by
      rw [write, flatten, writeParts_eq_writeRanges parts v h, bind_assoc]
      simp

theorem writeParts_eq_writeRanges : ∀ (parts : List Bits) (v : Value),
    (∀ part ∈ parts, part.width < wordCount 32) →
      (writeParts parts v : Action Fault σ Value) =
        writeRanges (flattenParts parts) v >>= fun _ => pure (shiftOut v (totalWidth parts))
  | [], v, _ => by simp [writeParts, flattenParts, writeRanges, totalWidth]
  | part :: rest, v, h => by
      obtain ⟨hpart, hrest⟩ := List.forall_mem_cons.1 h
      rw [writeParts, flattenParts, writeRanges_append, writeParts_eq_writeRanges rest v hrest,
        bind_assoc, bind_assoc]
      refine bind_congr fun _ => ?_
      rw [pure_bind, write_eq_writeRanges part _ (.of_width_lt hpart), counted_of_lt hpart,
        widthOf_flattenParts]
      refine bind_congr fun _ => ?_
      rw [pure_bind, shiftOut_shiftOut, totalWidth, Nat.add_comm]

end

/-! ## Parts with too many bits -/

/-- The ranges of the parts in front of the first one with too many bits are read. -/
theorem readParts_eq_overflow {parts : List Bits}
    (h : ¬ ∀ part ∈ parts, part.width < wordCount 32) :
    ∃ front back, flattenParts parts = front ++ back ∧ ∀ (σ : Type) [Bus σ] (acc : Value),
      (readParts acc parts : Action Fault σ Value) =
        readRanges acc front >>= fun _ => throw .overflow := by
  induction parts with
  | nil => exact absurd nofun h
  | cons part rest ih =>
      by_cases hpart : part.width < wordCount 32
      · obtain ⟨front, back, hsplit, hread⟩ :=
          ih fun hrest => h (List.forall_mem_cons.2 ⟨hpart, hrest⟩)
        refine ⟨part.flatten ++ front, back, by rw [flattenParts, hsplit, List.append_assoc],
          fun σ _ acc => ?_⟩
        rw [readParts, counted_of_lt hpart, pure_bind, readRanges_append,
          readRanges_eq_shiftIn acc part.flatten, read_eq_readRanges part (.of_width_lt hpart),
          bind_assoc, bind_assoc]
        refine bind_congr fun bits => ?_
        rw [pure_bind, widthOf_flatten, hread]
      · refine ⟨[], flattenParts (part :: rest), rfl, fun σ _ acc => ?_⟩
        rw [readParts, counted_of_le (Nat.le_of_not_lt hpart), Action.throw_bind, readRanges,
          pure_bind]

/-- A read that comes to a part with too many bits has read ranges from the most significant one on,
and then ends. -/
theorem read_eq_overflow {b : Bits} (h : ¬ b.Countable) :
    ∃ front back, b.flatten = front ++ back ∧ ∀ (σ : Type) [Bus σ],
      (b.read : Action Fault σ Value) = readRanges 0 front >>= fun _ => throw .overflow := by
  cases b with
  | range r low count => exact absurd trivial h
  | joined parts =>
      obtain ⟨front, back, hsplit, hread⟩ := readParts_eq_overflow h
      exact ⟨front, back, hsplit, fun σ _ => hread σ 0⟩

mutual

/-- A write that comes to a part with too many bits has written ranges from the least significant
one on, and then ends. -/
theorem write_eq_overflow : ∀ b : Bits, ¬ b.Countable →
    ∃ front back, b.flatten = front ++ back ∧ ∀ (σ : Type) [Bus σ] (v : Value),
      (b.write v : Action Fault σ Unit) = writeRanges back v >>= fun _ => throw .overflow
  | .range .., h => absurd trivial h
  | .joined parts, h => by
      obtain ⟨front, back, hsplit, hwrite⟩ := writeParts_eq_overflow parts h
      refine ⟨front, back, hsplit, fun σ _ v => ?_⟩
      rw [write, hwrite, bind_assoc]
      rfl

theorem writeParts_eq_overflow : ∀ parts : List Bits,
    (¬ ∀ part ∈ parts, part.width < wordCount 32) →
      ∃ front back, flattenParts parts = front ++ back ∧ ∀ (σ : Type) [Bus σ] (v : Value),
        (writeParts parts v : Action Fault σ Value) =
          writeRanges back v >>= fun _ => throw .overflow
  | [], h => absurd nofun h
  | part :: rest, h => by
      by_cases hrest : ∀ part ∈ rest, part.width < wordCount 32
      · have hpart : wordCount 32 ≤ part.width :=
          Nat.le_of_not_lt fun hpart => h (List.forall_mem_cons.2 ⟨hpart, hrest⟩)
        -- the part itself is written before its bits are counted, if its own parts allow it
        obtain ⟨front, back, hsplit, hwrite⟩ : ∃ front back, part.flatten = front ++ back ∧
            ∀ (σ : Type) [Bus σ] (v : Value),
              (part.write v >>= fun _ => throw .overflow : Action Fault σ Value) =
                writeRanges back v >>= fun _ => throw .overflow := by
          by_cases hcount : part.Countable
          · exact ⟨[], part.flatten, rfl, fun σ _ v => by rw [write_eq_writeRanges part v hcount]⟩
          · obtain ⟨front, back, hsplit, hwrite⟩ := write_eq_overflow part hcount
            refine ⟨front, back, hsplit, fun σ _ v => ?_⟩
            rw [hwrite, bind_assoc]
            rfl
        refine ⟨front, back ++ flattenParts rest,
          by rw [flattenParts, hsplit, List.append_assoc], fun σ _ v => ?_⟩
        rw [writeParts, writeRanges_append, writeParts_eq_writeRanges rest v hrest, bind_assoc,
          bind_assoc]
        refine bind_congr fun _ => ?_
        rw [pure_bind, counted_of_le hpart, widthOf_flattenParts, ← hwrite]
        rfl
      · obtain ⟨front, back, hsplit, hwrite⟩ := writeParts_eq_overflow rest hrest
        refine ⟨part.flatten ++ front, back, by rw [flattenParts, hsplit, List.append_assoc],
          fun σ _ v => ?_⟩
        rw [writeParts, hwrite, bind_assoc]
        rfl

end

end RegisterAtlas.Bits
