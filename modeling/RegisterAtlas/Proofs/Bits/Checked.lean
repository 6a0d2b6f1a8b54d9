import RegisterAtlas.Proofs.Bits.Overlay

/-!
# Arithmetic within words

The numbers of bits in a selection are words of 32 bits and what is read and written are values of
128 bits. Accesses check no more than the widths of the parts. Here every step of arithmetic is
checked: a sum must be a word, nothing may be taken from less, and a value is shifted by less than
128 bits. `checked_arithmetic` says that no check fails as long as the width of the whole selection
is a word, on any bus and for any value, so that checked and plain arithmetic are the same.

The checks hold because each range that can be selected has at least one bit and lies within its
register (`built_iff`).
-/

namespace RegisterAtlas

namespace Bits

/-! ## Steps of arithmetic -/

def sub? (m n : Nat) : Option Nat := if n ≤ m then some (m - n) else none

def shiftLeft? (v : Value) (n : Nat) : Option Value :=
  if n < valueBits then some (v <<< n) else none

def shiftRight? (v : Value) (n : Nat) : Option Value :=
  if n < valueBits then some (v >>> n) else none

def mask? (bits : Nat) : Option Value :=
  if valueBits ≤ bits then some (BitVec.allOnes 128)
  else do
    let next ← shiftLeft? 1 bits
    if 1 ≤ next then some (next - 1) else none

def shiftIn? (acc : Value) (width : Nat) (bits : Value) : Option Value :=
  if valueBits ≤ width then some bits
  else do
    let shifted ← shiftLeft? acc width
    some (shifted ||| bits)

def shiftOut? (v : Value) (width : Nat) : Option Value :=
  if valueBits ≤ width then some 0 else shiftRight? v width

/-- Replaces the bits of `old` under `field` from `low` on by those of `v`. -/
def merge? (old : Value) (low : Nat) (field v : Value) : Option Value := do
  let hole ← shiftLeft? field low
  let bits ← shiftLeft? (v &&& field) low
  some (old &&& ~~~hole ||| bits)

variable {m n low : Nat}

theorem sub?_of_le (h : n ≤ m) : sub? m n = some (m - n) := if_pos h

theorem shiftLeft?_of_lt (v : Value) (h : n < valueBits) : shiftLeft? v n = some (v <<< n) :=
  if_pos h

theorem shiftRight?_of_lt (v : Value) (h : n < valueBits) : shiftRight? v n = some (v >>> n) :=
  if_pos h

theorem one_shiftLeft (bits : Nat) :
    (1 : Value) <<< bits = BitVec.ofNat 128 (wordCount bits) := by
  apply BitVec.eq_of_toNat_eq
  simp [BitVec.toNat_shiftLeft, Nat.shiftLeft_eq, wordCount]

/-- A mask of less than 128 bits is one less than the bit beyond it, which is not zero. -/
@[simp] theorem mask?_eq (bits : Nat) : mask? bits = some (mask bits) := by
  unfold mask? mask
  split
  · rfl
  · next h =>
      have hlt : bits < valueBits := Nat.lt_of_not_le h
      have hpow : wordCount bits < 2 ^ 128 := Nat.pow_lt_pow_right (by decide) hlt
      have hpos := wordCount_pos bits
      have hone : (1 : Value) ≤ BitVec.ofNat 128 (wordCount bits) := by
        rw [BitVec.le_def, BitVec.toNat_ofNat, Nat.mod_eq_of_lt hpow]
        exact hpos
      rw [shiftLeft?_of_lt _ hlt, one_shiftLeft, Option.bind_eq_bind, Option.bind_some,
        if_pos hone]
      congr 1
      apply BitVec.eq_of_toNat_eq
      rw [BitVec.toNat_sub_of_le hone, BitVec.toNat_ofNat, BitVec.toNat_ofNat,
        Nat.mod_eq_of_lt hpow, Nat.mod_eq_of_lt (by omega)]
      rfl

@[simp] theorem shiftIn?_eq (acc : Value) (width : Nat) (bits : Value) :
    shiftIn? acc width bits = some (shiftIn acc width bits) := by
  unfold shiftIn? shiftIn
  split
  · rfl
  · next h => rw [shiftLeft?_of_lt _ (Nat.lt_of_not_le h)]; rfl

@[simp] theorem shiftOut?_eq (v : Value) (width : Nat) :
    shiftOut? v width = some (shiftOut v width) := by
  unfold shiftOut? shiftOut
  split
  · rfl
  · next h => rw [shiftRight?_of_lt _ (Nat.lt_of_not_le h)]

theorem merge?_eq (old : Value) (count : Nat) (v : Value) (h : low < valueBits) :
    merge? old low (mask count) v = some (merge old low count v) := by
  rw [merge?, shiftLeft?_of_lt _ h, shiftLeft?_of_lt _ h]
  rfl

/-! ## Checked selections -/

/-- The bits `high` down to `low` of a register, with a checked number of them. -/
def select? (r : Register) (high low : Nat) : Option (Except RangeError Bits) :=
  if low ≤ high ∧ high < r.width.bits then do
    let count ← add? (← sub? high low) 1
    some (.ok (.range r low count))
  else some (.error ⟨r.address, r.width, high, low⟩)

mutual

def text? : Bits → Option String
  | range r low count => do
      let high ← sub? (← add? low count) 1
      some (r.space.describe ++ "@0x" ++ Text.hex r.address.toNat ++ "[" ++ toString high ++ ":" ++
        toString low ++ "]")
  | joined parts => do
      let parts ← texts? parts
      some ("[" ++ String.intercalate ", " parts ++ "]")

def texts? : List Bits → Option (List String)
  | [] => some []
  | part :: rest => do
      let text ← part.text?
      let texts ← texts? rest
      some (text :: texts)

end

/-- What ends a checked access: a fault of the register, or a step of arithmetic that is out of
range. -/
inductive Stop where
  | fault (fault : Fault)
  | arithmetic

section

variable {σ α : Type}

/-- A step of arithmetic on the way. -/
def checked : Option α → Action Stop σ α
  | some x => pure x
  | none => throw .arithmetic

@[simp] theorem checked_some (x : α) : (checked (some x) : Action Stop σ α) = pure x := rfl

end

section

variable {σ : Type} [Bus σ]

mutual

def readChecked : Bits → Action Stop σ Value
  | range r low count => do
      let raw ← r.read.mapError .fault
      let shifted ← checked (shiftRight? raw low)
      let field ← checked (mask? count)
      pure (shifted &&& field)
  | joined parts => readPartsChecked 0 parts

def readPartsChecked (acc : Value) : List Bits → Action Stop σ Value
  | [] => pure acc
  | part :: rest => do
      let width ← checked part.width?
      let bits ← part.readChecked
      let acc ← checked (shiftIn? acc width bits)
      readPartsChecked acc rest

end

mutual

def writeChecked : Bits → Value → Action Stop σ Unit
  | range r low count, v => do
      let field ← checked (mask? count)
      if low = 0 ∧ count = r.width.bits then (r.write (v &&& field)).mapError .fault
      else do
        let old ← r.read.mapError .fault
        let updated ← checked (merge? old low field v)
        (r.write updated).mapError .fault
  | joined parts, v => do
      let _ ← writePartsChecked parts v
      pure ()

def writePartsChecked : List Bits → Value → Action Stop σ Value
  | [], v => pure v
  | part :: rest, v => do
      let left ← writePartsChecked rest v
      part.writeChecked left
      let width ← checked part.width?
      checked (shiftOut? left width)

end

end

/-! ## Ranges that can be selected -/

theorem Range.Proper.low_lt {p : Range} (h : p.Proper) : p.low < valueBits := by
  have hpos := h.pos
  have hfits : p.low + p.count ≤ p.register.width.bits := h.fits
  have hbits := p.register.width.bits_le
  show p.low < 128
  omega

theorem Range.Proper.lt_wordCount {p : Range} (h : p.Proper) : p.low + p.count < wordCount 32 := by
  have hfits : p.low + p.count ≤ p.register.width.bits := h.fits
  exact Nat.lt_of_le_of_lt (hfits.trans p.register.width.bits_le) (by decide)

theorem select?_eq (r : Register) (high low : Nat) :
    select? r high low = some (r.bits high low) := by
  unfold select? Register.bits
  split
  · next h =>
      have hbits := r.width.bits_le
      have hle : high - low + 1 ≤ 128 := by omega
      have hcount : high - low + 1 < wordCount 32 := Nat.lt_of_le_of_lt hle (by decide)
      rw [sub?_of_le h.1, Option.bind_eq_bind, Option.bind_some, add?, word?_of_lt hcount]
      rfl
  · rfl

mutual

theorem built_of_proper : ∀ b : Bits, (∀ p ∈ b.flatten, p.Proper) → b.Built
  | .range r low count, h => by
      obtain ⟨hpos, hfits⟩ := h ⟨r, low, count⟩ List.mem_cons_self
      have hpos : 1 ≤ count := hpos
      have hfits : low + count ≤ r.width.bits := hfits
      have hbits : r.bits (low + count - 1) low = .ok (.range r low count) :=
        bits_eq_ok_iff.2 ⟨by omega, by congr 1; omega⟩
      exact .bits hbits
  | .joined parts, h => .concat (built_of_proper_parts parts h)

theorem built_of_proper_parts : ∀ parts : List Bits, (∀ p ∈ flattenParts parts, p.Proper) →
    ∀ part ∈ parts, part.Built
  | [], _ => fun _ h => absurd h List.not_mem_nil
  | part :: rest, h => by
      obtain ⟨hpart, hrest⟩ := List.forall_mem_append.1 h
      exact List.forall_mem_cons.2 ⟨built_of_proper part hpart, built_of_proper_parts rest hrest⟩

end

/-- Selections are built of proper ranges, in any nesting. -/
theorem built_iff {b : Bits} : b.Built ↔ ∀ p ∈ b.flatten, p.Proper :=
  ⟨Built.proper, built_of_proper b⟩

/-! ## Texts -/

mutual

theorem text?_eq : ∀ b : Bits, (∀ p ∈ b.flatten, p.Proper) → b.text? = some b.text
  | .range r low count, h => by
      have hproper := h ⟨r, low, count⟩ List.mem_cons_self
      have hlt : low + count < wordCount 32 := hproper.lt_wordCount
      have hone : 1 ≤ low + count := Nat.le_add_left_of_le hproper.pos
      rw [text?, add?, word?_of_lt hlt, Option.bind_eq_bind, Option.bind_some, sub?_of_le hone]
      rfl
  | .joined parts, h => by
      rw [text?, texts?_eq parts h]
      rfl

theorem texts?_eq : ∀ parts : List Bits, (∀ p ∈ flattenParts parts, p.Proper) →
    texts? parts = some (texts parts)
  | [], _ => rfl
  | part :: rest, h => by
      obtain ⟨hpart, hrest⟩ := List.forall_mem_append.1 h
      rw [texts?, text?_eq part hpart, texts?_eq rest hrest]
      rfl

end

/-! ## Accesses -/

variable {σ : Type} [Bus σ]

mutual

theorem readChecked_eq : ∀ b : Bits, (∀ p ∈ b.flatten, p.Proper) → b.width < wordCount 32 →
    (b.readChecked : Action Stop σ Value) = b.read.mapError .fault
  | .range r low count, h, _ => by
      have hlow := (h ⟨r, low, count⟩ List.mem_cons_self).low_lt
      rw [readChecked, read, Action.mapError_bind]
      refine bind_congr fun raw => ?_
      rw [shiftRight?_of_lt raw hlow, mask?_eq, checked_some, checked_some, pure_bind, pure_bind,
        Action.mapError_pure]
  | .joined parts, h, hwidth => readPartsChecked_eq 0 parts h hwidth

theorem readPartsChecked_eq : ∀ (acc : Value) (parts : List Bits),
    (∀ p ∈ flattenParts parts, p.Proper) → totalWidth parts < wordCount 32 →
      (readPartsChecked acc parts : Action Stop σ Value) = (readParts acc parts).mapError .fault
  | acc, [], _, _ => rfl
  | acc, part :: rest, h, hwidth => by
      obtain ⟨hpart, hrest⟩ := List.forall_mem_append.1 h
      rw [totalWidth] at hwidth
      have hwidthPart : part.width < wordCount 32 := Nat.lt_of_le_of_lt (Nat.le_add_right ..) hwidth
      rw [readPartsChecked, readParts, width?_eq, word?_of_lt hwidthPart, checked_some,
        counted_of_lt hwidthPart, pure_bind, pure_bind, readChecked_eq part hpart hwidthPart,
        Action.mapError_bind]
      refine bind_congr fun bits => ?_
      rw [shiftIn?_eq, checked_some, pure_bind]
      exact readPartsChecked_eq _ rest hrest (Nat.lt_of_le_of_lt (Nat.le_add_left ..) hwidth)

end

mutual

theorem writeChecked_eq : ∀ (b : Bits) (v : Value), (∀ p ∈ b.flatten, p.Proper) →
    b.width < wordCount 32 → (b.writeChecked v : Action Stop σ Unit) = (b.write v).mapError .fault
  | .range r low count, v, h, _ => by
      have hlow := (h ⟨r, low, count⟩ List.mem_cons_self).low_lt
      rw [writeChecked, write, mask?_eq, checked_some, pure_bind]
      split
      · rfl
      · rw [Action.mapError_bind]
        refine bind_congr fun old => ?_
        rw [merge?_eq old count v hlow, checked_some, pure_bind]
  | .joined parts, v, h, hwidth => by
      rw [writeChecked, write, writePartsChecked_eq parts v h hwidth, Action.mapError_bind]
      rfl

theorem writePartsChecked_eq : ∀ (parts : List Bits) (v : Value),
    (∀ p ∈ flattenParts parts, p.Proper) → totalWidth parts < wordCount 32 →
      (writePartsChecked parts v : Action Stop σ Value) = (writeParts parts v).mapError .fault
  | [], _, _, _ => rfl
  | part :: rest, v, h, hwidth => by
      obtain ⟨hpart, hrest⟩ := List.forall_mem_append.1 h
      rw [totalWidth] at hwidth
      have hwidthPart : part.width < wordCount 32 := Nat.lt_of_le_of_lt (Nat.le_add_right ..) hwidth
      rw [writePartsChecked, writeParts, Action.mapError_bind,
        writePartsChecked_eq rest v hrest (Nat.lt_of_le_of_lt (Nat.le_add_left ..) hwidth)]
      refine bind_congr fun left => ?_
      rw [Action.mapError_bind, writeChecked_eq part left hpart hwidthPart]
      refine bind_congr fun _ => ?_
      rw [width?_eq, word?_of_lt hwidthPart, checked_some, counted_of_lt hwidthPart, pure_bind,
        pure_bind, shiftOut?_eq, checked_some, Action.mapError_pure]

end

/-! ## The width of what is read -/

theorem toNat_lt_two_pow_iff {v : Value} : v.toNat < 2 ^ n ↔ ∀ i, n ≤ i → v.getLsbD i = false := by
  constructor
  · intro h i hi
    exact Nat.testBit_lt_two_pow (Nat.lt_of_lt_of_le h (Nat.pow_le_pow_right (by decide) hi))
  · exact fun h => Nat.lt_pow_two_of_testBit _ h

/-- Bits put to the right of others make room for themselves and no more. -/
theorem shiftIn_lt {acc bits : Value} (hacc : acc.toNat < 2 ^ m) (hbits : bits.toNat < 2 ^ n) :
    (shiftIn acc n bits).toNat < 2 ^ (m + n) := by
  rw [toNat_lt_two_pow_iff] at hacc hbits ⊢
  intro i hi
  by_cases hvalue : i < 128
  · rw [getLsbD_shiftIn _ _ _ hvalue, hacc (i - n) (by omega), hbits i (by omega), Bool.and_false,
      Bool.or_false]
  · exact BitVec.getLsbD_of_ge _ _ (Nat.le_of_not_lt hvalue)

theorem and_mask_lt (v : Value) (count : Nat) : (v &&& mask count).toNat < 2 ^ count := by
  rw [toNat_lt_two_pow_iff]
  intro i hi
  rw [BitVec.getLsbD_and, getLsbD_mask, decide_eq_false (by omega), Bool.and_false]

/-- Ranges read behind bits take the room of their own width. -/
theorem lt_of_readRanges {ps : List Range} {acc v : Value} {s s' : σ} (hacc : acc.toNat < 2 ^ m)
    (hrun : (readRanges acc ps : Action Fault σ Value).runOn s = (.ok v, s')) :
    v.toNat < 2 ^ (m + widthOf ps) := by
  induction ps generalizing acc m s with
  | nil =>
      cases hrun
      exact hacc
  | cons p ps ih =>
      simp only [readRanges, Range.toBits, read, bind_assoc, pure_bind] at hrun
      rw [Action.runOn_bind] at hrun
      split at hrun
      · next raw s₁ _ =>
          rw [widthOf_cons, ← Nat.add_assoc]
          exact ih (shiftIn_lt hacc (and_mask_lt _ _)) hrun
      · cases hrun

theorem lt_of_read {b : Bits} (hb : b.Countable) {v : Value} {s s' : σ}
    (hrun : (b.read : Action Fault σ Value).runOn s = (.ok v, s')) :
    v.toNat < 2 ^ min b.width 128 := by
  rw [read_eq_readRanges b hb] at hrun
  have hwidth : v.toNat < 2 ^ (0 + widthOf b.flatten) := lt_of_readRanges (by decide) hrun
  rw [Nat.zero_add, widthOf_flatten] at hwidth
  rcases Nat.le_total b.width 128 with h | h
  · rwa [Nat.min_eq_left h]
  · rw [Nat.min_eq_right h]
    exact v.isLt

/-- Selecting bits fails just where the register does not have them, and what can be built from
selections is what has ranges of at least one bit within their registers. The checks of the widths
fail just where the whole width is no word. Where it is one, no check fails in reading, in writing
any value or in the text, whatever the registers answer, and what is read has no more bits than were
selected. -/
theorem checked_arithmetic :
    (∀ (r : Register) (high low : Nat), select? r high low = some (r.bits high low) ∧
      ((∃ e, r.bits high low = .error e) ↔ high < low ∨ r.width.bits ≤ high)) ∧
    (∀ b : Bits, b.Built ↔
      ∀ p ∈ b.flatten, 1 ≤ p.count ∧ p.low + p.count ≤ p.register.width.bits) ∧
    (∀ a b : Bits, (a ++ b).width = a.width + b.width) ∧
    ∀ b : Bits, b.Built →
      b.width? = (if b.width < 2 ^ 32 then some b.width else none) ∧
      (b.width < 2 ^ 32 →
        b.text? = some b.text ∧
        ∀ (σ : Type) [Bus σ],
          (b.readChecked : Action Stop σ Value) = b.read.mapError .fault ∧
          (∀ v, (b.writeChecked v : Action Stop σ Unit) = (b.write v).mapError .fault) ∧
          ∀ (s s' : σ) (v : Value), (b.read : Action Fault σ Value).runOn s = (.ok v, s') →
            v.toNat < 2 ^ min b.width 128) := by
  refine ⟨fun r high low => ⟨select?_eq r high low, ?_⟩, fun b => built_iff.trans ?_, width_append,
    fun b hb => ?_⟩
  · unfold Register.bits
    split
    · next h => simp [h]
    · next h =>
        have hout : high < low ∨ r.width.bits ≤ high := by omega
        simp [hout]
  · exact forall₂_congr fun p _ => ⟨fun h => ⟨h.pos, h.fits⟩, fun h => ⟨h.1, h.2⟩⟩
  · have hproper := hb.proper
    refine ⟨width?_eq b, fun hwidth => ⟨text?_eq b hproper,
      fun σ _ => ⟨?_, fun v => ?_, fun s s' v => lt_of_read (.of_width_lt hwidth)⟩⟩⟩
    · exact readChecked_eq b hproper hwidth
    · exact writeChecked_eq b v hproper hwidth

def wideRegister : Register := ⟨.simulated "wide", 0, .w128⟩

/-- The highest bits of a register and behind them the same register as a whole. -/
def wideField : Bits := .range wideRegister 120 8 ++ concat [concat [], wideRegister.all]

/-- What is written beside 128 bits is nothing, and what was read before them is lost. -/
theorem checked_arithmetic_wideField :
    wideField.Built ∧ wideField.width? = some 136 ∧
    wideField.text? = some "[sim:wide@0x0[127:120], [[], sim:wide@0x0[127:0]]]" ∧
    (∀ v, (wideField.writeChecked v : Action Stop Machine Unit) =
      (wideField.write v).mapError .fault) ∧
    (wideField.readChecked : Action Stop Machine Value) = wideField.read.mapError .fault ∧
    ((do wideField.write (BitVec.allOnes 128); wideField.read :
        Action Fault Machine Value).runOn {}).1 = .ok (BitVec.ofNat 128 (2 ^ 120 - 1)) := by
  have hb : wideField.Built := by
    have hhigh : wideRegister.bits 127 120 = .ok (.range wideRegister 120 8) := rfl
    refine .append (.bits hhigh) (.concat fun part hpart => ?_)
    rcases List.mem_cons.1 hpart with rfl | hpart
    · exact .concat fun _ h => absurd h List.not_mem_nil
    · rw [List.mem_singleton.1 hpart]
      exact .all wideRegister
  have hwidth : wideField.width < 2 ^ 32 := by decide
  obtain ⟨-, -, -, harithmetic⟩ := checked_arithmetic
  obtain ⟨hwidth?, hchecked⟩ := harithmetic _ hb
  obtain ⟨htext, haccess⟩ := hchecked hwidth
  obtain ⟨hread, hwrite, -⟩ := haccess Machine
  rw [if_pos hwidth] at hwidth?
  exact ⟨hb, hwidth?, htext.trans (by decide), hwrite, hread, by decide⟩

end Bits

end RegisterAtlas
