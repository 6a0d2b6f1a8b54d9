import RegisterAtlas.Proofs.Datatype.Names
import RegisterAtlas.Proofs.Text.Joined
import Mathlib.Data.List.Sort

/-!
# Bitmasks

The bits of a value are shown in two rounds: first those that have a name, by their names in the
order of declaration, and then what is left, from the lowest bit on. `tokens_eq` says which texts
these are without going through the rounds. Each of them stands for one bit that is set, and each
bit that is set has at least one. So values can be told apart by their texts, unless a name looks
like two texts or like the token of a bit.
-/

namespace RegisterAtlas

/-! ## Single bits -/

@[simp] theorem getLsbD_flag (bit i : Nat) :
    (flag bit).getLsbD i = (decide (i < valueBits) && decide (i = bit)) := by
  rw [flag, BitVec.getLsbD_shiftLeft, BitVec.getLsbD_one, valueBits, Bool.eq_iff_iff]
  simp only [Bool.and_eq_true, Bool.not_eq_true', decide_eq_true_eq, decide_eq_false_iff_not]
  omega

/-- A value has a flag in common with others when it is one of them, or was there before. -/
theorem getLsbD_foldl_flag (bits : List Nat) (v : Value) (i : Nat) :
    (bits.foldl (fun acc bit => acc ||| flag bit) v).getLsbD i = true ↔
      v.getLsbD i = true ∨ i < valueBits ∧ i ∈ bits := by
  induction bits generalizing v with
  | nil => simp
  | cons bit bits ih =>
      rw [List.foldl_cons, ih, BitVec.getLsbD_or, getLsbD_flag, List.mem_cons]
      simp only [Bool.or_eq_true, Bool.and_eq_true, decide_eq_true_eq, or_assoc, and_or_left]

/-- A bit that is set is one of the bits of a value. -/
theorem lt_of_getLsbD {v : Value} {i : Nat} (h : v.getLsbD i = true) : i < valueBits :=
  BitVec.lt_of_getLsbD h

theorem and_flag_eq_zero_iff (v : Value) (bit : Nat) :
    v &&& flag bit = 0 ↔ v.getLsbD bit = false := by
  constructor
  · intro h
    refine Bool.eq_false_iff.2 fun hbit => ?_
    have hzero := congrArg (BitVec.getLsbD · bit) h
    simp [hbit, lt_of_getLsbD hbit] at hzero
  · intro h
    refine BitVec.eq_of_getLsbD_eq fun i hi => ?_
    rw [BitVec.getLsbD_and, getLsbD_flag]
    by_cases hbit : i = bit <;> simp [hbit, h]

theorem getLsbD_clearLowest {v : Value} (h : v ≠ 0) (i : Nat) :
    (clearLowest v).getLsbD i = (v.getLsbD i && decide (i ≠ v.ctz.toNat)) := by
  have hlowest : v.getLsbD v.ctz.toNat = true := BitVec.getLsbD_true_ctz_of_ne_zero h
  have hbelow : ∀ j < v.ctz.toNat, v.getLsbD j = false := fun j hj =>
    BitVec.getLsbD_false_of_lt_ctz hj
  have hsub : v - 1 = ~~~(-v) := (BitVec.not_neg v).symm
  rw [clearLowest, hsub, BitVec.getLsbD_and, BitVec.getLsbD_not, BitVec.getLsbD_neg,
    Bool.eq_iff_iff]
  simp only [Bool.and_eq_true, Bool.not_eq_true', decide_eq_true_eq]
  refine and_congr_right fun hi => ?_
  have hlt : i < 128 := lt_of_getLsbD hi
  simp only [hi, hlt, decide_true, Bool.true_and, Bool.true_xor, Bool.not_eq_false', true_and,
    decide_eq_true_eq]
  constructor
  · rintro ⟨j, hj, hset⟩ rfl
    exact Bool.false_ne_true ((hbelow j hj).symm.trans hset)
  · intro hne
    refine ⟨v.ctz.toNat, Nat.lt_of_le_of_ne (Nat.le_of_not_lt fun hlow => ?_) (Ne.symm hne),
      hlowest⟩
    exact Bool.false_ne_true ((hbelow i hlow).symm.trans hi)

/-! ## The bits of a value -/

/-- The bits that are set, in ascending order. -/
def setBits (v : Value) : List Nat := (List.range valueBits).filter (v.getLsbD ·)

theorem mem_setBits_iff {v : Value} {i : Nat} : i ∈ setBits v ↔ v.getLsbD i = true := by
  rw [setBits, List.mem_filter, List.mem_range]
  exact and_iff_right_of_imp lt_of_getLsbD

theorem sortedLT_setBits (v : Value) : (setBits v).SortedLT :=
  ((List.sortedLT_range valueBits).pairwise.sublist List.filter_sublist).sortedLT

theorem setBits_zero : setBits 0 = [] := by
  refine List.filter_eq_nil_iff.2 fun i _ => ?_
  simp

/-- The lowest bit comes first, and the others are those of the value without it. -/
theorem setBits_eq_cons {v : Value} (h : v ≠ 0) :
    setBits v = v.ctz.toNat :: setBits (clearLowest v) := by
  have hlowest : v.getLsbD v.ctz.toNat = true := BitVec.getLsbD_true_ctz_of_ne_zero h
  have hrest : ∀ i, i ∈ setBits (clearLowest v) ↔ v.getLsbD i = true ∧ i ≠ v.ctz.toNat := by
    intro i
    rw [mem_setBits_iff, getLsbD_clearLowest h, Bool.and_eq_true, decide_eq_true_eq]
  refine (sortedLT_setBits v).eq_of_mem_iff ?_ fun i => ?_
  · refine (List.pairwise_cons.2 ⟨fun i hi => ?_, (sortedLT_setBits _).pairwise⟩).sortedLT
    obtain ⟨hset, hne⟩ := (hrest i).1 hi
    refine Nat.lt_of_le_of_ne (Nat.le_of_not_lt fun hlow => ?_) (Ne.symm hne)
    exact Bool.false_ne_true ((BitVec.getLsbD_false_of_lt_ctz hlow).symm.trans hset)
  · rw [List.mem_cons, hrest, mem_setBits_iff]
    constructor
    · intro hi
      exact (Decidable.em (i = v.ctz.toNat)).imp_right fun hne => ⟨hi, hne⟩
    · rintro (rfl | ⟨hi, -⟩)
      · exact hlowest
      · exact hi

theorem bitTokens_eq (v : Value) :
    bitTokens v = (setBits v).map fun i => unknownToken (toString i) := by
  induction v using bitTokens.induct with
  | case1 => rw [bitTokens, if_pos rfl, setBits_zero, List.map_nil]
  | case2 v h ih => rw [bitTokens, if_neg h, ih, setBits_eq_cons h, List.map_cons]

/-! ## Names before tokens -/

/-- The bits of a value that no pair names, in ascending order. -/
def unnamedBits (named : List (String × Nat)) (v : Value) : List Nat :=
  (setBits v).filter (· ∉ named.map Prod.snd)

/-- The texts that show a value, each with the bit that it stands for. -/
def shownBits (named : List (String × Nat)) (v : Value) : List (String × Nat) :=
  (named.filter fun p => v.getLsbD p.2) ++
    (unnamedBits named v).map fun i => ("<!" ++ toString i ++ "!>", i)

section

variable {named : List (String × Nat)} {v : Value} {i : Nat}

theorem mem_unnamedBits_iff :
    i ∈ unnamedBits named v ↔ v.getLsbD i = true ∧ i ∉ named.map Prod.snd := by
  rw [unnamedBits, List.mem_filter, mem_setBits_iff, decide_eq_true_eq]

/-- A text is a name that stands for its bit, or the token of a bit without a name. -/
theorem mem_shownBits_iff {text : String} :
    (text, i) ∈ shownBits named v ↔ v.getLsbD i = true ∧
      ((text, i) ∈ named ∨ i ∉ named.map Prod.snd ∧ text = unknownToken (toString i)) := by
  rw [shownBits, List.mem_append, List.mem_filter, List.mem_map]
  constructor
  · rintro (⟨hmem, hset⟩ | ⟨j, hj, heq⟩)
    · exact ⟨hset, .inl hmem⟩
    · obtain ⟨rfl, rfl⟩ := Prod.mk.inj heq
      obtain ⟨hset, hnot⟩ := mem_unnamedBits_iff.1 hj
      exact ⟨hset, .inr ⟨hnot, rfl⟩⟩
  · rintro ⟨hset, hmem | ⟨hnot, rfl⟩⟩
    · exact .inl ⟨hmem, hset⟩
    · exact .inr ⟨i, mem_unnamedBits_iff.2 ⟨hset, hnot⟩, rfl⟩

/-- The bits that are shown are the bits that are set. -/
theorem mem_bits_shownBits_iff : i ∈ (shownBits named v).map Prod.snd ↔ v.getLsbD i = true := by
  constructor
  · intro hmem
    obtain ⟨⟨text, j⟩, hshown, rfl⟩ := List.mem_map.1 hmem
    exact (mem_shownBits_iff.1 hshown).1
  · intro hset
    by_cases hname : i ∈ named.map Prod.snd
    · obtain ⟨⟨name, j⟩, hmem, rfl⟩ := List.mem_map.1 hname
      exact List.mem_map.2 ⟨_, mem_shownBits_iff.2 ⟨hset, .inl hmem⟩, rfl⟩
    · exact List.mem_map.2 ⟨(_, i), mem_shownBits_iff.2 ⟨hset, .inr ⟨hname, rfl⟩⟩, rfl⟩

end

namespace BitmaskType

variable {b : BitmaskType} {pairs : List (String × Nat)} {v : Value} {i : Nat}

theorem takeNames_cons_of_set {p : String × Nat} (h : v.getLsbD p.2 = true)
    (entries : List (String × Nat)) (rest : Value) :
    takeNames v (p :: entries) rest =
      (p.1 :: (takeNames v entries (rest &&& ~~~flag p.2)).1,
        (takeNames v entries (rest &&& ~~~flag p.2)).2) := by
  have hflag : v &&& flag p.2 ≠ 0 := fun hzero =>
    Bool.false_ne_true (((and_flag_eq_zero_iff v p.2).1 hzero).symm.trans h)
  rw [takeNames, if_neg hflag]

theorem takeNames_cons_of_not_set {p : String × Nat} (h : ¬ v.getLsbD p.2 = true)
    (entries : List (String × Nat)) (rest : Value) :
    takeNames v (p :: entries) rest = takeNames v entries rest := by
  rw [takeNames, if_pos ((and_flag_eq_zero_iff v p.2).2 (Bool.eq_false_iff.2 h))]

/-- The names are those of the bits that are set, whatever is left already. -/
theorem takeNames_fst (v : Value) (entries : List (String × Nat)) (rest : Value) :
    (takeNames v entries rest).1 = (entries.filter fun p => v.getLsbD p.2).map Prod.fst := by
  induction entries generalizing rest with
  | nil => rfl
  | cons p entries ih =>
      rw [List.filter_cons]
      by_cases h : v.getLsbD p.2 = true
      · rw [takeNames_cons_of_set h, if_pos h, List.map_cons, ih]
      · rw [takeNames_cons_of_not_set h, if_neg h, ih]

/-- What is left has lost the bits that are set and have a name. -/
theorem getLsbD_takeNames_snd (v : Value) (entries : List (String × Nat)) (rest : Value) (i : Nat) :
    (takeNames v entries rest).2.getLsbD i = true ↔
      rest.getLsbD i = true ∧ ¬ (v.getLsbD i = true ∧ i ∈ entries.map Prod.snd) := by
  induction entries generalizing rest with
  | nil => simp [takeNames]
  | cons p entries ih =>
      rw [List.map_cons, List.mem_cons]
      by_cases h : v.getLsbD p.2 = true
      · rw [takeNames_cons_of_set h, ih, BitVec.getLsbD_and, BitVec.getLsbD_not, getLsbD_flag]
        by_cases hbit : i = p.2
        · subst hbit
          simp [h, lt_of_getLsbD h]
        · simp only [hbit, decide_false, Bool.and_false, Bool.not_false, Bool.and_true, false_or,
            Bool.and_eq_true, decide_eq_true_eq]
          exact and_congr_left fun _ => and_iff_left_of_imp lt_of_getLsbD
      · rw [takeNames_cons_of_not_set h, ih]
        refine and_congr_right fun _ => not_congr (and_congr_right fun hi => ?_)
        rw [or_iff_right]
        rintro rfl
        exact h hi

theorem tokens_eq (b : BitmaskType) (v : Value) :
    b.tokens v = (shownBits b.names.entries v).map Prod.fst := by
  have hrest : setBits (takeNames v b.names.entries v).2 = unnamedBits b.names.entries v := by
    refine (sortedLT_setBits _).eq_of_mem_iff ?_ fun i => ?_
    · exact ((sortedLT_setBits v).pairwise.sublist List.filter_sublist).sortedLT
    · rw [mem_setBits_iff, getLsbD_takeNames_snd, mem_unnamedBits_iff]
      exact and_congr_right fun hi => not_congr (and_iff_right hi)
  rw [tokens, shownBits, List.map_append, List.map_map, ← hrest]
  exact congrArg₂ _ (takeNames_fst ..) (bitTokens_eq _)

/-! ## Declared bits -/

theorem getLsbD_declared (b : BitmaskType) (i : Nat) :
    b.declared.getLsbD i = true ↔ i < valueBits ∧ i ∈ b.names.values := by
  rw [declared, getLsbD_foldl_flag]
  simp

/-- No bit of a value is beyond the declared ones if each of them has a name. -/
theorem and_not_declared_eq_zero_iff (b : BitmaskType) (v : Value) :
    v &&& ~~~b.declared = 0 ↔ unnamedBits b.names.entries v = [] := by
  have hbit : ∀ i, (v &&& ~~~b.declared).getLsbD i = true ↔ i ∈ unnamedBits b.names.entries v := by
    intro i
    rw [BitVec.getLsbD_and, BitVec.getLsbD_not, Bool.and_eq_true, mem_unnamedBits_iff]
    refine and_congr_right fun hi => ?_
    have hlt : i < valueBits := lt_of_getLsbD hi
    rw [Bool.and_eq_true, Bool.not_eq_true', ← Bool.not_eq_true, getLsbD_declared,
      decide_eq_true_eq]
    simp [hlt, Table.values, show i < 128 from hlt]
  rw [List.eq_nil_iff_forall_not_mem]
  constructor
  · intro hzero i hi
    rw [← hbit, hzero] at hi
    simp at hi
  · intro hnone
    refine BitVec.eq_of_getLsbD_eq fun i _ => ?_
    exact (Bool.eq_false_iff.2 (mt (hbit i).1 (hnone i))).trans BitVec.getLsbD_zero.symm

/-! ## Declarations -/

/-- One pair more, unless its bit is one that values do not have. -/
def declare (t : Table String Nat) (p : String × Nat) : Except Error (Table String Nat) :=
  if p.2 < valueBits then .ok (t.insertNew p.1 p.2)
  else .error (.invalidValue .bitmask (toString p.2))

theorem ofList_eq (pairs : List (String × Nat)) :
    ofList pairs = (pairs.foldlM declare ∅).map BitmaskType.mk := by
  change (pairs.foldlM declare ∅ >>= fun names => .ok (BitmaskType.mk names)) = _
  cases pairs.foldlM declare ∅ <;> rfl

theorem foldlM_declare_of_fits (h : ∀ p ∈ pairs, p.2 < valueBits) (t : Table String Nat) :
    pairs.foldlM declare t = .ok (pairs.foldl (fun t p => t.insertNew p.1 p.2) t) := by
  induction pairs generalizing t with
  | nil => rfl
  | cons p pairs ih =>
      obtain ⟨hp, hpairs⟩ := List.forall_mem_cons.1 h
      rw [List.foldlM_cons, declare, if_pos hp]
      exact ih hpairs _

theorem foldlM_declare_of_beyond (h : ∃ p ∈ pairs, valueBits ≤ p.2) (t : Table String Nat) :
    ∃ bit, valueBits ≤ bit ∧
      pairs.foldlM declare t = .error (.invalidValue .bitmask (toString bit)) := by
  induction pairs generalizing t with
  | nil =>
      obtain ⟨p, hp, -⟩ := h
      cases hp
  | cons p pairs ih =>
      rw [List.foldlM_cons, declare]
      by_cases hp : p.2 < valueBits
      · rw [if_pos hp]
        obtain ⟨q, hq, hbit⟩ := h
        rcases List.mem_cons.1 hq with rfl | hq
        · exact (Nat.not_lt_of_le hbit hp).elim
        · exact ih ⟨q, hq, hbit⟩ _
      · rw [if_neg hp]
        exact ⟨p.2, Nat.le_of_not_lt hp, rfl⟩

/-- A bitmask can be declared unless it names a bit that values do not have, and then it has the
pairs that count. -/
theorem ofList_cases (pairs : List (String × Nat)) :
    ((∃ p ∈ pairs, valueBits ≤ p.2) ∧ ∃ err, ofList pairs = .error err) ∨
    (∀ p ∈ pairs, p.2 < valueBits) ∧
      ∃ b, ofList pairs = .ok b ∧ b.names.entries = firstNamed pairs := by
  rw [ofList_eq]
  by_cases h : ∀ p ∈ pairs, p.2 < valueBits
  · refine .inr ⟨h, _, congrArg _ (foldlM_declare_of_fits h ∅), ?_⟩
    exact Table.entries_ofPairs pairs
  · push Not at h
    obtain ⟨bit, -, hfail⟩ := foldlM_declare_of_beyond h ∅
    exact .inl ⟨h, _, congrArg _ hfail⟩

theorem ofList_error_iff (pairs : List (String × Nat)) :
    (∃ err, ofList pairs = .error err) ↔ ∃ p ∈ pairs, valueBits ≤ p.2 := by
  rcases ofList_cases pairs with ⟨hbeyond, hfail⟩ | ⟨hfits, b, hok, -⟩
  · exact iff_of_true hfail hbeyond
  · refine iff_of_false ?_ ?_
    · rintro ⟨err, hfail⟩
      cases hok.symm.trans hfail
    · rintro ⟨p, hp, hbit⟩
      exact Nat.not_lt_of_le hbit (hfits p hp)

theorem entries_of_ofList (h : ofList pairs = .ok b) : b.names.entries = firstNamed pairs := by
  rcases ofList_cases pairs with ⟨-, err, hfail⟩ | ⟨-, b', hok, hentries⟩
  · cases hfail.symm.trans h
  · cases hok.symm.trans h
    exact hentries

/-! ## Telling values apart -/

/-- Names that can be told from each other in a row, and from the tokens of bits. -/
def Legible (named : List (String × Nat)) : Prop :=
  ∀ p ∈ named, p.1 ≠ "" ∧ ' ' ∉ p.1.toList ∧ ∀ i < valueBits, p.1 ≠ "<!" ++ toString i ++ "!>"

variable {named : List (String × Nat)} {v w : Value}

theorem space_notMem_unknownToken (n : Nat) : ' ' ∉ (unknownToken (toString n)).toList := by
  have hdigits : ' ' ∉ (toString n).toList := by
    change ' ' ∉ n.repr.toList
    rw [Nat.toList_repr]
    exact Text.notMem_toDigits (by decide) n
  simp only [unknownToken, String.toList_append, List.mem_append, not_or]
  exact ⟨⟨by decide, hdigits⟩, by decide⟩

/-- No text of a value is empty or holds a blank. -/
theorem Legible.text (h : Legible named) {text : String}
    (hmem : text ∈ (shownBits named v).map Prod.fst) : text ≠ "" ∧ ' ' ∉ text.toList := by
  obtain ⟨⟨text, i⟩, hshown, rfl⟩ := List.mem_map.1 hmem
  rcases (mem_shownBits_iff.1 hshown).2 with hname | ⟨-, rfl⟩
  · exact ⟨(h _ hname).1, (h _ hname).2.1⟩
  · exact ⟨by simp [unknownToken], space_notMem_unknownToken i⟩

/-- A text stands for one bit, whatever the value that it shows. -/
theorem Legible.bit_unique (h : Legible (firstNamed pairs)) {text : String} {i j : Nat}
    (hi : (text, i) ∈ shownBits (firstNamed pairs) v)
    (hj : (text, j) ∈ shownBits (firstNamed pairs) w) : i = j := by
  obtain ⟨hset, hname | ⟨-, rfl⟩⟩ := mem_shownBits_iff.1 hi <;>
    obtain ⟨hset', hname' | ⟨-, htext⟩⟩ := mem_shownBits_iff.1 hj
  · exact eq_of_mem_firstNamed hname hname'
  · exact ((h _ hname).2.2 j (lt_of_getLsbD hset') htext).elim
  · exact ((h _ hname').2.2 i (lt_of_getLsbD hset) rfl).elim
  · exact unknownToken_inj.1 htext

theorem Legible.getLsbD_of_texts (h : Legible (firstNamed pairs)) {i : Nat}
    (htexts : (shownBits (firstNamed pairs) v).map Prod.fst =
      (shownBits (firstNamed pairs) w).map Prod.fst) (hi : v.getLsbD i = true) :
    w.getLsbD i = true := by
  obtain ⟨⟨text, i⟩, hshown, rfl⟩ := List.mem_map.1 (mem_bits_shownBits_iff.2 hi)
  have htext : text ∈ (shownBits (firstNamed pairs) w).map Prod.fst :=
    htexts ▸ List.mem_map_of_mem hshown
  obtain ⟨⟨text, j⟩, hshown', rfl⟩ := List.mem_map.1 htext
  obtain rfl := h.bit_unique hshown hshown'
  exact (mem_shownBits_iff.1 hshown').1

theorem Legible.eq_of_evaluate_eq (h : Legible (firstNamed pairs)) (hb : ofList pairs = .ok b)
    (heq : b.evaluate v = b.evaluate w) : v = w := by
  rw [evaluate, evaluate, tokens_eq, tokens_eq, entries_of_ofList hb] at heq
  have hparts : ∀ v, ∀ s ∈ ((shownBits (firstNamed pairs) v).map Prod.fst).map String.toList,
      s ≠ [] ∧ ' ' ∉ s := by
    intro v s hs
    obtain ⟨text, hmem, rfl⟩ := List.mem_map.1 hs
    obtain ⟨hne, hspace⟩ := h.text hmem
    exact ⟨mt String.toList_eq_nil_iff.1 hne, hspace⟩
  have hjoin := congrArg String.toList heq
  rw [String.toList_intercalate, String.toList_intercalate] at hjoin
  have htexts := (Text.intercalate_inj (hparts v) (hparts w)).1 hjoin
  rw [List.map_inj_right fun _ _ => String.toList_inj.1] at htexts
  refine BitVec.eq_of_getLsbD_eq fun i _ => Bool.eq_iff_iff.2 ⟨?_, ?_⟩
  · exact h.getLsbD_of_texts htexts
  · exact h.getLsbD_of_texts htexts.symm

end BitmaskType

namespace Datatype

variable {b : BitmaskType} {pairs : List (String × Nat)}

theorem lookup_bitmask_eq_ok_iff {name : String} {w : Value} :
    (Datatype.bitmask b).lookup name = .ok w ↔
      ∃ bit, (name, bit) ∈ b.names.entries ∧ w = 1#128 <<< bit := by
  simp only [lookup, ← Table.get?_eq_some_iff]
  cases b.names.get? name with
  | none => simp
  | some bit => simp [flag, eq_comm]

theorem lookupValue_bitmask_eq_ok_iff {v w : Value} :
    (Datatype.bitmask b).lookupValue v = .ok w ↔ v = w ∧ unnamedBits b.names.entries v = [] := by
  rw [← BitmaskType.and_not_declared_eq_zero_iff, lookupValue]
  by_cases h : v &&& ~~~b.declared = 0
  · simp only [h, if_true, Except.ok.injEq, and_true]
  · simp only [h, if_false, reduceCtorEq, and_false]

/-- A bitmask, whatever names and bits its declaration repeats. It is refused exactly if some bit is
none of a value. Otherwise a value is shown by the names of the bits that are set, in the order of
declaration, and behind them by a token for each bit that is set and has no name, in ascending
order; these texts stand for the bits that are set and for no others. A value is accepted if no
token is needed, and a name stands for the value with its bit. Different values are shown
differently, if the names can be told from each other in a row and from the tokens. -/
theorem bitmask_shows (pairs : List (String × Nat)) :
    ((∃ err, BitmaskType.ofList pairs = .error err) ↔ ∃ p ∈ pairs, 128 ≤ p.2) ∧
    ∀ b, BitmaskType.ofList pairs = .ok b →
      let d : Datatype := .bitmask b
      (∀ v, d.evaluate v =
        String.intercalate " " ((shownBits (firstNamed pairs) v).map Prod.fst)) ∧
      (∀ v i, i ∈ (shownBits (firstNamed pairs) v).map Prod.snd ↔ v.getLsbD i = true) ∧
      (∀ v, d.lookupValue v = .ok v ↔ unnamedBits (firstNamed pairs) v = []) ∧
      (∀ name w, d.lookup name = .ok w ↔
        ∃ bit, (name, bit) ∈ firstNamed pairs ∧ w = 1#128 <<< bit) ∧
      (BitmaskType.Legible (firstNamed pairs) → ∀ v w, d.evaluate v = d.evaluate w → v = w) := by
  refine ⟨BitmaskType.ofList_error_iff pairs, fun b hb => ?_⟩
  have hentries := BitmaskType.entries_of_ofList hb
  rw [← hentries]
  refine ⟨fun v => ?_, fun v i => mem_bits_shownBits_iff, fun v => ?_, fun name w => ?_,
    fun h v w heq => ?_⟩
  · exact congrArg (String.intercalate " ") (b.tokens_eq v)
  · exact lookupValue_bitmask_eq_ok_iff.trans (and_iff_right rfl)
  · exact lookup_bitmask_eq_ok_iff
  · rw [hentries] at h
    exact h.eq_of_evaluate_eq hb heq

/-- Here two names share a bit, and another bit has none, as its name is that of an earlier one. -/
def sharedPairs : List (String × Nat) := [("high", 7), ("low", 1), ("also", 1), ("low", 3)]

theorem bitmask_shows_sharedPairs :
    ∃ b, BitmaskType.ofList sharedPairs = .ok b ∧
      (Datatype.bitmask b).evaluate 0x8A = "high low also <!3!>" ∧
      (Datatype.bitmask b).lookupValue 0x8A ≠ .ok 0x8A ∧
      (Datatype.bitmask b).lookup "low" = .ok 2 ∧
      BitmaskType.Legible (firstNamed sharedPairs) ∧
      ∀ w, (Datatype.bitmask b).evaluate w = (Datatype.bitmask b).evaluate 0x8A → w = 0x8A := by
  have hlegible : BitmaskType.Legible (firstNamed sharedPairs) := by
    unfold BitmaskType.Legible
    decide +kernel
  have hshown : shownBits (firstNamed sharedPairs) 0x8A =
      [("high", 7), ("low", 1), ("also", 1), ("<!3!>", 3)] := by decide +kernel
  have hunnamed : unnamedBits (firstNamed sharedPairs) 0x8A = [3] := by decide +kernel
  have hlow : ("low", 1) ∈ firstNamed sharedPairs := by decide +kernel
  have hfits : ¬ ∃ p ∈ sharedPairs, valueBits ≤ p.2 := by decide +kernel
  obtain ⟨-, b, hb, -⟩ := (BitmaskType.ofList_cases sharedPairs).resolve_left fun h => hfits h.1
  obtain ⟨htext, -, hvalue, hname, happart⟩ := (bitmask_shows sharedPairs).2 b hb
  refine ⟨b, hb, ?_, ?_, (hname "low" 2).2 ⟨1, hlow, rfl⟩, hlegible, fun w => happart hlegible w _⟩
  · rw [htext, hshown]
    rfl
  · rw [Ne, hvalue, hunnamed]
    exact List.cons_ne_nil _ _

end Datatype

end RegisterAtlas
