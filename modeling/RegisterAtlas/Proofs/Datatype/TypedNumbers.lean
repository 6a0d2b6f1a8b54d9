import RegisterAtlas.Proofs.Datatype.Units

/-!
# The grammar of typed numbers

A typed number is made of decimal digits, or of hexadecimal ones behind a mark, with blanks around
it. Unlike the numbers in paths it may have any number of zeros in front, has twice as many bits,
and is never octal.

`parseNumber?_grammar` says that just these texts are read, and how they are read in paths. The two
readers part where a zero in front of other digits makes a number of a path octal: there they agree
on what has a single place and on nothing else.
-/

namespace RegisterAtlas

namespace Grammar

variable {cs core : List Char} {m n radix : Nat}

/-- The texts of typed numbers, and the numbers. A zero in front is a digit like any other. -/
inductive Typed : List Char → Nat → Prop where
  | hex {x : Char} {cs : List Char} {n : Nat} (hx : x = 'x' ∨ x = 'X') (h : Numeral 16 cs n) :
      Typed ('0' :: x :: cs) n
  | decimal {cs : List Char} {n : Nat} (h : Numeral 10 cs n) : Typed cs n

/-- A text with blanks before and behind it. -/
inductive Padded (core : List Char) : List Char → Prop where
  | mk {before after : List Char} (hbefore : ∀ c ∈ before, Text.isBlank c = true)
      (hafter : ∀ c ∈ after, Text.isBlank c = true) : Padded core (before ++ core ++ after)

/-- Texts that look like numbers and are none: with a sign, an underscore or a blank between other
characters, without digits, or of a number that has more than 128 bits. -/
inductive Mistyped : List Char → Prop where
  | mark {cs : List Char} {c : Char} (hc : c = '+' ∨ c = '-' ∨ c = '_') (h : c ∈ cs) : Mistyped cs
  | blank {front back : List Char} {c : Char} (hc : Text.isBlank c = true)
      (hfront : ∃ d ∈ front, Text.isBlank d = false) (hback : ∃ d ∈ back, Text.isBlank d = false) :
      Mistyped (front ++ c :: back)
  | nothing : Mistyped []
  | unfinished {x : Char} (hx : x = 'x' ∨ x = 'X') : Mistyped ['0', x]
  | large {cs : List Char} {n : Nat} (h : Typed cs n) (hn : 2 ^ 128 ≤ n) : Mistyped cs

/-- A zero with at least one more decimal digit behind it. -/
def ZeroLed (cs : List Char) : Prop := ∃ rest n, cs = '0' :: rest ∧ Numeral 10 rest n

/-! ## Numerals -/

theorem Numeral.unique (hradix : radix ≤ 16) (h : Numeral radix cs m) (h' : Numeral radix cs n) :
    m = n := by
  rw [← readDigits_eq_some_iff hradix] at h h'
  exact Option.some.inj (h.symm.trans h')

/-- Zeros in front of digits do not count. -/
theorem numeral_zeros_iff (hpos : 0 < radix) (hradix : radix ≤ 16) (hcs : cs ≠ []) (zeros : Nat) :
    Numeral radix (List.replicate zeros '0' ++ cs) n ↔ Numeral radix cs n := by
  have hne : List.replicate zeros '0' ++ cs ≠ [] := List.append_ne_nil_of_right_ne_nil _ hcs
  rw [← readDigits_eq_some_iff hradix, ← readDigits_eq_some_iff hradix, Text.readDigits,
    Text.readDigits, if_neg hne, if_neg hcs, Text.readDigitsFrom_replicate_zero hpos]

theorem numeral_zero_cons_iff (hcs : cs ≠ []) : Numeral 10 ('0' :: cs) n ↔ Numeral 10 cs n :=
  numeral_zeros_iff (by decide) (by decide) hcs 1

/-- The marks of hexadecimal numbers are no decimal digits. -/
theorem not_numeral_ten_of_mark {x : Char} (hx : x = 'x' ∨ x = 'X') (hmem : x ∈ cs) :
    ¬ Numeral 10 cs n := by
  intro h
  refine h.notMem (by decide) ?_ hmem
  rcases hx with rfl | rfl <;> rfl

/-- Octal digits are decimal digits too. -/
theorem numeral_ten_of_octal {ds : List Nat} (hcs : cs ≠ []) (hds : List.Forall₂ (Digit 8) cs ds) :
    Numeral 10 cs (Nat.ofDigits 10 ds.reverse) :=
  ⟨hcs, ds, hds.imp fun _ _ hd => ⟨Nat.lt_of_lt_of_le hd.1 (by decide), hd.2⟩, rfl⟩

/-- Both readings agree if there is nothing but zeros before the last place. -/
theorem Numeral.decimal_eq_octal_iff (h : Numeral 8 cs m) (h' : Numeral 10 cs n) :
    n = m ↔ n < 8 := by
  obtain ⟨hne, ds, hds, rfl⟩ := h
  obtain rfl := h'.unique (by decide) (numeral_ten_of_octal hne hds)
  -- the places from the last one on
  have hplaces := List.forall₂_reverse_iff.2 hds
  generalize ds.reverse = places at hplaces
  cases places with
  | nil => exact (hne (List.reverse_eq_nil_iff.1 (List.forall₂_nil_right_iff.1 hplaces))).elim
  | cons last front =>
      obtain ⟨c, -, hlast, -, -⟩ := List.forall₂_cons_right_iff.1 hplaces
      have hlt : last < 8 := hlast.1
      have hle : Nat.ofDigits 8 front ≤ Nat.ofDigits 10 front := Nat.ofDigits_monotone _ (by decide)
      rw [Nat.ofDigits_cons, Nat.ofDigits_cons]
      omega

/-! ## Typed numbers are read -/

/-- Only digits and the mark can stand in a typed number. -/
theorem Typed.notMem (h : Typed core n) {c : Char} (hc : Text.alphanumericValue? c = none) :
    c ∉ core := by
  cases h with
  | hex hx h => exact (Number.hex hx h).notMem hc
  | decimal h =>
      have hdigit : Text.digit? 10 c = none := by
        rw [Text.digit?, hc]
        rfl
      exact h.notMem (by decide) hdigit

theorem Typed.trim_eq (h : Typed core n) : Text.trim core = core :=
  Text.trim_eq_of_notMem fun _ hc => h.notMem hc

theorem Padded.trim_eq (h : Padded core cs) : Text.trim cs = Text.trim core := by
  cases h with
  | mk hbefore hafter =>
      rw [Text.trim_append_blanks hafter, Text.trim_blanks_append hbefore]

theorem padded_trim (cs : List Char) : Padded (Text.trim cs) cs := by
  obtain ⟨before, after, hbefore, hafter, hcs⟩ := Text.exists_trim cs
  have hpadded : Padded (Text.trim cs) (before ++ Text.trim cs ++ after) := .mk hbefore hafter
  rwa [← hcs] at hpadded

/-- What is typed between the blanks is what trimming leaves. -/
theorem typed_trim_iff : Typed (Text.trim cs) n ↔ ∃ core, Padded core cs ∧ Typed core n := by
  constructor
  · exact fun h => ⟨_, padded_trim cs, h⟩
  · rintro ⟨core, hpadded, h⟩
    rwa [hpadded.trim_eq, h.trim_eq]

/-- The mark tells hexadecimal from decimal digits. -/
theorem typed_iff : Typed cs n ↔
    (∃ digits, Text.hexBody? cs = some digits ∧ Text.readDigits 16 digits = some n) ∨
    Text.hexBody? cs = none ∧ Text.readDigits 10 cs = some n := by
  rw [readDigits_eq_some_iff (by decide)]
  constructor
  · intro h
    cases h with
    | hex hx h =>
        exact .inl ⟨_, hexBody?_eq_some_iff.2 ⟨_, hx, rfl⟩,
          (readDigits_eq_some_iff (by decide)).2 h⟩
    | decimal h =>
        refine .inr ⟨Option.eq_none_iff_forall_not_mem.2 fun digits hdigits => ?_, h⟩
        obtain ⟨x, hx, rfl⟩ := hexBody?_eq_some_iff.1 hdigits
        exact not_numeral_ten_of_mark hx (by simp) h
  · rintro (⟨digits, hbody, hread⟩ | ⟨-, h⟩)
    · obtain ⟨x, hx, rfl⟩ := hexBody?_eq_some_iff.1 hbody
      exact .hex hx ((readDigits_eq_some_iff (by decide)).1 hread)
    · exact .decimal h

theorem Typed.unique (h : Typed cs m) (h' : Typed cs n) : m = n := by
  rw [typed_iff] at h h'
  rcases h with ⟨digits, hbody, hm⟩ | ⟨hbody, hm⟩ <;>
    rcases h' with ⟨digits', hbody', hn⟩ | ⟨hbody', hn⟩ <;>
    grind

end Grammar

open Grammar

variable {cs core : List Char} {m n : Nat}

theorem toNat_parseNumber?_eq_some_iff : (parseNumber? cs).map BitVec.toNat = some n ↔
    n < 2 ^ 128 ∧ Typed (Text.trim cs) n := by
  rw [Option.map_eq_some_iff]
  constructor
  · rintro ⟨v, hv, rfl⟩
    exact ⟨v.isLt, typed_iff.2 (parseNumber?_eq_some_iff.1 hv)⟩
  · rintro ⟨hn, h⟩
    have hv : (BitVec.ofNat 128 n).toNat = n := by rw [BitVec.toNat_ofNat, Nat.mod_eq_of_lt hn]
    refine ⟨BitVec.ofNat 128 n, parseNumber?_eq_some_iff.2 ?_, hv⟩
    rw [hv]
    exact typed_iff.1 h

theorem parseNumber?_eq_none_iff :
    parseNumber? cs = none ↔ ∀ n, Typed (Text.trim cs) n → 2 ^ 128 ≤ n := by
  rw [← Option.map_eq_none_iff (f := BitVec.toNat), Option.eq_none_iff_forall_not_mem]
  simp only [Option.mem_def, toNat_parseNumber?_eq_some_iff, not_and', Nat.not_lt]

/-! ## What is refused -/

theorem Grammar.Mistyped.parseNumber?_eq_none (h : Mistyped core) (hcs : Padded core cs) :
    parseNumber? cs = none := by
  rw [parseNumber?_eq_none_iff, hcs.trim_eq]
  intro n hn
  cases h with
  | @mark _ c hc hmem =>
      have hvalue : Text.alphanumericValue? c = none ∧ Text.isBlank c = false := by
        rcases hc with rfl | rfl | rfl <;> decide
      exact (hn.notMem hvalue.1 (Text.mem_trim_of_mem hvalue.2 hmem)).elim
  | blank hc hfront hback =>
      exact (hn.notMem (Text.alphanumericValue?_of_isBlank hc)
        (Text.mem_trim_of_between hfront hback)).elim
  | nothing =>
      rw [Text.trim_nil] at hn
      generalize hnil : ([] : List Char) = text at hn
      cases hn with
      | hex => cases hnil
      | decimal h => exact (h.1 hnil.symm).elim
  | @unfinished x hx =>
      have htrim : Text.trim ['0', x] = ['0', x] := by rcases hx with rfl | rfl <;> rfl
      rw [htrim] at hn
      cases hn with
      | hex _ h => exact (h.1 rfl).elim
      | decimal h => exact (not_numeral_ten_of_mark hx (by simp) h).elim
  | large htyped hlarge =>
      rw [htyped.trim_eq] at hn
      rwa [hn.unique htyped]

/-! ## Positions and typed numbers -/

theorem Grammar.Number.trim_eq (h : Number cs m) : Text.trim cs = cs :=
  Text.trim_eq_of_notMem fun _ hc => h.notMem hc

/-- Without a zero in front of other decimal digits a position is the number that is typed. -/
theorem Grammar.Number.typed (h : Number cs m) (hzero : ¬ ZeroLed cs) : Typed cs m := by
  cases h with
  | hex hx h => exact .hex hx h
  | octal h =>
      obtain ⟨hne, ds, hds, rfl⟩ := h
      exact (hzero ⟨_, _, rfl, numeral_ten_of_octal hne hds⟩).elim
  | zero => exact .decimal (numeral_zero_iff.2 rfl)
  | decimal _ h => exact .decimal h

/-- With a zero in front of other decimal digits a position is octal. -/
theorem Grammar.Number.octal_of_zeroLed (h : Number ('0' :: cs) m) (hcs : Numeral 10 cs n) :
    Numeral 8 cs m := by
  cases h with
  | hex hx h => exact (not_numeral_ten_of_mark hx List.mem_cons_self hcs).elim
  | octal h => exact h
  | zero => exact (hcs.1 rfl).elim
  | decimal hc _ => exact (hc rfl).elim

theorem position_eq_typed (hm : parsePosition? cs = some m)
    (hn : (parseNumber? cs).map BitVec.toNat = some n) :
    (¬ ZeroLed cs → n = m) ∧ (ZeroLed cs → (n = m ↔ n < 8)) := by
  have hnumber := (parsePosition?_eq_some_iff.1 hm).1
  have htyped := (toNat_parseNumber?_eq_some_iff.1 hn).2
  rw [hnumber.trim_eq] at htyped
  refine ⟨fun hzero => htyped.unique (hnumber.typed hzero), ?_⟩
  rintro ⟨rest, k, rfl, hrest⟩
  have hdecimal : Typed ('0' :: rest) k := .decimal ((numeral_zero_cons_iff hrest.1).2 hrest)
  obtain rfl := htyped.unique hdecimal
  exact (hnumber.octal_of_zeroLed hrest).decimal_eq_octal_iff hrest

/-- Just the texts of typed numbers of 128 bits are read, with blanks around them or not and with
any number of zeros in front of their digits, as the numbers that they denote. What is also read as
a position is the same number there, unless it is made of several decimal digits of which the first
is a zero; then it is the same if it has a single place. -/
theorem parseNumber?_grammar :
    (∀ cs n, (parseNumber? cs).map BitVec.toNat = some n ↔
      n < 2 ^ 128 ∧ ∃ core, Padded core cs ∧ Typed core n) ∧
    (∀ zeros digits n, n < 2 ^ 128 →
      (Numeral 10 digits n →
        (parseNumber? (List.replicate zeros '0' ++ digits)).map BitVec.toNat = some n) ∧
      ∀ x, x = 'x' ∨ x = 'X' → Numeral 16 digits n →
        (parseNumber? ('0' :: x :: (List.replicate zeros '0' ++ digits))).map BitVec.toNat =
          some n) ∧
    (∀ core cs, Mistyped core → Padded core cs → parseNumber? cs = none) ∧
    ∀ cs m n, parsePosition? cs = some m → (parseNumber? cs).map BitVec.toNat = some n →
      (¬ ZeroLed cs → n = m) ∧ (ZeroLed cs → (n = m ↔ n < 8)) := by
  have hread : ∀ {cs n}, Typed cs n → n < 2 ^ 128 → (parseNumber? cs).map BitVec.toNat = some n :=
    fun h hn => toNat_parseNumber?_eq_some_iff.2 ⟨hn, by rwa [h.trim_eq]⟩
  refine ⟨fun cs n => ?_, fun zeros digits n hn => ⟨fun h => ?_, fun x hx h => ?_⟩,
    fun core cs h hcs => h.parseNumber?_eq_none hcs, fun cs m n hm hn => position_eq_typed hm hn⟩
  · rw [toNat_parseNumber?_eq_some_iff, typed_trim_iff]
  · exact hread (.decimal ((numeral_zeros_iff (by decide) (by decide) h.1 zeros).2 h)) hn
  · exact hread (.hex hx ((numeral_zeros_iff (by decide) (by decide) h.1 zeros).2 h)) hn

/-- Zeros behind the mark and in front of decimal digits, of which those in front of an octal
position make a difference, an underscore, and a number of 129 bits. -/
theorem parseNumber?_grammar_zeros :
    (parseNumber? " 0X00fF\t".toList).map BitVec.toNat = some 255 ∧
    (parseNumber? "0010".toList).map BitVec.toNat = some 10 ∧
    parsePosition? "0010".toList = some 8 ∧ ZeroLed "0010".toList ∧ (10 = 8 ↔ 10 < 8) ∧
    parsePosition? "0x10".toList = some 16 ∧ ¬ ZeroLed "0x10".toList ∧
    (parseNumber? "0x10".toList).map BitVec.toNat = some 16 ∧
    parseNumber? " 1_0 ".toList = none ∧
    parseNumber? ("0x1".toList ++ List.replicate 32 '0') = none := by
  obtain ⟨hread, hzeros, hrefused, hpositions⟩ := parseNumber?_grammar
  have hnumeral : ∀ {radix cs n}, radix ≤ 16 → Text.readDigits radix cs = some n →
      Numeral radix cs n := fun hradix h => (readDigits_eq_some_iff hradix).1 h
  have hspace : ∀ c ∈ [' '], Text.isBlank c = true := List.forall_mem_singleton.2 rfl
  have htab : ∀ c ∈ ['\t'], Text.isBlank c = true := List.forall_mem_singleton.2 rfl
  have hnothing : ∀ c ∈ ([] : List Char), Text.isBlank c = true := List.forall_mem_nil _
  have hpadded : Padded "0X00fF".toList " 0X00fF\t".toList := .mk hspace htab
  have htyped : Typed "0X00fF".toList 255 := .hex (.inr rfl) (hnumeral (by decide) rfl)
  have hten := (hzeros 2 "10".toList 10 (by decide)).1 (hnumeral (by decide) rfl)
  have hzero : ZeroLed "0010".toList := ⟨"010".toList, 10, rfl, hnumeral (by decide) rfl⟩
  have hnot : ¬ ZeroLed "0x10".toList := by
    rintro ⟨rest, n, hrest, h⟩
    have htail : ['x', '1', '0'] = rest := (List.cons.inj hrest).2
    exact not_numeral_ten_of_mark (.inl rfl) (htail ▸ List.mem_cons_self) h
  have hsixteen : (parseNumber? "0x10".toList).map BitVec.toNat = some 16 := rfl
  have hlarge : Typed ("0x1".toList ++ List.replicate 32 '0') (2 ^ 128) :=
    .hex (.inl rfl) (hnumeral (by decide) (by decide +kernel))
  refine ⟨(hread _ _).2 ⟨by decide, _, hpadded, htyped⟩, hten, rfl, hzero,
    (hpositions _ 8 10 rfl hten).2 hzero, rfl, hnot, ?_, ?_, ?_⟩
  · rw [hsixteen, (hpositions _ 16 16 rfl hsixteen).1 hnot]
  · exact hrefused "1_0".toList _ (.mark (.inr (.inr rfl)) (by decide)) (.mk hspace hspace)
  · exact hrefused _ _ (.large hlarge (Nat.le_refl _)) (.mk hnothing hnothing)

end RegisterAtlas
