import RegisterAtlas.Proofs.Datatype.Accepted
import RegisterAtlas.Proofs.Datatype.Numbers
import RegisterAtlas.Proofs.Path.Grammar

/-!
# Numbers typed without their unit

A number may be typed with its unit behind it or without. What ends with the text of the unit counts
as typed with it, also where that text is the last digits of the number: with the unit `C`, what
stands before the unit of `0x1C` is `0x1`. A number that does not end so is read as itself; of one
that does, `tenfold_le_of_beforeUnit` says that at most a tenth of it is left.
-/

namespace RegisterAtlas

namespace Text

variable {cs xs ys : List Char}

/-! ## The front of a numeral -/

theorem le_of_readDigitsFrom {radix n : Nat} : ∀ {acc : Nat}, readDigitsFrom radix acc cs = some n →
    acc * radix ^ cs.length ≤ n := by
  induction cs with
  | nil =>
      rintro acc ⟨⟩
      rw [List.length_nil, pow_zero, Nat.mul_one]
  | cons c cs ih =>
      intro acc h
      rw [readDigitsFrom] at h
      split at h
      · next d hd =>
          calc acc * radix ^ (c :: cs).length = acc * radix * radix ^ cs.length := by
                rw [List.length_cons, pow_succ', Nat.mul_assoc]
            _ ≤ (acc * radix + d) * radix ^ cs.length :=
                Nat.mul_le_mul_right _ (Nat.le_add_right ..)
            _ ≤ n := ih h
      · cases h

/-- Without its last digits a numeral is one of a number that is smaller by their places. -/
theorem readDigits_front {radix n : Nat} (hne : xs ≠ [])
    (h : readDigits radix (xs ++ ys) = some n) :
    ∃ m, readDigits radix xs = some m ∧ m * radix ^ ys.length ≤ n := by
  rw [readDigits, if_neg (List.append_ne_nil_of_left_ne_nil hne ys), readDigitsFrom_append] at h
  obtain ⟨m, hm, hn⟩ := Option.bind_eq_some_iff.1 h
  exact ⟨m, by rw [readDigits, if_neg hne, hm], le_of_readDigitsFrom hn⟩

theorem hexBody?_append {digits : List Char} (h : hexBody? xs = some digits) :
    hexBody? (xs ++ ys) = some (digits ++ ys) := by
  obtain ⟨x, hx, rfl⟩ := Grammar.hexBody?_eq_some_iff.1 h
  exact Grammar.hexBody?_eq_some_iff.2 ⟨x, hx, rfl⟩

end Text

/-! ## Numbers and their fronts -/

variable {cs : List Char} {m n v : Value}

theorem parseNumber?_trim (cs : List Char) : parseNumber? (Text.trim cs) = parseNumber? cs := by
  rw [parseNumber?, parseNumber?, Text.trim_trim]

theorem parseNumber?_eq_some_iff : parseNumber? cs = some n ↔
    (∃ digits, Text.hexBody? (Text.trim cs) = some digits ∧
      Text.readDigits 16 digits = some n.toNat) ∨
    Text.hexBody? (Text.trim cs) = none ∧ Text.readDigits 10 (Text.trim cs) = some n.toNat := by
  have hvalue : ∀ value? : Option Nat,
      (value?.filter (· < wordCount valueBits)).map (BitVec.ofNat 128) = some n ↔
        value? = some n.toNat := by
    intro value?
    constructor
    · intro h
      obtain ⟨k, hk, rfl⟩ := Option.map_eq_some_iff.1 h
      obtain ⟨rfl, hlt⟩ := Option.filter_eq_some_iff.1 hk
      have hlt : k < 2 ^ 128 := of_decide_eq_true hlt
      rw [BitVec.toNat_ofNat, Nat.mod_eq_of_lt hlt]
    · rintro rfl
      have hlt : n.toNat < wordCount valueBits := n.isLt
      rw [Option.filter_some_pos (by simpa using hlt), Option.map_some, BitVec.ofNat_toNat,
        BitVec.setWidth_eq]
  rw [parseNumber?]
  cases Text.hexBody? (Text.trim cs) with
  | none => simp [hvalue]
  | some digits => simp [hvalue]

/-- No character of a trimmed number is a blank. -/
theorem isBlank_of_mem_parseNumber? (h : parseNumber? cs = some n) :
    ∀ c ∈ Text.trim cs, Text.isBlank c = false := by
  rcases parseNumber?_eq_some_iff.1 h with ⟨digits, hbody, hread⟩ | ⟨-, hread⟩
  · obtain ⟨x, hx, htrim⟩ := Grammar.hexBody?_eq_some_iff.1 hbody
    rw [htrim]
    refine List.forall_mem_cons.2 ⟨by decide, List.forall_mem_cons.2 ⟨?_, ?_⟩⟩
    · rcases hx with rfl | rfl <;> decide
    · exact Text.isBlank_of_mem_readDigits hread
  · exact Text.isBlank_of_mem_readDigits hread

/-- If the front of a number is a number too, there is at least one digit behind it. -/
theorem tenfold_le_of_front {front rest : List Char} (htrim : Text.trim cs = front ++ rest)
    (hrest : rest ≠ []) (hn : parseNumber? cs = some n) (hm : parseNumber? front = some m) :
    10 * m.toNat ≤ n.toNat := by
  have hfront : Text.trim front = front := by
    refine (Text.isTrimmed_of_forall fun c hc => isBlank_of_mem_parseNumber? hn c ?_).trim_eq
    rw [htrim]
    exact List.mem_append_left _ hc
  have hplaces : ∀ {radix k : Nat}, 10 ≤ radix → m.toNat * radix ^ rest.length ≤ k →
      10 * m.toNat ≤ k := by
    intro radix k hradix hk
    calc 10 * m.toNat ≤ radix ^ rest.length * m.toNat :=
          Nat.mul_le_mul_right _ (Nat.le_trans hradix
            (Nat.le_self_pow (mt List.length_eq_zero_iff.1 hrest) radix))
      _ = m.toNat * radix ^ rest.length := Nat.mul_comm ..
      _ ≤ k := hk
  rw [parseNumber?_eq_some_iff, htrim] at hn
  rw [parseNumber?_eq_some_iff, hfront] at hm
  rcases hm with ⟨digits, hbody, hread⟩ | ⟨hbody, hread⟩
  · -- the mark is in front, and so digits of radix 16 are behind
    have hne : digits ≠ [] := by
      rintro rfl
      cases hread
    rcases hn with ⟨digits', hbody', hread'⟩ | ⟨hbody', -⟩
    · cases (Text.hexBody?_append hbody).symm.trans hbody'
      obtain ⟨k, hk, hle⟩ := Text.readDigits_front hne hread'
      cases hread.symm.trans hk
      exact hplaces (by decide) hle
    · cases (Text.hexBody?_append hbody).symm.trans hbody'
  · have hne : front ≠ [] := by
      rintro rfl
      cases hread
    rcases hn with ⟨digits', hbody', -⟩ | ⟨-, hread'⟩
    · -- the mark has been cut in two, and all that is in front is its zero
      obtain ⟨x, hx, hcut⟩ := Grammar.hexBody?_eq_some_iff.1 hbody'
      match front, hne with
      | [c], _ =>
          obtain rfl : c = '0' := (List.cons.inj hcut).1
          have hzero : 0 = m.toNat := Option.some.inj hread
          omega
      | c :: y :: tail, _ =>
          simp only [List.cons_append, List.cons.injEq] at hcut
          obtain ⟨rfl, rfl, -⟩ := hcut
          rw [Grammar.hexBody?_eq_some_iff.2 ⟨y, hx, rfl⟩] at hbody
          cases hbody
    · obtain ⟨k, hk, hle⟩ := Text.readDigits_front hne hread'
      cases hread.symm.trans hk
      exact hplaces (Nat.le_refl _) hle

/-! ## Units -/

namespace Datatype

/-- The datatypes that show a number in one format or another, with a unit or without. -/
inductive Numeric (units : Option String) : Datatype → Prop where
  | int : Numeric units (.int units)
  | hex (width : Nat) : Numeric units (.hex width units)

/-- A text ends with the unit, if there is one and it is not empty. -/
def EndsWithUnit (units : Option String) (text : List Char) : Prop :=
  ∃ u ∈ units, u ≠ "" ∧ u.toList <:+ Text.trim text

/-- A number stands in front of the unit that a text ends with. -/
def BeforeUnit (units : Option String) (text : List Char) (m : Value) : Prop :=
  ∃ u ∈ units, u ≠ "" ∧ ∃ front, Text.trim text = front ++ u.toList ∧ parseNumber? front = some m

variable {units : Option String} {text : List Char} {d : Datatype}

theorem Numeric.lookup_eq_ok_iff (hd : Numeric units d) {token : String} :
    d.lookup token = .ok v ↔ parseNumber? (bareNumber units token.toList) = some v := by
  cases hd <;>
    · rw [lookup]
      cases parseNumber? (bareNumber units token.toList) <;> simp

theorem Numeric.lookupValue_eq (hd : Numeric units d) (v : Value) : d.lookupValue v = .ok v := by
  cases hd <;> rfl

/-- Nothing is cut off from a text that does not end with the unit, blanks apart. -/
theorem parseNumber?_bareNumber_of_not_endsWithUnit (h : ¬ EndsWithUnit units text) :
    parseNumber? (bareNumber units text) = parseNumber? text := by
  cases units with
  | none => rfl
  | some u =>
      have hbare : bareNumber (some u) text = Text.trim text := by
        rw [bareNumber]
        cases hstrip : Text.stripEnd? u.toList (Text.trim text) with
        | none => rfl
        | some front =>
            have hfront := Text.stripEnd?_eq_some_iff.1 hstrip
            by_cases hu : u = ""
            · subst hu
              rw [hfront]
              exact (List.append_nil front).symm
            · exact (h ⟨u, rfl, hu, front, hfront.symm⟩).elim
      rw [hbare, parseNumber?_trim]

theorem parseNumber?_bareNumber_of_endsWithUnit (h : EndsWithUnit units text) :
    parseNumber? (bareNumber units text) = some v ↔ BeforeUnit units text v := by
  obtain ⟨u, hu, hne, front, hfront⟩ := h
  cases hu
  have hbare : bareNumber (some u) text = front := by
    rw [bareNumber, Text.stripEnd?_eq_some_iff.2 hfront.symm]
    rfl
  rw [hbare]
  constructor
  · exact fun hv => ⟨u, rfl, hne, front, hfront.symm, hv⟩
  · rintro ⟨_, ⟨⟩, -, front', hfront', hv⟩
    rwa [List.append_cancel_right (hfront.trans hfront')]

theorem BeforeUnit.endsWithUnit (h : BeforeUnit units text m) : EndsWithUnit units text := by
  obtain ⟨u, hu, hne, front, hfront, -⟩ := h
  exact ⟨u, hu, hne, front, hfront.symm⟩

theorem tenfold_le_of_beforeUnit (h : BeforeUnit units text m) (hn : parseNumber? text = some n) :
    10 * m.toNat ≤ n.toNat := by
  obtain ⟨u, -, hne, front, hfront, hm⟩ := h
  exact tenfold_le_of_front hfront (mt String.toList_eq_nil_iff.1 hne) hn hm

end Datatype

/-! ## Numbers on the command line -/

namespace CommandLine

open Datatype

variable {units : Option String} {d : Datatype} {t : Tree} {id : EntryId} {source : Source}

/-- A number that is no value of a field in another reading is one as a bare number. -/
theorem parseValue_of_number (hd : d.Numeric units) (hfield : t.entry id = .field ⟨d, source⟩)
    {text : String} (hn : parseNumber? text.toList = some n) :
    parseValue t id text = .ok v ↔
      d.lookup text = .ok v ∨ (∀ w, d.lookup text ≠ .ok w) ∧ v = n := by
  have hfield? : t.field? id = some ⟨d, source⟩ := by rw [Tree.field?, hfield]
  rw [parseValue, lookup_of_field hfield, hfield?, hn]
  cases hlookup : d.lookup text with
  | ok w => simp
  | error e => simp [hd.lookupValue_eq, Except.mapError, eq_comm]

end CommandLine

namespace Datatype

/-- A number that does not end with the text of the unit is read as itself, and is what a write on
the command line writes. If it does end so, what is read is the number in front of the unit if there
is one, which is at most a tenth of it; where there is none, the command line takes the text for the
number that it is. A write on the command line writes the number that is read, and with notes reads
the field behind that. -/
theorem lookup_number {units : Option String} {d : Datatype} (hd : d.Numeric units) {text : String}
    {n : Value} (hn : parseNumber? text.toList = some n) :
    (¬ EndsWithUnit units text.toList → d.lookup text = .ok n) ∧
    (EndsWithUnit units text.toList → ∀ v, d.lookup text = .ok v ↔ BeforeUnit units text.toList v) ∧
    (∀ m, BeforeUnit units text.toList m → 10 * m.toNat ≤ n.toNat) ∧
    ∀ (t : Tree) (id : EntryId) (source : Source), t.entry id = .field ⟨d, source⟩ →
      (∀ v, CommandLine.parseValue t id text = .ok v ↔
        BeforeUnit units text.toList v ∨ (∀ m, ¬ BeforeUnit units text.toList m) ∧ v = n) ∧
      ∀ notes path m, t.resolveTextFollow Tree.root path = .ok (some id) →
        ∃ r m', (CommandLine.runOnTree notes t (.write path text)).runOn m = (r, m') ∧
          ((∀ v, ¬ BeforeUnit units text.toList v) →
            CommandLine.Writes notes t id path n m r m') ∧
          ∀ v, BeforeUnit units text.toList v → CommandLine.Writes notes t id path v m r m' := by
  have hwhole : ¬ EndsWithUnit units text.toList → d.lookup text = .ok n := fun h =>
    hd.lookup_eq_ok_iff.2 ((parseNumber?_bareNumber_of_not_endsWithUnit h).trans hn)
  have hcut : EndsWithUnit units text.toList →
      ∀ v, d.lookup text = .ok v ↔ BeforeUnit units text.toList v := fun h v =>
    hd.lookup_eq_ok_iff.trans (parseNumber?_bareNumber_of_endsWithUnit h)
  refine ⟨hwhole, hcut, fun m hm => tenfold_le_of_beforeUnit hm hn, fun t id source hfield => ?_⟩
  have hparse : ∀ v, CommandLine.parseValue t id text = .ok v ↔
      BeforeUnit units text.toList v ∨ (∀ m, ¬ BeforeUnit units text.toList m) ∧ v = n := by
    intro v
    rw [CommandLine.parseValue_of_number hd hfield hn]
    by_cases h : EndsWithUnit units text.toList
    · simp only [hcut h, ne_eq]
    · have hnone : ∀ m, ¬ BeforeUnit units text.toList m := fun m hm => h hm.endsWithUnit
      simp [hwhole h, hnone, eq_comm]
  refine ⟨hparse, fun notes path m hid => ?_⟩
  -- whatever the text is, there is just one value that it is parsed as
  have hwrites : ∀ {v}, CommandLine.parseValue t id text = .ok v →
      CommandLine.Writes notes t id path v m
        ((CommandLine.runOnTree notes t (.write path text)).runOn m).1
        ((CommandLine.runOnTree notes t (.write path text)).runOn m).2 := by
    intro v hv
    obtain ⟨r, m', hrun, hwrites⟩ := CommandLine.runOn_write_of_ok notes hid hv m
    rwa [hrun]
  exact ⟨_, _, rfl, fun hnone => hwrites ((hparse n).2 (.inr ⟨hnone, rfl⟩)),
    fun v hv => hwrites ((hparse v).2 (.inl hv))⟩

/-- With the unit `C`, `0x1A` is read as it is, but what is read of `0x1C` stands in front of its
last digit. -/
theorem lookup_number_celsius :
    Numeric (some "C") (.hex 8 (some "C")) ∧
    parseNumber? "0x1A".toList = some 0x1A ∧ ¬ EndsWithUnit (some "C") "0x1A".toList ∧
    (Datatype.hex 8 (some "C")).lookup "0x1A" = .ok 0x1A ∧
    parseNumber? "0x1C".toList = some 0x1C ∧ BeforeUnit (some "C") "0x1C".toList 1 ∧
    (Datatype.hex 8 (some "C")).lookup "0x1C" = .ok 1 := by
  have hd : Numeric (some "C") (.hex 8 (some "C")) := .hex 8
  have hend : ¬ EndsWithUnit (some "C") "0x1A".toList := by
    rintro ⟨u, hu, -, hsuffix⟩
    cases hu
    exact absurd hsuffix (by decide)
  have hbefore : BeforeUnit (some "C") "0x1C".toList 1 :=
    ⟨"C", rfl, by decide, "0x1".toList, rfl, rfl⟩
  have hread : parseNumber? "0x1A".toList = some 0x1A := rfl
  have hread' : parseNumber? "0x1C".toList = some 0x1C := rfl
  obtain ⟨hwhole, -⟩ := lookup_number hd hread
  obtain ⟨-, hcut, -⟩ := lookup_number hd hread'
  exact ⟨hd, hread, hend, hwhole hend, hread', hbefore, (hcut hbefore.endsWithUnit 1).2 hbefore⟩

def temperatureRegister : Register := ⟨.simulated "sensor", 0, .w8⟩

/-- A tree with one field, a temperature that is shown in hexadecimal with the unit `C`. -/
def temperatureTree : Tree :=
  (Draft.after (.ofTree .empty)
    (.field "limit" (.direct (.hex 8 (some "C")) temperatureRegister.all))).tree

/-- A number whose last digit is the unit is not read as itself, and the command line writes another
number than the one that is typed. -/
theorem lookup_number_cut_short :
    parseNumber? "0x1C".toList = some 0x1C ∧
    (Datatype.hex 8 (some "C")).lookup "0x1C" = .ok 1 ∧
    CommandLine.parseValue temperatureTree 1 "0x1C" = .ok 1 ∧
    (∀ notes, (((CommandLine.runOnTree notes temperatureTree (.write "limit" "0x1C")).runOn
      {}).2.bank "sensor").value 0 = 1) ∧
    ¬ ∀ (units : Option String) (text : String) (n : Value), parseNumber? text.toList = some n →
      (Datatype.hex 8 units).lookup text = .ok n := by
  have hread : parseNumber? "0x1C".toList = some 0x1C := rfl
  have hlookup : (Datatype.hex 8 (some "C")).lookup "0x1C" = .ok 1 := rfl
  refine ⟨hread, hlookup, rfl, by decide +kernel, fun hall => ?_⟩
  have hsame := hlookup.symm.trans (hall (some "C") "0x1C" 0x1C hread)
  exact absurd (Except.ok.inj hsame) (by decide)

end Datatype

end RegisterAtlas
