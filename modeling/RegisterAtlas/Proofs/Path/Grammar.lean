import RegisterAtlas.Proofs.Path.RoundTrip
import Mathlib.Data.Nat.Digits.Defs

/-!
# The grammar of paths

The texts of paths, rule by rule, each rule with what its texts denote. A path text is an optional
slash, then nothing or segments with single slashes between them, then an optional slash. The rules
are about texts only and do not mention how they are read.

`Path.ofText_grammar` says that just the texts of the grammar are read, as what they denote. What
matters in the proof is that no two rules claim one text: a zero in front decides on the radix of a
number, no segment holds a slash, and none is empty.
-/

namespace RegisterAtlas

namespace Grammar

/-! ## Names -/

def IdentStart (c : Char) : Prop := 'a' ≤ c ∧ c ≤ 'z' ∨ 'A' ≤ c ∧ c ≤ 'Z' ∨ c = '_'

def IdentChar (c : Char) : Prop := IdentStart c ∨ '0' ≤ c ∧ c ≤ '9'

inductive Ident : List Char → Prop where
  | mk {c : Char} {cs : List Char} (hc : IdentStart c) (hcs : ∀ x ∈ cs, IdentChar x) :
      Ident (c :: cs)

/-- A name may hold dots, or it is an identifier behind a percent sign. -/
inductive Name : List Char → Prop where
  | plain {c : Char} {cs : List Char} (hc : IdentStart c) (hcs : ∀ x ∈ cs, IdentChar x ∨ x = '.') :
      Name (c :: cs)
  | percent {cs : List Char} (h : Ident cs) : Name ('%' :: cs)

/-! ## Numbers -/

/-- A digit of a radix, and its value. Letters are digits in either case. -/
def Digit (radix : Nat) (c : Char) (d : Nat) : Prop :=
  d < radix ∧ (c = d.digitChar ∨ c = d.digitChar.toUpper)

/-- Digits, at least one, and their positional value. -/
def Numeral (radix : Nat) (cs : List Char) (n : Nat) : Prop :=
  cs ≠ [] ∧ ∃ ds, List.Forall₂ (Digit radix) cs ds ∧ Nat.ofDigits radix ds.reverse = n

inductive Number : List Char → Nat → Prop where
  | hex {x : Char} {cs : List Char} {n : Nat} (hx : x = 'x' ∨ x = 'X') (h : Numeral 16 cs n) :
      Number ('0' :: x :: cs) n
  | octal {cs : List Char} {n : Nat} (h : Numeral 8 cs n) : Number ('0' :: cs) n
  | zero : Number ['0'] 0
  | decimal {c : Char} {cs : List Char} {n : Nat} (hc : c ≠ '0') (h : Numeral 10 (c :: cs) n) :
      Number (c :: cs) n

/-! ## Paths -/

/-- What may stand between the brackets of a segment. -/
inductive Subscript : List Char → Index → Prop where
  | append : Subscript [] .append
  | pos {cs : List Char} {n : Nat} (h : Number cs n) (hn : n < 2 ^ 64) : Subscript cs (.pos n)
  | fromEnd {cs : List Char} {n : Nat} (h : Number cs n) (hpos : 0 < n) (hn : n < 2 ^ 64) :
      Subscript ('-' :: cs) (.fromEnd n)

inductive Segment : List Char → Element → Prop where
  | parent : Segment ['.', '.'] .parent
  | bookmark {cs : List Char} (h : Ident cs) : Segment ('$' :: cs) (.bookmark (String.ofList cs))
  | name {cs : List Char} (h : Name cs) : Segment cs (.name (String.ofList cs))
  | indexed {front inner : List Char} {index : Index} (h : Name front)
      (hi : Subscript inner index) :
      Segment (front ++ '[' :: (inner ++ [']'])) (.indexed (String.ofList front) index)

/-- One or more segments with single slashes between them. -/
inductive Segments : List Char → List Element → Prop where
  | single {cs : List Char} {e : Element} (h : Segment cs e) : Segments cs [e]
  | cons {cs rest : List Char} {e : Element} {es : List Element} (h : Segment cs e)
      (hrest : Segments rest es) : Segments (cs ++ '/' :: rest) (e :: es)

inductive Body : List Char → List Element → Prop where
  | nothing : Body [] []
  | segments {cs : List Char} {es : List Element} (h : Segments cs es) : Body cs es

inductive OptionalSlash : List Char → Prop where
  | absent : OptionalSlash []
  | present : OptionalSlash ['/']

/-- The texts of a path. One that starts with a slash is absolute, also if there is nothing else. -/
inductive PathText (cs : List Char) (p : Path) : Prop where
  | mk {lead body trail : List Char} (hcs : cs = lead ++ body ++ trail) (hlead : OptionalSlash lead)
      (hbody : Body body p.elements) (htrail : OptionalSlash trail)
      (habsolute : p.isAbsolute = true ↔ ∃ rest, cs = '/' :: rest) : PathText cs p

/-! ## Names are read -/

theorem isIdentStart_iff {c : Char} : isIdentStart c = true ↔ IdentStart c := by
  simp [isIdentStart, IdentStart, or_assoc]

theorem isIdentChar_iff {c : Char} : isIdentChar c = true ↔ IdentChar c := by
  simp [isIdentChar, IdentChar, isIdentStart_iff]

theorem isNameChar_iff {c : Char} : isNameChar c = true ↔ IdentChar c ∨ c = '.' := by
  simp [isNameChar, isIdentChar_iff]

theorem isIdent_iff {cs : List Char} : isIdent cs = true ↔ Ident cs := by
  constructor
  · intro h
    cases cs with
    | nil => cases h
    | cons c cs =>
        simp only [isIdent, Bool.and_eq_true, List.all_eq_true, isIdentStart_iff,
          isIdentChar_iff] at h
        exact .mk h.1 h.2
  · rintro ⟨hc, hcs⟩
    simp only [isIdent, Bool.and_eq_true, List.all_eq_true, isIdentStart_iff, isIdentChar_iff]
    exact ⟨hc, hcs⟩

theorem not_identStart_percent : ¬ IdentStart '%' := by
  rw [← isIdentStart_iff]
  decide

theorem isName_iff {cs : List Char} : isName cs = true ↔ Name cs := by
  constructor
  · intro h
    unfold isName at h
    split at h
    · cases h
    · exact .percent (isIdent_iff.1 h)
    · simp only [Bool.and_eq_true, List.all_eq_true, isIdentStart_iff, isNameChar_iff] at h
      exact .plain h.1 h.2
  · intro h
    cases h with
    | @plain c cs hc hcs =>
        unfold isName
        split
        · next heq => cases heq
        · next heq =>
            cases heq
            exact (not_identStart_percent hc).elim
        · next heq =>
            cases heq
            simp only [Bool.and_eq_true, List.all_eq_true, isIdentStart_iff, isNameChar_iff]
            exact ⟨hc, hcs⟩
    | percent h => exact isIdent_iff.2 h

/-! ## Numbers are read -/

theorem toNat_lt_of_alphanumericValue? {c : Char} {d : Nat}
    (h : Text.alphanumericValue? c = some d) : c.toNat < 128 := by
  have hle : ∀ {a : Char}, c ≤ a → c.toNat ≤ a.toNat := fun hca => UInt32.le_iff_toNat_le.1 hca
  unfold Text.alphanumericValue? at h
  split at h
  · next hc => exact Nat.lt_of_le_of_lt (hle hc.2) (by decide)
  split at h
  · next hc => exact Nat.lt_of_le_of_lt (hle hc.2) (by decide)
  split at h
  · next hc => exact Nat.lt_of_le_of_lt (hle hc.2) (by decide)
  · cases h

theorem alphanumericValue?_eq_some_iff {c : Char} {d : Nat} (hd : d < 16) :
    Text.alphanumericValue? c = some d ↔ c = d.digitChar ∨ c = d.digitChar.toUpper := by
  constructor
  · intro h
    have hall : ∀ n < 128, ∀ d < 16, Text.alphanumericValue? (Char.ofNat n) = some d →
        Char.ofNat n = d.digitChar ∨ Char.ofNat n = d.digitChar.toUpper := by decide +kernel
    have hc := hall c.toNat (toNat_lt_of_alphanumericValue? h) d hd
    rw [Char.ofNat_toNat] at hc
    exact hc h
  · have hall : ∀ d < 16, Text.alphanumericValue? d.digitChar = some d ∧
        Text.alphanumericValue? d.digitChar.toUpper = some d := by decide
    rintro (rfl | rfl)
    · exact (hall d hd).1
    · exact (hall d hd).2

theorem digit?_eq_some_iff {radix d : Nat} (hradix : radix ≤ 16) {c : Char} :
    Text.digit? radix c = some d ↔ Digit radix c d := by
  rw [Text.digit?, Option.filter_eq_some_iff, decide_eq_true_iff, Digit, and_comm]
  exact and_congr_right fun hd => alphanumericValue?_eq_some_iff (Nat.lt_of_lt_of_le hd hradix)

/-- Each further digit moves those before it up by one place. -/
theorem readDigitsFrom_eq_some_iff {radix : Nat} (hradix : radix ≤ 16) {cs : List Char} {n : Nat} :
    ∀ {acc : Nat}, Text.readDigitsFrom radix acc cs = some n ↔
      ∃ ds, List.Forall₂ (Digit radix) cs ds ∧
        acc * radix ^ ds.length + Nat.ofDigits radix ds.reverse = n := by
  have hplace : ∀ (acc d : Nat) (ds : List Nat),
      (acc * radix + d) * radix ^ ds.length + Nat.ofDigits radix ds.reverse =
        acc * radix ^ (d :: ds).length + Nat.ofDigits radix (d :: ds).reverse := by
    intro acc d ds
    rw [Nat.ofDigits_reverse_cons, List.length_cons, pow_succ]
    ring
  induction cs with
  | nil =>
      intro acc
      rw [Text.readDigitsFrom, Option.some.injEq]
      constructor
      · rintro rfl
        exact ⟨[], .nil, by simp⟩
      · rintro ⟨_, hds, hn⟩
        cases hds
        simpa using hn
  | cons c cs ih =>
      intro acc
      rw [Text.readDigitsFrom]
      constructor
      · intro h
        cases hd : Text.digit? radix c with
        | none => rw [hd] at h; cases h
        | some d =>
            rw [hd] at h
            obtain ⟨ds, hds, hn⟩ := ih.1 h
            exact ⟨d :: ds, .cons ((digit?_eq_some_iff hradix).1 hd) hds, hplace acc d ds ▸ hn⟩
      · rintro ⟨_, hds, hn⟩
        cases hds with
        | @cons _ d _ ds hd hds =>
            rw [(digit?_eq_some_iff hradix).2 hd]
            exact ih.2 ⟨ds, hds, (hplace acc d ds).trans hn⟩

theorem readDigits_eq_some_iff {radix : Nat} (hradix : radix ≤ 16) {cs : List Char} {n : Nat} :
    Text.readDigits radix cs = some n ↔ Numeral radix cs n := by
  rw [Text.readDigits, Numeral]
  split
  · next hcs => simp [hcs]
  · next hcs =>
      rw [readDigitsFrom_eq_some_iff hradix]
      simp only [Nat.zero_mul, Nat.zero_add, ne_eq, hcs, not_false_eq_true, true_and]

theorem hexBody?_eq_some_iff {cs digits : List Char} :
    Text.hexBody? cs = some digits ↔ ∃ x, (x = 'x' ∨ x = 'X') ∧ cs = '0' :: x :: digits := by
  have hmark : ∀ x, Text.stripStart? ['0', x] cs = some digits ↔ cs = '0' :: x :: digits :=
    fun x => Text.stripStart?_eq_some_iff
  rw [Text.hexBody?]
  constructor
  · intro h
    cases hlower : Text.stripStart? ['0', 'x'] cs with
    | none =>
        rw [hlower] at h
        exact ⟨'X', .inr rfl, (hmark 'X').1 h⟩
    | some lower =>
        rw [hlower] at h
        cases h
        exact ⟨'x', .inl rfl, (hmark 'x').1 hlower⟩
  · rintro ⟨x, rfl | rfl, rfl⟩ <;> rfl

/-- The marks of a hexadecimal number are no octal digits. -/
theorem not_numeral_of_mark {x : Char} (hx : x = 'x' ∨ x = 'X') {cs : List Char} {n : Nat} :
    ¬ Numeral 8 (x :: cs) n := by
  rintro ⟨-, ds, hds, -⟩
  cases hds with
  | cons hd _ =>
      have hnone := (digit?_eq_some_iff (by decide)).2 hd
      rcases hx with rfl | rfl <;> cases hnone

theorem numeral_zero_iff {n : Nat} : Numeral 10 ['0'] n ↔ n = 0 := by
  rw [← readDigits_eq_some_iff (by decide)]
  exact ⟨fun h => (Option.some.inj h).symm, fun h => h ▸ rfl⟩

/-! The start of a number tells which rule it is of. -/

theorem number_iff_of_mark {x : Char} (hx : x = 'x' ∨ x = 'X') {cs : List Char} {n : Nat} :
    Number ('0' :: x :: cs) n ↔ Numeral 16 cs n := by
  constructor
  · intro h
    cases h with
    | hex _ h => exact h
    | octal h => exact (not_numeral_of_mark hx h).elim
    | decimal hc _ => exact (hc rfl).elim
  · exact .hex hx

theorem number_iff_of_zero {c : Char} {cs : List Char} {n : Nat} (hc : ¬ (c = 'x' ∨ c = 'X')) :
    Number ('0' :: c :: cs) n ↔ Numeral 8 (c :: cs) n := by
  constructor
  · intro h
    cases h with
    | hex hx _ => exact (hc hx).elim
    | octal h => exact h
    | decimal hc _ => exact (hc rfl).elim
  · exact .octal

theorem number_iff_of_no_zero {cs : List Char} {n : Nat} (hzero : ∀ c rest, cs ≠ '0' :: c :: rest) :
    Number cs n ↔ Numeral 10 cs n := by
  constructor
  · intro h
    cases h with
    | hex _ _ => exact (hzero _ _ rfl).elim
    | @octal cs n h =>
        rcases cs with _ | ⟨c, cs⟩
        · exact (h.1 rfl).elim
        · exact (hzero c cs rfl).elim
    | zero => exact numeral_zero_iff.2 rfl
    | decimal _ h => exact h
  · intro h
    rcases cs with _ | ⟨c, cs⟩
    · exact (h.1 rfl).elim
    by_cases hc : c = '0'
    · subst hc
      rcases cs with _ | ⟨c, cs⟩
      · rw [numeral_zero_iff.1 h]
        exact .zero
      · exact (hzero c cs rfl).elim
    · exact .decimal hc h

theorem parsePosition?_eq_some_iff {cs : List Char} {n : Nat} :
    parsePosition? cs = some n ↔ Number cs n ∧ n < 2 ^ 64 := by
  have hlimit : indexLimit = 2 ^ 64 := by decide
  unfold parsePosition?
  simp only [Option.filter_eq_some_iff, decide_eq_true_iff, hlimit]
  refine and_congr_left fun _ => ?_
  split
  · next hmark =>
      obtain ⟨x, hx, rfl⟩ := hexBody?_eq_some_iff.1 hmark
      rw [readDigits_eq_some_iff (by decide), number_iff_of_mark hx]
  · next c rest hmark =>
      have hc : ¬ (c = 'x' ∨ c = 'X') := by
        intro hx
        rw [hexBody?_eq_some_iff.2 ⟨c, hx, rfl⟩] at hmark
        cases hmark
      rw [readDigits_eq_some_iff (by decide), number_iff_of_zero hc]
  · next hzero _ =>
      rw [readDigits_eq_some_iff (by decide), number_iff_of_no_zero hzero]

/-! ## Segments are read -/

theorem not_number_nil {n : Nat} : ¬ Number [] n := by
  rintro ⟨⟩

theorem Numeral.notMem {radix n : Nat} {cs : List Char} (h : Numeral radix cs n) {x : Char}
    (hradix : radix ≤ 16) (hx : Text.digit? radix x = none) : x ∉ cs := by
  obtain ⟨-, ds, hds, -⟩ := h
  induction hds with
  | nil => exact List.not_mem_nil
  | cons hd _ ih =>
      refine List.not_mem_cons_of_ne_of_not_mem ?_ ih
      rintro rfl
      rw [(digit?_eq_some_iff hradix).2 hd] at hx
      cases hx

/-- No mark of a path can stand in a number. -/
theorem Number.notMem {cs : List Char} {n : Nat} (h : Number cs n) {x : Char}
    (hx : Text.alphanumericValue? x = none) : x ∉ cs := by
  have hdigit : ∀ radix, Text.digit? radix x = none := by
    intro radix
    rw [Text.digit?, hx]
    rfl
  have hzero : x ≠ '0' := by
    rintro rfl
    cases hx
  cases h with
  | @hex mark cs _ hmark h =>
      have hmark : x ≠ mark := by
        rintro rfl
        rcases hmark with rfl | rfl <;> cases hx
      simp [hzero, hmark, h.notMem (by decide) (hdigit 16)]
  | octal h => simp [hzero, h.notMem (by decide) (hdigit 8)]
  | zero => simpa using hzero
  | decimal _ h => exact h.notMem (by decide) (hdigit 10)

theorem parse?_eq_some_iff {cs : List Char} {index : Index} :
    Index.parse? cs = some index ↔ Subscript cs index := by
  constructor
  · intro h
    unfold Index.parse? at h
    split at h
    · cases h
      exact .append
    · obtain ⟨n, hn, rfl⟩ := Option.map_eq_some_iff.1 h
      obtain ⟨hn, hpos⟩ := Option.filter_eq_some_iff.1 hn
      obtain ⟨hnumber, hlt⟩ := parsePosition?_eq_some_iff.1 hn
      exact .fromEnd hnumber (of_decide_eq_true hpos) hlt
    · obtain ⟨n, hn, rfl⟩ := Option.map_eq_some_iff.1 h
      obtain ⟨hnumber, hlt⟩ := parsePosition?_eq_some_iff.1 hn
      exact .pos hnumber hlt
  · intro h
    cases h with
    | append => rfl
    | @pos cs n h hn =>
        unfold Index.parse?
        split
        · exact (not_number_nil h).elim
        · exact (h.notMem (x := '-') rfl List.mem_cons_self).elim
        · rw [parsePosition?_eq_some_iff.2 ⟨h, hn⟩, Option.map_some]
    | fromEnd h hpos hn =>
        rw [Index.parse?, parsePosition?_eq_some_iff.2 ⟨h, hn⟩]
        simp [hpos]

theorem parse_eq_ok_iff {cs : List Char} {e : Element} :
    Element.parse cs = .ok e ↔ Segment cs e := by
  rw [Element.parse_eq_ok_iff]
  constructor
  · rintro (h | ⟨h, hi⟩ | _ | h)
    · exact .name (isName_iff.1 h)
    · exact .indexed (isName_iff.1 h) (parse?_eq_some_iff.1 hi)
    · exact .parent
    · exact .bookmark (isIdent_iff.1 h)
  · rintro (_ | h | h | ⟨h, hi⟩)
    · exact .parent
    · exact .bookmark (isIdent_iff.2 h)
    · exact .name (isName_iff.2 h)
    · exact .indexed (isName_iff.2 h) (parse?_eq_some_iff.2 hi)

theorem Subscript.slash_notMem {cs : List Char} {index : Index} (h : Subscript cs index) :
    '/' ∉ cs := by
  cases h with
  | append => exact List.not_mem_nil
  | pos h _ => exact h.notMem rfl
  | fromEnd h _ _ => simp [h.notMem (x := '/') rfl]

theorem Segment.isSegment {cs : List Char} {e : Element} (h : Segment cs e) :
    Path.IsSegment cs := by
  constructor
  · rintro rfl
    cases parse_eq_ok_iff.2 h
  · cases h with
    | parent => decide
    | bookmark h =>
        have hident : '/' ∉ _ := fun hmem =>
          absurd (isNameChar_of_isIdent (isIdent_iff.2 h) hmem) (by decide)
        simp [hident]
    | name h => exact slash_notMem_of_isName (isName_iff.2 h)
    | indexed h hi => simp [slash_notMem_of_isName (isName_iff.2 h), hi.slash_notMem]

/-! ## Paths are read -/

theorem Segments.mapM_splitOn {cs : List Char} {es : List Element} (h : Segments cs es) :
    (cs.splitOn '/').mapM Element.parse = .ok es := by
  induction h with
  | single h =>
      rw [List.splitOn_eq_singleton h.isSegment.2, List.mapM_cons, parse_eq_ok_iff.2 h]
      rfl
  | cons h _ ih =>
      rw [List.splitOn_append_cons_self, List.splitOn_eq_singleton h.isSegment.2,
        List.singleton_append, List.mapM_cons, parse_eq_ok_iff.2 h, ih]
      rfl

theorem segments_of_mapM {segments : List (List Char)} : ∀ {es : List Element}, segments ≠ [] →
    segments.mapM Element.parse = .ok es → Segments (['/'].intercalate segments) es := by
  induction segments with
  | nil => exact fun hne => (hne rfl).elim
  | cons s segments ih =>
      intro es _ h
      rw [List.mapM_cons] at h
      cases hs : Element.parse s with
      | error flaw => rw [hs] at h; cases h
      | ok e =>
      cases hrest : segments.mapM Element.parse with
      | error flaw => rw [hs, hrest] at h; cases h
      | ok rest =>
      rw [hs, hrest] at h
      cases h
      have hsegment := parse_eq_ok_iff.1 hs
      cases segments with
      | nil =>
          cases hrest
          rw [List.intercalate_singleton]
          exact .single hsegment
      | cons s' segments =>
          rw [List.intercalate_cons_cons, List.append_assoc]
          exact .cons hsegment (ih (List.cons_ne_nil _ _) hrest)

theorem mapM_splitOn_eq_ok_iff {cs : List Char} {es : List Element} :
    (cs.splitOn '/').mapM Element.parse = .ok es ↔ Segments cs es := by
  constructor
  · intro h
    have hsegments := segments_of_mapM (List.splitOn_ne_nil '/' cs) h
    rwa [List.intercalate_splitOn] at hsegments
  · exact Segments.mapM_splitOn

theorem Segments.isSegment_of_mem {cs : List Char} {es : List Element} (h : Segments cs es) :
    ∀ s ∈ cs.splitOn '/', Path.IsSegment s := by
  induction h with
  | single h =>
      rw [List.splitOn_eq_singleton h.isSegment.2]
      exact List.forall_mem_singleton.2 h.isSegment
  | cons h _ ih =>
      rw [List.splitOn_append_cons_self, List.splitOn_eq_singleton h.isSegment.2]
      exact List.forall_mem_cons.2 ⟨h.isSegment, ih⟩

/-- Segments have no slash at either end, as none of them is empty. -/
theorem Segments.ne_nil_of_slash {front rest : List Char} {es : List Element}
    (h : Segments (front ++ '/' :: rest) es) : front ≠ [] ∧ rest ≠ [] :=
  Path.ne_nil_of_intercalate h.isSegment_of_mem (List.intercalate_splitOn '/')

theorem Segments.ne_nil {cs : List Char} {es : List Element} (h : Segments cs es) : cs ≠ [] := by
  rintro rfl
  exact (h.isSegment_of_mem [] (by simp)).1 rfl

theorem Body.ne_slash_cons {rest : List Char} {es : List Element} : ¬ Body ('/' :: rest) es := by
  rintro (_ | h)
  have h : Segments ([] ++ '/' :: rest) es := h
  exact h.ne_nil_of_slash.1 rfl

theorem Body.ne_slash_concat {front : List Char} {es : List Element} :
    ¬ Body (front ++ ['/']) es := by
  intro h
  generalize hcs : front ++ ['/'] = cs at h
  cases h with
  | nothing => cases front <;> cases hcs
  | segments h =>
      subst hcs
      exact h.ne_nil_of_slash.2 rfl

/-- Reading what stands between the slashes at the ends of a text. -/
def readBody (cs : List Char) : Except PathFlaw (List Element) :=
  if cs = [] then .ok [] else (cs.splitOn '/').mapM Element.parse

theorem readBody_eq_ok_iff {cs : List Char} {es : List Element} :
    readBody cs = .ok es ↔ Body cs es := by
  unfold readBody
  split
  · next hcs =>
      subst hcs
      constructor
      · rintro ⟨⟩
        exact .nothing
      · rintro (_ | h)
        · rfl
        · exact (h.ne_nil rfl).elim
  · next hcs =>
      rw [mapM_splitOn_eq_ok_iff]
      constructor
      · exact .segments
      · rintro (_ | h)
        · exact (hcs rfl).elim
        · exact h

/-- A slash at the end is dropped if there is one. -/
theorem readBody_unclosed_iff {cs : List Char} {es : List Element} :
    readBody ((Text.stripEnd? ['/'] cs).getD cs) = .ok es ↔
      ∃ body trail, cs = body ++ trail ∧ Body body es ∧ OptionalSlash trail := by
  rw [readBody_eq_ok_iff]
  constructor
  · intro h
    cases hclose : Text.stripEnd? ['/'] cs with
    | none =>
        rw [hclose] at h
        exact ⟨cs, [], (List.append_nil cs).symm, h, .absent⟩
    | some body =>
        rw [hclose] at h
        exact ⟨body, ['/'], Text.stripEnd?_eq_some_iff.1 hclose, h, .present⟩
  · rintro ⟨body, trail, rfl, hbody, _ | _⟩
    · rw [List.append_nil]
      cases hclose : Text.stripEnd? ['/'] body with
      | none => exact hbody
      | some front =>
          rw [Text.stripEnd?_eq_some_iff.1 hclose] at hbody
          exact (Body.ne_slash_concat hbody).elim
    · rw [Text.stripEnd?_eq_some_iff.2 rfl]
      exact hbody

theorem pathText_slash_iff {rest : List Char} {p : Path} :
    PathText ('/' :: rest) p ↔ p.isAbsolute = true ∧
      ∃ body trail, rest = body ++ trail ∧ Body body p.elements ∧ OptionalSlash trail := by
  constructor
  · rintro ⟨hcs, _ | _, hbody, htrail, habsolute⟩
    · refine ⟨habsolute.2 ⟨rest, rfl⟩, ?_⟩
      -- The slash at the start is also the one at the end, and there is nothing between them.
      generalize p.elements = es at hbody
      rcases hbody with _ | hbody
      · rcases htrail with _ | _ <;> cases hcs
        exact ⟨[], [], rfl, .nothing, .absent⟩
      · obtain ⟨c, cs, rfl⟩ := List.exists_cons_of_ne_nil hbody.ne_nil
        obtain rfl : '/' = c := (List.cons.inj hcs).1
        exact (Body.ne_slash_cons (.segments hbody)).elim
    · exact ⟨habsolute.2 ⟨rest, rfl⟩, _, _, (List.cons.inj hcs).2, hbody, htrail⟩
  · rintro ⟨habsolute, body, trail, rfl, hbody, htrail⟩
    have htext : '/' :: (body ++ trail) = ['/'] ++ body ++ trail := rfl
    exact .mk htext .present hbody htrail (iff_of_true habsolute ⟨_, rfl⟩)

theorem pathText_iff_of_no_slash {cs : List Char} (hcs : ∀ rest, cs ≠ '/' :: rest) {p : Path} :
    PathText cs p ↔ p.isAbsolute = false ∧
      ∃ body trail, cs = body ++ trail ∧ Body body p.elements ∧ OptionalSlash trail := by
  have hno : ¬ ∃ rest, cs = '/' :: rest := fun ⟨rest, h⟩ => hcs rest h
  constructor
  · rintro ⟨heq, _ | _, hbody, htrail, habsolute⟩
    · exact ⟨Bool.eq_false_iff.2 fun h => hno (habsolute.1 h), _, _, heq, hbody, htrail⟩
    · exact (hcs _ heq).elim
  · rintro ⟨hrelative, body, trail, heq, hbody, htrail⟩
    have htext : cs = [] ++ body ++ trail := heq
    refine .mk htext .absent hbody htrail (iff_of_false ?_ hno)
    rw [hrelative]
    exact Bool.false_ne_true

theorem parseChars_eq_ok_iff {cs : List Char} {p : Path} :
    Path.parseChars cs = .ok p ↔ PathText cs p := by
  obtain ⟨isAbsolute, es⟩ := p
  have hrest : ∀ (start : Bool) (rest : List Char),
      (if rest = [] then pure ⟨start, []⟩
        else do pure ⟨start, ← (rest.splitOn '/').mapM Element.parse⟩ : Except PathFlaw Path) =
        .ok ⟨isAbsolute, es⟩ ↔ isAbsolute = start ∧ readBody rest = .ok es := by
    intro start rest
    rw [eq_comm (a := isAbsolute)]
    unfold readBody
    split
    · simp [pure, Except.pure]
    · cases (rest.splitOn '/').mapM Element.parse with
      | error flaw => simp [bind, Except.bind]
      | ok es => simp [bind, Except.bind, pure, Except.pure]
  by_cases hstart : ∃ rest, cs = '/' :: rest
  · obtain ⟨rest, rfl⟩ := hstart
    rw [pathText_slash_iff, ← readBody_unclosed_iff]
    exact hrest true _
  · have hcs : ∀ rest, cs ≠ '/' :: rest := fun rest h => hstart ⟨rest, h⟩
    rw [pathText_iff_of_no_slash hcs, ← readBody_unclosed_iff]
    unfold Path.parseChars
    split
    next hsplit =>
      split at hsplit
      · exact (hcs _ rfl).elim
      · cases hsplit
        exact hrest false _

end Grammar

/-- Just the texts of the grammar are read, and as the paths that they denote. Any other text is
refused as a whole. -/
theorem Path.ofText_grammar (text : String) :
    (∀ p, ofText text = .ok p ↔ Grammar.PathText text.toList p) ∧
    ((∃ flaw, ofText text = .error (.invalidPath text flaw)) ↔
      ∀ p, ¬ Grammar.PathText text.toList p) := by
  have hread : ∀ p, ofText text = .ok p ↔ Grammar.PathText text.toList p := by
    intro p
    rw [← Grammar.parseChars_eq_ok_iff, ofText]
    cases parseChars text.toList <;> simp
  refine ⟨hread, ?_⟩
  simp only [← hread]
  unfold ofText
  cases parseChars text.toList <;> simp

example : Path.ofText "//" = .ok ⟨true, []⟩ := by rfl

example : Path.ofText "a[010]/" = .ok ⟨false, [.indexed "a" (.pos 8)]⟩ := by rfl

end RegisterAtlas
