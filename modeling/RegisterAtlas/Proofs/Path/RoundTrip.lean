import RegisterAtlas.Proofs.Path.PlainName
import RegisterAtlas.Proofs.Text.Decimal
import RegisterAtlas.Proofs.Text.Joined

/-!
# Paths and their texts

A path can be built from any elements, but only of some is the text read back: names must be names
and indices must be in range. Such a path is `WellFormed`, and what is read from a text always is.
`Path.ofText_text` says that printing and reading are inverse on these paths, whatever other texts
of the same path there are.

A path is printed as segments between slashes, and `Path.parseChars_segments` says how such a text
is read, also if some segment is no element.
-/

namespace RegisterAtlas

/-! ## Well-formed paths -/

/-- Positions are 64-bit numbers, and the last item is the first from the end. -/
inductive Index.WellFormed : Index → Prop where
  | append : WellFormed .append
  | pos {n : Nat} (h : n < indexLimit) : WellFormed (.pos n)
  | fromEnd {n : Nat} (hpos : 0 < n) (h : n < indexLimit) : WellFormed (.fromEnd n)

inductive Element.WellFormed : Element → Prop where
  | name {n : String} (h : isName n.toList = true) : WellFormed (.name n)
  | indexed {n : String} {index : Index} (h : isName n.toList = true) (hi : index.WellFormed) :
      WellFormed (.indexed n index)
  | parent : WellFormed .parent
  | bookmark {n : String} (h : isIdent n.toList = true) : WellFormed (.bookmark n)

def Path.WellFormed (p : Path) : Prop := ∀ e ∈ p.elements, e.WellFormed

/-! ## Indices -/

theorem parsePosition?_toDigits {n : Nat} (h : n < indexLimit) :
    parsePosition? (Nat.toDigits 10 n) = some n := by
  have hread := Text.readDigits_toDigits 10 (by decide) (by decide) n
  unfold parsePosition?
  rw [Text.hexBody?_toDigits]
  split
  · next heq => cases heq
  · next c rest hzero =>
      -- A zero in front would be that of the number zero, which has no further digit.
      cases Text.eq_nil_of_toDigits_eq_zero_cons hzero
  · simp [hread, h]

namespace Index

theorem toList_text_pos (n : Nat) : (pos n).text.toList = Nat.toDigits 10 n := Nat.toList_repr

theorem toList_text_fromEnd (n : Nat) : (fromEnd n).text.toList = '-' :: Nat.toDigits 10 n := by
  rw [text, String.toList_append]
  exact congrArg ('-' :: ·) Nat.toList_repr

theorem parse?_text {index : Index} (h : index.WellFormed) :
    parse? index.text.toList = some index := by
  cases h with
  | append => rfl
  | @pos n h =>
      rw [toList_text_pos]
      unfold parse?
      split
      · next hnil => exact (Nat.toDigits_ne_nil hnil).elim
      · next hsign =>
          exact (Text.notMem_toDigits (c := '-') (by decide) n (by rw [hsign]; simp)).elim
      · rw [parsePosition?_toDigits h, Option.map_some]
  | fromEnd hpos h =>
      rw [toList_text_fromEnd, parse?, parsePosition?_toDigits h]
      simp [hpos]

theorem wellFormed_of_parse? {cs : List Char} {index : Index} (h : parse? cs = some index) :
    index.WellFormed := by
  unfold parse? at h
  split at h
  · cases h
    exact .append
  · obtain ⟨n, hn, rfl⟩ := Option.map_eq_some_iff.1 h
    obtain ⟨hn, hpos⟩ := Option.filter_eq_some_iff.1 hn
    exact .fromEnd (of_decide_eq_true hpos) (parsePosition?_lt hn)
  · obtain ⟨n, hn, rfl⟩ := Option.map_eq_some_iff.1 h
    exact .pos (parsePosition?_lt hn)

end Index

/-! ## Elements -/

theorem mem_of_isName {cs : List Char} (h : isName cs = true) {c : Char} (hc : c ∈ cs) :
    c = '%' ∨ isNameChar c = true := by
  obtain ⟨first, rest, rfl, hfirst, hrest⟩ := isName_chars h
  rcases List.mem_cons.1 hc with rfl | hc
  · exact hfirst.imp_right isNameChar_of_isIdentStart
  · exact .inr (hrest c hc)

theorem isNameChar_of_isIdent {cs : List Char} (h : isIdent cs = true) {c : Char} (hc : c ∈ cs) :
    isNameChar c = true := by
  cases cs with
  | nil => cases h
  | cons first rest =>
      simp only [isIdent, Bool.and_eq_true, List.all_eq_true] at h
      rcases List.mem_cons.1 hc with rfl | hc
      · exact isNameChar_of_isIdentStart h.1
      · exact isNameChar_of_isIdentChar (h.2 c hc)

/-- How an element is written. Only the position in an index can be written in several ways. -/
inductive Element.Written : List Char → Element → Prop where
  | name {cs : List Char} (h : isName cs = true) : Written cs (.name (String.ofList cs))
  | indexed {front inner : List Char} {index : Index} (h : isName front = true)
      (hi : Index.parse? inner = some index) :
      Written (front ++ '[' :: (inner ++ [']'])) (.indexed (String.ofList front) index)
  | parent : Written ['.', '.'] .parent
  | bookmark {cs : List Char} (h : isIdent cs = true) :
      Written ('$' :: cs) (.bookmark (String.ofList cs))

namespace Element

theorem parse_of_written {cs : List Char} {e : Element} (h : Written cs e) : parse cs = .ok e := by
  cases h with
  | name h => exact parse_of_isName h
  | @indexed front inner index h hi =>
      have hsplit : Text.splitOnce '[' (front ++ '[' :: (inner ++ [']'])) =
          some (front, inner ++ [']']) := by
        refine Text.splitOnce_eq_some_iff.2 ⟨rfl, fun hmem => ?_⟩
        rcases mem_of_isName h hmem with hc | hc <;> exact absurd hc (by decide)
      have hclose : Text.stripEnd? [']'] (inner ++ [']']) = some inner :=
        Text.stripEnd?_eq_some_iff.2 rfl
      obtain ⟨c, rest, rfl, hc, -⟩ := isName_chars h
      obtain ⟨hdot, hdollar, -⟩ := ne_of_name_start hc
      unfold parse
      split
      · next heq => cases heq
      · next heq => exact absurd (List.cons.inj heq).1 hdot
      · next heq => exact absurd (List.cons.inj heq).1 hdollar
      · simp only [hsplit, hclose, h, if_true, hi]
  | parent => rfl
  | bookmark h => rw [parse, if_pos h]

theorem written_of_parse {cs : List Char} {e : Element} (h : parse cs = .ok e) : Written cs e := by
  unfold parse at h
  split at h
  · cases h
  · cases h
    exact .parent
  · split at h
    · next hident =>
        cases h
        exact .bookmark hident
    · cases h
  · split at h
    · next front rest hsplit =>
        obtain ⟨rfl, -⟩ := Text.splitOnce_eq_some_iff.1 hsplit
        split at h
        · cases h
        · next inner hclose =>
            obtain rfl := Text.stripEnd?_eq_some_iff.1 hclose
            split at h
            · next hname =>
                split at h
                · next index hindex =>
                    cases h
                    exact .indexed hname hindex
                · cases h
            · cases h
    · split at h
      · next hname =>
          cases h
          exact .name hname
      · cases h

theorem parse_eq_ok_iff {cs : List Char} {e : Element} : parse cs = .ok e ↔ Written cs e :=
  ⟨written_of_parse, parse_of_written⟩

/-- The text of an element is one of the ways to write it. -/
theorem WellFormed.written {e : Element} (h : e.WellFormed) : Written e.text.toList e := by
  cases h with
  | @name n h =>
      have hwritten := Written.name h
      rwa [String.ofList_toList] at hwritten
  | @indexed n index h hi =>
      have htext : (Element.indexed n index).text.toList =
          n.toList ++ '[' :: (index.text.toList ++ [']']) := by simp [text]
      have hwritten := Written.indexed h (Index.parse?_text hi)
      rwa [String.ofList_toList, ← htext] at hwritten
  | parent => exact .parent
  | @bookmark n h =>
      have htext : (Element.bookmark n).text.toList = '$' :: n.toList := by simp [text]
      have hwritten := Written.bookmark h
      rwa [String.ofList_toList, ← htext] at hwritten

theorem Written.wellFormed {cs : List Char} {e : Element} (h : Written cs e) : e.WellFormed := by
  cases h with
  | name h => exact .name (by rwa [String.toList_ofList])
  | indexed h hi => exact .indexed (by rwa [String.toList_ofList]) (Index.wellFormed_of_parse? hi)
  | parent => exact .parent
  | bookmark h => exact .bookmark (by rwa [String.toList_ofList])

end Element

/-! ## Segments -/

namespace Path

/-- The segments of a path text stand between slashes. -/
def IsSegment (cs : List Char) : Prop := cs ≠ [] ∧ '/' ∉ cs

/-- A text without a slash at its start or at its end, read behind the slash of an absolute path or
behind nothing. -/
theorem parseChars_of_bare (isAbsolute : Bool) {cs : List Char} (hstart : ∀ rest, cs ≠ '/' :: rest)
    (hclose : ∀ front, cs ≠ front ++ ['/']) :
    parseChars ((if isAbsolute then ['/'] else []) ++ cs) =
      if cs = [] then .ok ⟨isAbsolute, []⟩
      else ((cs.splitOn '/').mapM Element.parse).map (Path.mk isAbsolute) := by
  have hstrip : Text.stripEnd? ['/'] cs = none := Option.eq_none_iff_forall_not_mem.2
    fun front hfront => hclose front (Text.stripEnd?_eq_some_iff.1 hfront)
  have hrest : ∀ r : Except PathFlaw (List Element),
      (do pure (Path.mk isAbsolute (← r)) : Except PathFlaw Path) = r.map (Path.mk isAbsolute) := by
    intro r
    cases r <;> rfl
  cases isAbsolute with
  | false =>
      unfold parseChars
      simp only [Bool.false_eq_true, if_false, List.nil_append, hstrip, Option.getD_none, hrest]
      rfl
  | true =>
      unfold parseChars
      simp only [if_true, List.cons_append, List.nil_append, hstrip, Option.getD_none, hrest]
      rfl

theorem ne_nil_of_intercalate {segments : List (List Char)} (h : ∀ s ∈ segments, IsSegment s)
    {front rest : List Char} (hjoin : ['/'].intercalate segments = front ++ '/' :: rest) :
    front ≠ [] ∧ rest ≠ [] := by
  have hne : segments ≠ [] := by
    rintro rfl
    simp at hjoin
  have hsplit := List.splitOn_intercalate '/' (fun s hs => (h s hs).2) hne
  rw [hjoin, List.splitOn_append_cons_self] at hsplit
  constructor <;>
    · rintro rfl
      exact (h [] (by rw [← hsplit]; simp)).1 rfl

/-- Segments joined by slashes are read one by one. -/
theorem parseChars_segments (isAbsolute : Bool) {segments : List (List Char)}
    (h : ∀ s ∈ segments, IsSegment s) :
    parseChars ((if isAbsolute then ['/'] else []) ++ ['/'].intercalate segments) =
      (segments.mapM Element.parse).map (Path.mk isAbsolute) := by
  rw [parseChars_of_bare isAbsolute (fun rest hrest => (ne_nil_of_intercalate h hrest).1 rfl)
    (fun front hfront => (ne_nil_of_intercalate h hfront).2 rfl)]
  split
  · next hnil =>
      rw [(Text.intercalate_eq_nil_iff h).1 hnil]
      rfl
  · next hne =>
      have hsegments : segments ≠ [] := mt (Text.intercalate_eq_nil_iff h).2 hne
      rw [List.splitOn_intercalate '/' (fun s hs => (h s hs).2) hsegments]

end Path

theorem slash_notMem_of_isName {cs : List Char} (h : isName cs = true) : '/' ∉ cs := fun hmem => by
  rcases mem_of_isName h hmem with hc | hc <;> exact absurd hc (by decide)

theorem Index.slash_notMem_text (index : Index) : '/' ∉ index.text.toList := by
  have hdigits : ∀ n : Nat, '/' ∉ Nat.toDigits 10 n := Text.notMem_toDigits (by decide)
  cases index with
  | append => exact List.not_mem_nil
  | pos n =>
      rw [toList_text_pos]
      exact hdigits n
  | fromEnd n =>
      rw [toList_text_fromEnd]
      exact fun hmem => hdigits n ((List.mem_cons.1 hmem).resolve_left (by decide))

theorem Element.WellFormed.isSegment {e : Element} (h : e.WellFormed) :
    Path.IsSegment e.text.toList := by
  constructor
  · intro hnil
    have hparse := parse_of_written h.written
    rw [hnil] at hparse
    cases hparse
  · cases h with
    | name h => exact slash_notMem_of_isName h
    | @indexed n index h hi =>
        have hname := slash_notMem_of_isName h
        have hindex := index.slash_notMem_text
        simp [Element.text, hname, hindex]
    | parent => decide
    | bookmark h =>
        have hname : '/' ∉ _ := fun hmem => absurd (isNameChar_of_isIdent h hmem) (by decide)
        simp [Element.text, hname]

/-! ## Paths -/

namespace Path

theorem toList_text (p : Path) :
    p.text.toList = (if p.isAbsolute then ['/'] else []) ++
      ['/'].intercalate (p.elements.map fun e => e.text.toList) := by
  rw [text, String.toList_append, String.toList_intercalate, List.map_map]
  cases p.isAbsolute <;> rfl

theorem mapM_parse_texts {es : List Element} (h : ∀ e ∈ es, e.WellFormed) :
    (es.map fun e => e.text.toList).mapM Element.parse = .ok es := by
  induction es with
  | nil => rfl
  | cons e es ih =>
      rw [List.map_cons, List.mapM_cons, Element.parse_of_written (h e List.mem_cons_self).written,
        ih fun e he => h e (List.mem_cons_of_mem _ he)]
      rfl

theorem WellFormed.parseChars_text {p : Path} (h : p.WellFormed) :
    parseChars p.text.toList = .ok p := by
  rw [toList_text, parseChars_segments, mapM_parse_texts h]
  · rfl
  · intro s hs
    obtain ⟨e, he, rfl⟩ := List.mem_map.1 hs
    exact (h e he).isSegment

/-- A path is read back from its text. -/
theorem WellFormed.ofText_text {p : Path} (h : p.WellFormed) : ofText p.text = .ok p := by
  rw [ofText, h.parseChars_text]

/-- The text of an element is read as the path of this element alone. -/
theorem ofText_element {e : Element} (h : e.WellFormed) : ofText e.text = .ok ⟨false, [e]⟩ := by
  have htext : e.text = (⟨false, [e]⟩ : Path).text := by simp [text]
  rw [htext]
  refine WellFormed.ofText_text fun e' he' => ?_
  rwa [List.mem_singleton.1 he']

theorem exists_parse_of_mapM {segments : List (List Char)} : ∀ {es : List Element},
    segments.mapM Element.parse = .ok es → ∀ e ∈ es, ∃ s ∈ segments, Element.parse s = .ok e := by
  induction segments with
  | nil =>
      rintro es ⟨⟩ e he
      cases he
  | cons s segments ih =>
      intro es h e he
      rw [List.mapM_cons] at h
      cases hs : Element.parse s with
      | error flaw => rw [hs] at h; cases h
      | ok first =>
      cases hrest : segments.mapM Element.parse with
      | error flaw => rw [hs, hrest] at h; cases h
      | ok rest =>
      rw [hs, hrest] at h
      cases h
      rcases List.mem_cons.1 he with rfl | he
      · exact ⟨s, List.mem_cons_self, hs⟩
      · obtain ⟨s', hs', hparse⟩ := ih hrest e he
        exact ⟨s', List.mem_cons_of_mem _ hs', hparse⟩

/-- Whatever is read is well formed. -/
theorem wellFormed_of_parseChars {cs : List Char} {p : Path} (h : parseChars cs = .ok p) :
    p.WellFormed := by
  have hrest : ∀ (isAbsolute : Bool) (rest : List Char),
      (if rest = [] then pure ⟨isAbsolute, []⟩
        else do pure ⟨isAbsolute, ← (rest.splitOn '/').mapM Element.parse⟩ :
          Except PathFlaw Path) = .ok p → p.WellFormed := by
    intro isAbsolute rest h
    split at h
    · cases h
      exact fun e he => by cases he
    · cases hes : (rest.splitOn '/').mapM Element.parse with
      | error flaw => rw [hes] at h; cases h
      | ok es =>
          rw [hes] at h
          cases h
          intro e he
          obtain ⟨s, -, hs⟩ := exists_parse_of_mapM hes e he
          exact (Element.written_of_parse hs).wellFormed
  unfold parseChars at h
  split at h
  exact hrest _ _ h

theorem wellFormed_of_ofText {text : String} {p : Path} (h : ofText text = .ok p) :
    p.WellFormed := by
  unfold ofText at h
  split at h
  · next hp =>
      cases h
      exact wellFormed_of_parseChars hp
  · cases h

/-! ## Paths made of well-formed ones -/

theorem WellFormed.take {p : Path} (h : p.WellFormed) (n : Nat) : (p.take n).WellFormed :=
  fun e he => h e (List.mem_of_mem_take he)

theorem mem_of_mem_pushNormalized {isAbsolute : Bool} {stack : List Element} {e x : Element}
    (h : x ∈ pushNormalized isAbsolute stack e) : x ∈ stack ∨ x = e := by
  unfold pushNormalized at h
  split at h
  · split at h
    · cases h
    · exact .inr (List.mem_singleton.1 h)
  · exact (List.mem_cons.1 h).symm
  · exact (List.mem_cons.1 h).symm
  · exact .inl (List.mem_cons_of_mem _ h)
  · exact (List.mem_cons.1 h).symm

theorem WellFormed.normalized {p : Path} (h : p.WellFormed) : p.normalized.WellFormed := by
  have hfold : ∀ (es stack : List Element), (∀ e ∈ stack, e.WellFormed) →
      (∀ e ∈ es, e.WellFormed) →
        ∀ e ∈ es.foldl (pushNormalized p.isAbsolute) stack, e.WellFormed := by
    intro es
    induction es with
    | nil => exact fun stack hstack _ => hstack
    | cons first es ih =>
        intro stack hstack hes
        refine ih _ (fun e he => ?_) fun e he => hes e (List.mem_cons_of_mem _ he)
        rcases mem_of_mem_pushNormalized he with he | rfl
        · exact hstack e he
        · exact hes e List.mem_cons_self
  intro e he
  exact hfold p.elements [] (fun e he => by cases he) h e (List.mem_reverse.1 he)

/-- Just the well-formed paths are read back from their texts, so no two of them have one text.
What is read from any text is well formed, and so are the beginnings of well-formed paths and what
is left of them when steps to parents are cancelled. -/
theorem text_ofText_inverse :
    (∀ p : Path, p.WellFormed ↔ ofText p.text = .ok p) ∧
    (∀ p q : Path, p.WellFormed → q.WellFormed → p.text = q.text → p = q) ∧
    (∀ text p, ofText text = .ok p → p.WellFormed ∧ ofText p.text = .ok p) ∧
    ∀ p : Path, p.WellFormed →
      (∀ n, (p.take n).WellFormed ∧ (p.take n).isAbsolute = p.isAbsolute) ∧
      p.normalized.WellFormed ∧ p.normalized.isAbsolute = p.isAbsolute := by
  refine ⟨fun p => ⟨fun h => h.ofText_text, fun h => wellFormed_of_ofText h⟩,
    fun p q hp hq htext => ?_, fun text p h => ?_,
    fun p h => ⟨fun n => ⟨h.take n, rfl⟩, h.normalized, rfl⟩⟩
  · have hread := hp.ofText_text
    rw [htext, hq.ofText_text] at hread
    exact (Except.ok.inj hread).symm
  · have hp := wellFormed_of_ofText h
    exact ⟨hp, hp.ofText_text⟩

/-- A position may be written in octal or hexadecimal, and is printed in decimal. -/
theorem text_ofText_inverse_radixes :
    ofText "/a.b[0x1F]/%c[-0010]/$d/../e[]/" =
        .ok ⟨true, [.indexed "a.b" (.pos 31), .indexed "%c" (.fromEnd 8), .bookmark "d", .parent,
          .indexed "e" .append]⟩ ∧
      ofText "/a.b[31]/%c[-8]/$d/../e[]" =
        .ok ⟨true, [.indexed "a.b" (.pos 31), .indexed "%c" (.fromEnd 8), .bookmark "d", .parent,
          .indexed "e" .append]⟩ := by
  have hread : ofText "/a.b[0x1F]/%c[-0010]/$d/../e[]/" =
      .ok ⟨true, [.indexed "a.b" (.pos 31), .indexed "%c" (.fromEnd 8), .bookmark "d", .parent,
        .indexed "e" .append]⟩ := by rfl
  obtain ⟨-, -, hinverse, -⟩ := text_ofText_inverse
  have hback := (hinverse _ _ hread).2
  have htext : (⟨true, [.indexed "a.b" (.pos 31), .indexed "%c" (.fromEnd 8), .bookmark "d",
      .parent, .indexed "e" .append]⟩ : Path).text = "/a.b[31]/%c[-8]/$d/../e[]" := by
    decide +kernel
  rw [htext] at hback
  exact ⟨hread, hback⟩

end Path

end RegisterAtlas
