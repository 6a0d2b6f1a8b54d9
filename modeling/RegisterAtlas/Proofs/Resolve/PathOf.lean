import RegisterAtlas.Proofs.Resolve.Canonical

/-!
# Paths of entries

The path of an entry is made of the names of the entry and of all that it lies below. For an
attached entry these are the texts of the steps by which scopes list one another from the root on,
so the path is read back as these steps and leads to the entry. For a detached one there is an
entry among them that has no name. It shows its number instead, behind a mark with which no element
starts, and such a path is refused.
-/

namespace RegisterAtlas

/-! ## Segments that are no elements -/

theorem toList_numbered (n : Nat) : ("#" ++ toString n).toList = '#' :: Nat.toDigits 10 n := by
  rw [String.toList_append]
  exact congrArg ('#' :: ·) Nat.toList_repr

theorem notMem_numbered {c : Char} (hmark : c ≠ '#') (hdigit : c.isDigit = false) (n : Nat) :
    c ∉ '#' :: Nat.toDigits 10 n := by
  intro hmem
  rcases List.mem_cons.1 hmem with heq | hmem
  · exact hmark heq
  · exact Text.notMem_toDigits hdigit n hmem

theorem isSegment_numbered (n : Nat) : Path.IsSegment ("#" ++ toString n).toList := by
  rw [toList_numbered]
  exact ⟨List.cons_ne_nil _ _, notMem_numbered (by decide) (by decide) n⟩

theorem parse_numbered (n : Nat) : Element.parse ("#" ++ toString n).toList = .error .badName := by
  rw [toList_numbered, Element.parse_of_no_bracket (by decide) (by decide)
    (notMem_numbered (by decide) (by decide) n)]
  rfl

/-- When all segments that are no elements are so for one reason, a path is refused for it. -/
theorem mapM_parse_eq_error {flaw : PathFlaw} {segments : List (List Char)}
    (h : ∀ s ∈ segments, (∃ e, Element.parse s = .ok e) ∨ Element.parse s = .error flaw)
    (hflaw : ∃ s ∈ segments, Element.parse s = .error flaw) :
    segments.mapM Element.parse = .error flaw := by
  induction segments with
  | nil =>
      obtain ⟨s, hs, -⟩ := hflaw
      cases hs
  | cons first segments ih =>
      rw [List.mapM_cons]
      rcases h first List.mem_cons_self with ⟨e, he⟩ | herr
      · have hrest : ∃ s ∈ segments, Element.parse s = .error flaw := by
          obtain ⟨s, hs, hparse⟩ := hflaw
          rcases List.mem_cons.1 hs with rfl | hs
          · rw [he] at hparse
            cases hparse
          · exact ⟨s, hs, hparse⟩
        rw [he, ih (fun s hs => h s (List.mem_cons_of_mem _ hs)) hrest]
        rfl
      · rw [herr]
        rfl

namespace Tree

variable {t : Tree} {id : EntryId}

/-! ## Labels -/

/-- What stands for an entry in paths. -/
def label (t : Tree) (id : EntryId) : String := (t.nameOf? id).getD ("#" ++ toString id)

/-- The labels of an entry and of all that it lies below. The root needs none. -/
def labels (t : Tree) (id : EntryId) : List String :=
  ((t.ancestors id).filter (· ≠ root)).map t.label

theorem pathOf_eq (t : Tree) (id : EntryId) :
    t.pathOf id = "/" ++ String.intercalate "/" (t.labels id).reverse := rfl

theorem labels_of_ne_root (h : t.Linked) (hid : id < t.size) (hr : id ≠ root) :
    t.labels id = t.label id :: t.labels (t.parent id) := by
  rw [labels, h.ancestors_of_ne_root hid hr, List.filter_cons_of_pos (by simpa using hr)]
  rfl

theorem Lists.label_eq (hw : t.WellFormed) {scope : EntryId} {e : Element}
    (h : t.Lists scope e id) : t.label id = e.text := by
  rw [label, h.nameOf?_eq hw]
  rfl

/-- The path of a listed entry is that of its scope, with the step to the entry behind it. -/
theorem Lists.pathOf_eq (hw : t.WellFormed) {scope : EntryId} {el : Element}
    (h : t.Lists scope el id) :
    t.pathOf id = (if scope = root then "/" else t.pathOf scope ++ "/") ++ el.text := by
  have hlabels : t.labels id = el.text :: t.labels scope := by
    rw [labels_of_ne_root hw.toLinked (h.lt_size hw) (h.ne_root hw), h.label_eq hw, h.parent_eq hw]
  have hlt : scope < t.size := h.parent_eq hw ▸ hw.parent_lt_size (h.lt_size hw)
  rw [Tree.pathOf_eq, hlabels, List.reverse_cons]
  split
  · next hroot =>
      rw [hroot]
      rfl
  · next hroot =>
      have hne : (t.labels scope).reverse ≠ [] := by
        rw [labels_of_ne_root hw.toLinked hlt hroot]
        simp
      rw [String.intercalate_append_of_ne_nil hne (List.cons_ne_nil _ _),
        String.intercalate_singleton, Tree.pathOf_eq]
      simp only [String.append_assoc]

/-- A label is the text of an element or, for an entry that is not listed, a number. -/
theorem label_cases (hw : t.WellFormed) (ha : t.Addressable) (id : EntryId) :
    (∃ e : Element, e.WellFormed ∧ t.label id = e.text) ∨ t.label id = "#" ++ toString id := by
  cases hname : t.nameOf? id with
  | none =>
      right
      rw [label, hname]
      rfl
  | some text =>
      obtain ⟨e, hl, -⟩ := lists_of_nameOf? hname
      exact .inl ⟨e, hl.wellFormed hw ha, hl.label_eq hw⟩

/-! ## Attached entries -/

theorem Lists.trail {origin scope : EntryId} {stack : List Element} {e : Element}
    (h : t.Lists scope e id) (htrail : t.Trail origin stack scope) :
    t.Trail origin (e :: stack) id := by
  cases h with
  | child hs hc => exact .child htrail hs hc
  | item hs hc ha hi => exact .item htrail hs hc ha hi

/-- The labels of an attached entry are the steps of a trail to it. -/
theorem Attached.exists_trail (hw : t.WellFormed) (ha : t.Addressable) (h : t.Attached id) :
    ∃ stack, t.Trail root stack id ∧ (∀ e ∈ stack, e.WellFormed) ∧
      t.labels id = stack.map Element.text := by
  induction h with
  | of_root => exact ⟨[], .here, fun e he => (List.not_mem_nil he).elim, rfl⟩
  | @of_lists scope id e h hl ih =>
      obtain ⟨stack, htrail, helements, hlabels⟩ := ih
      refine ⟨e :: stack, hl.trail htrail, List.forall_mem_cons.2 ⟨hl.wellFormed hw ha, helements⟩,
        ?_⟩
      rw [labels_of_ne_root hw.toLinked (hl.lt_size hw) (hl.ne_root hw), hl.label_eq hw,
        hl.parent_eq hw, hlabels, List.map_cons]

theorem start_root (t : Tree) (elements : List Element) :
    t.start root ⟨true, elements⟩ = ⟨root, []⟩ := rfl

/-- Without following, the steps of a trail also lead to an alias. -/
theorem Trail.walkElements_reverse_last (hw : t.WellFormed) {origin : EntryId}
    {stack : List Element} (ho : origin < t.size) (hs : t.kind origin = .scope) (path : Path)
    (enter : EntryId → String → Except Error (Option Spot)) (h : t.Trail origin stack id) :
    t.walkElements path enter false 0 ⟨origin, []⟩ stack.reverse = .ok (some ⟨id, stack⟩) := by
  cases stack with
  | nil =>
      cases h
      rfl
  | cons e stack =>
      obtain ⟨scope, hscope, hkind, hstep⟩ := h.exists_takeStep hw ho hs
      rw [List.reverse_cons, hscope.walkElements_reverse hw ho hs path enter false [e]
        (alias?_of_kind hkind), walkElements]
      simp only [hstep, bind, Except.bind]
      cases t.alias? id <;> rfl

theorem Attached.resolveText_pathOf (hw : t.WellFormed) (ha : t.Addressable)
    (h : t.Attached id) : t.resolveText root (t.pathOf id) = .ok (some id) := by
  obtain ⟨stack, htrail, helements, hlabels⟩ := h.exists_trail hw ha
  have hpath : t.pathOf id = (⟨true, stack.reverse⟩ : Path).text := by
    rw [pathOf_eq, hlabels, Path.text, List.map_reverse]
    rfl
  have hread : Path.ofText (t.pathOf id) = .ok ⟨true, stack.reverse⟩ := by
    rw [hpath]
    exact Path.WellFormed.ofText_text fun e he => helements e (List.mem_reverse.1 he)
  have hwalk : t.walkFrom root ⟨true, stack.reverse⟩ false = .ok (some ⟨id, stack⟩) := by
    rw [walkFrom, walk, start_root]
    exact htrail.walkElements_reverse_last hw hw.root_lt hw.root_kind _ _
  rw [resolveText, hread]
  exact resolve_eq hwalk

/-! ## Detached entries -/

/-- Every segment of a path is read as an element or refused as a name. -/
theorem mem_labels (hw : t.WellFormed) (ha : t.Addressable) {text : String}
    (h : text ∈ t.labels id) :
    Path.IsSegment text.toList ∧
      ((∃ e, Element.parse text.toList = .ok e) ∨ Element.parse text.toList = .error .badName) := by
  obtain ⟨a, -, rfl⟩ := List.mem_map.1 h
  rcases label_cases hw ha a with ⟨e, he, hlabel⟩ | hlabel
  · rw [hlabel]
    exact ⟨he.isSegment, .inl ⟨e, Element.parse_of_written he.written⟩⟩
  · rw [hlabel]
    exact ⟨isSegment_numbered a, .inr (parse_numbered a)⟩

/-- What is not attached, or something above it, has no name. -/
theorem exists_number_mem_labels (hw : t.WellFormed) (hid : id < t.size) (h : ¬ t.Attached id) :
    ∃ n : Nat, "#" ++ toString n ∈ t.labels id := by
  rw [attached_iff hw hid] at h
  push Not at h
  obtain ⟨a, ha, hr, hname⟩ := h
  have hlabel : t.label a = "#" ++ toString a := by
    rw [label, Option.not_isSome_iff_eq_none.1 hname]
    rfl
  exact ⟨a, List.mem_map.2 ⟨a, List.mem_filter.2 ⟨ha, by simpa using hr⟩, hlabel⟩⟩

theorem resolveText_pathOf_of_not_attached (hw : t.WellFormed) (ha : t.Addressable)
    (hid : id < t.size) (h : ¬ t.Attached id) :
    t.resolveText root (t.pathOf id) = .error (.invalidPath (t.pathOf id) .badName) := by
  obtain ⟨n, hn⟩ := exists_number_mem_labels hw hid h
  have hlabels : ∀ s ∈ (t.labels id).reverse.map String.toList, Path.IsSegment s ∧
      ((∃ e, Element.parse s = .ok e) ∨ Element.parse s = .error .badName) := by
    intro s hs
    obtain ⟨text, htext, rfl⟩ := List.mem_map.1 hs
    exact mem_labels hw ha (List.mem_reverse.1 htext)
  have hchars : (t.pathOf id).toList =
      (if true then ['/'] else []) ++
        ['/'].intercalate ((t.labels id).reverse.map String.toList) := by
    rw [pathOf_eq, String.toList_append, String.toList_intercalate]
    rfl
  have hparse : Path.parseChars (t.pathOf id).toList = .error .badName := by
    rw [hchars, Path.parseChars_segments true fun s hs => (hlabels s hs).1,
      mapM_parse_eq_error (fun s hs => (hlabels s hs).2)
        ⟨_, List.mem_map_of_mem (List.mem_reverse.2 hn), parse_numbered n⟩]
    rfl
  rw [resolveText, Path.ofText, hparse]
  rfl

/-! ## All entries -/

/-- An entry is found at its path if it is attached, whatever it is, and the path of any other entry
is refused. So no two attached entries have one path, and no detached one has the path of an
attached one. -/
theorem pathOf_leads {t : Tree} (h : Reachable t) (ha : t.Addressable) :
    (∀ id, t.Attached id → t.resolveText root (t.pathOf id) = .ok (some id)) ∧
    (∀ id id', t.Attached id → t.Attached id' → t.pathOf id = t.pathOf id' → id = id') ∧
    ∀ id, id < t.size → ¬ t.Attached id →
      t.resolveText root (t.pathOf id) = .error (.invalidPath (t.pathOf id) .badName) ∧
      ∀ id', t.Attached id' → t.pathOf id ≠ t.pathOf id' := by
  have hw := h.wellFormed
  refine ⟨fun id hid => hid.resolveText_pathOf hw ha, fun id id' hid hid' heq => ?_,
    fun id hlt hid => ?_⟩
  · have hfound := hid.resolveText_pathOf hw ha
    rw [heq, hid'.resolveText_pathOf hw ha] at hfound
    exact (Option.some.inj (Except.ok.inj hfound)).symm
  · have hrefused := resolveText_pathOf_of_not_attached hw ha hlt hid
    refine ⟨hrefused, fun id' hid' heq => ?_⟩
    rw [heq, hid'.resolveText_pathOf hw ha] at hrefused
    cases hrefused

/-- Here a scope `cpu` with one item has lost its name to another one with two. -/
def cpuTwice : Tree :=
  ([.openScope "cpu" none, .alias "id[]" "/cpu", .closeScope, .openScope "cpu" none,
    .alias "id[]" "..", .alias "id[]" "/cpu/id[0]"].foldl Draft.after (.ofTree empty)).tree

theorem pathOf_leads_cpuTwice :
    Reachable cpuTwice ∧ cpuTwice.Addressable ∧
      (cpuTwice.Attached 6 ∧ cpuTwice.pathOf 6 = "/cpu/id[0]" ∧
        cpuTwice.resolveText root (cpuTwice.pathOf 6) = .ok (some 6)) ∧
      (¬ cpuTwice.Attached 3 ∧ cpuTwice.pathOf 3 = "/#1/id[0]" ∧
        cpuTwice.resolveText root (cpuTwice.pathOf 3) =
          .error (.invalidPath (cpuTwice.pathOf 3) .badName)) := by
  have hr : Reachable cpuTwice := .pass .empty _
  have hw := hr.wellFormed
  have ha : cpuTwice.Addressable := hw.addressable (by decide +kernel)
  have hsix : cpuTwice.Attached 6 := (attached_iff hw (by decide +kernel)).2 (by decide +kernel)
  have hthree : ¬ cpuTwice.Attached 3 := by
    rw [attached_iff hw (by decide +kernel)]
    decide +kernel
  obtain ⟨hattached, -, hdetached⟩ := pathOf_leads hr ha
  exact ⟨hr, ha, ⟨hsix, by decide +kernel, hattached 6 hsix⟩, hthree, by decide +kernel,
    (hdetached 3 (by decide +kernel) hthree).1⟩

end Tree

end RegisterAtlas
