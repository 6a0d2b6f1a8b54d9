import RegisterAtlas.Proofs.Path.RoundTrip
import RegisterAtlas.Proofs.Resolve.Appends
import RegisterAtlas.Proofs.Tree.Nearest

/-!
# Scoping

Register spaces, datatypes and bookmarks are found in the nearest scope at or above an entry that
has them. What is declared in a scope is therefore seen from the entries for which this scope has
become the nearest one with such a name, and nothing else that can be looked up changes (`Declares`,
`Bookmarks`).
-/

namespace RegisterAtlas.Tree

variable {t t' : Tree} {id a scope : EntryId} {name : String} {s : Scope}

/-! ## Bookmarks -/

/-- The path of a bookmark. -/
def bookmarkPath (name : String) : Path := ⟨false, [.bookmark name]⟩

theorem ofText_bookmarkPath (h : isIdent name.toList = true) :
    Path.ofText ("$" ++ name) = .ok (bookmarkPath name) := by
  have htext : "$" ++ name = (Element.bookmark name).text := rfl
  rw [htext]
  exact Path.ofText_element (.bookmark h)

theorem WellFormed.bookmarked_iff_nearest (h : t.WellFormed) (hid : id < t.size) :
    t.Bookmarked name id a ↔ t.Nearest (name ∈ ·.bookmarks) id a := by
  constructor
  · intro ha
    induction ha with
    | here hm => exact .self hm
    | above hm _ _ ih => exact (nearest_iff_of_not_has hm).2 (ih (h.parent_lt_size hid))
  · revert a
    refine h.induction_above (motive := fun id => ∀ {a}, t.Nearest (name ∈ ·.bookmarks) id a →
      t.Bookmarked name id a) ?_ ?_ hid
    · intro a ha
      by_cases hm : t.Marks name root
      · rw [ha.unique (.self hm)]
        exact .here hm
      · exact (h.not_nearest_root hm ha).elim
    · intro id hid hr ih a ha
      by_cases hm : t.Marks name id
      · rw [ha.unique (.self hm)]
        exact .here hm
      · exact .above hm hr (ih ((nearest_iff_of_not_has hm).1 ha))

theorem resolve_bookmarkPath (hk : t.kind id = .scope) (name : String) :
    t.resolve id (bookmarkPath name) = .ok ((t.bookmarked? id name).map Prod.snd) := by
  obtain ⟨s, hs⟩ := exists_scope_of_kind hk
  rw [bookmarkPath, resolve_one, takeStep, scope?_of_entry hs]
  simp only [Except.map, Option.map_map]
  rfl

theorem WellFormed.resolve_bookmarkPath_iff (h : t.WellFormed) (hid : id < t.size)
    (hk : t.kind id = .scope) :
    t.resolve id (bookmarkPath name) = .ok (some a) ↔ t.Nearest (name ∈ ·.bookmarks) id a := by
  rw [resolve_bookmarkPath hk, Except.ok.injEq, ← h.bookmarked_iff hid,
    h.bookmarked_iff_nearest hid]

theorem WellFormed.resolve_bookmarkPath_eq_none_iff (h : t.WellFormed) (hid : id < t.size)
    (hk : t.kind id = .scope) :
    t.resolve id (bookmarkPath name) = .ok none ↔ ∀ a, ¬ t.Nearest (name ∈ ·.bookmarks) id a := by
  rw [resolve_bookmarkPath hk, Except.ok.injEq, Option.eq_none_iff_forall_ne_some]
  simp only [ne_eq, ← h.bookmarked_iff hid, h.bookmarked_iff_nearest hid]

theorem WellFormed.resolve_bookmarkPath_congr (h : t.WellFormed) (h' : t'.WellFormed)
    (hid : id < t.size) (hid' : id < t'.size) (hk : t.kind id = .scope) (hk' : t'.kind id = .scope)
    (hnearest : ∀ a, t'.Nearest (name ∈ ·.bookmarks) id a ↔ t.Nearest (name ∈ ·.bookmarks) id a) :
    t'.resolve id (bookmarkPath name) = t.resolve id (bookmarkPath name) := by
  rw [resolve_bookmarkPath hk, resolve_bookmarkPath hk', Except.ok.injEq]
  ext a
  rw [← h.bookmarked_iff hid, ← h'.bookmarked_iff hid', h.bookmarked_iff_nearest hid,
    h'.bookmarked_iff_nearest hid', hnearest a]

/-! ## Declarations -/

/-- A tree after a datatype was declared in a scope: the name stands for the datatype wherever this
scope is the nearest one that declares it. Elsewhere, and for other names, nothing changes. -/
structure Declares (t t' : Tree) (scope : EntryId) (name : String) (datatype : Datatype) :
    Prop where
  seen : ∀ id < t.size, t'.Nearest (fun s => (s.datatypes.get? name).isSome) id scope →
    t'.datatype? id name = some datatype
  unseen : ∀ id < t.size, ¬ t'.Nearest (fun s => (s.datatypes.get? name).isSome) id scope →
    t'.datatype? id name = t.datatype? id name
  other : ∀ id < t.size, ∀ name' ≠ name, t'.datatype? id name' = t.datatype? id name'

/-- A tree after a scope was given a bookmark: the bookmark leads to this scope wherever it is the
nearest one with it. Elsewhere, and for other bookmarks, nothing changes. -/
structure Bookmarks (t t' : Tree) (scope : EntryId) (name : String) : Prop where
  seen : ∀ id < t.size, t.kind id = .scope → t'.Nearest (name ∈ ·.bookmarks) id scope →
    t'.resolve id (bookmarkPath name) = .ok (some scope)
  unseen : ∀ id < t.size, t.kind id = .scope → ¬ t'.Nearest (name ∈ ·.bookmarks) id scope →
    t'.resolve id (bookmarkPath name) = t.resolve id (bookmarkPath name)
  other : ∀ id < t.size, t.kind id = .scope → ∀ name' ≠ name,
    t'.resolve id (bookmarkPath name') = t.resolve id (bookmarkPath name')

/-- A scope has the datatypes that it had, and the one that is declared. -/
theorem addDatatype_eq (hs : t.entry scope = .scope s) (hlt : scope < t.size) (name : String)
    (datatype : Datatype) :
    ∃ t', t.addDatatype scope name datatype = .ok t' ∧ SameBut t t' scope ∧
      t'.entry scope = .scope { s with datatypes := s.datatypes.insert name datatype } := by
  rw [addDatatype, requireScope_eq_ok_iff.2 hs]
  exact ⟨_, rfl, sameBut_updateScope hs hlt _, by rw [entry_updateScope hs hlt, if_pos rfl]⟩

theorem WellFormed.addDatatype_declares (h : t.WellFormed) (hlt : scope < t.size)
    (hk : t.kind scope = .scope) (name : String) (datatype : Datatype) :
    ∃ t', t.addDatatype scope name datatype = .ok t' ∧ t.Declares t' scope name datatype := by
  obtain ⟨s, hs⟩ := exists_scope_of_kind hk
  obtain ⟨t', hadd, hsame, hentry⟩ := addDatatype_eq hs hlt name datatype
  obtain ⟨hw, hsize, -⟩ := h.addDatatype hlt hadd
  have hget : (s.datatypes.insert name datatype).get? name = some datatype := by
    rw [Table.get?_insert, if_pos rfl]
  refine ⟨t', hadd, ?_⟩
  constructor
  case seen =>
    intro id hid hn
    exact LooksUp.unique (hw.findAbove_looksUp (hsize ▸ hid) _) (.nearest hn hentry hget)
  case unseen =>
    intro id hid hn
    refine hsame.findAbove_eq h.toLinked hw.toLinked hid (fun _ => ?_) hn
    exact ⟨_, hentry, Option.isSome_iff_exists.2 ⟨datatype, hget⟩⟩
  case other =>
    intro id hid name' hname
    refine hsame.findAbove_eq_of_same h.toLinked hid ?_
    rw [scope?_of_entry hentry, scope?_of_entry hs, Option.bind_some, Option.bind_some,
      Table.get?_insert, if_neg (Ne.symm hname)]

/-- A scope has the bookmarks that it had, and the one that it is given. -/
theorem addBookmark_eq (hs : t.entry scope = .scope s) (hlt : scope < t.size) (name : String) :
    ∃ t' s', t.addBookmark scope name = .ok t' ∧ SameBut t t' scope ∧
      t'.entry scope = .scope s' ∧ ∀ m, m ∈ s'.bookmarks ↔ m ∈ s.bookmarks ∨ m = name := by
  rw [addBookmark, requireScope_eq_ok_iff.2 hs]
  by_cases hm : name ∈ s.bookmarks
  · refine ⟨t, s, if_pos hm, .refl, hs, fun m => ⟨.inl, ?_⟩⟩
    rintro (hmem | rfl)
    · exact hmem
    · exact hm
  · refine ⟨_, _, if_neg hm, sameBut_updateScope hs hlt _,
      by rw [entry_updateScope hs hlt, if_pos rfl], fun m => ?_⟩
    rw [List.mem_append, List.mem_singleton]

theorem WellFormed.addBookmark_bookmarks (h : t.WellFormed) (hlt : scope < t.size)
    (hk : t.kind scope = .scope) (name : String) :
    ∃ t', t.addBookmark scope name = .ok t' ∧ t.Bookmarks t' scope name := by
  obtain ⟨s, hs⟩ := exists_scope_of_kind hk
  obtain ⟨t', s', hadd, hsame, hentry, hmem⟩ := addBookmark_eq hs hlt name
  obtain ⟨hw, hsize, hkind⟩ := h.addBookmark hlt hadd
  have hhas : ∀ m, t'.Has (m ∈ ·.bookmarks) scope ↔ m ∈ s.bookmarks ∨ m = name := by
    intro m
    rw [← hmem m]
    refine ⟨?_, fun hm => ⟨s', hentry, hm⟩⟩
    rintro ⟨s'', hs'', hm⟩
    cases hentry.symm.trans hs''
    exact hm
  have hhad : ∀ m, t.Has (m ∈ ·.bookmarks) scope ↔ m ∈ s.bookmarks := by
    refine fun m => ⟨?_, fun hm => ⟨s, hs, hm⟩⟩
    rintro ⟨s'', hs'', hm⟩
    cases hs.symm.trans hs''
    exact hm
  refine ⟨t', hadd, ?_⟩
  constructor
  case seen =>
    intro id hid hk hn
    exact (hw.resolve_bookmarkPath_iff (hsize ▸ hid) ((hkind id).trans hk)).2 hn
  case unseen =>
    intro id hid hk hn
    refine h.resolve_bookmarkPath_congr hw hid (hsize ▸ hid) hk ((hkind id).trans hk) fun a => ?_
    exact hsame.nearest_iff (fun _ => (hhas name).2 (.inr rfl)) hn
  case other =>
    intro id hid hk m hm
    refine h.resolve_bookmarkPath_congr hw hid (hsize ▸ hid) hk ((hkind id).trans hk) fun a => ?_
    refine hsame.nearest_iff_of_same ?_
    rw [hhas, hhad, or_iff_left hm]

/-! ## Scoping -/

/-- The register space and the datatypes in effect at an entry, and the bookmarks that can be
reached from a scope, are those of the nearest scope that has them, and there are none if no scope
has. A datatype declared in a scope, and a bookmark given to it, are found wherever this scope has
become the nearest one with such a name, and change nothing else that is found. -/
theorem scoping_is_lexical {t : Tree} (h : Reachable t) :
    (∀ id < t.size, t.LooksUp (·.space) id (t.space? id) ∧
      ∀ name, t.LooksUp (·.datatypes.get? name) id (t.datatype? id name)) ∧
    (∀ id < t.size, t.kind id = .scope → ∀ name,
      (∀ a, t.resolve id (bookmarkPath name) = .ok (some a) ↔
        t.Nearest (name ∈ ·.bookmarks) id a) ∧
      (t.resolve id (bookmarkPath name) = .ok none ↔ ∀ a, ¬ t.Nearest (name ∈ ·.bookmarks) id a) ∧
      (isIdent name.toList = true →
        t.resolveText id ("$" ++ name) = t.resolve id (bookmarkPath name))) ∧
    ∀ scope < t.size, t.kind scope = .scope → ∀ name,
      (∀ datatype, ∃ t', t.addDatatype scope name datatype = .ok t' ∧
        t.Declares t' scope name datatype) ∧
      ∃ t', t.addBookmark scope name = .ok t' ∧ t.Bookmarks t' scope name := by
  have hw := h.wellFormed
  refine ⟨fun id hid => ⟨hw.findAbove_looksUp hid _, fun name => hw.findAbove_looksUp hid _⟩,
    fun id hid hk name => ⟨fun a => hw.resolve_bookmarkPath_iff hid hk,
      hw.resolve_bookmarkPath_eq_none_iff hid hk, fun hname => ?_⟩,
    fun scope hlt hk name => ⟨hw.addDatatype_declares hlt hk name,
      hw.addBookmark_bookmarks hlt hk name⟩⟩
  rw [resolveText, ofText_bookmarkPath hname]
  rfl

/-- A scope that was redefined, with an item of an array and a scope in it. -/
def orphanedTree : Tree :=
  ([.datatype "count" (.int none), .openScope "outer" (some (.simulated "dev")), .bookmark "here",
    .openScope "core[]" none, .openScope "inner" none, .closeScope, .closeScope, .closeScope,
    .openScope "outer" none] |>.foldl Draft.after (.ofTree empty)).tree

/-- The same with a datatype declared in the scope that was replaced. -/
def orphanedCount : Tree := orphanedTree.after (.datatype 1 "count" (.hex 8 none))

/-- What is declared in the scope that was replaced is still seen from below it, and not from the
scope in its place. -/
theorem scoping_is_lexical_orphanedTree :
    Reachable orphanedTree ∧ orphanedTree.resolve 0 ⟨false, [.name "outer"]⟩ = .ok (some 5) ∧
      orphanedTree.resolve 4 (bookmarkPath "here") = .ok (some 1) ∧
      orphanedTree.resolve 5 (bookmarkPath "here") = .ok none ∧
      orphanedTree.addDatatype 1 "count" (.hex 8 none) = .ok orphanedCount ∧
      orphanedCount.datatype? 4 "count" = some (.hex 8 none) ∧
      orphanedCount.datatype? 5 "count" = some (.int none) := by
  have hr : Reachable orphanedTree := .pass .empty _
  have hunmarked : ∀ id, (orphanedTree.scope? id).map (·.bookmarks) = some [] →
      ¬ orphanedTree.Has ("here" ∈ ·.bookmarks) id := by
    rintro id hid ⟨s, hs, hmem⟩
    rw [scope?_of_entry hs] at hid
    have hnil : s.bookmarks = [] := Option.some.inj hid
    exact List.not_mem_nil (hnil ▸ hmem)
  have hhere : orphanedTree.Nearest ("here" ∈ ·.bookmarks) 4 1 :=
    (nearest_iff_of_not_has (hunmarked 4 rfl)).2
      ((nearest_iff_of_not_has (hunmarked 3 rfl)).2 (.self ⟨_, rfl, List.mem_singleton.2 rfl⟩))
  obtain ⟨-, hbookmark, hdeclare⟩ := scoping_is_lexical hr
  obtain ⟨hdatatype, -⟩ := hdeclare 1 (by decide +kernel) rfl "count"
  obtain ⟨t', hadd, hdeclares⟩ := hdatatype (.hex 8 none)
  have hcount : orphanedTree.addDatatype 1 "count" (.hex 8 none) = .ok orphanedCount := rfl
  obtain rfl := Except.ok.inj (hcount.symm.trans hadd)
  -- the array that lists the item is not on the way up
  have hbelow : orphanedCount.Nearest (fun s => (s.datatypes.get? "count").isSome) 4 1 :=
    (nearest_iff_of_not_has (not_has_of_bind_eq_none rfl)).2
      ((nearest_iff_of_not_has (not_has_of_bind_eq_none rfl)).2 (.self ⟨_, rfl, rfl⟩))
  have hbeside : orphanedCount.Nearest (fun s => (s.datatypes.get? "count").isSome) 5 root :=
    (nearest_iff_of_not_has (not_has_of_bind_eq_none rfl)).2 (.self ⟨_, rfl, rfl⟩)
  have hne : root ≠ 1 := by decide
  exact ⟨hr, by decide +kernel, ((hbookmark 4 (by decide +kernel) rfl "here").1 1).2 hhere,
    by decide +kernel, hcount, hdeclares.seen 4 (by decide +kernel) hbelow,
    hdeclares.unseen 5 (by decide +kernel) fun h => hne (hbeside.unique h)⟩

end RegisterAtlas.Tree
