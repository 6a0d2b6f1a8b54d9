import RegisterAtlas.Proofs.Dump.DepthFirst
import RegisterAtlas.Proofs.Resolve.Depth
import RegisterAtlas.Proofs.Tree.Replacement

/-!
# Paths never lead to detached entries

From an attached entry all steps of a path lead to attached ones: upwards to a parent or a bookmark,
as whatever is above an attached entry is attached, and downwards along what scopes list. An alias
is followed from its scope, which is attached as well. So a path finds attached entries only, and
what a redefinition has detached is found no more.
-/

namespace RegisterAtlas.Tree

variable {t t' u : Tree} {scope id old found : EntryId} {name : String}

/-! ## Walks -/

namespace Attached

theorem bookmarked (hw : t.WellFormed) (h : t.Attached id) (hb : t.Bookmarked name id found) :
    t.Attached found := by
  induction hb with
  | here hm => exact h
  | above hm hr hb ih => exact ih (h.parent hw)

theorem takes (hw : t.WellFormed) (h : t.Attached id) {path : Path} {i : Nat} {e : Element}
    (he : t.Takes path i id e (.ok (some found))) : t.Attached found := by
  cases he with
  | parent hs => exact h.parent hw
  | bookmark hs hb => exact h.bookmarked hw hb
  | child hs hc => exact .of_lists h (.child hs hc)
  | item hs hc ha hi =>
      obtain ⟨n, hn⟩ := Items.exists_getElem?_of_item? (Items.at_iff.1 hi)
      exact .of_lists h (.item hs hc ha hn)

theorem base (h : t.Attached id) (path : Path) : t.Attached (base path id) := by
  unfold Tree.base
  split
  · exact .of_root
  · exact h

/-- Whatever the elements of a path come to from an attached entry, with all aliases on the way, is
attached. -/
theorem walks (hw : t.WellFormed) (h : t.Attached id) {path : Path} {follow : Bool} {i : Nat}
    {es : List Element} {hops : Nat}
    (hwalk : t.Walks path follow i id es hops (.ok (some found))) : t.Attached found := by
  generalize hr : (Except.ok (some found) : Outcome) = r at hwalk
  induction hwalk generalizing found with
  | done =>
      cases hr
      exact h
  | halt he hstop => exact (hstop found hr.symm).elim
  | step he hn hwalk ih => exact ih (h.takes hw he) hr
  | malformed he hn hf hp => cases hr
  | stop he hn hf hp hin hstop ih => exact (hstop found hr.symm).elim
  | follow he hn hf hp hin hwalk ihin ih =>
      -- the target is walked from the scope of the alias
      have hscope := (h.takes hw he).parent hw
      exact ih (ihin (hscope.base _) rfl) hr

theorem walked (hw : t.WellFormed) (h : t.Attached id) {path : Path} {follow : Bool}
    (hfound : t.walked id path follow = .ok (some found)) : t.Attached found := by
  rcases hw.walked_or_tooDeep path follow (h.lt_size hw) with
    ⟨hops, -, hmeans⟩ | ⟨⟨place, hdeep⟩, -⟩
  · rw [hfound] at hmeans
    exact (h.base path).walks hw hmeans
  · rw [hfound] at hdeep
    cases hdeep

end Attached

/-! ## Lost entries -/

/-- An entry that is out of reach: it is not attached, no path leads to it from an attached entry,
and a dump of the root neither goes through it nor shows its path. -/
structure Lost (t : Tree) (id : EntryId) : Prop where
  not_attached : ¬ t.Attached id
  not_resolved : ∀ origin path, t.Attached origin →
    t.resolve origin path ≠ .ok (some id) ∧ t.resolveFollow origin path ≠ .ok (some id)
  not_leaf : id ∉ t.leaves root
  not_dumped : t.Addressable → ∀ (σ : Type) [Bus σ] depth (s s' : σ) (entries : List DumpEntry),
    (t.dumpWithin depth root).runOn s = (.ok entries, s') →
      ∀ entry ∈ entries, entry.path ≠ t.pathOf id

/-- A dump of the root shows paths of attached entries only. -/
theorem exists_attached_of_dump {σ : Type} [Bus σ] (hw : t.WellFormed) {depth : Nat} {s s' : σ}
    {entries : List DumpEntry} (hrun : (t.dumpWithin depth root).runOn s = (.ok entries, s'))
    {entry : DumpEntry} (hentry : entry ∈ entries) :
    ∃ id, t.Attached id ∧ entry.path = t.pathOf id := by
  have hends : ((t.dumpWithin depth root).runOn s).1 ≠ .error .unfinished := by
    rw [hrun]
    rintro ⟨⟩
  have hdumps := dumps_dumpWithin hw root hends
  rw [hrun] at hdumps
  have hpath : entry.path ∈ (t.leaves root).map t.pathOf := by
    rw [← hdumps.map_path]
    exact List.mem_map_of_mem hentry
  obtain ⟨id, hid, heq⟩ := List.mem_map.1 hpath
  have hbelow := ((hw.mem_leaves_iff root).1 hid).2
  exact ⟨id, (attached_iff_below hw).2 hbelow, heq.symm⟩

theorem lost_of_not_attached (hw : t.WellFormed) (hid : id < t.size) (h : ¬ t.Attached id) :
    t.Lost id := by
  constructor
  case not_attached => exact h
  case not_resolved =>
    intro origin path ho
    exact ⟨fun hfound => h (ho.walked hw hfound), fun hfound => h (ho.walked hw hfound)⟩
  case not_leaf =>
    intro hleaf
    exact h ((attached_iff_below hw).2 ((hw.mem_leaves_iff root).1 hleaf).2)
  case not_dumped =>
    intro ha σ _ depth s s' entries hrun entry hentry hpath
    obtain ⟨shown, hshown, heq⟩ := exists_attached_of_dump hw hrun hentry
    -- the path of an attached entry is resolved, and that of a detached one is refused
    have hfound := hshown.resolveText_pathOf hw ha
    rw [← heq, hpath, resolveText_pathOf_of_not_attached hw ha hid h] at hfound
    cases hfound

/-! ## Redefinitions -/

/-- The path of an entry that does not lie under a replaced child stays the same. -/
theorem Adds.labels_eq {e : Entry} (h : Adds t scope name e id t') (hw : t.WellFormed)
    (hw' : t'.WellFormed) {i : EntryId}
    (hnot : ∀ old, t.Lists scope (.name name) old → ¬ t.Under old i) (hat : t.Attached i) :
    t'.labels i = t.labels i := by
  induction hat with
  | of_root => rfl
  | @of_lists top i el hat hl ih =>
      have hcarried := fun old hold hc => hnot old hold ((hl.under_iff hw).2 (.inl hc))
      have hl' := h.lists hw hcarried hl
      have htop := ih fun old hold htop => hnot old hold ((hl.under_iff hw).2 (.inr htop))
      rw [labels_of_ne_root hw.toLinked (hl.lt_size hw) (hl.ne_root hw),
        labels_of_ne_root hw'.toLinked (hl'.lt_size hw') (hl'.ne_root hw'), hl.label_eq hw,
        hl'.label_eq hw', hl.parent_eq hw, hl'.parent_eq hw', htop]

/-- What a path leads to from an attached entry is attached, however it is resolved. When the name
of a child is given to a new entry, the child and all that lies under it are detached, and stay so
whatever is defined later; no path leads to them again from an attached entry, and no dump of the
root goes through them. All other entries stay attached and keep their paths. -/
theorem resolve_attached (h : Reachable t) :
    (∀ origin path found, t.Attached origin →
      t.resolve origin path = .ok (some found) ∨ t.resolveFollow origin path = .ok (some found) →
        t.Attached found) ∧
    ∀ scope name old e, t.Lists scope (.name name) old → e.IsFresh →
      ∃ t', t.add scope name e = .ok (t.size, t') ∧ t'.Lists scope (.name name) t.size ∧
        (∀ u i, t'.Becomes u → i < t.size → t.Under old i → u.Lost i) ∧
        ∀ i, t.Attached i → ¬ t.Under old i → t'.Attached i ∧ t'.pathOf i = t.pathOf i := by
  have hw := h.wellFormed
  refine ⟨fun origin path found ho hfound => ?_, fun scope name old e hold he => ?_⟩
  · exact hfound.elim (ho.walked hw) (ho.walked hw)
  have hadd := add_replacing hw hold e
  have hadded := add_eq_ok_iff.1 hadd
  have hscope := hold.scope_lt hw
  have hw' := hw.added he hscope hadded
  have hadds := hadded.adds hscope
  refine ⟨_, hadd, lists_replacing hw hold e, fun u i hu hi hunder => ?_, fun i hat hnot => ?_⟩
  · have hgone := not_attached_of_under hw he hold hadd hi hunder
    have hlater := hu.evolves hw'
    have hi' := Nat.lt_trans hi hadded.size_lt
    refine lost_of_not_attached (hu.wellFormed hw') (Nat.lt_of_lt_of_le hi' hlater.size_le) ?_
    exact fun hat => hgone (hat.of_evolves hlater hw' (hu.wellFormed hw') hi')
  · have hnot : ∀ old', t.Lists scope (.name name) old' → ¬ t.Under old' i :=
      fun old' hold' => hold.child_unique hold' ▸ hnot
    refine ⟨hadds.attached hw hnot hat, ?_⟩
    rw [pathOf_eq, pathOf_eq, hadds.labels_eq hw hw' hnot hat]

/-- Here a scope `dev` has a bookmark and an array of two scopes, and an alias of the root leads to
the first one. -/
def aliasedItem : Tree :=
  ([.openScope "dev" none, .bookmark "dev", .openScope "id[]" none, .closeScope,
    .openScope "id[]" none, .closeScope, .closeScope, .alias "cur" "dev/id[0]"].foldl
      Draft.after (.ofTree empty)).tree

theorem resolve_attached_aliasedItem :
    Reachable aliasedItem ∧ aliasedItem.Attached 3 ∧
      aliasedItem.resolve root ⟨false, [.name "cur", .bookmark "dev", .indexed "id" (.fromEnd 2)]⟩ =
        .ok (some 3) ∧
      aliasedItem.Lists 1 (.name "id") 2 ∧ aliasedItem.Under 2 3 ∧ ¬ aliasedItem.Under 2 5 ∧
      ∃ t', aliasedItem.add 1 "id" (.scope {}) = .ok (6, t') ∧
        (t'.after (.add 6 "id[]" (.alias "/cur"))).Lost 3 ∧ t'.Attached 5 ∧
        t'.pathOf 5 = "/cur" := by
  have hr : Reachable aliasedItem := .pass .empty _
  have hw := hr.wellFormed
  have hfound : aliasedItem.resolve root
      ⟨false, [.name "cur", .bookmark "dev", .indexed "id" (.fromEnd 2)]⟩ = .ok (some 3) := by rfl
  have hold : aliasedItem.Lists 1 (.name "id") 2 := .child rfl rfl
  have hunder : aliasedItem.Under 2 3 :=
    ⟨3, .inr ⟨_, rfl, List.mem_cons_self⟩, by decide +kernel⟩
  have hcur : aliasedItem.Attached 5 := (attached_iff hw (by decide +kernel)).2 (by decide +kernel)
  have hnot : ¬ aliasedItem.Under 2 5 := by
    have hcarries : ∀ a ∈ aliasedItem.ancestors 5, a = 5 ∨ a = root := by decide +kernel
    rintro ⟨a, rfl | ⟨items, ha, hmem⟩, hancestor⟩
    · revert hancestor
      decide +kernel
    · cases ha
      revert hmem
      rcases hcarries a hancestor with rfl | rfl <;> decide +kernel
  obtain ⟨hattached, hreplaced⟩ := resolve_attached hr
  obtain ⟨t', hadd, hl, hlost, hkept⟩ := hreplaced 1 "id" 2 (.scope {}) hold (.scope none)
  have hlt : 6 < t'.size := by
    have hsize : t'.size = 7 := by
      cases hadd
      rfl
    omega
  obtain ⟨hat, hpath⟩ := hkept 5 hcur hnot
  refine ⟨hr, hattached root _ 3 .of_root (.inl hfound), hfound, hold, hunder, hnot, t', hadd, ?_,
    hat, ?_⟩
  · exact hlost _ 3 (.after .refl (.add hlt (.alias _))) (by decide +kernel) hunder
  · rw [hpath]
    decide +kernel

end RegisterAtlas.Tree
