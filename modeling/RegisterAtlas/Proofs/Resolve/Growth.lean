import RegisterAtlas.Proofs.Resolve.Append
import RegisterAtlas.Proofs.Resolve.Depth
import RegisterAtlas.Proofs.Tree.Addition
import Mathlib.Logic.Relation

/-!
# Growing trees

A tree that only grows keeps what it lists, the children under their names and the items at their
positions. Whatever a path has led to before, an entry or an error, it leads to afterwards, as long
as no item is counted from the end of its array. Only a path that has led to nothing may lead to
something else.
-/

namespace RegisterAtlas

/-! ## What grows -/

/-- What an entry may become in a tree that only grows. -/
inductive Entry.Grows : Entry → Entry → Prop where
  | scope {s : Scope} {children : Table String EntryId}
      (h : ∀ name child, s.children.get? name = some child → children.get? name = some child) :
      Grows (.scope s) (.scope { s with children })
  | array {items : Items} (new : List EntryId) :
      Grows (.array items) (.array { items with ids := items.ids ++ new })
  | field {f : Field} : Grows (.field f) (.field f)
  | alias {target : String} : Grows (.alias target) (.alias target)

namespace Entry.Grows

variable {e e' e'' : Entry}

theorem refl (e : Entry) : e.Grows e := by
  cases e with
  | scope s => exact .scope fun name child h => h
  | array items =>
      have h : (Entry.array items).Grows (.array { items with ids := items.ids ++ [] }) := .array []
      rwa [List.append_nil] at h
  | field f => exact .field
  | «alias» target => exact .alias

theorem trans (h : e.Grows e') (h' : e'.Grows e'') : e.Grows e'' := by
  cases h with
  | scope h =>
      cases h' with
      | scope h' => exact .scope fun name child hc => h' name child (h name child hc)
  | array new =>
      cases h' with
      | array new' =>
          rw [List.append_assoc]
          exact .array (new ++ new')
  | field => exact h'
  | «alias» => exact h'

end Entry.Grows

namespace Items

variable {items : Items} {new : List EntryId}

/-- A position is the same with more items behind. -/
theorem item?_append {index : Index} {item : EntryId} (hindex : ∀ n, index ≠ .fromEnd n)
    (h : items.item? index = some item) :
    Items.item? { items with ids := items.ids ++ new } index = some item := by
  cases index with
  | append => cases h
  | pos n => exact (List.getElem?_append_left (List.getElem?_eq_some_iff.1 h).1).trans h
  | fromEnd n => exact (hindex n rfl).elim

theorem mem_of_item? {index : Index} {item : EntryId} (h : items.item? index = some item) :
    item ∈ items.ids := by
  cases at_iff.2 h with
  | pos h => exact List.mem_of_getElem? h
  | fromEnd h => exact List.mem_reverse.1 (List.mem_of_getElem? h)

theorem position?_append {item : EntryId} (h : item ∈ items.ids) :
    Items.position? { items with ids := items.ids ++ new } item = items.position? item := by
  have hsome : (items.ids.findIdx? (· = item)).isSome = true := by
    rw [List.findIdx?_isSome, List.any_eq_true]
    exact ⟨item, h, decide_eq_true rfl⟩
  obtain ⟨n, hn⟩ := Option.isSome_iff_exists.1 hsome
  rw [position?, position?, List.findIdx?_append, hn, Option.some_or]

end Items

namespace Tree

/-- A tree that keeps all entries of another one, and what these list. -/
structure Grows (t t' : Tree) : Prop where
  size_le : t.size ≤ t'.size
  parent_eq : ∀ id, id < t.size → t'.parent id = t.parent id
  entry_grows : ∀ id, id < t.size → (t.entry id).Grows (t'.entry id)

variable {t t' t'' : Tree} {scope id : EntryId} {name : String} {e : Entry}

theorem Grows.refl (t : Tree) : t.Grows t := ⟨Nat.le_refl _, fun _ _ => rfl, fun _ _ => .refl _⟩

theorem Grows.trans (h : t.Grows t') (h' : t'.Grows t'') : t.Grows t'' := by
  refine ⟨Nat.le_trans h.size_le h'.size_le, fun id hid => ?_, fun id hid => ?_⟩
  · rw [h'.parent_eq id (Nat.lt_of_lt_of_le hid h.size_le), h.parent_eq id hid]
  · exact (h.entry_grows id hid).trans (h'.entry_grows id (Nat.lt_of_lt_of_le hid h.size_le))

/-- Appending to an array, or adding a child under a name that its scope does not have. -/
def Fresh (t : Tree) (scope : EntryId) (name : String) : Prop :=
  (∃ n, name = n ++ "[]") ∨ ∀ s, t.entry scope = .scope s → s.children.get? name = none

theorem Extends.grows {owner : EntryId} {content : Entry} {new : List Node}
    (h : t.Extends t' owner content new) (hcontent : (t.entry owner).Grows content) :
    t.Grows t' := by
  refine ⟨h.size_eq ▸ Nat.le_add_right .., h.parent_eq, fun id hid => ?_⟩
  by_cases hown : id = owner
  · rw [hown, h.entry_owner]
    exact hcontent
  · rw [h.entry_eq id hid hown]
    exact .refl _

theorem Adds.grows (h : Adds t scope name e id t') (hnew : t.Fresh scope name) : t.Grows t' := by
  have hscope : ∀ {n : String} {s : Scope} {children : Table String EntryId} {new : EntryId},
      t.entry scope = .scope s → children.entries = s.children.entries ++ [(n, new)] →
      (t.entry scope).Grows (.scope { s with children }) := by
    intro n s children new hs hlast
    rw [hs]
    refine .scope fun n' child hc => ?_
    rw [Table.get?_eq_some_iff] at hc ⊢
    rw [hlast]
    exact List.mem_append_left _ hc
  cases h with
  | @child s children _ hname hs hplaced h =>
      have hfree : name ∉ s.children.keys := by
        rw [← Table.get?_eq_none_iff]
        rcases hnew with ⟨n, rfl⟩ | hnew
        · exact (not_name_append_brackets n hname).elim
        · exact hnew s hs
      exact h.grows (hscope hs (hplaced.eq_of_notMem hfree))
  | item hn hname hs hc ha hk h => exact h.grows (ha ▸ .array [t.size])
  | firstItem hn hname hs hc hlast h => exact h.grows (hscope hs hlast)

/-! ## Steps upwards -/

namespace Grows

theorem ancestors_eq (g : t.Grows t') (h : t.Linked) (hid : id < t.size) :
    t'.ancestors id = t.ancestors id :=
  h.climb_congr id hid fun a ha => g.parent_eq a (Nat.lt_of_le_of_lt ha hid)

theorem entry_of_scope (g : t.Grows t') {s : Scope} (hid : id < t.size)
    (hs : t.entry id = .scope s) :
    ∃ children : Table String EntryId, t'.entry id = .scope { s with children } ∧
      ∀ name child, s.children.get? name = some child → children.get? name = some child := by
  have hgrows := g.entry_grows id hid
  rw [hs] at hgrows
  generalize t'.entry id = e' at hgrows
  cases hgrows with
  | scope h => exact ⟨_, rfl, h⟩

theorem alias?_eq (g : t.Grows t') (hid : id < t.size) : t'.alias? id = t.alias? id := by
  have hgrows := g.entry_grows id hid
  unfold alias?
  generalize t.entry id = e, t'.entry id = e' at hgrows
  cases hgrows <;> rfl

theorem marked_eq (g : t.Grows t') (hid : id < t.size) (name : String) :
    (t'.scope? id).any (name ∈ ·.bookmarks) = (t.scope? id).any (name ∈ ·.bookmarks) := by
  have hgrows := g.entry_grows id hid
  unfold scope?
  generalize t.entry id = e, t'.entry id = e' at hgrows
  cases hgrows <;> rfl

theorem start_eq (g : t.Grows t') (h : t.Linked) (hid : id < t.size) (path : Path) :
    t'.start id path = t.start id path := by
  rw [start, start, g.ancestors_eq h hid]

/-- Bookmarks are found where they were, as new entries are above none of the old ones. -/
theorem bookmarked?_eq (g : t.Grows t') (h : t.Linked) (hid : id < t.size) (name : String) :
    t'.bookmarked? id name = t.bookmarked? id name := by
  have hmarks : ∀ {u : Tree}, ((t.ancestors id).findIdx? fun id =>
      (u.scope? id).any (name ∈ ·.bookmarks)) = ((t.ancestors id).map fun id =>
        (u.scope? id).any (name ∈ ·.bookmarks)).findIdx? (·) := by
    intro u
    rw [List.findIdx?_map]
    rfl
  have hmap : ((t.ancestors id).map fun id => (t'.scope? id).any (name ∈ ·.bookmarks)) =
      (t.ancestors id).map fun id => (t.scope? id).any (name ∈ ·.bookmarks) :=
    List.map_congr_left fun a ha => g.marked_eq (h.lt_size_of_mem_ancestors hid ha) name
  simp only [bookmarked?, g.ancestors_eq h hid, hmarks, hmap]

end Grows

/-! ## Walks -/

/-- No item of the path is counted from the end. -/
def CountsForward (es : List Element) : Prop := ∀ name n, .indexed name (.fromEnd n) ∉ es

/-- No alias has a target in which an item is counted from the end. -/
def AliasesCountForward (t : Tree) : Prop :=
  ∀ id target path, t.alias? id = some target → Path.ofText target = .ok path →
    CountsForward path.elements

/-- What has been found, or has failed, stays as it is. -/
def Kept {α : Type} (r r' : Except Error (Option α)) : Prop := r = .ok none ∨ r' = r

theorem Kept.map {α β : Type} {r r' : Except Error (Option α)} (h : Kept r r') (f : α → β) :
    Kept (r.map (Option.map f)) (r'.map (Option.map f)) := by
  rcases h with rfl | rfl
  · exact .inl rfl
  · exact .inr rfl

theorem WellFormed.walk_lt_size (h : t.WellFormed) {depth : Nat} {origin : EntryId} {path : Path}
    {follow : Bool} {spot : Spot} (ho : origin < t.size)
    (hw : t.walk depth origin path follow = .ok (some spot)) : spot.entry < t.size := by
  rcases h.settled_walk depth path follow ho with ⟨hops, -, hmeans⟩ | ⟨⟨place, hdeep⟩, -⟩
  · rw [hw] at hmeans
    exact h.walks_lt_size (h.base_lt_size path ho) hmeans
  · rw [hw] at hdeep
    cases hdeep

namespace Grows

theorem takeStep_kept (g : t.Grows t') (h : t.Linked) (path : Path) (i : Nat) {spot : Spot}
    {e : Element} (hid : spot.entry < t.size) (he : ∀ name n, e ≠ .indexed name (.fromEnd n)) :
    Kept (t.takeStep path i spot e) (t'.takeStep path i spot e) := by
  unfold takeStep
  by_cases hs : ∃ s, t.entry spot.entry = .scope s
  · obtain ⟨s, hs⟩ := hs
    obtain ⟨children, hs', hchildren⟩ := g.entry_of_scope hid hs
    rw [scope?_of_entry hs, scope?_of_entry hs']
    cases e with
    | parent => exact .inr (by simp only [g.parent_eq _ hid])
    | bookmark name => exact .inr (by simp only [g.bookmarked?_eq h hid])
    | name name =>
        cases hc : s.children.get? name with
        | none => exact .inl (by simp only [hc]; rfl)
        | some child => exact .inr (by simp only [hc, hchildren name child hc])
    | indexed name index =>
        cases hc : s.children.get? name with
        | none => exact .inl (by simp only [hc])
        | some child =>
            have hlt : child < t.size :=
              (h.member spot.entry child (hs ▸ Table.mem_values_of_get? hc)).1
            have hindex : ∀ n, index ≠ .fromEnd n := fun n hn => he name n (hn ▸ rfl)
            have hgrows := g.entry_grows child hlt
            simp only [hc, hchildren name child hc]
            generalize t.entry child = e, t'.entry child = e' at hgrows
            cases hgrows with
            | @array items new =>
                cases hi : items.item? index with
                | none => exact .inl (by simp only [hi]; rfl)
                | some item =>
                    have hmem := Items.mem_of_item? hi
                    refine .inr ?_
                    simp only [hi, Items.item?_append hindex hi, Option.map_some,
                      Items.position?_append hmem]
            | _ => exact .inr rfl
  · have hleaf : ∀ s, t'.entry spot.entry ≠ .scope s := by
      have hgrows := g.entry_grows spot.entry hid
      rintro s hs'
      rw [hs'] at hgrows
      generalize t.entry spot.entry = e at hgrows hs
      cases hgrows
      exact hs ⟨_, rfl⟩
    rw [scope?_eq_none fun s h => hs ⟨s, h⟩, scope?_eq_none hleaf]
    exact .inr rfl

/-- A walk that enters aliases with `enter` is kept if `enter` keeps what it finds for the targets
that there are. -/
theorem walkElements_kept (g : t.Grows t') (h : t.WellFormed) (path : Path) (follow : Bool)
    {enter enter' : EntryId → String → Except Error (Option Spot)}
    (hkept : ∀ scope id target, scope < t.size → t.alias? id = some target →
      Kept (enter scope target) (enter' scope target))
    (hfound : ∀ scope target spot, scope < t.size → enter scope target = .ok (some spot) →
      spot.entry < t.size)
    (es : List Element) (hes : CountsForward es) : ∀ (i : Nat) (spot : Spot), spot.entry < t.size →
      Kept (t.walkElements path enter follow i spot es)
        (t'.walkElements path enter' follow i spot es) := by
  induction es with
  | nil => exact fun _ _ _ => .inr rfl
  | cons e rest ih =>
      intro i spot hid
      have he : ∀ name n, e ≠ .indexed name (.fromEnd n) := fun name n he =>
        hes name n (he ▸ List.mem_cons_self)
      have ih := ih fun name n hmem => hes name n (List.mem_cons_of_mem e hmem)
      rw [walkElements, walkElements]
      rcases g.takeStep_kept h.toLinked path i hid he with hnone | hsame
      · rw [hnone]
        exact .inl rfl
      rw [hsame]
      cases hstep : t.takeStep path i spot e with
      | error err => exact .inr rfl
      | ok found =>
      cases found with
      | none => exact .inl rfl
      | some next =>
      have hnext : next.entry < t.size :=
        h.takes_lt_size hid ((h.takes_iff spot hid).2 (congrArg _ hstep))
      simp only [bind, Except.bind, g.alias?_eq hnext, g.parent_eq _ hnext]
      cases hn : t.alias? next.entry with
      | none => exact ih (i + 1) next hnext
      | some target =>
      by_cases hlast : rest = [] ∧ (!follow) = true
      · simp only [if_pos hlast]
        exact .inr rfl
      · simp only [if_neg hlast]
        rcases hkept _ next.entry target (h.parent_lt_size hnext) hn with hnone | hsame
        · rw [hnone]
          exact .inl rfl
        rw [hsame]
        cases hin : enter (t.parent next.entry) target with
        | error err => exact .inr rfl
        | ok found =>
        cases found with
        | none => exact .inl rfl
        | some found =>
            have hlt := hfound _ target found (h.parent_lt_size hnext) hin
            exact ih (i + 1) (next.follow found) hlt

theorem walk_kept (g : t.Grows t') (h : t.WellFormed) (ha : t.AliasesCountForward)
    (depth : Nat) : ∀ (origin : EntryId) (path : Path) (follow : Bool), origin < t.size →
      CountsForward path.elements →
      Kept (t.walk depth origin path follow) (t'.walk depth origin path follow) := by
  induction depth with
  | zero => exact fun _ _ _ _ _ => .inr rfl
  | succ depth ih =>
      intro origin path follow ho hp
      rw [walk, walk, g.start_eq h.toLinked ho]
      refine g.walkElements_kept h path follow ?_ ?_ path.elements hp 0 _ ?_
      · intro scope id target hs hid
        cases hinner : Path.ofText target with
        | error err => exact .inr rfl
        | ok inner => exact ih scope inner true hs (ha id target inner hid hinner)
      · intro scope target spot hs hspot
        cases hinner : Path.ofText target with
        | error err => rw [hinner] at hspot; cases hspot
        | ok inner =>
            rw [hinner] at hspot
            exact h.walk_lt_size hs hspot
      · rw [start_entry]
        exact h.base_lt_size path ho

/-- What a path has come to, it comes to in every tree that keeps what was listed. -/
theorem walked_kept (g : t.Grows t') (h : t.WellFormed) (ha : t.AliasesCountForward)
    {origin : EntryId} {path : Path} (ho : origin < t.size) (hp : CountsForward path.elements)
    (follow : Bool) : Kept (t.walked origin path follow) (t'.walked origin path follow) :=
  (g.walk_kept h ha (maxAliasDepth + 1) origin path follow ho hp).map Spot.entry

end Grows

/-- An addition that appends to an array, or adds a child under a new name. -/
def GrowsBy (t t' : Tree) : Prop :=
  ∃ scope name e id, scope < t.size ∧ t.Fresh scope name ∧ t.add scope name e = .ok (id, t')

theorem GrowsBy.grows (h : t.GrowsBy t') : t.Grows t' := by
  obtain ⟨scope, name, e, id, hs, hnew, hadd⟩ := h
  exact ((add_eq_ok_iff.1 hadd).adds hs).grows hnew

theorem grows_of_additions (h : Relation.ReflTransGen GrowsBy t t') : t.Grows t' := by
  induction h with
  | refl => exact .refl t
  | tail _ hlast ih => exact ih.trans hlast.grows

/-- Any number of additions keep what a path has come to. Only the aliases of the first tree have to
count forward, as later ones are on no way to what has been found before. -/
theorem walked_kept_additions (h : t.WellFormed) (ha : t.AliasesCountForward)
    (hrun : Relation.ReflTransGen GrowsBy t t') {origin : EntryId} {path : Path}
    (ho : origin < t.size) (hp : CountsForward path.elements) (follow : Bool) :
    Kept (t.walked origin path follow) (t'.walked origin path follow) :=
  (grows_of_additions hrun).walked_kept h ha ho hp follow

/-- What a path leads to, an entry or an error, it still leads to when an item has been appended to
an array or a child been added under a new name, also through aliases and bookmarks. -/
theorem resolve_growth (h : Reachable t) (ha : t.AliasesCountForward) (hs : scope < t.size)
    (hnew : t.Fresh scope name) (hadd : t.add scope name e = .ok (id, t')) {origin : EntryId}
    {path : Path} (ho : origin < t.size) (hp : CountsForward path.elements) :
    (t.resolve origin path ≠ .ok none → t'.resolve origin path = t.resolve origin path) ∧
    (t.resolveFollow origin path ≠ .ok none →
      t'.resolveFollow origin path = t.resolveFollow origin path) := by
  have hgrows : t.GrowsBy t' := ⟨scope, name, e, id, hs, hnew, hadd⟩
  have hkept := walked_kept_additions h.wellFormed ha (.single hgrows) ho hp
  exact ⟨fun hne => (hkept false).resolve_left hne, fun hne => (hkept true).resolve_left hne⟩

theorem devTree_aliasesCountForward : devTree.AliasesCountForward := by
  have htargets : ∀ id < devTree.size, devTree.alias? id ∈ [none, some "..", some "pci"] := by
    decide +kernel
  intro id target path hid hpath name n
  have htarget := htargets id (lt_size_of_alias hid)
  have hup : Path.ofText ".." = .ok ⟨false, [.parent]⟩ := by rfl
  have hpci : Path.ofText "pci" = .ok ⟨false, [.name "pci"]⟩ := by rfl
  rw [hid] at htarget
  simp only [List.mem_cons, Option.some.injEq, reduceCtorEq, List.not_mem_nil, or_false,
    false_or] at htarget
  rcases htarget with rfl | rfl
  · cases hup.symm.trans hpath
    simp
  · cases hpci.symm.trans hpath
    simp

/-- Here the array is found through an alias, and `dev/bus[1]` has led to nothing before. -/
theorem resolve_growth_devTree :
    Reachable devTree ∧ devTree.AliasesCountForward ∧ ∃ t',
      devTree.add 1 "bus[]" (.alias "/") = .ok (5, t') ∧
      t'.resolve root ⟨false, [.name "dev", .indexed "bus" (.pos 0)]⟩ = .ok (some 3) ∧
      t'.resolveFollow root ⟨false, [.name "dev", .name "bus", .name "x"]⟩ =
        .error (.conversion "dev/bus" .leafInPath) ∧
      devTree.resolve root ⟨false, [.name "dev", .indexed "bus" (.pos 1)]⟩ = .ok none ∧
      t'.resolve root ⟨false, [.name "dev", .indexed "bus" (.pos 1)]⟩ = .ok (some 5) := by
  have hr : Reachable devTree := .pass .empty _
  have hs : 1 < devTree.size := by decide +kernel
  have hroot : root < devTree.size := by decide +kernel
  have hnew : devTree.Fresh 1 "bus[]" := .inl ⟨"bus", rfl⟩
  have hadd : devTree.add 1 "bus[]" (.alias "/") = .ok (5, _) := rfl
  refine ⟨hr, devTree_aliasesCountForward, _, hadd, ?_, ?_, by rfl, by rfl⟩
  · have hitem : devTree.resolve root ⟨false, [.name "dev", .indexed "bus" (.pos 0)]⟩ =
        .ok (some 3) := by rfl
    have hp : CountsForward (Path.mk false [.name "dev", .indexed "bus" (.pos 0)]).elements := by
      simp [CountsForward]
    obtain ⟨hkept, -⟩ := resolve_growth hr devTree_aliasesCountForward hs hnew hadd hroot hp
    rw [hkept (by simp [hitem]), hitem]
  · have hleaf : devTree.resolveFollow root ⟨false, [.name "dev", .name "bus", .name "x"]⟩ =
        .error (.conversion "dev/bus" .leafInPath) := by rfl
    have hp : CountsForward (Path.mk false [.name "dev", .name "bus", .name "x"]).elements := by
      simp [CountsForward]
    obtain ⟨-, hkept⟩ := resolve_growth hr devTree_aliasesCountForward hs hnew hadd hroot hp
    rw [hkept (by simp [hleaf]), hleaf]

end Tree

end RegisterAtlas
