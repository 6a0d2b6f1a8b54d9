import RegisterAtlas.Proofs.Tree.Ancestors
import RegisterAtlas.Proofs.Tree.Attached
import RegisterAtlas.Tree.Resolve

/-!
# Canonical paths

While a path is walked, the steps that lead to the entry reached are kept on a stack, in which a
step to the parent cancels the step before it. `Trail` says that such a stack leads where it
should: steps to parents first, then names and positions of items, each from a scope. A trail can
be climbed, and one can be continued by another, which is all that a walk does with its stack.
What a walk leaves on the stack is therefore a path of its own, to the same entry and past no
alias.
-/

namespace RegisterAtlas

/-! ## Pushing steps -/

namespace Path

@[simp] theorem pushNormalized_name (stack : List Element) (name : String) :
    pushNormalized false stack (.name name) = .name name :: stack := by
  cases stack with
  | nil => rfl
  | cons e _ => cases e <;> rfl

@[simp] theorem pushNormalized_indexed (stack : List Element) (name : String) (index : Index) :
    pushNormalized false stack (.indexed name index) = .indexed name index :: stack := by
  cases stack with
  | nil => rfl
  | cons e _ => cases e <;> rfl

/-- Below steps to the parent there is nothing to cancel. -/
theorem pushNormalized_parent {stack : List Element} (h : ∀ e ∈ stack, e = .parent) :
    pushNormalized false stack .parent = .parent :: stack := by
  cases stack with
  | nil => rfl
  | cons e _ => rw [h e List.mem_cons_self]; rfl

end Path

theorem Items.exists_getElem?_of_item? {items : Items} {index : Index} {id : EntryId}
    (h : items.item? index = some id) : ∃ n : Nat, items.ids[n]? = some id := by
  cases index with
  | append => cases h
  | pos n => exact ⟨n, h⟩
  | fromEnd n =>
      rw [item?] at h
      split at h
      · exact ⟨_, h⟩
      · cases h

namespace Tree

variable {t : Tree}

/-- A stack of steps, last one first, and the entry to which they lead from another one. -/
inductive Trail (t : Tree) (origin : EntryId) : List Element → EntryId → Prop where
  | here : Trail t origin [] origin
  | up {stack : List Element} {id : EntryId} (h : Trail t origin stack id)
      (hup : ∀ e ∈ stack, e = .parent) : Trail t origin (.parent :: stack) (t.parent id)
  | child {stack : List Element} {id child : EntryId} {s : Scope} {name : String}
      (h : Trail t origin stack id) (hs : t.entry id = .scope s)
      (hc : s.children.get? name = some child) : Trail t origin (.name name :: stack) child
  | item {stack : List Element} {id array item : EntryId} {s : Scope} {name : String}
      {items : Items} {n : Nat} (h : Trail t origin stack id) (hs : t.entry id = .scope s)
      (hc : s.children.get? name = some array) (ha : t.entry array = .array items)
      (hi : items.ids[n]? = some item) : Trail t origin (.indexed name (.pos n) :: stack) item

namespace Trail

variable {origin id mid : EntryId} {stack stack' : List Element}

theorem lt_size (hw : t.WellFormed) (ho : origin < t.size) (h : t.Trail origin stack id) :
    id < t.size := by
  induction h with
  | here => exact ho
  | up h hup ih => exact hw.parent_lt_size ih
  | child h hs hc ih => exact Lists.lt_size hw (.child hs hc)
  | item h hs hc ha hi ih => exact Lists.lt_size hw (.item hs hc ha hi)

/-- The step to an entry is cancelled by one to its parent. -/
theorem climb (hw : t.WellFormed) (h : t.Trail origin stack id) :
    t.Trail origin (Path.pushNormalized false stack .parent) (t.parent id) := by
  cases h with
  | here => exact .up .here fun e he => by cases he
  | up h hup =>
      have hall : ∀ e ∈ Element.parent :: _, e = .parent := List.forall_mem_cons.2 ⟨rfl, hup⟩
      rw [Path.pushNormalized_parent hall]
      exact .up (.up h hup) hall
  | child h hs hc =>
      rw [Lists.parent_eq hw (.child hs hc)]
      exact h
  | item h hs hc ha hi =>
      rw [Lists.parent_eq hw (.item hs hc ha hi)]
      exact h

theorem climb_levels (hw : t.WellFormed) (levels : Nat) : ∀ {stack : List Element} {id : EntryId},
    t.Trail origin stack id →
      t.Trail origin ((List.replicate levels .parent).foldl (Path.pushNormalized false) stack)
        (t.above levels id) := by
  induction levels with
  | zero => exact fun h => h
  | succ levels ih => exact fun h => ih (h.climb hw)

/-- A trail is continued by pushing the steps of another one. -/
theorem trans (hw : t.WellFormed) (h : t.Trail origin stack mid) (h' : t.Trail mid stack' id) :
    t.Trail origin (stack'.reverse.foldl (Path.pushNormalized false) stack) id := by
  induction h' with
  | here => exact h
  | up h' hup ih =>
      rw [List.reverse_cons, List.foldl_concat]
      exact ih.climb hw
  | child h' hs hc ih =>
      rw [List.reverse_cons, List.foldl_concat, Path.pushNormalized_name]
      exact .child ih hs hc
  | item h' hs hc ha hi ih =>
      rw [List.reverse_cons, List.foldl_concat, Path.pushNormalized_indexed]
      exact .item ih hs hc ha hi

/-- Without the step to an alias the trail leads to the scope of the alias. -/
theorem tail_of_alias (hw : t.WellFormed) (ho : origin < t.size) (hs : t.alias? origin = none)
    {target : String} (h : t.Trail origin stack id) (ha : t.alias? id = some target) :
    t.Trail origin stack.tail (t.parent id) := by
  cases h with
  | here => rw [hs] at ha; cases ha
  | up h hup =>
      rw [alias?_of_kind (hw.parent_kind _ (h.lt_size hw ho))] at ha
      cases ha
  | child h hs hc =>
      rw [Lists.parent_eq hw (.child hs hc)]
      exact h
  | item h hs hc ha hi =>
      rw [Lists.parent_eq hw (.item hs hc ha hi)]
      exact h

end Trail

/-! ## What a walk leaves on its stack -/

theorem getElem?_ancestors_of_bookmarked? {id : EntryId} {name : String} {found : Nat × EntryId}
    (h : t.bookmarked? id name = some found) : (t.ancestors id)[found.1]? = some found.2 := by
  obtain ⟨level, -, h⟩ := Option.bind_eq_some_iff.1 h
  obtain ⟨a, ha, rfl⟩ := Option.map_eq_some_iff.1 h
  exact ha

namespace WellFormed

variable {origin : EntryId}

theorem trail_of_takeStep (h : t.WellFormed) {path : Path} {i : Nat} {spot next : Spot}
    {e : Element} (hid : spot.entry < t.size) (htrail : t.Trail origin spot.trail spot.entry)
    (hstep : t.takeStep path i spot e = .ok (some next)) :
    t.Trail origin next.trail next.entry := by
  unfold takeStep at hstep
  cases hs : t.scope? spot.entry with
  | none => rw [hs] at hstep; cases hstep
  | some s =>
  have hscope : t.entry spot.entry = .scope s := scope?_eq_some_iff.1 hs
  rw [hs] at hstep
  cases e with
  | parent =>
      cases hstep
      exact htrail.climb h
  | bookmark name =>
      cases hb : t.bookmarked? spot.entry name with
      | none => simp [hb] at hstep
      | some found =>
          simp only [hb, Option.map_some, Except.ok.injEq, Option.some.injEq] at hstep
          subst hstep
          rw [Spot.climb, h.above_of_getElem?_ancestors hid (getElem?_ancestors_of_bookmarked? hb)]
          exact htrail.climb_levels h found.1
  | name name =>
      cases hc : s.children.get? name with
      | none => simp [hc] at hstep
      | some child =>
          simp only [hc, Option.map_some, Except.ok.injEq, Option.some.injEq] at hstep
          subst hstep
          rw [Spot.step, Path.pushNormalized_name]
          exact .child htrail hscope hc
  | indexed name index =>
      cases hc : s.children.get? name with
      | none => simp [hc] at hstep
      | some array =>
      cases ha : t.entry array with
      | array items =>
          cases hi : items.item? index with
          | none => simp [hc, ha, hi] at hstep
          | some item =>
              obtain ⟨n, hn⟩ := Items.exists_getElem?_of_item? hi
              have hnodup := h.nodup_members array
              rw [ha] at hnodup
              simp only [hc, ha, hi, Option.map_some, Items.position?_of_getElem? hnodup hn,
                Except.ok.injEq, Option.some.injEq] at hstep
              subst hstep
              rw [Spot.step, Path.pushNormalized_indexed]
              exact .item htrail hscope hc ha hn
      | _ => simp [hc, ha] at hstep

/-- Walking on keeps the trail of a walk, given that the walks of targets do. At an alias the
trail of the target is put in the place of the step to the alias. -/
theorem trail_of_walkElements (h : t.WellFormed) (ho : origin < t.size)
    (hs : t.alias? origin = none) {path : Path}
    {enter : EntryId → String → Except Error (Option Spot)}
    (henter : ∀ scope target spot, scope < t.size → t.alias? scope = none →
      enter scope target = .ok (some spot) →
      t.Trail scope spot.trail spot.entry ∧ t.alias? spot.entry = none) {es : List Element} :
    ∀ {i : Nat} (spot : Spot) {found : Spot}, t.Trail origin spot.trail spot.entry →
      t.alias? spot.entry = none → t.walkElements path enter true i spot es = .ok (some found) →
      t.Trail origin found.trail found.entry ∧ t.alias? found.entry = none := by
  induction es with
  | nil =>
      rintro i spot found htrail hplain ⟨⟩
      exact ⟨htrail, hplain⟩
  | cons e rest ih =>
      intro i spot found htrail hplain hwalk
      rw [walkElements] at hwalk
      cases hstep : t.takeStep path i spot e with
      | error err => rw [hstep] at hwalk; cases hwalk
      | ok next =>
      cases next with
      | none => rw [hstep] at hwalk; cases hwalk
      | some next =>
      have hnext := h.trail_of_takeStep (htrail.lt_size h ho) htrail hstep
      simp only [hstep, bind, Except.bind] at hwalk
      cases ha : t.alias? next.entry with
      | none =>
          simp only [ha] at hwalk
          exact ih next hnext ha hwalk
      | some target =>
          simp only [ha, Bool.not_true, Bool.false_eq_true, and_false, if_false] at hwalk
          cases hmid : enter (t.parent next.entry) target with
          | error err => rw [hmid] at hwalk; cases hwalk
          | ok mid =>
          cases mid with
          | none => rw [hmid] at hwalk; cases hwalk
          | some mid =>
              rw [hmid] at hwalk
              have hnext_lt := hnext.lt_size h ho
              obtain ⟨hmid_trail, hmid_plain⟩ := henter _ target mid (h.parent_lt_size hnext_lt)
                (alias?_of_kind (h.parent_kind _ hnext_lt)) hmid
              exact ih (next.follow mid) ((hnext.tail_of_alias h ho hs ha).trans h hmid_trail)
                hmid_plain hwalk

theorem trail_of_walk (h : t.WellFormed) (depth : Nat) : ∀ {origin : EntryId} {path : Path}
    {found : Spot}, origin < t.size → t.alias? origin = none →
      t.walk depth origin path true = .ok (some found) →
      t.Trail origin found.trail found.entry ∧ t.alias? found.entry = none := by
  induction depth with
  | zero => rintro _ _ _ _ _ ⟨⟩
  | succ depth ih =>
      intro origin path found ho hs hwalk
      have hstart : t.Trail origin (t.start origin path).trail (t.start origin path).entry ∧
          t.alias? (t.start origin path).entry = none := by
        unfold start
        split
        · refine ⟨?_, alias?_of_kind h.root_kind⟩
          have hhere : t.Trail origin [] origin := .here
          have hclimb := hhere.climb_levels h ((t.ancestors origin).length - 1)
          rw [h.above_length_ancestors ho] at hclimb
          exact hclimb
        · exact ⟨.here, hs⟩
      refine h.trail_of_walkElements ho hs (fun scope target spot hscope hplain henter => ?_)
        _ hstart.1 hstart.2 hwalk
      cases hp : Path.ofText target with
      | error err => rw [hp] at henter; cases henter
      | ok inner =>
          rw [hp] at henter
          exact ih hscope hplain henter

end WellFormed

/-! ## Walking a trail -/

theorem walkElements_cons {path : Path} {enter : EntryId → String → Except Error (Option Spot)}
    {follow : Bool} {i : Nat} {spot next : Spot} {e : Element} (rest : List Element)
    (hstep : t.takeStep path i spot e = .ok (some next)) (hplain : t.alias? next.entry = none) :
    t.walkElements path enter follow i spot (e :: rest) =
      t.walkElements path enter follow (i + 1) next rest := by
  rw [walkElements]
  simp only [hstep, bind, Except.bind, hplain]

/-- What a scope lists is one step away from it. -/
theorem Lists.takeStep (hw : t.WellFormed) {scope id : EntryId} {e : Element}
    (h : t.Lists scope e id) (path : Path) (i : Nat) (stack : List Element) :
    t.takeStep path i ⟨scope, stack⟩ e = .ok (some ⟨id, e :: stack⟩) := by
  cases h with
  | @child s name id hs hc =>
      rw [Tree.takeStep, scope?_of_entry hs, ← Path.pushNormalized_name stack name]
      simp only [hc]
      rfl
  | @item s name array items n id hs hc ha hi =>
      have hnodup := hw.nodup_members array
      rw [ha] at hnodup
      have hitem : items.item? (.pos n) = some id := hi
      rw [Tree.takeStep, scope?_of_entry hs, ← Path.pushNormalized_indexed stack name (.pos n)]
      simp only [hc, ha, hitem, Option.map_some, Items.position?_of_getElem? hnodup hi]
      rfl

namespace Trail

variable {origin id : EntryId} {stack : List Element}

/-- Steps to parents lead to a scope. -/
theorem kind_of_ups (hw : t.WellFormed) (ho : origin < t.size) (hs : t.kind origin = .scope)
    (h : t.Trail origin stack id) (hup : ∀ e ∈ stack, e = .parent) : t.kind id = .scope := by
  cases h with
  | here => exact hs
  | up h _ => exact hw.parent_kind _ (h.lt_size hw ho)
  | child => cases hup _ List.mem_cons_self
  | item => cases hup _ List.mem_cons_self

/-- The last step of a trail is taken from a scope, to which the rest of the trail leads. -/
theorem exists_takeStep (hw : t.WellFormed) (ho : origin < t.size) (hs : t.kind origin = .scope)
    {e : Element} (h : t.Trail origin (e :: stack) id) :
    ∃ scope, t.Trail origin stack scope ∧ t.kind scope = .scope ∧
      ∀ path i, t.takeStep path i ⟨scope, stack⟩ e = .ok (some ⟨id, e :: stack⟩) := by
  cases h with
  | @up _ scope h hup =>
      have hkind := h.kind_of_ups hw ho hs hup
      obtain ⟨s, hscope⟩ := exists_scope_of_kind hkind
      refine ⟨scope, h, hkind, fun path i => ?_⟩
      rw [takeStep, scope?_of_entry hscope, ← Path.pushNormalized_parent hup]
      rfl
  | child h hscope hc =>
      exact ⟨_, h, kind_of_entry hscope,
        fun path i => Lists.takeStep hw (.child hscope hc) path i _⟩
  | item h hscope hc ha hi =>
      exact ⟨_, h, kind_of_entry hscope,
        fun path i => Lists.takeStep hw (.item hscope hc ha hi) path i _⟩

/-- To walk the steps of a trail is to go where it leads, whatever follows. -/
theorem walkElements_reverse (hw : t.WellFormed) (ho : origin < t.size)
    (hs : t.kind origin = .scope) (path : Path)
    (enter : EntryId → String → Except Error (Option Spot)) (follow : Bool) : ∀ {id : EntryId},
      t.Trail origin stack id → ∀ (rest : List Element), t.alias? id = none →
        t.walkElements path enter follow 0 ⟨origin, []⟩ (stack.reverse ++ rest) =
          t.walkElements path enter follow stack.length ⟨id, stack⟩ rest := by
  induction stack with
  | nil =>
      rintro _ ⟨⟩ rest _
      rfl
  | cons e stack ih =>
      intro id h rest hplain
      obtain ⟨scope, hscope, hkind, hstep⟩ := h.exists_takeStep hw ho hs
      rw [List.reverse_cons, List.append_assoc, ih hscope _ (alias?_of_kind hkind)]
      exact walkElements_cons rest (hstep path stack.length) hplain

/-- Before its last step a trail leads to scopes. -/
theorem drop (hw : t.WellFormed) (ho : origin < t.size) (hs : t.kind origin = .scope) :
    ∀ {stack : List Element} {id : EntryId}, t.Trail origin stack id → t.alias? id = none →
      ∀ (n : Nat), ∃ id', t.Trail origin (stack.drop n) id' ∧ t.alias? id' = none := by
  intro stack
  induction stack with
  | nil => exact fun h hplain n => ⟨_, by rwa [List.drop_nil], hplain⟩
  | cons e stack ih =>
      intro id h hplain n
      cases n with
      | zero => exact ⟨id, h, hplain⟩
      | succ n =>
          obtain ⟨scope, hscope, hkind, -⟩ := h.exists_takeStep hw ho hs
          exact ih hscope (alias?_of_kind hkind) n

/-- Steps to parents come first, and all others are names and positions. -/
theorem reverse_eq (h : t.Trail origin stack id) :
    ∃ (ups : Nat) (downs : List Element), stack.reverse = List.replicate ups .parent ++ downs ∧
      ∀ e ∈ downs, (∃ name, e = .name name) ∨ ∃ name n, e = .indexed name (.pos n) := by
  induction h with
  | here => exact ⟨0, [], rfl, fun e he => by cases he⟩
  | @up stack id h hup ih =>
      refine ⟨stack.length + 1, [], ?_, fun e he => by cases he⟩
      rw [List.append_nil, List.reverse_eq_iff, List.reverse_replicate]
      exact List.eq_replicate_iff.2 ⟨rfl, List.forall_mem_cons.2 ⟨rfl, hup⟩⟩
  | @child stack id child s name h hs hc ih =>
      obtain ⟨ups, downs, hstack, hdowns⟩ := ih
      refine ⟨ups, downs ++ [.name name], ?_, fun e he => ?_⟩
      · rw [List.reverse_cons, hstack, List.append_assoc]
      · rcases List.mem_append.1 he with he | he
        · exact hdowns e he
        · exact .inl ⟨name, List.mem_singleton.1 he⟩
  | @item stack id array item s name items n h hs hc ha hi ih =>
      obtain ⟨ups, downs, hstack, hdowns⟩ := ih
      refine ⟨ups, downs ++ [.indexed name (.pos n)], ?_, fun e he => ?_⟩
      · rw [List.reverse_cons, hstack, List.append_assoc]
      · rcases List.mem_append.1 he with he | he
        · exact hdowns e he
        · exact .inr ⟨name, n, List.mem_singleton.1 he⟩

/-- A path that starts at the origin of a trail and has its steps leads where the trail leads. -/
theorem walkFrom_eq (hw : t.WellFormed) (ho : origin < t.size) (hs : t.kind origin = .scope)
    (h : t.Trail origin stack id) (hplain : t.alias? id = none) {path : Path}
    (hstart : t.start origin path = ⟨origin, []⟩) (hpath : path.elements = stack.reverse)
    (follow : Bool) : t.walkFrom origin path follow = .ok (some ⟨id, stack⟩) := by
  rw [walkFrom, walk, hstart, hpath]
  have hwalk := h.walkElements_reverse hw ho hs path
    (fun scope target => do t.walk maxAliasDepth scope (← Path.ofText target) true) follow [] hplain
  rw [List.append_nil] at hwalk
  exact hwalk

theorem walkFrom_reverse (hw : t.WellFormed) (ho : origin < t.size) (hs : t.kind origin = .scope)
    (h : t.Trail origin stack id) (hplain : t.alias? id = none) (follow : Bool) :
    t.walkFrom origin ⟨false, stack.reverse⟩ follow = .ok (some ⟨id, stack⟩) :=
  h.walkFrom_eq hw ho hs hplain rfl rfl follow

end Trail

/-! ## Canonical paths -/

theorem resolve_eq {origin : EntryId} {path : Path} {r : Except Error (Option Spot)}
    (h : t.walkFrom origin path false = r) :
    t.resolve origin path = r.map (Option.map Spot.entry) := by rw [resolve, h]

/-- The canonical path of an entry exists just if the path can be resolved. It climbs first and then
goes down by names and positions, passes no alias, leads to the same entry, and is its own canonical
path. -/
theorem canonicalPath_leads {t : Tree} (h : Reachable t) {origin : EntryId} (ho : origin < t.size)
    (hs : t.kind origin = .scope) (path : Path) :
    (∀ err, t.canonicalPath origin path = .error err ↔ t.resolveFollow origin path = .error err) ∧
    (t.canonicalPath origin path = .ok none ↔ t.resolveFollow origin path = .ok none) ∧
    ∀ d, t.resolveFollow origin path = .ok (some d) →
      ∃ c, t.canonicalPath origin path = .ok (some c) ∧
        (∃ ups downs, c = ⟨false, List.replicate ups .parent ++ downs⟩ ∧
          ∀ e ∈ downs, (∃ name, e = .name name) ∨ ∃ name n, e = .indexed name (.pos n)) ∧
        (∀ n, ∃ id, t.resolve origin (c.take n) = .ok (some id) ∧ t.alias? id = none) ∧
        t.resolve origin c = .ok (some d) ∧ t.canonicalPath origin c = .ok (some c) := by
  have hw := h.wellFormed
  unfold resolveFollow canonicalPath
  cases hwalk : t.walkFrom origin path true with
  | error err => simp [Except.map]
  | ok found =>
  cases found with
  | none => simp [Except.map]
  | some found =>
  refine ⟨by simp [Except.map], by simp [Except.map], ?_⟩
  rintro d ⟨⟩
  obtain ⟨htrail, hplain⟩ := hw.trail_of_walk _ ho (alias?_of_kind hs) hwalk
  have hwalkFrom := htrail.walkFrom_reverse hw ho hs hplain
  obtain ⟨ups, downs, hshape, hdowns⟩ := htrail.reverse_eq
  refine ⟨⟨false, found.trail.reverse⟩, rfl, ⟨ups, downs, by rw [hshape], hdowns⟩, fun n => ?_,
    resolve_eq (hwalkFrom false), by rw [hwalkFrom true]; rfl⟩
  obtain ⟨id, htaken, hid⟩ := htrail.drop hw ho hs hplain (found.trail.length - n)
  refine ⟨id, ?_, hid⟩
  rw [Path.take, List.take_reverse]
  exact resolve_eq (htaken.walkFrom_reverse hw ho hs hid false)

/-- Here `first` is an alias of the only item of an array, which holds another alias that starts
at a bookmark. -/
def busTree : Tree :=
  ([.openScope "pci" none, .bookmark "top", .openScope "dev" none, .closeScope,
    .openScope "bus[]" none, .alias "up" "$top/dev", .closeScope, .closeScope,
    .alias "first" "pci/bus[-1]"].foldl Draft.after (.ofTree empty)).tree

theorem canonicalPath_leads_busTree :
    Reachable busTree ∧ root < busTree.size ∧ busTree.kind root = .scope ∧
      busTree.resolveFollow root ⟨false, [.name "first", .name "up"]⟩ = .ok (some 2) ∧
      busTree.canonicalPath root ⟨false, [.name "first", .name "up"]⟩ =
        .ok (some ⟨false, [.name "pci", .name "dev"]⟩) ∧
      ∃ c, busTree.canonicalPath root ⟨false, [.name "first", .name "up"]⟩ = .ok (some c) ∧
        busTree.resolve root c = .ok (some 2) ∧ busTree.canonicalPath root c = .ok (some c) := by
  have hr : Reachable busTree := .pass .empty _
  have hlt : root < busTree.size := hr.wellFormed.root_lt
  have hs : busTree.kind root = .scope := hr.wellFormed.root_kind
  have hd : busTree.resolveFollow root ⟨false, [.name "first", .name "up"]⟩ = .ok (some 2) := by
    decide +kernel
  obtain ⟨-, -, hleads⟩ := canonicalPath_leads hr hlt hs ⟨false, [.name "first", .name "up"]⟩
  obtain ⟨c, hc, -, -, hresolve, hcanonical⟩ := hleads 2 hd
  exact ⟨hr, hlt, hs, hd, by decide +kernel, c, hc, hresolve, hcanonical⟩

end Tree

end RegisterAtlas
