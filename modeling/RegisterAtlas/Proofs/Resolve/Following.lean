import RegisterAtlas.Proofs.Resolve.AliasChains
import RegisterAtlas.Proofs.Resolve.Append
import RegisterAtlas.Proofs.Resolve.Canonical

/-!
# Following an alias at the end of a path

The two ways to resolve a path share one walk and part at its last element only. Where that leads to
an alias, following it is to resolve its target from the scope in which the alias lies, with one
nested alias less than a path has that is resolved on its own. So the outcomes are the same unless
the target needs all the aliases that a path may nest.
-/

namespace RegisterAtlas.Tree

variable {t : Tree} {origin : EntryId} {path : Path}

/-! ## The last element -/

section

variable {enter : EntryId → String → Except Error (Option Spot)} {follow : Bool} {i : Nat}
  {spot next : Spot} {e : Element} {rest : List Element} {target : String}

/-- An alias at the end of a path is only followed on request. -/
theorem walkElements_stay (hstep : t.takeStep path i spot e = .ok (some next))
    (ha : t.alias? next.entry = some target) :
    t.walkElements path enter false i spot [e] = .ok (some next) := by
  rw [walkElements]
  simp only [hstep, bind, Except.bind, ha]
  rfl

theorem walkElements_alias (hstep : t.takeStep path i spot e = .ok (some next))
    (ha : t.alias? next.entry = some target) (hf : ¬ (rest = [] ∧ follow = false)) :
    t.walkElements path enter follow i spot (e :: rest) =
      (do match ← enter (t.parent next.entry) target with
          | none => pure none
          | some found => t.walkElements path enter follow (i + 1) (next.follow found) rest) := by
  have hnot : ¬ (rest = [] ∧ (!follow) = true) := by rwa [Bool.not_eq_true']
  rw [walkElements]
  simp only [hstep, bind, Except.bind, ha]
  exact if_neg hnot

end

/-- What is still to be done with the end of a walk for an alias there to be followed. -/
def followLast (t : Tree) (enter : EntryId → String → Except Error (Option Spot)) (last : Spot) :
    Except Error (Option Spot) :=
  match t.alias? last.entry with
  | none => .ok (some last)
  | some target => (enter (t.parent last.entry) target).map (Option.map last.follow)

theorem followLast_of_plain {enter : EntryId → String → Except Error (Option Spot)} {last : Spot}
    (ha : t.alias? last.entry = none) : t.followLast enter last = .ok (some last) := by
  rw [followLast, ha]

theorem followLast_of_alias {enter : EntryId → String → Except Error (Option Spot)} {last : Spot}
    {target : String} (ha : t.alias? last.entry = some target) :
    t.followLast enter last =
      (enter (t.parent last.entry) target).map (Option.map last.follow) := by
  rw [followLast, ha]

/-- To walk a path and follow its end is to walk it without, and then to follow the alias to which
it has led. A path without elements has no last one, so it must not start at an alias. -/
theorem walkElements_follow {enter : EntryId → String → Except Error (Option Spot)}
    {es : List Element} : ∀ {i : Nat} {spot : Spot}, es ≠ [] ∨ t.alias? spot.entry = none →
      t.walkElements path enter true i spot es =
        (do match ← t.walkElements path enter false i spot es with
            | none => pure none
            | some last => t.followLast enter last) := by
  induction es with
  | nil =>
      intro i spot hplain
      exact (followLast_of_plain (hplain.resolve_left fun hne => hne rfl)).symm
  | cons e rest ih =>
      intro i spot _
      cases hstep : t.takeStep path i spot e with
      | error err => rw [walkElements, walkElements, hstep]; rfl
      | ok next =>
      cases next with
      | none => rw [walkElements, walkElements, hstep]; rfl
      | some next =>
      cases ha : t.alias? next.entry with
      | none =>
          rw [walkElements_cons rest hstep ha, walkElements_cons rest hstep ha]
          exact ih (.inr ha)
      | some target =>
      rw [walkElements_alias hstep ha fun hl => by cases hl.2]
      by_cases hrest : rest = []
      · -- Here one walk ends, and the other one goes on to the target.
        subst hrest
        rw [walkElements_stay hstep ha]
        change _ = t.followLast enter next
        rw [followLast_of_alias ha]
        cases enter (t.parent next.entry) target with
        | error err => rfl
        | ok found => cases found <;> rfl
      · rw [walkElements_alias hstep ha fun hl => hrest hl.1]
        cases enter (t.parent next.entry) target with
        | error err => rfl
        | ok found =>
        cases found with
        | none => rfl
        | some found => exact ih (.inl hrest)

/-- What an entry at the end of a path comes to when it is followed. -/
def onward (t : Tree) (a : EntryId) : Except Error (Option EntryId) :=
  match t.alias? a with
  | none => .ok (some a)
  | some target => do
      (t.walk maxAliasDepth (t.parent a) (← Path.ofText target) true).map (Option.map Spot.entry)

theorem onward_of_plain {a : EntryId} (ha : t.alias? a = none) : t.onward a = .ok (some a) := by
  rw [onward, ha]

theorem onward_of_malformed {a : EntryId} {target : String} {err : Error}
    (ha : t.alias? a = some target) (hp : Path.ofText target = .error err) :
    t.onward a = .error err := by
  rw [onward, ha]
  dsimp only
  rw [hp]
  rfl

theorem onward_of_alias {a : EntryId} {target : String} {inner : Path}
    (ha : t.alias? a = some target) (hp : Path.ofText target = .ok inner) :
    t.onward a = (t.walk maxAliasDepth (t.parent a) inner true).map (Option.map Spot.entry) := by
  rw [onward, ha]
  dsimp only
  rw [hp]
  rfl

theorem map_entry_followLast (t : Tree) (last : Spot) :
    (t.followLast (fun scope target => do t.walk maxAliasDepth scope (← Path.ofText target) true)
      last).map (Option.map Spot.entry) = t.onward last.entry := by
  cases ha : t.alias? last.entry with
  | none => rw [followLast_of_plain ha, onward_of_plain ha]; rfl
  | some target =>
  rw [followLast_of_alias ha]
  cases hp : Path.ofText target with
  | error err => rw [onward_of_malformed ha hp]; rfl
  | ok inner =>
      rw [onward_of_alias ha hp]
      change ((t.walk maxAliasDepth (t.parent last.entry) inner true).map _).map _ = _
      cases t.walk maxAliasDepth (t.parent last.entry) inner true with
      | error err => rfl
      | ok found => cases found <;> rfl

/-- The two ways to resolve a path differ in what is done with the end of it. -/
theorem resolveFollow_eq (hplain : path.elements ≠ [] ∨ t.alias? (base path origin) = none) :
    t.resolveFollow origin path =
      (do match ← t.resolve origin path with
          | none => pure none
          | some a => t.onward a) := by
  rw [← start_entry] at hplain
  rw [resolveFollow, resolve, walkFrom, walkFrom, walk, walk, walkElements_follow hplain]
  cases t.walkElements path _ false 0 (t.start origin path) path.elements with
  | error err => rfl
  | ok last =>
  cases last with
  | none => rfl
  | some last => exact t.map_entry_followLast last

/-! ## One nested alias less -/

/-- Following a path takes up all of the aliases that may be nested, or more. -/
def Exhausts (t : Tree) (origin : EntryId) (path : Path) : Prop :=
  TooDeep (t.resolveFollow origin path) ∨ ∃ r, t.Means origin path true maxAliasDepth r

namespace WellFormed

theorem not_exhausts_of_means (h : t.WellFormed) (ho : origin < t.size) {hops : Nat} {r : Outcome}
    (hm : t.Means origin path true hops r) (hlt : hops < maxAliasDepth) :
    ¬ t.Exhausts origin path := by
  rintro (hdeep | ⟨r', hm'⟩)
  · have hall := (h.tooDeep_walked_iff ho).1 hdeep
    exact Nat.lt_asymm hlt (hall hops r hm)
  · have hhops := (h.walks_unique (h.base_lt_size path ho) hm hm').1
    exact Nat.ne_of_lt hlt hhops

/-- With one nested alias less a path comes to what it does otherwise, unless that takes up all of
them. -/
theorem walk_maxAliasDepth (h : t.WellFormed) (path : Path) (ho : origin < t.size) :
    (t.Exhausts origin path → TooDeep (t.walk maxAliasDepth origin path true)) ∧
    (¬ t.Exhausts origin path →
      (t.walk maxAliasDepth origin path true).map (Option.map Spot.entry) =
        t.resolveFollow origin path) := by
  rcases h.settled_walk maxAliasDepth path true ho with ⟨hops, hlt, hm⟩ | ⟨hdeep, hall⟩
  · have hnot := h.not_exhausts_of_means ho hm hlt
    exact ⟨fun hex => (hnot hex).elim, fun _ =>
      (h.walked_eq_of_means ho hm (Nat.le_of_lt hlt)).symm⟩
  · refine ⟨fun _ => hdeep, fun hnot => (hnot ?_).elim⟩
    rcases h.walked_or_tooDeep path true ho with ⟨hops, hle, hm⟩ | ⟨hdeep', -⟩
    · obtain rfl : hops = maxAliasDepth := Nat.le_antisymm hle (hall hops _ hm)
      exact .inr ⟨_, hm⟩
    · exact .inl hdeep'

end WellFormed

/-! ## Following the end of a path -/

/-- To follow a path that ends in no alias is just to resolve it. To follow one that ends in an
alias is to follow its target from the scope of the alias, unless the target is no path, or it takes
up all of the aliases that may be nested. Following never ends in an alias. -/
theorem resolveFollow_follows {t : Tree} (h : Reachable t) {origin : EntryId} (ho : origin < t.size)
    (hs : t.alias? origin = none) (path : Path) :
    (∀ d, t.resolveFollow origin path = .ok (some d) → t.alias? d = none) ∧
    ((∀ a, t.resolve origin path = .ok (some a) → t.alias? a = none) →
      t.resolveFollow origin path = t.resolve origin path) ∧
    ∀ a target, t.resolve origin path = .ok (some a) → t.alias? a = some target →
      (∀ err, Path.ofText target = .error err →
        (∃ flaw, err = .invalidPath target flaw) ∧ t.resolveFollow origin path = .error err) ∧
      ∀ inner, Path.ofText target = .ok inner →
        (t.Exhausts (t.parent a) inner → TooDeep (t.resolveFollow origin path)) ∧
        (¬ t.Exhausts (t.parent a) inner →
          t.resolveFollow origin path = t.resolveFollow (t.parent a) inner) := by
  have hw := h.wellFormed
  have hfollow : t.resolveFollow origin path = _ := resolveFollow_eq (.inr (hw.alias?_base path hs))
  refine ⟨fun d hd => ?_, fun hplain => ?_, fun a target ha htarget => ?_⟩
  · rw [resolveFollow] at hd
    cases hwalk : t.walkFrom origin path true with
    | error err => rw [hwalk] at hd; cases hd
    | ok found =>
    cases found with
    | none => rw [hwalk] at hd; cases hd
    | some found =>
        rw [hwalk] at hd
        cases hd
        exact (hw.trail_of_walk _ ho hs hwalk).2
  · rw [hfollow]
    cases hr : t.resolve origin path with
    | error err => rfl
    | ok found =>
    cases found with
    | none => rfl
    | some d => exact onward_of_plain (hplain d hr)
  · have honward : t.resolveFollow origin path = t.onward a := by rw [hfollow, ha]; rfl
    have hparent := hw.parent_lt_size (lt_size_of_alias htarget)
    rw [honward]
    refine ⟨fun err hp => ⟨Path.ofText_eq_error hp, onward_of_malformed htarget hp⟩,
      fun inner hp => ?_⟩
    obtain ⟨hdeep, hsame⟩ := hw.walk_maxAliasDepth inner hparent
    rw [onward_of_alias htarget hp, tooDeep_map_iff]
    exact ⟨hdeep, hsame⟩

/-- The alias in the array of `devTree` leads to the parent of the scope that has the array. One of
the two aliases of each other in `aliasLoop` leads nowhere. -/
theorem resolveFollow_follows_devTree :
    (Reachable devTree ∧ root < devTree.size ∧ devTree.alias? root = none ∧
      devTree.resolve root ⟨false, [.name "dev", .indexed "bus" (.fromEnd 1)]⟩ = .ok (some 3) ∧
      devTree.alias? 3 = some ".." ∧ ¬ devTree.Exhausts 1 ⟨false, [.parent]⟩ ∧
      devTree.resolveFollow root ⟨false, [.name "dev", .indexed "bus" (.fromEnd 1)]⟩ =
        devTree.resolveFollow 1 ⟨false, [.parent]⟩) ∧
    Reachable aliasLoop ∧ root < aliasLoop.size ∧ aliasLoop.alias? root = none ∧
      aliasLoop.resolve root ⟨false, [.name "a"]⟩ = .ok (some 1) ∧
      aliasLoop.alias? 1 = some "b" ∧ aliasLoop.Exhausts root ⟨false, [.name "b"]⟩ ∧
      TooDeep (aliasLoop.resolveFollow root ⟨false, [.name "a"]⟩) := by
  have hdev : Reachable devTree := .pass .empty _
  have hloop : Reachable aliasLoop := .pass .empty _
  have hdev_lt := hdev.wellFormed.root_lt
  have hloop_lt := hloop.wellFormed.root_lt
  have hdev_root : devTree.alias? root = none := alias?_of_kind hdev.wellFormed.root_kind
  have hloop_root : aliasLoop.alias? root = none := alias?_of_kind hloop.wellFormed.root_kind
  have hitem : devTree.resolve root ⟨false, [.name "dev", .indexed "bus" (.fromEnd 1)]⟩ =
    .ok (some 3) := by rfl
  have ha : aliasLoop.resolve root ⟨false, [.name "a"]⟩ = .ok (some 1) := by rfl
  have hitem_path : Path.ofText ".." = .ok ⟨false, [.parent]⟩ := by decide +kernel
  have hb_path : Path.ofText "b" = .ok ⟨false, [.name "b"]⟩ := by decide +kernel
  have hnot : ¬ devTree.Exhausts 1 ⟨false, [.parent]⟩ := by
    obtain ⟨s, hscope⟩ : ∃ s, devTree.entry 1 = .scope s := exists_scope_of_kind (by rfl)
    have hm : devTree.Means 1 ⟨false, [.parent]⟩ true 0 (.ok (some root)) :=
      .step (.parent hscope) (.inl hdev_root) .done
    exact hdev.wellFormed.not_exhausts_of_means (by decide +kernel) hm (by decide)
  have hex : aliasLoop.Exhausts root ⟨false, [.name "b"]⟩ := .inl ⟨"/a", by decide +kernel⟩
  obtain ⟨-, -, hfollows⟩ := resolveFollow_follows hdev hdev_lt hdev_root
    ⟨false, [.name "dev", .indexed "bus" (.fromEnd 1)]⟩
  obtain ⟨-, -, hdeep⟩ := resolveFollow_follows hloop hloop_lt hloop_root ⟨false, [.name "a"]⟩
  exact ⟨⟨hdev, hdev_lt, hdev_root, hitem, by rfl, hnot,
    ((hfollows 3 ".." hitem (by rfl)).2 _ hitem_path).2 hnot⟩,
    hloop, hloop_lt, hloop_root, ha, by rfl, hex, ((hdeep 1 "b" ha (by rfl)).2 _ hb_path).1 hex⟩

end RegisterAtlas.Tree
