import RegisterAtlas.Proofs.Resolve.Meaning

/-!
# Walks of bounded depth

A walk finds the meaning of a path if the path has one in which no more aliases are nested than the
bound allows, and otherwise it fails for just that reason. The depth of a walk grows along nested
aliases only: after an alias the rest of the path has the whole bound again.
-/

namespace RegisterAtlas.Tree

variable {t : Tree}

/-- The failure of a walk in which aliases are nested too deep; it shows the target at which the
walk ended. -/
def TooDeep {α : Type} (r : Except Error α) : Prop :=
  ∃ place, r = .error (.conversion place .aliasesTooDeep)

theorem start_entry (t : Tree) (origin : EntryId) (path : Path) :
    (t.start origin path).entry = base path origin := by
  unfold start base
  split <;> rfl

/-- What a walk in which less than `depth` aliases may be nested should come to: the meaning of the
elements if no more aliases are nested in it, or else the failure. -/
def Settled (t : Tree) (path : Path) (follow : Bool) (i : Nat) (id : EntryId) (es : List Element)
    (depth : Nat) (r : Except Error (Option Spot)) : Prop :=
  (∃ hops, hops < depth ∧ t.Walks path follow i id es hops (r.map (Option.map Spot.entry))) ∨
  TooDeep r ∧ ∀ hops r', t.Walks path follow i id es hops r' → depth ≤ hops

namespace WellFormed

section

variable {path inner : Path} {follow : Bool} {i depth : Nat} {id next : EntryId} {e : Element}
  {rest : List Element} {target : String} {r : Except Error (Option Spot)}

theorem settled_step (h : t.WellFormed) (hid : id < t.size)
    (he : t.Takes path i id e (.ok (some next))) (hn : t.alias? next = none)
    (hr : t.Settled path follow (i + 1) next rest depth r) :
    t.Settled path follow i id (e :: rest) depth r := by
  rcases hr with ⟨hops, hlt, hw⟩ | ⟨hdeep, hall⟩
  · exact .inl ⟨hops, hlt, .step he (.inl hn) hw⟩
  · refine .inr ⟨hdeep, fun hops r' hw => ?_⟩
    exact hall hops r' ((h.walks_step_iff hid he (.inl hn)).1 hw)

/-- The target of an alias is walked with one alias less, and the rest of the path with all of
them. -/
theorem settled_alias (h : t.WellFormed) (hid : id < t.size)
    (he : t.Takes path i id e (.ok (some next))) (hn : t.alias? next = some target)
    (hf : ¬ (rest = [] ∧ follow = false)) (hp : Path.ofText target = .ok inner)
    (hr : t.Settled inner true 0 (base inner (t.parent next)) inner.elements depth r)
    {after : Spot → Except Error (Option Spot)}
    (hafter : ∀ found, found.entry < t.size →
      t.Settled path follow (i + 1) found.entry rest (depth + 1) (after found)) :
    t.Settled path follow i id (e :: rest) (depth + 1)
      (do match ← r with
          | none => pure none
          | some found => after found) := by
  have hbase := h.base_lt_size inner (h.parent_lt_size (h.takes_lt_size hid he))
  rcases hr with ⟨hops, hlt, hin⟩ | ⟨⟨place, rfl⟩, hall⟩
  · cases r with
    | error err =>
        exact .inl ⟨hops + 1, Nat.succ_lt_succ hlt, .stop he hn hf hp hin (by rintro _ ⟨⟩)⟩
    | ok found =>
    cases found with
    | none => exact .inl ⟨hops + 1, Nat.succ_lt_succ hlt, .stop he hn hf hp hin (by rintro _ ⟨⟩)⟩
    | some found =>
    rcases hafter found (h.walks_lt_size hbase hin) with ⟨hops', hlt', hw⟩ | ⟨hdeep, hall⟩
    · exact .inl ⟨max (hops + 1) hops', Nat.max_lt.2 ⟨Nat.succ_lt_succ hlt, hlt'⟩,
        .follow he hn hf hp hin hw⟩
    · refine .inr ⟨hdeep, fun m r' hw => ?_⟩
      -- The target means what has been found, so it is the rest of the path that nests too deep.
      rcases (h.walks_alias_iff hid he hn hf hp).1 hw with
        ⟨k, hin', hr, -⟩ | ⟨k, k', found', hin', hw', rfl⟩
      · exact (hr _ (h.walks_unique hbase hin hin').2.symm).elim
      · cases (h.walks_unique hbase hin hin').2
        exact Nat.le_trans (hall k' r' hw') (Nat.le_max_right ..)
  · refine .inr ⟨⟨place, rfl⟩, fun m r' hw => ?_⟩
    rcases (h.walks_alias_iff hid he hn hf hp).1 hw with
      ⟨k, hin', -, rfl⟩ | ⟨k, k', found, hin', -, rfl⟩
    · exact Nat.succ_le_succ (hall k r' hin')
    · exact Nat.le_trans (Nat.succ_le_succ (hall k _ hin')) (Nat.le_max_left ..)

end

/-- A walk is settled that enters aliases with `enter`, given that `enter` settles their targets. -/
theorem settled_walkElements (h : t.WellFormed) (path : Path) (follow : Bool)
    (enter : EntryId → String → Except Error (Option Spot)) {depth : Nat}
    (hmalformed : ∀ scope target err, Path.ofText target = .error err →
      enter scope target = .error err)
    (henter : ∀ scope target inner, scope < t.size → Path.ofText target = .ok inner →
      t.Settled inner true 0 (base inner scope) inner.elements depth (enter scope target))
    (es : List Element) : ∀ {i : Nat} (spot : Spot), spot.entry < t.size →
      t.Settled path follow i spot.entry es (depth + 1)
        (t.walkElements path enter follow i spot es) := by
  induction es with
  | nil => exact fun _ _ => .inl ⟨0, Nat.succ_pos depth, .done⟩
  | cons e rest ih =>
      intro i spot hid
      rw [walkElements]
      cases hstep : t.takeStep path i spot e with
      | error err =>
          have he := (h.takes_iff spot hid).2 (congrArg _ hstep)
          exact .inl ⟨0, Nat.succ_pos depth, .halt he (by rintro _ ⟨⟩)⟩
      | ok found =>
      cases found with
      | none =>
          have he := (h.takes_iff spot hid).2 (congrArg _ hstep)
          exact .inl ⟨0, Nat.succ_pos depth, .halt he (by rintro _ ⟨⟩)⟩
      | some next =>
      have he := (h.takes_iff spot hid).2 (congrArg _ hstep)
      have hnext := h.takes_lt_size hid he
      simp only [bind, Except.bind]
      cases hn : t.alias? next.entry with
      | none => exact h.settled_step hid he hn (ih next hnext)
      | some target =>
      by_cases hl : rest = [] ∧ follow = false
      · obtain ⟨rfl, rfl⟩ := hl
        exact .inl ⟨0, Nat.succ_pos depth, .step he (.inr ⟨rfl, rfl⟩) .done⟩
      · have hnot : ¬ (rest = [] ∧ (!follow) = true) := by rwa [Bool.not_eq_true']
        simp only [if_neg hnot]
        cases hp : Path.ofText target with
        | error err =>
            rw [hmalformed _ _ _ hp]
            exact .inl ⟨0, Nat.succ_pos depth, .malformed he hn hl hp⟩
        | ok inner =>
            have hinner := henter _ target inner (h.parent_lt_size hnext) hp
            exact h.settled_alias hid he hn hl hp hinner fun found hfound =>
              ih (next.follow found) hfound

theorem settled_walk (h : t.WellFormed) (depth : Nat) : ∀ {origin : EntryId} (path : Path)
    (follow : Bool), origin < t.size →
      t.Settled path follow 0 (base path origin) path.elements depth
        (t.walk depth origin path follow) := by
  induction depth with
  | zero => exact fun path follow _ => .inr ⟨⟨path.text, rfl⟩, fun hops _ _ => Nat.zero_le hops⟩
  | succ depth ih =>
      intro origin path follow ho
      have hstart : (t.start origin path).entry < t.size := by
        rw [start_entry]
        exact h.base_lt_size path ho
      have hwalk := h.settled_walkElements path follow
        (fun scope target => do t.walk depth scope (← Path.ofText target) true)
        (fun scope target err hp => by rw [hp]; rfl)
        (fun scope target inner hs hp => by rw [hp]; exact ih inner true hs)
        path.elements (i := 0) (t.start origin path) hstart
      rw [start_entry] at hwalk
      exact hwalk

end WellFormed

/-- No path means that aliases are nested too deep. -/
theorem not_tooDeep_of_walks {path : Path} {follow : Bool} {i : Nat} {id : EntryId}
    {es : List Element} {hops : Nat} {r : Outcome} (hw : t.Walks path follow i id es hops r) :
    ¬ TooDeep r := by
  induction hw with
  | done => rintro ⟨place, ⟨⟩⟩
  | halt he hr => cases he <;> rintro ⟨place, ⟨⟩⟩
  | step he hn hw ih => exact ih
  | @malformed _ _ _ _ _ _ _ target err he hn hf hp =>
      rintro ⟨place, hplace⟩
      obtain ⟨flaw, rfl⟩ := Path.ofText_eq_error hp
      cases hplace
  | stop he hn hf hp hin hr ih => exact ih
  | follow he hn hf hp hin hw ihin ih => exact ih

theorem tooDeep_map_iff {α β : Type} {r : Except Error α} (f : α → β) :
    TooDeep (r.map f) ↔ TooDeep r := by
  unfold TooDeep
  cases r <;> simp [Except.map]

/-! ## Walks within the bound on aliases -/

/-- What a walk of a path comes to. -/
def walked (t : Tree) (origin : EntryId) (path : Path) (follow : Bool) : Outcome :=
  (t.walkFrom origin path follow).map (Option.map Spot.entry)

namespace WellFormed

variable {origin : EntryId} {path : Path} {follow : Bool} {hops : Nat} {r : Outcome}

theorem walked_or_tooDeep (h : t.WellFormed) (path : Path) (follow : Bool) (ho : origin < t.size) :
    (∃ hops, hops ≤ maxAliasDepth ∧ t.Means origin path follow hops (t.walked origin path follow)) ∨
    TooDeep (t.walked origin path follow) ∧
      ∀ hops r, t.Means origin path follow hops r → maxAliasDepth < hops := by
  rw [walked, tooDeep_map_iff]
  rcases h.settled_walk (maxAliasDepth + 1) path follow ho with ⟨hops, hlt, hm⟩ | ⟨hdeep, hall⟩
  · exact .inl ⟨hops, Nat.le_of_lt_succ hlt, hm⟩
  · exact .inr ⟨hdeep, hall⟩

theorem walked_eq_of_means (h : t.WellFormed) (ho : origin < t.size)
    (hm : t.Means origin path follow hops r) (hle : hops ≤ maxAliasDepth) :
    t.walked origin path follow = r := by
  rcases h.walked_or_tooDeep path follow ho with ⟨hops', -, hm'⟩ | ⟨-, hall⟩
  · exact (h.walks_unique (h.base_lt_size path ho) hm' hm).2
  · exact (Nat.not_lt_of_le hle (hall hops r hm)).elim

theorem tooDeep_walked_iff (h : t.WellFormed) (ho : origin < t.size) :
    TooDeep (t.walked origin path follow) ↔
      ∀ hops r, t.Means origin path follow hops r → maxAliasDepth < hops := by
  rcases h.walked_or_tooDeep path follow ho with ⟨hops, hle, hm⟩ | ⟨hdeep, hall⟩
  · refine ⟨fun hdeep => (not_tooDeep_of_walks hm hdeep).elim, fun hall => ?_⟩
    exact (Nat.not_lt_of_le hle (hall hops _ hm)).elim
  · exact ⟨fun _ => hall, fun _ => hdeep⟩

theorem exists_means_of_walked (h : t.WellFormed) (ho : origin < t.size) {found : Option EntryId}
    (hr : t.walked origin path follow = .ok found) :
    ∃ hops, hops ≤ maxAliasDepth ∧ t.Means origin path follow hops (.ok found) := by
  rcases h.walked_or_tooDeep path follow ho with ⟨hops, hle, hm⟩ | ⟨⟨place, hdeep⟩, -⟩
  · exact ⟨hops, hle, hr ▸ hm⟩
  · rw [hr] at hdeep
    cases hdeep

end WellFormed

end RegisterAtlas.Tree
