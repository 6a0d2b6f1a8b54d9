import RegisterAtlas.Proofs.Tree.Ancestors
import RegisterAtlas.Tree.Resolve

/-!
# The meaning of a path

`Takes` says what one element of a path leads to, and `Walks` what a path leads to when every
alias on the way stands for what its target leads to. `Walks` knows no bound on aliases; it counts
how many aliases are nested in each other. A path that leads into a cycle of aliases has no
meaning, as its walk never ends.

`takes_iff` says that one step of the function that walks a path takes an element as it is meant,
and `walks_unique` that a path has no more than one meaning.
-/

namespace RegisterAtlas

/-- The item that an index means, the last item being the first from the end. -/
inductive Items.At (items : Items) : Index → EntryId → Prop where
  | pos {n : Nat} {id : EntryId} (h : items.ids[n]? = some id) : At items (.pos n) id
  | fromEnd {n : Nat} {id : EntryId} (h : items.ids.reverse[n]? = some id) :
      At items (.fromEnd (n + 1)) id

theorem Items.at_iff {items : Items} {index : Index} {id : EntryId} :
    items.At index id ↔ items.item? index = some id := by
  constructor
  · rintro (h | @⟨n, _, h⟩)
    · exact h
    · have hn : n < items.ids.reverse.length := (List.getElem?_eq_some_iff.1 h).1
      rw [List.length_reverse] at hn
      rw [List.getElem?_reverse hn] at h
      have hlt : 0 < n + 1 ∧ n + 1 ≤ items.ids.length := ⟨Nat.succ_pos n, hn⟩
      rw [item?, if_pos hlt, ← h]
      congr 1
      omega
  · intro h
    cases index with
    | append => cases h
    | pos n => exact .pos h
    | fromEnd n =>
        rw [item?] at h
        split at h
        · next hn =>
            obtain ⟨n, rfl⟩ := Nat.exists_eq_succ_of_ne_zero (Nat.ne_of_gt hn.1)
            refine .fromEnd ?_
            rw [List.getElem?_reverse hn.2, ← h]
            congr 1
            omega
        · cases h

namespace Tree

/-- What a path comes to: an entry, nothing, or an error. -/
abbrev Outcome := Except Error (Option EntryId)

/-! ## The meaning of one element -/

def Marks (t : Tree) (name : String) (id : EntryId) : Prop :=
  ∃ s, t.entry id = .scope s ∧ name ∈ s.bookmarks

/-- The nearest scope with a bookmark at or above an entry. -/
inductive Bookmarked (t : Tree) (name : String) : EntryId → EntryId → Prop where
  | here {id : EntryId} (h : t.Marks name id) : Bookmarked t name id id
  | above {id a : EntryId} (h : ¬ t.Marks name id) (hr : id ≠ root)
      (ha : Bookmarked t name (t.parent id) a) : Bookmarked t name id a

/-- What element `i` of a path leads to from an entry. An error shows the path up to where it
arose. -/
inductive Takes (t : Tree) (path : Path) (i : Nat) (id : EntryId) : Element → Outcome → Prop where
  | leaf {e : Element} (h : ∀ s, t.entry id ≠ .scope s) :
      Takes t path i id e (.error (.conversion (path.take i).text .leafInPath))
  | parent {s : Scope} (h : t.entry id = .scope s) :
      Takes t path i id .parent (.ok (some (t.parent id)))
  | bookmark {s : Scope} {name : String} {a : EntryId} (h : t.entry id = .scope s)
      (ha : t.Bookmarked name id a) : Takes t path i id (.bookmark name) (.ok (some a))
  | noBookmark {s : Scope} {name : String} (h : t.entry id = .scope s)
      (ha : ∀ a, ¬ t.Bookmarked name id a) : Takes t path i id (.bookmark name) (.ok none)
  | child {s : Scope} {name : String} {child : EntryId} (h : t.entry id = .scope s)
      (hc : s.children.get? name = some child) : Takes t path i id (.name name) (.ok (some child))
  | noChild {s : Scope} {name : String} (h : t.entry id = .scope s)
      (hc : s.children.get? name = none) : Takes t path i id (.name name) (.ok none)
  | item {s : Scope} {name : String} {index : Index} {array item : EntryId} {items : Items}
      (h : t.entry id = .scope s) (hc : s.children.get? name = some array)
      (ha : t.entry array = .array items) (hi : items.At index item) :
      Takes t path i id (.indexed name index) (.ok (some item))
  | noItem {s : Scope} {name : String} {index : Index} {array : EntryId} {items : Items}
      (h : t.entry id = .scope s) (hc : s.children.get? name = some array)
      (ha : t.entry array = .array items) (hi : ∀ item, ¬ items.At index item) :
      Takes t path i id (.indexed name index) (.ok none)
  | noArray {s : Scope} {name : String} {index : Index} (h : t.entry id = .scope s)
      (hc : s.children.get? name = none) : Takes t path i id (.indexed name index) (.ok none)
  | notArray {s : Scope} {name : String} {index : Index} {child : EntryId}
      (h : t.entry id = .scope s) (hc : s.children.get? name = some child)
      (ha : ∀ items, t.entry child ≠ .array items) :
      Takes t path i id (.indexed name index)
        (.error (.conversion (path.take (i + 1)).text (.indexed name (t.kind child))))

variable {t : Tree}

theorem marks_iff {name : String} {id : EntryId} :
    (t.scope? id).any (name ∈ ·.bookmarks) = true ↔ t.Marks name id := by
  unfold Marks scope?
  cases t.entry id <;> simp

theorem map_snd_bookmarked? (t : Tree) (id : EntryId) (name : String) :
    (t.bookmarked? id name).map Prod.snd =
      (t.ancestors id).find? fun id => (t.scope? id).any (name ∈ ·.bookmarks) := by
  simp only [bookmarked?, List.find?_eq_bind_findIdx?_getElem?, Option.map_bind,
    Function.comp_def, Option.map_map, Option.map_id']

namespace WellFormed

theorem bookmarked_iff (h : t.WellFormed) {name : String} {id a : EntryId} (hid : id < t.size) :
    t.Bookmarked name id a ↔ (t.bookmarked? id name).map Prod.snd = some a := by
  rw [map_snd_bookmarked?]
  refine h.induction_above (motive := fun id => t.Bookmarked name id a ↔
    ((t.ancestors id).find? fun id => (t.scope? id).any (name ∈ ·.bookmarks)) = some a) ?_ ?_ hid
  · rw [ancestors_root, List.find?_singleton]
    constructor
    · rintro (hm | ⟨-, hr, -⟩)
      · rw [if_pos (marks_iff.2 hm)]
      · exact (hr rfl).elim
    · intro ha
      split at ha <;> cases ha
      exact .here (marks_iff.1 ‹_›)
  · intro id hid hr ih
    rw [h.ancestors_of_ne_root hid hr, List.find?_cons]
    by_cases hm : t.Marks name id
    · rw [marks_iff.2 hm]
      constructor
      · rintro (- | ⟨hn, -, -⟩)
        · rfl
        · exact (hn hm).elim
      · rintro ⟨⟩
        exact .here hm
    · rw [Bool.eq_false_iff.2 (mt marks_iff.1 hm)]
      refine Iff.trans ⟨?_, fun ha => .above hm hr ha⟩ ih
      rintro (hm' | ⟨-, -, ha⟩)
      · exact (hm hm').elim
      · exact ha

end WellFormed

/-- Every element leads somewhere, if only to an error. -/
theorem exists_takes (t : Tree) (path : Path) (i : Nat) (id : EntryId) (e : Element) :
    ∃ r, t.Takes path i id e r := by
  by_cases hs : ∃ s, t.entry id = .scope s
  · obtain ⟨s, hs⟩ := hs
    cases e with
    | parent => exact ⟨_, .parent hs⟩
    | bookmark name =>
        by_cases hb : ∃ a, t.Bookmarked name id a
        · exact ⟨_, .bookmark hs hb.choose_spec⟩
        · exact ⟨_, .noBookmark hs fun a ha => hb ⟨a, ha⟩⟩
    | name name =>
        cases hc : s.children.get? name with
        | none => exact ⟨_, .noChild hs hc⟩
        | some child => exact ⟨_, .child hs hc⟩
    | indexed name index =>
        cases hc : s.children.get? name with
        | none => exact ⟨_, .noArray hs hc⟩
        | some child =>
            by_cases ha : ∃ items, t.entry child = .array items
            · obtain ⟨items, ha⟩ := ha
              by_cases hi : ∃ item, items.At index item
              · exact ⟨_, .item hs hc ha hi.choose_spec⟩
              · exact ⟨_, .noItem hs hc ha fun item h => hi ⟨item, h⟩⟩
            · exact ⟨_, .notArray hs hc fun items h => ha ⟨items, h⟩⟩
  · exact ⟨_, .leaf fun s h => hs ⟨s, h⟩⟩

namespace WellFormed

/-- A step of a walk takes an element as it is meant. -/
theorem takeStep_of_takes (h : t.WellFormed) {path : Path} {i : Nat} {spot : Spot} {e : Element}
    {r : Outcome} (hid : spot.entry < t.size) (hr : t.Takes path i spot.entry e r) :
    (t.takeStep path i spot e).map (Option.map Spot.entry) = r := by
  unfold takeStep
  cases hr with
  | leaf hs => rw [scope?_eq_none hs]; rfl
  | parent hs => rw [scope?_of_entry hs]; rfl
  | bookmark hs ha =>
      rw [scope?_of_entry hs]
      have hfound := (h.bookmarked_iff hid).1 ha
      cases hb : t.bookmarked? spot.entry _ with
      | none => rw [hb] at hfound; cases hfound
      | some found =>
          rw [hb] at hfound
          cases hfound
          simp only [hb]
          rfl
  | @noBookmark s name hs ha =>
      rw [scope?_of_entry hs]
      cases hb : t.bookmarked? spot.entry name with
      | none => simp only [hb]; rfl
      | some found => exact (ha found.2 ((h.bookmarked_iff hid).2 (by rw [hb]; rfl))).elim
  | child hs hc => rw [scope?_of_entry hs]; simp only [hc]; rfl
  | noChild hs hc => rw [scope?_of_entry hs]; simp only [hc]; rfl
  | @item s name index array item items hs hc ha hi =>
      rw [scope?_of_entry hs]
      simp only [hc, ha, Items.at_iff.1 hi, Option.map_some, Except.map]
      cases items.position? item <;> rfl
  | @noItem s name index array items hs hc ha hi =>
      rw [scope?_of_entry hs]
      cases hitem : items.item? index with
      | none => simp only [hc, ha, hitem]; rfl
      | some item => exact (hi item (Items.at_iff.2 hitem)).elim
  | noArray hs hc => rw [scope?_of_entry hs]; simp only [hc]; rfl
  | @notArray s name index child hs hc ha =>
      rw [scope?_of_entry hs]
      simp only [hc, kind]
      cases he : t.entry child with
      | array items => exact (ha items he).elim
      | _ => rfl

/-- An element leads to one outcome only, and that is what a walk takes it to. -/
theorem takes_iff (h : t.WellFormed) {path : Path} {i : Nat} (spot : Spot) {e : Element}
    {r : Outcome} (hid : spot.entry < t.size) :
    t.Takes path i spot.entry e r ↔ (t.takeStep path i spot e).map (Option.map Spot.entry) = r := by
  refine ⟨h.takeStep_of_takes hid, ?_⟩
  rintro rfl
  obtain ⟨r, hr⟩ := exists_takes t path i spot.entry e
  rw [h.takeStep_of_takes hid hr]
  exact hr

end WellFormed

/-! ## The meaning of a path -/

/-- The entry from which the elements of a path are taken. -/
def base (path : Path) (origin : EntryId) : EntryId := if path.isAbsolute then root else origin

/-- `t.Walks path follow i id rest hops r`: from an entry, the elements of a path from number `i`
on come to `r`, and `hops` is how many aliases are nested in each other on the way. An alias is
replaced by what its target comes to, followed from the scope in which the alias lies; one at the
end of the path is so only on request. A target that is no path is an error of its own. -/
inductive Walks (t : Tree) :
    Path → Bool → Nat → EntryId → List Element → Nat → Outcome → Prop where
  | done {path : Path} {follow : Bool} {i : Nat} {id : EntryId} :
      Walks t path follow i id [] 0 (.ok (some id))
  | halt {path : Path} {follow : Bool} {i : Nat} {id : EntryId} {e : Element} {rest : List Element}
      {r : Outcome} (he : t.Takes path i id e r) (hr : ∀ next, r ≠ .ok (some next)) :
      Walks t path follow i id (e :: rest) 0 r
  | step {path : Path} {follow : Bool} {i : Nat} {id next : EntryId} {e : Element}
      {rest : List Element} {hops : Nat} {r : Outcome} (he : t.Takes path i id e (.ok (some next)))
      (hn : t.alias? next = none ∨ rest = [] ∧ follow = false)
      (hw : Walks t path follow (i + 1) next rest hops r) :
      Walks t path follow i id (e :: rest) hops r
  | malformed {path : Path} {follow : Bool} {i : Nat} {id next : EntryId} {e : Element}
      {rest : List Element} {target : String} {err : Error}
      (he : t.Takes path i id e (.ok (some next))) (hn : t.alias? next = some target)
      (hf : ¬ (rest = [] ∧ follow = false)) (hp : Path.ofText target = .error err) :
      Walks t path follow i id (e :: rest) 0 (.error err)
  | stop {path inner : Path} {follow : Bool} {i : Nat} {id next : EntryId} {e : Element}
      {rest : List Element} {target : String} {hops : Nat} {r : Outcome}
      (he : t.Takes path i id e (.ok (some next))) (hn : t.alias? next = some target)
      (hf : ¬ (rest = [] ∧ follow = false)) (hp : Path.ofText target = .ok inner)
      (hin : Walks t inner true 0 (base inner (t.parent next)) inner.elements hops r)
      (hr : ∀ found, r ≠ .ok (some found)) : Walks t path follow i id (e :: rest) (hops + 1) r
  | follow {path inner : Path} {follow : Bool} {i : Nat} {id next found : EntryId} {e : Element}
      {rest : List Element} {target : String} {hops hops' : Nat} {r : Outcome}
      (he : t.Takes path i id e (.ok (some next))) (hn : t.alias? next = some target)
      (hf : ¬ (rest = [] ∧ follow = false)) (hp : Path.ofText target = .ok inner)
      (hin : Walks t inner true 0 (base inner (t.parent next)) inner.elements hops
        (.ok (some found)))
      (hw : Walks t path follow (i + 1) found rest hops' r) :
      Walks t path follow i id (e :: rest) (max (hops + 1) hops') r

/-- What a path comes to from an entry, and how many aliases are nested in each other on the way. -/
def Means (t : Tree) (origin : EntryId) (path : Path) (follow : Bool) (hops : Nat) (r : Outcome) :
    Prop := t.Walks path follow 0 (base path origin) path.elements hops r

namespace WellFormed

theorem takes_unique (h : t.WellFormed) {path : Path} {i : Nat} {id : EntryId} {e : Element}
    {r r' : Outcome} (hid : id < t.size) (hr : t.Takes path i id e r)
    (hr' : t.Takes path i id e r') : r = r' := by
  rw [h.takes_iff ⟨id, []⟩ hid] at hr hr'
  exact hr.symm.trans hr'

theorem bookmarked_lt_size (h : t.WellFormed) {name : String} {id a : EntryId} (hid : id < t.size)
    (ha : t.Bookmarked name id a) : a < t.size := by
  induction ha with
  | here hm => exact hid
  | above hm hr ha ih => exact ih (h.parent_lt_size hid)

theorem takes_lt_size (h : t.WellFormed) {path : Path} {i : Nat} {id next : EntryId} {e : Element}
    (hid : id < t.size) (he : t.Takes path i id e (.ok (some next))) : next < t.size := by
  cases he with
  | parent hs => exact h.parent_lt_size hid
  | bookmark hs ha => exact h.bookmarked_lt_size hid ha
  | child hs hc =>
      refine (h.member id next ?_).1
      rw [hs]
      exact Table.mem_values_of_get? hc
  | @item s name index array _ items hs hc ha hi =>
      refine (h.member array next ?_).1
      rw [ha]
      cases hi with
      | pos hi => exact List.mem_of_getElem? hi
      | fromEnd hi => exact List.mem_reverse.1 (List.mem_of_getElem? hi)

theorem base_lt_size (h : t.WellFormed) {origin : EntryId} (path : Path) (ho : origin < t.size) :
    base path origin < t.size := by
  unfold base
  split
  · exact h.root_lt
  · exact ho

theorem walks_lt_size (h : t.WellFormed) {path : Path} {follow : Bool} {i : Nat}
    {id found : EntryId} {es : List Element} {hops : Nat} (hid : id < t.size)
    (hw : t.Walks path follow i id es hops (.ok (some found))) : found < t.size := by
  generalize hr : (Except.ok (some found) : Outcome) = r at hw
  induction hw generalizing found with
  | done => cases hr; exact hid
  | halt he hstop => exact (hstop found hr.symm).elim
  | step he hn hw ih => exact ih (h.takes_lt_size hid he) hr
  | malformed he hn hf hp => cases hr
  | stop he hn hf hp hin hstop ih => exact (hstop found hr.symm).elim
  | follow he hn hf hp hin hw ihin ih =>
      have hnext := h.parent_lt_size (h.takes_lt_size hid he)
      exact ih (ihin (h.base_lt_size _ hnext) rfl) hr

/-- An alias is either left as it is or followed. -/
theorem not_followed {next : EntryId} {follow : Bool} {rest : List Element} {target : String}
    (hn : t.alias? next = some target) (hf : ¬ (rest = [] ∧ follow = false))
    (hn' : t.alias? next = none ∨ rest = [] ∧ follow = false) : False := by
  rcases hn' with hn' | hl
  · rw [hn] at hn'
    cases hn'
  · exact hf hl

end WellFormed

/-! ### The meaning of a path by what its first element leads to -/

section

variable {path inner : Path} {follow : Bool} {i : Nat} {id next : EntryId} {e : Element}
  {rest : List Element} {target : String} {err : Error} {hops : Nat} {r stopped : Outcome}

theorem WellFormed.walks_halt_iff (h : t.WellFormed) (hid : id < t.size)
    (he : t.Takes path i id e stopped) (hr : ∀ next, stopped ≠ .ok (some next)) :
    t.Walks path follow i id (e :: rest) hops r ↔ hops = 0 ∧ r = stopped := by
  constructor
  · intro hw
    cases hw with
    | halt he' hr' => exact ⟨rfl, h.takes_unique hid he' he⟩
    | step he' | malformed he' | stop he' | follow he' =>
        exact (hr _ (h.takes_unique hid he he')).elim
  · rintro ⟨rfl, rfl⟩
    exact .halt he hr

theorem WellFormed.walks_step_iff (h : t.WellFormed) (hid : id < t.size)
    (he : t.Takes path i id e (.ok (some next)))
    (hn : t.alias? next = none ∨ rest = [] ∧ follow = false) :
    t.Walks path follow i id (e :: rest) hops r ↔ t.Walks path follow (i + 1) next rest hops r := by
  refine ⟨fun hw => ?_, .step he hn⟩
  cases hw with
  | halt he' hr' => exact (hr' _ (h.takes_unique hid he' he)).elim
  | step he' hn' hw' =>
      cases h.takes_unique hid he he'
      exact hw'
  | malformed he' hn' hf' | stop he' hn' hf' | follow he' hn' hf' =>
      cases h.takes_unique hid he he'
      exact (not_followed hn' hf' hn).elim

theorem WellFormed.walks_malformed_iff (h : t.WellFormed) (hid : id < t.size)
    (he : t.Takes path i id e (.ok (some next))) (hn : t.alias? next = some target)
    (hf : ¬ (rest = [] ∧ follow = false)) (hp : Path.ofText target = .error err) :
    t.Walks path follow i id (e :: rest) hops r ↔ hops = 0 ∧ r = .error err := by
  constructor
  · intro hw
    cases hw with
    | halt he' hr' => exact (hr' _ (h.takes_unique hid he' he)).elim
    | step he' hn' hw' =>
        cases h.takes_unique hid he he'
        exact (not_followed hn hf hn').elim
    | malformed he' hn' hf' hp' =>
        cases h.takes_unique hid he he'
        cases hn.symm.trans hn'
        cases hp.symm.trans hp'
        exact ⟨rfl, rfl⟩
    | stop he' hn' hf' hp' | follow he' hn' hf' hp' =>
        cases h.takes_unique hid he he'
        cases hn.symm.trans hn'
        cases hp.symm.trans hp'
  · rintro ⟨rfl, rfl⟩
    exact .malformed he hn hf hp

theorem WellFormed.walks_alias_iff (h : t.WellFormed) (hid : id < t.size)
    (he : t.Takes path i id e (.ok (some next))) (hn : t.alias? next = some target)
    (hf : ¬ (rest = [] ∧ follow = false)) (hp : Path.ofText target = .ok inner) :
    t.Walks path follow i id (e :: rest) hops r ↔
      (∃ n, t.Means (t.parent next) inner true n r ∧ (∀ found, r ≠ .ok (some found)) ∧
        hops = n + 1) ∨
      (∃ n n' found, t.Means (t.parent next) inner true n (.ok (some found)) ∧
        t.Walks path follow (i + 1) found rest n' r ∧ hops = max (n + 1) n') := by
  constructor
  · intro hw
    cases hw with
    | halt he' hr' => exact (hr' _ (h.takes_unique hid he' he)).elim
    | step he' hn' hw' =>
        cases h.takes_unique hid he he'
        exact (not_followed hn hf hn').elim
    | malformed he' hn' hf' hp' =>
        cases h.takes_unique hid he he'
        cases hn.symm.trans hn'
        cases hp.symm.trans hp'
    | stop he' hn' hf' hp' hin' hr' =>
        cases h.takes_unique hid he he'
        cases hn.symm.trans hn'
        cases hp.symm.trans hp'
        exact .inl ⟨_, hin', hr', rfl⟩
    | follow he' hn' hf' hp' hin' hw' =>
        cases h.takes_unique hid he he'
        cases hn.symm.trans hn'
        cases hp.symm.trans hp'
        exact .inr ⟨_, _, _, hin', hw', rfl⟩
  · rintro (⟨n, hin, hr, rfl⟩ | ⟨n, n', found, hin, hw, rfl⟩)
    · exact .stop he hn hf hp hin hr
    · exact .follow he hn hf hp hin hw

end

namespace WellFormed

/-- A path means one thing, with one number of nested aliases. -/
theorem walks_unique (h : t.WellFormed) {path : Path} {follow : Bool} {i : Nat} {id : EntryId}
    {es : List Element} {hops : Nat} {r : Outcome} (hid : id < t.size)
    (hw : t.Walks path follow i id es hops r) : ∀ {hops' : Nat} {r' : Outcome},
    t.Walks path follow i id es hops' r' → hops = hops' ∧ r = r' := by
  induction hw with
  | done =>
      rintro _ _ ⟨⟩
      exact ⟨rfl, rfl⟩
  | halt he hr =>
      intro hops' r' hw'
      obtain ⟨rfl, rfl⟩ := (h.walks_halt_iff hid he hr).1 hw'
      exact ⟨rfl, rfl⟩
  | step he hn hw ih =>
      intro hops' r' hw'
      exact ih (h.takes_lt_size hid he) ((h.walks_step_iff hid he hn).1 hw')
  | malformed he hn hf hp =>
      intro hops' r' hw'
      obtain ⟨rfl, rfl⟩ := (h.walks_malformed_iff hid he hn hf hp).1 hw'
      exact ⟨rfl, rfl⟩
  | @stop _ inner _ _ _ _ _ _ _ _ _ he hn hf hp hin hr ih =>
      intro hops' r' hw'
      have hnext := h.base_lt_size inner (h.parent_lt_size (h.takes_lt_size hid he))
      rcases (h.walks_alias_iff hid he hn hf hp).1 hw' with
        ⟨n, hin', -, rfl⟩ | ⟨n, n', found, hin', -⟩
      · obtain ⟨rfl, rfl⟩ := ih hnext hin'
        exact ⟨rfl, rfl⟩
      · exact (hr found (ih hnext hin').2).elim
  | @follow _ inner _ _ _ _ _ _ _ _ _ _ _ he hn hf hp hin hw ihin ih =>
      intro hops' r' hw'
      have hnext := h.base_lt_size inner (h.parent_lt_size (h.takes_lt_size hid he))
      rcases (h.walks_alias_iff hid he hn hf hp).1 hw' with
        ⟨n, hin', hr, -⟩ | ⟨n, n', found, hin', hw', rfl⟩
      · exact (hr _ (ihin hnext hin').2.symm).elim
      · obtain ⟨rfl, hfound⟩ := ihin hnext hin'
        cases hfound
        obtain ⟨rfl, rfl⟩ := ih (h.walks_lt_size hnext hin) hw'
        exact ⟨rfl, rfl⟩

end WellFormed

end Tree

end RegisterAtlas
