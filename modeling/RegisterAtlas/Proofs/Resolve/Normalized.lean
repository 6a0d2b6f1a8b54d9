import RegisterAtlas.Proofs.Resolve.AliasChains
import RegisterAtlas.Proofs.Resolve.Canonical

/-!
# Normalized paths

To normalize a path is to cancel steps to the parent against the names and items before them, going
by the elements alone. What is left is `Reduced`, so there is nothing to cancel in it once more.

In a tree the parent of a child or an item is the scope that lists it, so what has been cancelled
has led back to where it started. This needs that the elements are taken from one entry to the next,
as `Runs` says. An alias on the way leads elsewhere, and the parent there is not the scope of the
alias.
-/

namespace RegisterAtlas

/-! ## What is left of a path -/

namespace Path

/-- A stack of elements, last one first, in which every step to the parent has to stay: one at the
start of a relative path, and one behind another one or behind a bookmark. -/
inductive Reduced (isAbsolute : Bool) : List Element → Prop where
  | nil : Reduced isAbsolute []
  | other {stack : List Element} {e : Element} (h : Reduced isAbsolute stack) (he : e ≠ .parent) :
      Reduced isAbsolute (e :: stack)
  | first (h : isAbsolute = false) : Reduced isAbsolute [.parent]
  | again {stack : List Element} (h : Reduced isAbsolute (.parent :: stack)) :
      Reduced isAbsolute (.parent :: .parent :: stack)
  | above {stack : List Element} {name : String}
      (h : Reduced isAbsolute (.bookmark name :: stack)) :
      Reduced isAbsolute (.parent :: .bookmark name :: stack)

variable {isAbsolute : Bool} {stack : List Element} {e : Element}

theorem pushNormalized_of_ne_parent (isAbsolute : Bool) (stack : List Element)
    (he : e ≠ .parent) : pushNormalized isAbsolute stack e = e :: stack := by
  cases e with
  | parent => exact (he rfl).elim
  | _ =>
      cases stack with
      | nil => rfl
      | cons top stack => cases top <;> rfl

namespace Reduced

theorem push (h : Reduced isAbsolute stack) (e : Element) :
    Reduced isAbsolute (pushNormalized isAbsolute stack e) := by
  by_cases he : e = .parent
  · subst he
    cases h with
    | nil =>
        cases isAbsolute with
        | true => exact .nil
        | false => exact .first rfl
    | @other stack top h htop =>
        cases top with
        | name name => exact h
        | indexed name index => exact h
        | parent => exact (htop rfl).elim
        | bookmark name => exact .above (.other h htop)
    | first ha => exact .again (.first ha)
    | again h => exact .again (.again h)
    | above h => exact .again (.above h)
  · rw [pushNormalized_of_ne_parent isAbsolute stack he]
    exact .other h he

theorem foldl (es : List Element) (h : Reduced isAbsolute stack) :
    Reduced isAbsolute (es.foldl (pushNormalized isAbsolute) stack) := by
  induction es generalizing stack with
  | nil => exact h
  | cons e es ih => exact ih (h.push e)

theorem tail (h : Reduced isAbsolute (e :: stack)) : Reduced isAbsolute stack := by
  cases h with
  | other h he => exact h
  | first ha => exact .nil
  | again h => exact h
  | above h => exact h

theorem push_eq (h : Reduced isAbsolute (e :: stack)) :
    pushNormalized isAbsolute stack e = e :: stack := by
  cases h with
  | other h he => exact pushNormalized_of_ne_parent isAbsolute stack he
  | first ha => rw [ha]; rfl
  | again h => rfl
  | above h => rfl

/-- Pushing the elements of a reduced stack once more cancels none of them. -/
theorem foldl_reverse (h : Reduced isAbsolute stack) :
    stack.reverse.foldl (pushNormalized isAbsolute) [] = stack := by
  induction stack with
  | nil => rfl
  | cons e stack ih => rw [List.reverse_cons, List.foldl_concat, ih h.tail, h.push_eq]

end Reduced

theorem normalized_normalized (p : Path) : p.normalized.normalized = p.normalized := by
  have hreduced : Reduced p.isAbsolute (p.elements.foldl (pushNormalized p.isAbsolute) []) :=
    Reduced.nil.foldl p.elements
  rw [normalized, normalized, hreduced.foldl_reverse]

end Path

namespace Tree

variable {t : Tree} {origin id mid next d : EntryId} {es es' : List Element} {e : Element}

/-! ## Elements one after the other -/

/-- `t.Runs id es d`: taken one after the other from an entry, the elements lead to `d`. An alias
has no elements to be taken from it, so there is none on the way, though `d` may be one. -/
inductive Runs (t : Tree) : EntryId → List Element → EntryId → Prop where
  | nil {id : EntryId} : Runs t id [] id
  | cons {path : Path} {i : Nat} {id next d : EntryId} {e : Element} {es : List Element}
      (he : t.Takes path i id e (.ok (some next))) (h : Runs t next es d) : Runs t id (e :: es) d

theorem Runs.append (h : t.Runs id es mid) (h' : t.Runs mid es' d) : t.Runs id (es ++ es') d := by
  induction h with
  | nil => exact h'
  | cons he h ih => exact .cons he (ih h')

theorem Runs.exists_last (h : t.Runs id (es ++ [e]) d) :
    ∃ mid path i, t.Runs id es mid ∧ t.Takes path i mid e (.ok (some d)) := by
  induction es generalizing id with
  | nil =>
      cases h with
      | cons he h =>
          cases h
          exact ⟨id, _, _, .nil, he⟩
  | cons first es ih =>
      cases h with
      | cons he h =>
          obtain ⟨mid, path, i, hmid, hlast⟩ := ih h
          exact ⟨mid, path, i, .cons he hmid, hlast⟩

theorem Takes.alias?_eq_none {path : Path} {i : Nat} (h : t.Takes path i id e (.ok (some next))) :
    t.alias? id = none := by
  cases h with
  | parent hs => exact alias?_of_scope hs
  | bookmark hs ha => exact alias?_of_scope hs
  | child hs hc => exact alias?_of_scope hs
  | item hs hc ha hi => exact alias?_of_scope hs

theorem Runs.walks (path : Path) (i : Nat) (h : t.Runs id es d) :
    t.Walks path false i id es 0 (.ok (some d)) := by
  induction h generalizing i with
  | nil => exact .done
  | @cons _ _ _ next _ _ es he h ih =>
      have hnext : t.alias? next = none ∨ es = [] ∧ false = false := by
        cases h with
        | nil => exact .inr ⟨rfl, rfl⟩
        | cons hnext _ => exact .inl hnext.alias?_eq_none
      exact .step he.congr hnext (ih (i + 1))

/-- What comes to an entry either runs to it, or runs to an alias that it crosses. -/
theorem Walks.runs_or_crosses {path : Path} {i hops : Nat}
    (hw : t.Walks path false i id es hops (.ok (some d))) :
    t.Runs id es d ∨ ∃ n a target, 0 < n ∧ n < es.length ∧ t.Runs id (es.take n) a ∧
      t.alias? a = some target := by
  generalize hr : (Except.ok (some d) : Outcome) = r at hw
  generalize hfollow : false = follow at hw
  induction hw with
  | done =>
      cases hr
      exact .inl .nil
  | halt he hstop => exact (hstop d hr.symm).elim
  | step he hn hw ih =>
      rcases ih hr hfollow with hrun | ⟨n, a, target, hpos, hlt, hrun, ha⟩
      · exact .inl (.cons he hrun)
      · exact .inr ⟨n + 1, a, target, Nat.succ_pos n, Nat.succ_lt_succ hlt, .cons he hrun, ha⟩
  | malformed he hn hf hp => cases hr
  | stop he hn hf hp hin hstop => exact (hstop d hr.symm).elim
  | @follow _ _ _ _ _ next _ _ rest target _ _ _ he hn hf hp hin hw =>
      have hrest : rest ≠ [] := fun hrest => hf ⟨hrest, hfollow.symm⟩
      have hlt : 1 < rest.length + 1 := Nat.succ_lt_succ (List.length_pos_iff.2 hrest)
      exact .inr ⟨1, next, target, Nat.one_pos, hlt, .cons he .nil, hn⟩

/-! ## Cancelling -/

/-- The parent of what a name or an index has led to is where it was taken. -/
theorem WellFormed.parent_of_takes (hw : t.WellFormed) {path : Path} {i : Nat}
    (he : t.Takes path i id e (.ok (some next))) (hparent : e ≠ .parent)
    (hbookmark : ∀ name, e ≠ .bookmark name) : t.parent next = id := by
  cases he with
  | parent hs => exact (hparent rfl).elim
  | bookmark hs ha => exact (hbookmark _ rfl).elim
  | child hs hc => exact Lists.parent_eq hw (.child hs hc)
  | item hs hc ha hi =>
      obtain ⟨n, hn⟩ := Items.exists_getElem?_of_item? (Items.at_iff.1 hi)
      exact Lists.parent_eq hw (.item hs hc ha hn)

/-- Pushing an element onto a stack that leads somewhere is taking it from there. At the root a step
to the parent leads nowhere else. -/
theorem Runs.push (hw : t.WellFormed) {isAbsolute : Bool} {stack : List Element}
    (horigin : isAbsolute = true → origin = root) (h : t.Runs origin stack.reverse id)
    {path : Path} {i : Nat} (he : t.Takes path i id e (.ok (some next))) :
    t.Runs origin (Path.pushNormalized isAbsolute stack e).reverse next := by
  have hkept : t.Runs origin (e :: stack).reverse next := by
    rw [List.reverse_cons]
    exact h.append (.cons he .nil)
  by_cases hparent : e = .parent
  · subst hparent
    obtain rfl : t.parent id = next := by cases he; rfl
    cases stack with
    | nil =>
        cases isAbsolute with
        | true =>
            obtain rfl := horigin rfl
            cases h
            rw [hw.root_parent]
            exact .nil
        | false => exact hkept
    | cons top stack =>
        -- Names and items are cancelled, so the last entry but one is where the step leads.
        rw [List.reverse_cons] at h
        obtain ⟨mid, path', i', hmid, htop⟩ := h.exists_last
        cases top with
        | name name =>
            rw [hw.parent_of_takes htop (by rintro ⟨⟩) (by rintro _ ⟨⟩)]
            exact hmid
        | indexed name index =>
            rw [hw.parent_of_takes htop (by rintro ⟨⟩) (by rintro _ ⟨⟩)]
            exact hmid
        | parent => exact hkept
        | bookmark name => exact hkept
  · rw [Path.pushNormalized_of_ne_parent isAbsolute stack hparent]
    exact hkept

theorem Runs.foldl (hw : t.WellFormed) {isAbsolute : Bool} {stack : List Element}
    (horigin : isAbsolute = true → origin = root) (h : t.Runs origin stack.reverse id)
    (hrun : t.Runs id es d) :
    t.Runs origin (es.foldl (Path.pushNormalized isAbsolute) stack).reverse d := by
  induction hrun generalizing stack with
  | nil => exact h
  | cons he hrun ih => exact ih (h.push hw horigin he)

theorem Runs.normalized (hw : t.WellFormed) {path : Path}
    (h : t.Runs (base path origin) path.elements d) :
    t.Runs (base path.normalized origin) path.normalized.elements d := by
  have horigin : path.isAbsolute = true → base path origin = root := by
    intro ha
    rw [base, if_pos ha]
  have hstart : t.Runs (base path origin) ([] : List Element).reverse (base path origin) := .nil
  exact hstart.foldl hw horigin h

/-! ## Resolving -/

theorem WellFormed.resolve_of_runs (hw : t.WellFormed) (ho : origin < t.size) {path : Path}
    (h : t.Runs (base path origin) path.elements d) : t.resolve origin path = .ok (some d) := by
  have hmeans : t.Means origin path false 0 (.ok (some d)) := h.walks path 0
  exact hw.walked_eq_of_means ho hmeans (Nat.zero_le _)

/-- A path that crosses no alias runs to what it is resolved to. -/
theorem WellFormed.runs_of_resolve (hw : t.WellFormed) (ho : origin < t.size) {path : Path}
    (hplain : ∀ n a, 0 < n → n < path.elements.length →
      t.resolve origin (path.take n) = .ok (some a) → t.alias? a = none)
    (hd : t.resolve origin path = .ok (some d)) : t.Runs (base path origin) path.elements d := by
  obtain ⟨hops, -, hmeans⟩ := hw.exists_means_of_walked ho hd
  rcases hmeans.runs_or_crosses with hrun | ⟨n, a, target, hpos, hlt, hrun, ha⟩
  · exact hrun
  · have hprefix : t.resolve origin (path.take n) = .ok (some a) := hw.resolve_of_runs ho hrun
    rw [hplain n a hpos hlt hprefix] at ha
    cases ha

/-- Normalizing twice is normalizing once. A path that is resolved to an entry is resolved to the
same entry when it is normalized, as long as no alias is crossed, that is, no beginning of the path
is resolved to one. -/
theorem resolve_normalized :
    (∀ p : Path, p.normalized.normalized = p.normalized) ∧
    ∀ {t : Tree}, Reachable t → ∀ {origin : EntryId}, origin < t.size →
      ∀ (path : Path) {d : EntryId},
      (∀ n a, 0 < n → n < path.elements.length →
        t.resolve origin (path.take n) = .ok (some a) → t.alias? a = none) →
      t.resolve origin path = .ok (some d) → t.resolve origin path.normalized = .ok (some d) := by
  refine ⟨Path.normalized_normalized, ?_⟩
  intro t h origin ho path d hplain hd
  have hw := h.wellFormed
  have hrun := hw.runs_of_resolve ho hplain hd
  exact hw.resolve_of_runs ho (hrun.normalized hw)

/-- A path for items of `bus` in `busTree`, which goes down and up again. -/
def busDetour : Path :=
  ⟨false, [.bookmark "top", .indexed "bus" (.fromEnd 1), .parent, .name "dev", .parent,
    .indexed "bus" (.pos 0), .name "up"]⟩

/-- The steps to the parent behind an item and behind a name are cancelled. The alias at the end is
not crossed. -/
theorem resolve_normalized_busTree :
    Reachable busTree ∧ 4 < busTree.size ∧
      (∀ n a, 0 < n → n < busDetour.elements.length →
        busTree.resolve 4 (busDetour.take n) = .ok (some a) → busTree.alias? a = none) ∧
      busTree.resolve 4 busDetour = .ok (some 5) ∧ busTree.alias? 5 = some "$top/dev" ∧
      busDetour.normalized = ⟨false, [.bookmark "top", .indexed "bus" (.pos 0), .name "up"]⟩ ∧
      busTree.resolve 4 busDetour.normalized = .ok (some 5) := by
  have hr : Reachable busTree := .pass .empty _
  have hlt : 4 < busTree.size := by decide +kernel
  have hd : busTree.resolve 4 busDetour = .ok (some 5) := by decide +kernel
  have hplain : ∀ n a, 0 < n → n < busDetour.elements.length →
      busTree.resolve 4 (busDetour.take n) = .ok (some a) → busTree.alias? a = none := by
    have hscopes : ∀ n < busDetour.elements.length, 0 < n →
        busTree.resolve 4 (busDetour.take n) ∈ [.ok (some 1), .ok (some 2), .ok (some 4)] := by
      decide +kernel
    have hnone : ∀ a ∈ [1, 2, 4], busTree.alias? a = none := by decide +kernel
    intro n a hpos hn ha
    have hscope := hscopes n hn hpos
    rw [ha] at hscope
    apply hnone
    simpa using hscope
  obtain ⟨-, hresolve⟩ := resolve_normalized
  exact ⟨hr, hlt, hplain, hd, by decide +kernel, by decide +kernel,
    hresolve hr hlt busDetour hplain hd⟩

end Tree

end RegisterAtlas
