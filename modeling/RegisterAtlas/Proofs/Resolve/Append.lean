import RegisterAtlas.Proofs.Resolve.Meaning
import RegisterAtlas.Proofs.Tree.Reachable

/-!
# Paths behind paths

To resolve a path with another one behind it is to resolve the first one, any alias at its end
followed, and then the second one from the entry found. The bound on nested aliases does not come
in, as each alias on a path has all of it.

The only trace of the division is in the wording of errors: where a path is shown as far as it had
been taken, a part of the second path is shown behind the whole first one.
-/

namespace RegisterAtlas

namespace Path

def append (p q : Path) : Path := { p with elements := p.elements ++ q.elements }

instance : Append Path := ⟨append⟩

@[simp] theorem append_isAbsolute (p q : Path) : (p ++ q).isAbsolute = p.isAbsolute := rfl

@[simp] theorem append_elements (p q : Path) :
    (p ++ q).elements = p.elements ++ q.elements := rfl

theorem take_append_of_le {p : Path} (q : Path) {n : Nat} (h : n ≤ p.elements.length) :
    (p ++ q).take n = p.take n := by
  rw [take, take, append_elements, List.take_append_of_le_length h]
  rfl

end Path

namespace Tree

/-! ## The first part of a path -/

section

variable {t : Tree} {p q : Path} {enter : EntryId → String → Except Error (Option Spot)}
  {follow : Bool}

theorem takeStep_append {i : Nat} (hi : i < p.elements.length) (spot : Spot) (e : Element) :
    t.takeStep (p ++ q) i spot e = t.takeStep p i spot e := by
  rw [takeStep, takeStep, Path.take_append_of_le q (Nat.le_of_lt hi), Path.take_append_of_le q hi]

/-- With elements left behind it no element is the last one, so every alias is followed. -/
theorem walkElements_append {rest : List Element} (hrest : rest ≠ []) {es : List Element} :
    ∀ {i : Nat} (spot : Spot), i + es.length ≤ p.elements.length →
      t.walkElements (p ++ q) enter follow i spot (es ++ rest) =
        (do match ← t.walkElements p enter true i spot es with
            | none => pure none
            | some found => t.walkElements (p ++ q) enter follow (i + es.length) found rest) := by
  induction es with
  | nil => exact fun _ _ => rfl
  | cons e es ih =>
      intro i spot hlen
      rw [List.length_cons, ← Nat.add_assoc, Nat.add_right_comm] at hlen
      have hi : i < p.elements.length := Nat.lt_of_lt_of_le (by omega) hlen
      have hlast : ¬ (es ++ rest = [] ∧ (!follow) = true) := fun h =>
        hrest (List.append_eq_nil_iff.1 h.1).2
      have hfollow : ¬ (es = [] ∧ (!true) = true) := fun h => by cases h.2
      rw [List.cons_append, walkElements, walkElements, takeStep_append hi, List.length_cons,
        ← Nat.add_assoc, Nat.add_right_comm]
      cases t.takeStep p i spot e with
      | error err => rfl
      | ok next =>
      cases next with
      | none => rfl
      | some next =>
      simp only [bind, Except.bind]
      cases t.alias? next.entry with
      | none => exact ih next hlen
      | some target =>
      simp only [if_neg hlast, if_neg hfollow]
      cases enter (t.parent next.entry) target with
      | error err => rfl
      | ok found =>
      cases found with
      | none => rfl
      | some found => exact ih (next.follow found) hlen

end

/-! ## The second part of a path -/

/-- Two results of the second path: on its own, and behind the first one. An error that shows how
far the second path had been taken shows all of the first one before it. -/
inductive Behind (p q : Path) {α : Type} (same : α → α → Prop) :
    Except Error α → Except Error α → Prop where
  | ok {x y : α} (h : same x y) : Behind p q same (.ok x) (.ok y)
  | failed {err : Error} : Behind p q same (.error err) (.error err)
  | placed {n : Nat} {misuse : Misuse} :
      Behind p q same (.error (.conversion (q.take n).text misuse))
        (.error (.conversion ((p ++ q).take (p.elements.length + n)).text misuse))

theorem Behind.map {p q : Path} {α β : Type} {same : α → α → Prop} {f : α → β}
    {r r' : Except Error α} (h : Behind p q same r r') (hf : ∀ x y, same x y → f x = f y) :
    Behind p q Eq (r.map f) (r'.map f) := by
  cases h with
  | ok h => exact .ok (hf _ _ h)
  | failed => exact .failed
  | placed => exact .placed

/-- Spots differ at most in how they were reached. -/
def SameEntry (x y : Option Spot) : Prop := x.map Spot.entry = y.map Spot.entry

section

variable {t : Tree} {p q : Path} {enter : EntryId → String → Except Error (Option Spot)}
  {follow : Bool}

theorem takeStep_behind {i : Nat} {spot spot' : Spot} (h : spot.entry = spot'.entry) (e : Element) :
    Behind p q SameEntry (t.takeStep q i spot e)
      (t.takeStep (p ++ q) (p.elements.length + i) spot' e) := by
  unfold takeStep
  rw [h]
  cases t.scope? spot'.entry with
  | none => exact .placed
  | some s =>
  cases e with
  | parent => exact .ok rfl
  | bookmark name =>
      cases hb : t.bookmarked? spot'.entry name <;> simp only [hb] <;> exact .ok rfl
  | name name =>
      cases hc : s.children.get? name <;> simp only [hc] <;> exact .ok rfl
  | indexed name index =>
      cases hc : s.children.get? name with
      | none => simp only [hc]; exact .ok rfl
      | some array =>
      cases ha : t.entry array with
      | array items =>
          cases hi : items.item? index with
          | none => simp only [hc, ha, hi]; exact .ok rfl
          | some item =>
              simp only [hc, ha, hi, Option.map_some]
              cases items.position? item <;> exact .ok rfl
      | _ => simp only [hc, ha]; exact .placed

theorem walkElements_behind {es : List Element} :
    ∀ {i : Nat} {spot spot' : Spot}, spot.entry = spot'.entry →
      Behind p q SameEntry (t.walkElements q enter follow i spot es)
        (t.walkElements (p ++ q) enter follow (p.elements.length + i) spot' es) := by
  induction es with
  | nil => exact fun h => .ok (congrArg some h)
  | cons e es ih =>
      intro i spot spot' h
      have hstep := takeStep_behind (t := t) (p := p) (q := q) (i := i) h e
      rw [walkElements, walkElements]
      generalize t.takeStep q i spot e = r at hstep
      generalize t.takeStep (p ++ q) (p.elements.length + i) spot' e = r' at hstep
      cases hstep with
      | failed => exact .failed
      | placed => exact .placed
      | @ok x y h =>
      cases x with
      | none =>
          cases y with
          | none => exact .ok rfl
          | some next' => cases h
      | some next =>
      cases y with
      | none => cases h
      | some next' =>
      have hentry : next.entry = next'.entry := Option.some.inj h
      simp only [bind, Except.bind, hentry]
      cases t.alias? next'.entry with
      | none => exact ih hentry
      | some target =>
      dsimp only
      split
      · exact .ok h
      · cases enter (t.parent next'.entry) target with
        | error err => exact .failed
        | ok found =>
        cases found with
        | none => exact .ok rfl
        | some found => exact ih rfl

end

/-! ## Both parts -/

theorem start_of_relative {t : Tree} {q : Path} (hq : q.isAbsolute = false) (d : EntryId) :
    t.start d q = ⟨d, []⟩ := by
  rw [start, hq]
  rfl

theorem walkFrom_append (t : Tree) (origin : EntryId) (p : Path) {q : Path}
    (hne : q.elements ≠ []) (follow : Bool) :
    t.walkFrom origin (p ++ q) follow =
      (do match ← t.walkFrom origin p true with
          | none => pure none
          | some found =>
              t.walkElements (p ++ q)
                (fun scope target => do t.walk maxAliasDepth scope (← Path.ofText target) true)
                follow p.elements.length found q.elements) := by
  rw [walkFrom, walkFrom, walk, walk, Path.append_elements]
  have hstart : t.start origin (p ++ q) = t.start origin p := rfl
  rw [hstart, walkElements_append hne (t.start origin p) (Nat.le_of_eq (Nat.zero_add _)),
    Nat.zero_add]

theorem walkFrom_behind (t : Tree) {origin : EntryId} {p q : Path} (hq : q.isAbsolute = false)
    (hne : q.elements ≠ []) {found : Spot} (hfound : t.walkFrom origin p true = .ok (some found))
    (follow : Bool) :
    Behind p q SameEntry (t.walkFrom found.entry q follow) (t.walkFrom origin (p ++ q) follow) := by
  rw [walkFrom_append t origin p hne, hfound, walkFrom, walk, start_of_relative hq]
  exact walkElements_behind (i := 0) rfl

/-- To resolve a path with a relative one behind it is to resolve the first one, following what is
at its end, and then the second one from there. -/
theorem resolve_append (t : Tree) (origin : EntryId) (p : Path) {q : Path}
    (hq : q.isAbsolute = false) (hne : q.elements ≠ []) :
    (∀ err, t.resolveFollow origin p = .error err →
      t.resolve origin (p ++ q) = .error err ∧ t.resolveFollow origin (p ++ q) = .error err) ∧
    (t.resolveFollow origin p = .ok none →
      t.resolve origin (p ++ q) = .ok none ∧ t.resolveFollow origin (p ++ q) = .ok none) ∧
    ∀ d, t.resolveFollow origin p = .ok (some d) →
      Behind p q Eq (t.resolve d q) (t.resolve origin (p ++ q)) ∧
      Behind p q Eq (t.resolveFollow d q) (t.resolveFollow origin (p ++ q)) := by
  unfold resolve resolveFollow
  cases hfound : t.walkFrom origin p true with
  | error err =>
      refine ⟨fun err' h => ?_, by rintro ⟨⟩, by rintro d ⟨⟩⟩
      rw [walkFrom_append t origin p hne, walkFrom_append t origin p hne, hfound]
      exact ⟨h, h⟩
  | ok found =>
  cases found with
  | none =>
      refine ⟨by rintro err ⟨⟩, fun _ => ?_, by rintro d ⟨⟩⟩
      rw [walkFrom_append t origin p hne, walkFrom_append t origin p hne, hfound]
      exact ⟨rfl, rfl⟩
  | some found =>
      refine ⟨by rintro err ⟨⟩, by rintro ⟨⟩, ?_⟩
      rintro d ⟨⟩
      exact ⟨(t.walkFrom_behind hq hne hfound false).map fun _ _ h => h,
        (t.walkFrom_behind hq hne hfound true).map fun _ _ h => h⟩

/-- Here `dev` is an alias of the scope `pci`, which holds an array of one alias. -/
def devTree : Tree :=
  ([.openScope "pci" none, .alias "bus[]" "..", .closeScope, .alias "dev" "pci"].foldl Draft.after
    (.ofTree empty)).tree

/-- The array is no scope, which is found out behind `bus` on its own and behind `dev/bus`. -/
theorem resolve_append_devTree :
    devTree.resolveFollow root ⟨false, [.name "dev"]⟩ = .ok (some 1) ∧
      devTree.resolve 1 ⟨false, [.name "bus", .name "x"]⟩ =
        .error (.conversion "bus" .leafInPath) ∧
      devTree.resolve root (⟨false, [.name "dev"]⟩ ++ ⟨false, [.name "bus", .name "x"]⟩) =
        .error (.conversion "dev/bus" .leafInPath) ∧
      Behind ⟨false, [.name "dev"]⟩ ⟨false, [.name "bus", .name "x"]⟩ Eq
        (devTree.resolve 1 ⟨false, [.name "bus", .name "x"]⟩)
        (devTree.resolve root (⟨false, [.name "dev"]⟩ ++ ⟨false, [.name "bus", .name "x"]⟩)) := by
  have hd : devTree.resolveFollow root ⟨false, [.name "dev"]⟩ = .ok (some 1) := by rfl
  obtain ⟨-, -, hfound⟩ := resolve_append devTree root ⟨false, [.name "dev"]⟩
    (q := ⟨false, [.name "bus", .name "x"]⟩) rfl (List.cons_ne_nil _ _)
  exact ⟨hd, by rfl, by rfl, (hfound 1 hd).1⟩

end Tree

end RegisterAtlas
