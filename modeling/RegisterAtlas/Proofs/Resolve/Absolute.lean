import RegisterAtlas.Proofs.Resolve.Following

/-!
# Absolute paths

An absolute path is taken from the root, which is above every entry, so where a walk of it began has
no effect on what it comes to, down to the wording of errors. The target of an alias is resolved
from the scope of the alias, so if it is an absolute path the scope has no effect either.
-/

namespace RegisterAtlas.Tree

variable {t : Tree}

/-! ## Walks of absolute paths -/

/-- Behind a path without elements nothing is shown in front of the second path. -/
theorem Behind.eq_of_nil {q : Path} {α : Type} {r r' : Except Error α}
    (h : Behind ⟨q.isAbsolute, []⟩ q Eq r r') : r = r' := by
  generalize hp : (⟨q.isAbsolute, []⟩ : Path) = p at h
  have hq : p ++ q = q := by rw [← hp]; rfl
  have hlength : p.elements.length = 0 := by rw [← hp]; rfl
  cases h with
  | ok h => rw [h]
  | failed => rfl
  | placed => rw [hq, hlength, Nat.zero_add]

/-- What the elements of a path come to depends on the entry from which they are taken, and not on
how that was reached. -/
theorem walkElements_congr {path : Path} {enter : EntryId → String → Except Error (Option Spot)}
    {follow : Bool} {es : List Element} {i : Nat} {spot spot' : Spot}
    (h : spot.entry = spot'.entry) :
    (t.walkElements path enter follow i spot es).map (Option.map Spot.entry) =
      (t.walkElements path enter follow i spot' es).map (Option.map Spot.entry) := by
  have hbehind : Behind ⟨path.isAbsolute, []⟩ path SameEntry
      (t.walkElements path enter follow i spot es)
      (t.walkElements (⟨path.isAbsolute, []⟩ ++ path) enter follow (0 + i) spot' es) :=
    walkElements_behind h
  have hpath : (⟨path.isAbsolute, []⟩ : Path) ++ path = path := rfl
  rw [hpath, Nat.zero_add] at hbehind
  exact (hbehind.map fun _ _ hsame => hsame).eq_of_nil

theorem walk_absolute (t : Tree) (depth : Nat) (origin origin' : EntryId) {path : Path}
    (ha : path.isAbsolute = true) (follow : Bool) :
    (t.walk depth origin path follow).map (Option.map Spot.entry) =
      (t.walk depth origin' path follow).map (Option.map Spot.entry) := by
  cases depth with
  | zero => rfl
  | succ depth =>
      apply walkElements_congr
      rw [start_entry, start_entry, base, base, if_pos ha, if_pos ha]

/-! ## Aliases of absolute paths -/

/-- Aliases with the same target, a path from the root, are followed to the same outcome. -/
theorem onward_absolute {a b : EntryId} {target : String} {inner : Path}
    (ha : t.alias? a = some target) (hb : t.alias? b = some target)
    (hp : Path.ofText target = .ok inner) (hinner : inner.isAbsolute = true) :
    t.onward a = t.onward b := by
  rw [onward_of_alias ha hp, onward_of_alias hb hp]
  exact t.walk_absolute maxAliasDepth (t.parent a) (t.parent b) hinner true

/-- What a path comes to with a relative one behind it, from what it comes to on its own. -/
def andThen (t : Tree) (first : Except Error (Option EntryId)) (rest : Path) (follow : Bool) :
    Except Error (Option EntryId) := do
  match ← first with
  | none => pure none
  | some d => t.walked d rest follow

theorem walked_behind (t : Tree) (origin : EntryId) (p : Path) {rest : Path}
    (hrest : rest.isAbsolute = false) (hne : rest.elements ≠ []) (follow : Bool) :
    Behind p rest Eq (t.andThen (t.resolveFollow origin p) rest follow)
      (t.walked origin (p ++ rest) follow) := by
  unfold resolveFollow walked
  cases hfound : t.walkFrom origin p true with
  | error err =>
      rw [walkFrom_append t origin p hne, hfound]
      exact .failed
  | ok found =>
  cases found with
  | none =>
      rw [walkFrom_append t origin p hne, hfound]
      exact .ok rfl
  | some found => exact (t.walkFrom_behind hrest hne hfound follow).map fun _ _ hsame => hsame

/-- Paths that are followed to the same outcome can stand for each other in front of a relative
path. -/
theorem walked_of_same {origin origin' : EntryId} {p q rest : Path}
    (hsame : t.resolveFollow origin p = t.resolveFollow origin' q)
    (hrest : rest.isAbsolute = false) (hne : rest.elements ≠ []) (follow : Bool) :
    ∃ r, Behind p rest Eq r (t.walked origin (p ++ rest) follow) ∧
      Behind q rest Eq r (t.walked origin' (q ++ rest) follow) := by
  refine ⟨t.andThen (t.resolveFollow origin p) rest follow, ?_, ?_⟩
  · exact t.walked_behind origin p hrest hne follow
  · rw [hsame]
    exact t.walked_behind origin' q hrest hne follow

/-! ## Independence of the start -/

/-- Every climb ends at the root. So an absolute path comes to the same from all entries, and
aliases of it can stand for each other, wherever they lie: at the end of a path, inside it, and in
the target of yet another alias. -/
theorem resolve_absolute {t : Tree} (h : Reachable t) :
    (∀ origin, origin < t.size → t.above ((t.ancestors origin).length - 1) origin = root) ∧
    (∀ origin origin' path, path.isAbsolute = true →
      t.resolve origin path = t.resolve origin' path ∧
      t.resolveFollow origin path = t.resolveFollow origin' path) ∧
    ∀ a b target inner, t.alias? a = some target → t.alias? b = some target →
      Path.ofText target = .ok inner → inner.isAbsolute = true →
      (∀ depth, (t.walk depth (t.parent a) inner true).map (Option.map Spot.entry) =
        (t.walk depth (t.parent b) inner true).map (Option.map Spot.entry)) ∧
      ∀ origin p origin' q, p.elements ≠ [] → q.elements ≠ [] →
        t.resolve origin p = .ok (some a) → t.resolve origin' q = .ok (some b) →
        t.resolveFollow origin p = t.resolveFollow origin' q ∧
        ∀ rest, rest.isAbsolute = false → rest.elements ≠ [] →
          (∃ r, Behind p rest Eq r (t.resolve origin (p ++ rest)) ∧
            Behind q rest Eq r (t.resolve origin' (q ++ rest))) ∧
          ∃ r, Behind p rest Eq r (t.resolveFollow origin (p ++ rest)) ∧
            Behind q rest Eq r (t.resolveFollow origin' (q ++ rest)) := by
  refine ⟨fun origin ho => h.wellFormed.above_length_ancestors ho,
    fun origin origin' path ha => ⟨?_, ?_⟩, fun a b target inner ha hb hp hinner => ⟨?_, ?_⟩⟩
  · exact t.walk_absolute (maxAliasDepth + 1) origin origin' ha false
  · exact t.walk_absolute (maxAliasDepth + 1) origin origin' ha true
  · exact fun depth => t.walk_absolute depth (t.parent a) (t.parent b) hinner true
  · intro origin p origin' q hpne hqne hpa hqb
    have hsame : t.resolveFollow origin p = t.resolveFollow origin' q := by
      rw [resolveFollow_eq (.inl hpne), resolveFollow_eq (.inl hqne), hpa, hqb]
      exact onward_absolute ha hb hp hinner
    exact ⟨hsame, fun rest hrest hne =>
      ⟨walked_of_same hsame hrest hne false, walked_of_same hsame hrest hne true⟩⟩

/-- Here `s/a` and `s/u/b` are aliases of the scope `dev/x` by one absolute path. -/
def shortcuts : Tree :=
  ([.openScope "s" none, .alias "a" "/dev/x", .openScope "u" none, .alias "b" "/dev/x", .closeScope,
    .closeScope, .openScope "dev" none, .openScope "x" none].foldl Draft.after (.ofTree empty)).tree

theorem resolve_absolute_shortcuts :
    Reachable shortcuts ∧
      shortcuts.resolve 2 ⟨true, [.name "dev", .name "x"]⟩ = .ok (some 6) ∧
      shortcuts.resolve 2 ⟨true, [.name "dev", .name "x"]⟩ =
        shortcuts.resolve root ⟨true, [.name "dev", .name "x"]⟩ ∧
      shortcuts.resolve root ⟨false, [.name "s", .name "a"]⟩ = .ok (some 2) ∧
      shortcuts.resolve 3 ⟨false, [.name "b"]⟩ = .ok (some 4) ∧
      shortcuts.resolveFollow root ⟨false, [.name "s", .name "a"]⟩ = .ok (some 6) ∧
      shortcuts.resolveFollow root ⟨false, [.name "s", .name "a"]⟩ =
        shortcuts.resolveFollow 3 ⟨false, [.name "b"]⟩ := by
  have hr : Reachable shortcuts := .pass .empty _
  have ha : shortcuts.resolve root ⟨false, [.name "s", .name "a"]⟩ = .ok (some 2) := by
    decide +kernel
  have hb : shortcuts.resolve 3 ⟨false, [.name "b"]⟩ = .ok (some 4) := by decide +kernel
  have hpath : Path.ofText "/dev/x" = .ok ⟨true, [.name "dev", .name "x"]⟩ := by decide +kernel
  obtain ⟨-, hstart, halias⟩ := resolve_absolute hr
  obtain ⟨-, hfollow⟩ := halias 2 4 "/dev/x" _ (by decide +kernel) (by decide +kernel) hpath rfl
  exact ⟨hr, by decide +kernel, (hstart 2 root _ rfl).1, ha, hb, by decide +kernel,
    (hfollow root _ 3 _ (List.cons_ne_nil _ _) (List.cons_ne_nil _ _) ha hb).1⟩

end RegisterAtlas.Tree
