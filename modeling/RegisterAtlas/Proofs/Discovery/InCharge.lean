import RegisterAtlas.Cpuid.Identity
import RegisterAtlas.Pci.Identity
import Mathlib.Logic.ExistsUnique

/-!
# Precedence of descriptions

A registry is what a history of registrations makes of an empty one. The description in charge of an
identity is said in terms of the history alone (`InCharge`): the first one whose criteria the
identity meets, or else the first one for everything else. That is the one which the registry
selects (`inCharge_iff`).
-/

namespace RegisterAtlas

/-- A description is registered with its criteria, or for whatever meets no criteria. -/
inductive Registration (σ α ι κ : Type) where
  | criteria (c : κ) (description : Description σ α ι)
  | catchAll (description : Description σ α ι)

namespace Registration

variable {σ α ι κ : Type} {r : Registration σ α ι κ}

def criteria? : Registration σ α ι κ → Option (κ × Description σ α ι)
  | .criteria c description => some (c, description)
  | .catchAll _ => none

def catchAll? : Registration σ α ι κ → Option (Description σ α ι)
  | .criteria _ _ => none
  | .catchAll description => some description

theorem criteria?_eq_some_iff {c : κ} {description : Description σ α ι} :
    r.criteria? = some (c, description) ↔ r = .criteria c description := by
  cases r <;> simp [criteria?]

theorem catchAll?_eq_some_iff {description : Description σ α ι} :
    r.catchAll? = some description ↔ r = .catchAll description := by
  cases r <;> simp [catchAll?]

theorem catchAll?_eq_none_iff : r.catchAll? = none ↔ ∀ description, r ≠ .catchAll description := by
  cases r <;> simp [catchAll?]

end Registration

/-- Which description a history of registrations puts in charge of an identity, if any. -/
inductive InCharge {σ α ι κ : Type} (Matches : κ → ι → Prop)
    (history : List (Registration σ α ι κ)) (identity : ι) : Option (Description σ α ι) → Prop where
  | criteria {front back : List (Registration σ α ι κ)} {c : κ} {description : Description σ α ι}
      (h : history = front ++ .criteria c description :: back) (hmatches : Matches c identity)
      (hfirst : ∀ c' other, .criteria c' other ∈ front → ¬ Matches c' identity) :
      InCharge Matches history identity (some description)
  | catchAll {front back : List (Registration σ α ι κ)} {description : Description σ α ι}
      (h : history = front ++ .catchAll description :: back)
      (hfirst : ∀ other, .catchAll other ∉ front)
      (hnone : ∀ c other, .criteria c other ∈ history → ¬ Matches c identity) :
      InCharge Matches history identity (some description)
  | none (hcatchAll : ∀ other, .catchAll other ∉ history)
      (hnone : ∀ c other, .criteria c other ∈ history → ¬ Matches c identity) :
      InCharge Matches history identity none

namespace Registry

variable {σ α ι κ : Type} {history front back : List (Registration σ α ι κ)} {identity : ι}

/-- The registry after a registration; the old one if it failed. -/
def after (r : Registry σ α ι κ) : Registration σ α ι κ → Registry σ α ι κ
  | .criteria c description => r.register c description
  | .catchAll description =>
      match r.registerCatchAll description with
      | .ok r' => r'
      | .error _ => r

def ofHistory (history : List (Registration σ α ι κ)) : Registry σ α ι κ := history.foldl after {}

theorem entries_foldl (r : Registry σ α ι κ) (history : List (Registration σ α ι κ)) :
    (history.foldl after r).entries = r.entries ++ history.filterMap Registration.criteria? := by
  induction history generalizing r with
  | nil => simp
  | cons first rest ih =>
      rw [List.foldl_cons, ih]
      cases first with
      | criteria c description => simp [after, register, Registration.criteria?]
      | catchAll description =>
          simp only [after, registerCatchAll, Registration.criteria?, List.filterMap_cons]
          cases r.catchAll <;> rfl

theorem catchAll_foldl (r : Registry σ α ι κ) (history : List (Registration σ α ι κ)) :
    (history.foldl after r).catchAll =
      r.catchAll.or (history.findSome? Registration.catchAll?) := by
  induction history generalizing r with
  | nil => simp
  | cons first rest ih =>
      rw [List.foldl_cons, ih]
      cases first with
      | criteria c description => rfl
      | catchAll description =>
          simp only [after, registerCatchAll, Registration.catchAll?, List.findSome?_cons]
          cases hfirst : r.catchAll <;> simp [hfirst]

theorem entries_ofHistory (history : List (Registration σ α ι κ)) :
    (ofHistory history).entries = history.filterMap Registration.criteria? :=
  entries_foldl {} history

theorem catchAll_ofHistory (history : List (Registration σ α ι κ)) :
    (ofHistory history).catchAll = history.findSome? Registration.catchAll? :=
  catchAll_foldl {} history

theorem mem_entries_iff {c : κ} {description : Description σ α ι} :
    (c, description) ∈ (ofHistory history).entries ↔ .criteria c description ∈ history := by
  simp only [entries_ofHistory, List.mem_filterMap, Registration.criteria?_eq_some_iff,
    exists_eq_right]

theorem catchAll_eq_none_iff :
    (ofHistory history).catchAll = none ↔ ∀ description, .catchAll description ∉ history := by
  simp only [catchAll_ofHistory, List.findSome?_eq_none_iff, Registration.catchAll?_eq_none_iff]
  exact ⟨fun h description hmem => h _ hmem description rfl, fun h r hmem description heq =>
    h description (heq ▸ hmem)⟩

/-- Once there is a catch-all, another one is refused, and the first one stays. -/
theorem registerCatchAll_of_mem {first description : Description σ α ι}
    (h : .catchAll first ∈ history) :
    (ofHistory history).registerCatchAll description =
        .error (.configuration .secondCatchAll) ∧
      ofHistory (history ++ [.catchAll description]) = ofHistory history := by
  obtain ⟨chosen, hchosen⟩ : ∃ chosen, (ofHistory history).catchAll = some chosen := by
    rw [← Option.ne_none_iff_exists']
    exact fun hnone => catchAll_eq_none_iff.1 hnone first h
  have hrefused : (ofHistory history).registerCatchAll description =
      .error (.configuration .secondCatchAll) := by
    rw [registerCatchAll, hchosen]
  refine ⟨hrefused, ?_⟩
  have hafter : ofHistory (history ++ [.catchAll description]) =
      (ofHistory history).after (.catchAll description) := List.foldl_append ..
  rw [hafter, after, hrefused]

/-! ## Selection -/

variable [Criteria κ ι] {Matches : κ → ι → Prop} {o : Option (Description σ α ι)}

theorem find?_entries_eq_none_iff :
    (ofHistory history).entries.find? (fun (c, _) => Criteria.accepts c identity) = none ↔
      ∀ c other, .criteria c other ∈ history → Criteria.accepts c identity = false := by
  simp only [List.find?_eq_none, Prod.forall, mem_entries_iff, Bool.not_eq_true]

theorem select_of_none (hnone : ∀ c other, .criteria c other ∈ history →
    Criteria.accepts c identity = false) :
    (ofHistory history).select identity = (ofHistory history).catchAll := by
  rw [select, find?_entries_eq_none_iff.2 hnone]

/-- The registry selects a description that is in charge, or none if there is none in charge. -/
theorem inCharge_select (hmatches : ∀ (c : κ) i, Criteria.accepts c i = true ↔ Matches c i) :
    InCharge Matches history identity ((ofHistory history).select identity) := by
  rw [select]
  split
  · next c description hfind =>
      rw [entries_ofHistory, List.find?_filterMap] at hfind
      obtain ⟨r, hr, hc⟩ := Option.bind_eq_some_iff.1 hfind
      obtain rfl := Registration.criteria?_eq_some_iff.1 hc
      obtain ⟨haccepts, front, back, rfl, hfront⟩ := List.find?_eq_some_iff_append.1 hr
      refine .criteria rfl ((hmatches c identity).1 haccepts) fun c' other hmem hother => ?_
      have hrejects := hfront _ hmem
      simp [Registration.criteria?, (hmatches c' identity).2 hother] at hrejects
  · next hfind =>
      have hnone : ∀ c other, .criteria c other ∈ history → ¬ Matches c identity := by
        intro c other hmem hother
        have hrejects := find?_entries_eq_none_iff.1 hfind c other hmem
        rw [(hmatches c identity).2 hother] at hrejects
        cases hrejects
      cases hcatchAll : (ofHistory history).catchAll with
      | none => exact .none (catchAll_eq_none_iff.1 hcatchAll) hnone
      | some description =>
          rw [catchAll_ofHistory] at hcatchAll
          obtain ⟨front, r, back, rfl, hr, hfront⟩ := List.findSome?_eq_some_iff.1 hcatchAll
          obtain rfl := Registration.catchAll?_eq_some_iff.1 hr
          refine .catchAll rfl (fun other hmem => ?_) hnone
          exact Registration.catchAll?_eq_none_iff.1 (hfront _ hmem) other rfl

/-- The registry selects the description in charge. -/
theorem inCharge_iff (hmatches : ∀ (c : κ) i, Criteria.accepts c i = true ↔ Matches c i) :
    InCharge Matches history identity o ↔ (ofHistory history).select identity = o := by
  have hrejects : ∀ {c : κ}, ¬ Matches c identity → Criteria.accepts c identity = false :=
    fun hnot => Bool.eq_false_iff.2 fun haccepts => hnot ((hmatches _ _).1 haccepts)
  constructor
  · intro h
    cases h with
    | @criteria front back c description h hc hfirst =>
        subst h
        have hfront := find?_entries_eq_none_iff.2 fun c' other hmem =>
          hrejects (hfirst c' other hmem)
        rw [entries_ofHistory] at hfront
        rw [select, entries_ofHistory, List.filterMap_append, List.find?_append, hfront,
          Option.none_or]
        simp [Registration.criteria?, (hmatches c identity).2 hc]
    | @catchAll front back description h hfirst hnone =>
        subst h
        have hfront := catchAll_eq_none_iff.2 hfirst
        rw [catchAll_ofHistory] at hfront
        rw [select_of_none fun c other hmem => hrejects (hnone c other hmem), catchAll_ofHistory,
          List.findSome?_append, hfront]
        rfl
    | none hcatchAll hnone =>
        rw [select_of_none fun c other hmem => hrejects (hnone c other hmem), catchAll_eq_none_iff]
        exact hcatchAll
  · rintro rfl
    exact inCharge_select hmatches

/-- Exactly one description is in charge of an identity, or exactly none. -/
theorem existsUnique_inCharge (hmatches : ∀ (c : κ) i, Criteria.accepts c i = true ↔ Matches c i)
    (history : List (Registration σ α ι κ)) (identity : ι) :
    ∃! o, InCharge Matches history identity o := by
  refine ⟨_, (inCharge_iff hmatches).2 rfl, fun o ho => ?_⟩
  exact ((inCharge_iff hmatches).1 ho).symm

end Registry

/-! ## Criteria -/

/-- Both ids have to be the same. -/
structure Pci.Criterion.Matches (c : Criterion) (i : Identity) : Prop where
  vendor_eq : c.vendor = i.vendor
  device_eq : c.device = i.device

theorem Pci.accepts_iff (c : Criterion) (i : Identity) :
    Criteria.accepts c i = true ↔ c.Matches i := by
  simp only [Criteria.accepts, Bool.and_eq_true, beq_iff_eq]
  exact ⟨fun ⟨hv, hd⟩ => ⟨hv, hd⟩, fun ⟨hv, hd⟩ => ⟨hv, hd⟩⟩

namespace Cpuid

/-- A number is not beyond the bounds that there are. -/
def Bounds.Within (b : Bounds) (n : Nat) : Prop :=
  ∀ low high, b = some (low, high) → low ≤ n ∧ n ≤ high

theorem Bounds.contains_iff {b : Bounds} {n : Nat} : Bounds.contains b n = true ↔ b.Within n := by
  rcases b with _ | ⟨low, high⟩ <;> simp [Bounds.contains, Bounds.Within]

/-- The name of the vendor has to be the same, and all numbers have to be within their bounds. -/
structure Criterion.Matches (c : Criterion) (i : Identity) : Prop where
  vendor_eq : c.vendor = i.vendor
  family : Bounds.Within c.family i.signature.family
  model : Bounds.Within c.model i.signature.model
  stepping : Bounds.Within c.stepping i.signature.stepping

theorem accepts_iff (c : Criterion) (i : Identity) :
    Criteria.accepts c i = true ↔ c.Matches i := by
  simp only [Criteria.accepts, Bool.and_eq_true, beq_iff_eq, Bounds.contains_iff]
  exact ⟨fun ⟨⟨⟨hv, hf⟩, hm⟩, hs⟩ => ⟨hv, hf, hm, hs⟩, fun ⟨hv, hf, hm, hs⟩ => ⟨⟨⟨hv, hf⟩, hm⟩, hs⟩⟩

end Cpuid

end RegisterAtlas
