import Mathlib.Data.List.Perm.Subperm
import Mathlib.Data.List.Sort
import RegisterAtlas.Config

/-!
# CPU lists

What is read from a list of CPUs is a set of CPU numbers in ascending order. So are the CPUs that a
configuration comes to in any of its ways.
-/

namespace RegisterAtlas

namespace CpuList

/-- A set of CPU numbers, in ascending order. -/
structure Canonical (cpus : List Nat) : Prop where
  ascending : cpus.Pairwise (· < ·)
  cpu_lt : ∀ cpu ∈ cpus, cpu < wordCount 32

theorem Canonical.length_le {cpus : List Nat} (h : Canonical cpus) :
    cpus.length ≤ wordCount 32 := by
  have hnodup : cpus.Nodup := h.ascending.imp Nat.ne_of_lt
  have hsub : cpus ⊆ List.range (wordCount 32) :=
    fun cpu hcpu => List.mem_range.2 (h.cpu_lt cpu hcpu)
  simpa using (hnodup.subperm hsub).length_le

/-- Puts a number in front, unless it is there already. -/
def putFirst (n : Nat) (rest : List Nat) : List Nat :=
  if rest.head? = some n then rest else n :: rest

theorem mem_putFirst {n x : Nat} {rest : List Nat} : x ∈ putFirst n rest ↔ x = n ∨ x ∈ rest := by
  rw [putFirst]
  split
  · next h => exact ⟨.inr, fun hx => hx.elim (fun hx => hx ▸ List.mem_of_mem_head? h) id⟩
  · exact List.mem_cons

theorem putFirst_ascending {n : Nat} {rest : List Nat} (hle : ∀ x ∈ rest, n ≤ x)
    (h : rest.Pairwise (· < ·)) : (putFirst n rest).Pairwise (· < ·) := by
  rw [putFirst]
  split
  · exact h
  · next hhead =>
      refine List.pairwise_cons.2 ⟨fun x hx => ?_, h⟩
      cases rest with
      | nil => cases hx
      | cons y ys =>
          have hy : n < y :=
            Nat.lt_of_le_of_ne (hle y List.mem_cons_self) fun heq => hhead (by simp [heq])
          rcases List.mem_cons.1 hx with rfl | hx
          · exact hy
          · exact Nat.lt_trans hy ((List.pairwise_cons.1 h).1 x hx)

theorem mem_foldr_putFirst {x : Nat} (ns : List Nat) : x ∈ ns.foldr putFirst [] ↔ x ∈ ns := by
  induction ns with
  | nil => rfl
  | cons n ns ih => rw [List.foldr_cons, mem_putFirst, ih, List.mem_cons]

theorem foldr_putFirst_ascending {ns : List Nat} (h : ns.Pairwise (· ≤ ·)) :
    (ns.foldr putFirst []).Pairwise (· < ·) := by
  induction h with
  | nil => exact .nil
  | @cons n ns hn _ ih =>
      exact putFirst_ascending (fun x hx => hn x ((mem_foldr_putFirst ns).1 hx)) ih

theorem normalize_eq (ns : List Nat) :
    normalize ns = (ns.mergeSort fun a b => a ≤ b).foldr putFirst [] := rfl

theorem mem_normalize {x : Nat} {ns : List Nat} : x ∈ normalize ns ↔ x ∈ ns := by
  rw [normalize_eq, mem_foldr_putFirst, List.mem_mergeSort]

theorem normalize_ascending (ns : List Nat) : (normalize ns).Pairwise (· < ·) :=
  foldr_putFirst_ascending (List.pairwise_mergeSort' (· ≤ ·) ns)

/-- What is ascending already stays as it is. -/
theorem normalize_eq_self {ns : List Nat} (h : ns.Pairwise (· < ·)) : normalize ns = ns := by
  have hle : ns.Pairwise fun a b => decide (a ≤ b) = true :=
    h.imp fun hlt => decide_eq_true (Nat.le_of_lt hlt)
  rw [normalize_eq, List.mergeSort_of_pairwise hle]
  induction h with
  | nil => rfl
  | @cons n ns hn _ ih =>
      rw [List.foldr_cons, ih (List.pairwise_cons.1 hle).2, putFirst, if_neg]
      exact fun hhead => Nat.lt_irrefl n (hn n (List.mem_of_mem_head? hhead))

/-- A part of a list covers CPU numbers only. -/
theorem lt_of_part? {cs : List Char} {r : Nat × Nat} {cpu : Nat} (h : part? cs = some r)
    (hcpu : cpu ∈ cover r) : cpu < wordCount 32 := by
  have hle : cpu ≤ r.2 := by
    obtain ⟨k, hk, rfl⟩ := List.mem_range'.1 hcpu
    omega
  refine Nat.lt_of_le_of_lt hle ?_
  rw [part?] at h
  split at h
  · simp only [Option.bind_eq_bind, Option.bind_eq_some_iff, Option.ite_none_right_eq_some] at h
    obtain ⟨first, -, last, hlast, -, hr⟩ := h
    cases hr
    exact Text.readUnsigned_lt hlast
  · obtain ⟨n, hn, rfl⟩ := Option.map_eq_some_iff.1 h
    exact Text.readUnsigned_lt hn

/-- A list is read if all of its parts are. -/
theorem exists_mapM_part?_iff {texts : List (List Char)} :
    (∃ ranges, texts.mapM part? = some ranges) ↔ ∀ cs ∈ texts, ∃ r, part? cs = some r := by
  induction texts with
  | nil => simp
  | cons cs texts ih =>
      simp only [List.mapM_cons, Option.bind_eq_bind, Option.bind_eq_some_iff, Option.pure_def,
        Option.some.injEq, List.forall_mem_cons, ← ih]
      constructor
      · rintro ⟨_, first, hfirst, rest, hrest, rfl⟩
        exact ⟨⟨first, hfirst⟩, rest, hrest⟩
      · rintro ⟨⟨first, hfirst⟩, rest, hrest⟩
        exact ⟨_, first, hfirst, rest, hrest, rfl⟩

/-- The ranges of a list are those of its parts. -/
theorem mem_iff_of_mapM_part? {r : Nat × Nat} {texts : List (List Char)}
    {ranges : List (Nat × Nat)} (h : texts.mapM part? = some ranges) :
    r ∈ ranges ↔ ∃ cs ∈ texts, part? cs = some r := by
  induction texts generalizing ranges with
  | nil =>
      cases h
      simp
  | cons cs texts ih =>
      simp only [List.mapM_cons, Option.bind_eq_bind, Option.bind_eq_some_iff] at h
      obtain ⟨first, hfirst, rest, hrest, heq⟩ := h
      cases heq
      rw [List.mem_cons, ih hrest, List.exists_mem_cons_iff, hfirst, Option.some.injEq, eq_comm]

theorem canonical_of_parse? {text : String} {cpus : List Nat} (h : parse? text = some cpus) :
    Canonical cpus := by
  simp only [parse?, Option.bind_eq_bind, Option.bind_eq_some_iff] at h
  obtain ⟨ranges, hranges, h⟩ := h
  split at h
  · cases h
  · cases h
    refine ⟨normalize_ascending _, fun cpu hcpu => ?_⟩
    obtain ⟨r, hr, hcpu⟩ := List.mem_flatMap.1 (mem_normalize.1 hcpu)
    obtain ⟨cs, -, hpart⟩ := (mem_iff_of_mapM_part? hranges).1 hr
    exact lt_of_part? hpart hcpu

end CpuList

/-- A configuration comes to a set of CPUs in ascending order. -/
theorem Config.canonical_of_cpuList {c : Config} {d : Disk} {cpus : List Nat}
    (h : c.cpuList d = .ok cpus) : CpuList.Canonical cpus := by
  have height : CpuList.Canonical (List.range 8) :=
    ⟨List.pairwise_lt_range, fun cpu hcpu => Nat.lt_trans (List.mem_range.1 hcpu) (by decide)⟩
  rw [cpuList] at h
  split at h
  · cases h
    rw [onlineCpus]
    split
    · next text _ =>
        cases hparse : CpuList.parse? text with
        | none => exact height
        | some cpus => exact CpuList.canonical_of_parse? hparse
    · exact height
  · split at h
    · next hparse =>
        cases h
        exact CpuList.canonical_of_parse? hparse
    · cases h

end RegisterAtlas
