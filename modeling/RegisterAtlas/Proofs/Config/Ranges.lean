import Mathlib.Data.List.Flatten
import RegisterAtlas.Proofs.Config.Parts
import RegisterAtlas.Proofs.Text.Decimal
import RegisterAtlas.Proofs.Text.Joined

/-!
# Lists of ranges

An ascending list of CPUs falls into ranges that leave a gap between each other (`Runs`). Written
with commas between them, the ranges are read as the list they come from. With that, what is read of
a text is settled in both directions: what each text means, and a text for each meaning.
-/

namespace RegisterAtlas.CpuList

/-! ## Ranges of CPUs -/

/-- Ranges that put together are a list of CPUs. No two of them could be one range. -/
structure Runs (cpus : List Nat) (rs : List (Nat × Nat)) : Prop where
  le : ∀ r ∈ rs, r.1 ≤ r.2
  gaps : rs.Pairwise fun r s => r.2 + 1 < s.1
  cover : rs.flatMap cover = cpus

/-- Puts a CPU in front of ranges. It lengthens the first one if that starts with the next CPU. -/
def extend (cpu : Nat) : List (Nat × Nat) → List (Nat × Nat)
  | [] => [(cpu, cpu)]
  | r :: rs => if r.1 = cpu + 1 then (cpu, r.2) :: rs else (cpu, cpu) :: r :: rs

/-- The ranges of an ascending list. -/
def ranges (cpus : List Nat) : List (Nat × Nat) := cpus.foldr extend []

variable {cpu : Nat} {cpus : List Nat} {r : Nat × Nat} {rs : List (Nat × Nat)}

theorem cover_cons (hle : r.1 ≤ r.2) (h : r.1 = cpu + 1) : cover (cpu, r.2) = cpu :: cover r := by
  rw [cover, cover, show r.2 + 1 - cpu = (r.2 + 1 - r.1) + 1 by omega, List.range'_succ, h]

theorem cover_singleton (cpu : Nat) : cover (cpu, cpu) = [cpu] := by
  rw [cover, Nat.add_sub_cancel_left]
  rfl

theorem Runs.mem (h : Runs cpus rs) (hr : r ∈ rs) : r.1 ∈ cpus ∧ r.2 ∈ cpus := by
  have hle := h.le r hr
  rw [← h.cover]
  exact ⟨List.mem_flatMap.2 ⟨r, hr, mem_cover_iff.2 ⟨Nat.le_refl _, hle⟩⟩,
    List.mem_flatMap.2 ⟨r, hr, mem_cover_iff.2 ⟨hle, Nat.le_refl _⟩⟩⟩

theorem Runs.extend (h : Runs cpus rs) (hlt : ∀ c ∈ cpus, cpu < c) :
    Runs (cpu :: cpus) (extend cpu rs) := by
  cases rs with
  | nil =>
      obtain rfl : [] = cpus := h.cover
      exact ⟨by simp [CpuList.extend], by simp [CpuList.extend],
        by simp [CpuList.extend, cover_singleton]⟩
  | cons r rs =>
      obtain ⟨hle, hrest⟩ := List.forall_mem_cons.1 h.le
      obtain ⟨hgap, hgaps⟩ := List.pairwise_cons.1 h.gaps
      have hfirst : cpu < r.1 := hlt _ (h.mem List.mem_cons_self).1
      have hcover : CpuList.cover r ++ rs.flatMap CpuList.cover = cpus := h.cover
      rw [CpuList.extend]
      split
      · next hnext =>
          refine ⟨List.forall_mem_cons.2 ⟨?_, hrest⟩, List.pairwise_cons.2 ⟨hgap, hgaps⟩, ?_⟩
          · exact Nat.le_trans (Nat.le_of_lt hfirst) hle
          · rw [List.flatMap_cons, cover_cons hle hnext, List.cons_append, hcover]
      · next hnext =>
          refine ⟨List.forall_mem_cons.2 ⟨Nat.le_refl _, h.le⟩,
            List.pairwise_cons.2 ⟨?_, h.gaps⟩, ?_⟩
          · refine List.forall_mem_cons.2 ⟨by omega, fun s hs => ?_⟩
            have hs := hgap s hs
            omega
          · rw [List.flatMap_cons, List.flatMap_cons, cover_singleton, hcover,
              List.singleton_append]

theorem runs_ranges (h : cpus.Pairwise (· < ·)) : Runs cpus (ranges cpus) := by
  induction h with
  | nil => exact ⟨by simp [ranges], .nil, rfl⟩
  | cons hlt _ ih => exact ih.extend hlt

/-! ## Writing ranges -/

def rangeText (r : Nat × Nat) : List Char :=
  if r.1 = r.2 then Nat.toDigits 10 r.1 else Nat.toDigits 10 r.1 ++ '-' :: Nat.toDigits 10 r.2

/-- Ranges with commas between them. -/
def render (rs : List (Nat × Nat)) : String := .ofList ([','].intercalate (rs.map rangeText))

theorem numbers_toDigits {n : Nat} (h : n < 2 ^ 32) : Numbers (Nat.toDigits 10 n) n := by
  have hdigits : Grammar.Numeral 10 (Nat.toDigits 10 n) n :=
    (Grammar.readDigits_eq_some_iff (by decide)).1
      (Text.readDigits_toDigits 10 (by decide) (by decide) n)
  have hnumbers : Numbers ([] ++ ([] ++ Nat.toDigits 10 n) ++ []) n :=
    .mk (by simp) (.inl rfl) hdigits h (by simp)
  rwa [List.append_nil] at hnumbers

theorem means_rangeText (hle : r.1 ≤ r.2) (h : r.2 < 2 ^ 32) : Means (rangeText r) r := by
  obtain ⟨first, last⟩ := r
  rw [rangeText]
  split
  · next heq =>
      obtain rfl : first = last := heq
      exact .one (numbers_toDigits h)
  · exact .range (numbers_toDigits (Nat.lt_of_le_of_lt hle h)) (numbers_toDigits h) hle

theorem forall_mem_rangeText (r : Nat × Nat) :
    ∀ c ∈ rangeText r, Text.isBlank c = false ∧ c ≠ ',' := by
  have hdigits (n : Nat) : ∀ c ∈ Nat.toDigits 10 n, Text.isBlank c = false ∧ c ≠ ',' := by
    intro c hc
    refine ⟨?_, fun heq => Text.notMem_toDigits (by decide) n (heq ▸ hc)⟩
    exact Text.isBlank_of_mem_readDigits
      (Text.readDigits_toDigits 10 (by decide) (by decide) n) c hc
  rw [rangeText]
  split
  · exact hdigits r.1
  · exact List.forall_mem_append.2
      ⟨hdigits r.1, List.forall_mem_cons.2 ⟨by decide, hdigits r.2⟩⟩

theorem rangeText_ne_nil (r : Nat × Nat) : rangeText r ≠ [] := by
  rw [rangeText]
  split
  · exact Nat.toDigits_ne_nil
  · exact List.append_ne_nil_of_right_ne_nil _ (List.cons_ne_nil _ _)

theorem segments_render (hne : rs ≠ []) : segments (render rs) = rs.map rangeText := by
  have hblank : ∀ c ∈ [','].intercalate (rs.map rangeText), Text.isBlank c = false := by
    refine Text.forall_mem_intercalate (by decide) (List.forall_mem_map.2 fun r _ c hc => ?_)
    exact (forall_mem_rangeText r c hc).1
  have hcomma : ∀ cs ∈ rs.map rangeText, ',' ∉ cs :=
    List.forall_mem_map.2 fun r _ hmem => (forall_mem_rangeText r _ hmem).2 rfl
  rw [segments, render, String.toList_ofList, (Text.isTrimmed_of_forall hblank).trim_eq,
    List.splitOn_intercalate _ hcomma (by simpa using hne), List.filter_eq_self]
  refine List.forall_mem_map.2 fun r _ => ?_
  obtain ⟨c, hc⟩ := List.exists_mem_of_ne_nil _ (rangeText_ne_nil r)
  simpa using ⟨c, hc, (forall_mem_rangeText r c hc).1⟩

/-- Ranges that are written are read as the CPUs that they cover. -/
theorem parse?_render (hne : cpus ≠ []) (hlt : ∀ cpu ∈ cpus, cpu < 2 ^ 32)
    (hascending : cpus.Pairwise (· < ·)) (h : Runs cpus rs) : parse? (render rs) = some cpus := by
  have hrs : rs ≠ [] := by
    rintro rfl
    exact hne h.cover.symm
  have hmeans : ∀ r ∈ rs, Means (rangeText r) r :=
    fun r hr => means_rangeText (h.le r hr) (hlt _ (h.mem hr).2)
  rw [parse?_eq_some_iff, segments_render hrs]
  refine ⟨by simpa using hrs, List.forall_mem_map.2 fun r hr => ⟨r, hmeans r hr⟩, hascending,
    fun cpu => ?_⟩
  rw [Covers, segments_render hrs, ← h.cover, List.mem_flatMap]
  constructor
  · rintro ⟨r, hr, hcpu⟩
    exact ⟨_, List.mem_map_of_mem hr, r, hmeans r hr, mem_cover_iff.1 hcpu⟩
  · rintro ⟨_, hcs, r', hmeans', hcpu⟩
    obtain ⟨r, hr, rfl⟩ := List.mem_map.1 hcs
    obtain rfl : r = r' := Option.some.inj <|
      (means_iff.1 (hmeans r hr)).symm.trans (means_iff.1 hmeans')
    exact ⟨r, hr, mem_cover_iff.2 hcpu⟩

/-! ## Reading lists -/

section Same

variable {text other : String} {cs : List Char}

/-- The meaning of a part does not depend on the list it stands in. -/
theorem exists_segment (h : (segments text).map Text.trim ⊆ (segments other).map Text.trim)
    (hcs : cs ∈ segments text) : ∃ cs' ∈ segments other, ∀ r, Means cs' r ↔ Means cs r := by
  obtain ⟨cs', hcs', heq⟩ := List.mem_map.1 (h (List.mem_map_of_mem hcs))
  exact ⟨cs', hcs', fun r => by rw [means_iff, heq, means_iff]⟩

theorem Covers.mono (h : (segments text).map Text.trim ⊆ (segments other).map Text.trim)
    (hcovers : Covers text cpu) : Covers other cpu := by
  obtain ⟨cs, hcs, r, hmeans, hcpu⟩ := hcovers
  obtain ⟨cs', hcs', hsame⟩ := exists_segment h hcs
  exact ⟨cs', hcs', r, (hsame r).2 hmeans, hcpu⟩

theorem parse?_of_same (h : (segments text).map Text.trim ⊆ (segments other).map Text.trim)
    (h' : (segments other).map Text.trim ⊆ (segments text).map Text.trim)
    (hread : parse? text = some cpus) : parse? other = some cpus := by
  obtain ⟨hne, hmeans, hascending, hmem⟩ := parse?_eq_some_iff.1 hread
  refine parse?_eq_some_iff.2 ⟨fun hnil => hne ?_, fun cs hcs => ?_, hascending, fun cpu => ?_⟩
  · rw [hnil, List.map_nil, List.subset_nil, List.map_eq_nil_iff] at h
    exact h
  · obtain ⟨cs', hcs', hsame⟩ := exists_segment h' hcs
    obtain ⟨r, hr⟩ := hmeans cs' hcs'
    exact ⟨r, (hsame r).1 hr⟩
  · rw [hmem]
    exact ⟨.mono h, .mono h'⟩

end Same

/-- A text is refused as a list of CPUs if it has no parts or one that means nothing. Otherwise it
is read as the ascending list of the CPUs that its parts mean, which only depends on what the parts
are when blanks around them are taken away. Each list that is ascending and not empty is read of the
text in which its ranges are written. -/
theorem parse?_meaning (text : String) :
    (parse? text = none ↔ segments text = [] ∨ ∃ cs ∈ segments text, ∀ r, ¬Means cs r) ∧
    (∀ cpus, parse? text = some cpus →
      cpus.Pairwise (· < ·) ∧ ∀ cpu, cpu ∈ cpus ↔ Covers text cpu) ∧
    (∀ other,
      (∀ part, part ∈ (segments other).map Text.trim ↔ part ∈ (segments text).map Text.trim) →
      parse? other = parse? text) ∧
    ∀ cpus, cpus ≠ [] → cpus.Pairwise (· < ·) → (∀ cpu ∈ cpus, cpu < 2 ^ 32) →
      Runs cpus (ranges cpus) ∧ ∀ rs, Runs cpus rs → parse? (render rs) = some cpus := by
  refine ⟨parse?_eq_none_iff, fun cpus hread => (parse?_eq_some_iff.1 hread).2.2, fun other h => ?_,
    fun cpus hne hascending hlt =>
      ⟨runs_ranges hascending, fun rs => parse?_render hne hlt hascending⟩⟩
  have hback := fun part => (h part).2
  have hforth := fun part => (h part).1
  exact Option.ext fun cpus => ⟨parse?_of_same hforth hback, parse?_of_same hback hforth⟩

/-- Neither blanks nor the order nor repetition matter, but each part does. -/
theorem parse?_meaning_repeated :
    parse? " 8 , 0-3,\t,8\n" = some [0, 1, 2, 3, 8] ∧ parse? "8,3-1" = none := by
  have hrender : render (ranges [0, 1, 2, 3, 8]) = "0-3,8" := by decide +kernel
  constructor
  · obtain ⟨-, -, hsame, hwritten⟩ := parse?_meaning "0-3,8"
    have hparts : (segments " 8 , 0-3,\t,8\n").map Text.trim = [['8'], ['0', '-', '3'], ['8']] := by
      decide +kernel
    have hparts' : (segments "0-3,8").map Text.trim = [['0', '-', '3'], ['8']] := by decide +kernel
    obtain ⟨hruns, hread⟩ := hwritten [0, 1, 2, 3, 8] (by decide) (by decide) (by decide)
    rw [hsame " 8 , 0-3,\t,8\n" (by simp [hparts, hparts', or_comm]), ← hrender]
    exact hread _ hruns
  · refine (parse?_meaning "8,3-1").1.2 (.inr ⟨['3', '-', '1'], by decide +kernel, fun r hr => ?_⟩)
    have hnone : part? (Text.trim ['3', '-', '1']) = none := by decide +kernel
    rw [means_iff, hnone] at hr
    cases hr

end RegisterAtlas.CpuList
