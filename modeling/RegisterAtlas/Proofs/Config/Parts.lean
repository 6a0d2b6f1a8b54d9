import RegisterAtlas.Proofs.Config.CpuList
import RegisterAtlas.Proofs.Path.Grammar
import RegisterAtlas.Proofs.Text.Blank

/-!
# Parts of CPU lists

A list of CPUs is cut at its commas, and parts with nothing but blanks do not count. What a part
means is said without how it is read (`Means`): one number, or a range from a first to a last one. A
list is read exactly if all of its parts mean something, and then as the set of all CPUs that they
mean (`parse?_eq_some_iff`).
-/

namespace RegisterAtlas.CpuList

/-! ## Numbers -/

/-- A number below 2³² among blanks. It has decimal digits, and there may be a plus sign. -/
inductive Numbers : List Char → Nat → Prop where
  | mk {before sign digits after : List Char} {n : Nat}
      (hbefore : ∀ c ∈ before, Text.isBlank c = true) (hsign : sign = [] ∨ sign = ['+'])
      (hdigits : Grammar.Numeral 10 digits n) (hn : n < 2 ^ 32)
      (hafter : ∀ c ∈ after, Text.isBlank c = true) :
      Numbers (before ++ (sign ++ digits) ++ after) n

variable {cs : List Char} {n : Nat}

theorem cpu?_eq_some_iff : cpu? cs = some n ↔ ∃ sign digits, (sign = [] ∨ sign = ['+']) ∧
    cs = sign ++ digits ∧ Grammar.Numeral 10 digits n ∧ n < 2 ^ 32 := by
  have hlimit : wordCount 32 = 2 ^ 32 := rfl
  simp only [cpu?, Text.readUnsigned, Option.filter_eq_some_iff, decide_eq_true_eq, hlimit,
    ← Grammar.readDigits_eq_some_iff (show 10 ≤ 16 by decide)]
  cases hplus : Text.stripStart? ['+'] cs with
  | none =>
      rw [Option.getD_none]
      constructor
      · rintro ⟨hread, hn⟩
        exact ⟨[], cs, .inl rfl, rfl, hread, hn⟩
      · rintro ⟨sign, digits, rfl | rfl, rfl, hread, hn⟩
        · exact ⟨hread, hn⟩
        · rw [Text.stripStart?_eq_some_iff.2 rfl] at hplus
          cases hplus
  | some rest =>
      obtain rfl := Text.stripStart?_eq_some_iff.1 hplus
      rw [Option.getD_some]
      constructor
      · rintro ⟨hread, hn⟩
        exact ⟨['+'], rest, .inr rfl, rfl, hread, hn⟩
      · rintro ⟨sign, digits, rfl | rfl, hcs, hread, hn⟩
        · have hplus : '+' ∈ digits := by
            rw [← List.nil_append digits, ← hcs]
            exact List.mem_cons_self
          exact (Text.notMem_of_readDigits (by decide) hread hplus).elim
        · exact ⟨List.append_cancel_left hcs ▸ hread, hn⟩

/-- No character of a number is a blank or a hyphen. -/
theorem notMem_of_cpu? (h : cpu? cs = some n) : '-' ∉ cs ∧ ∀ c ∈ cs, Text.isBlank c = false := by
  obtain ⟨sign, digits, hsign, rfl, hdigits, -⟩ := cpu?_eq_some_iff.1 h
  have hread := (Grammar.readDigits_eq_some_iff (by decide)).2 hdigits
  have hmark : Text.alphanumericValue? '-' = none := by decide
  have hhyphen := Text.notMem_of_readDigits hmark hread
  have hblank := Text.isBlank_of_mem_readDigits hread
  rcases hsign with rfl | rfl
  · exact ⟨hhyphen, hblank⟩
  · exact ⟨by simpa using hhyphen, List.forall_mem_cons.2 ⟨by decide, hblank⟩⟩

theorem numbers_iff : Numbers cs n ↔ cpu? (Text.trim cs) = some n := by
  constructor
  · rintro ⟨hbefore, hsign, hdigits, hn, hafter⟩
    have hread := cpu?_eq_some_iff.2 ⟨_, _, hsign, rfl, hdigits, hn⟩
    rw [Text.trim_append_blanks hafter, Text.trim_blanks_append hbefore,
      (Text.isTrimmed_of_forall (notMem_of_cpu? hread).2).trim_eq, hread]
  · intro h
    obtain ⟨sign, digits, hsign, hcs, hdigits, hn⟩ := cpu?_eq_some_iff.1 h
    obtain ⟨before, after, hbefore, hafter, heq⟩ := Text.exists_trim cs
    rw [heq, hcs]
    exact .mk hbefore hsign hdigits hn hafter

/-! ## Parts -/

/-- What a part of a list means: one CPU, or all CPUs from a first to a last one. -/
inductive Means : List Char → Nat × Nat → Prop where
  | one {cs : List Char} {n : Nat} (h : Numbers cs n) : Means cs (n, n)
  | range {front back : List Char} {first last : Nat} (hfirst : Numbers front first)
      (hlast : Numbers back last) (hle : first ≤ last) :
      Means (front ++ '-' :: back) (first, last)

variable {r : Nat × Nat}

/-- A part is read as what it means. -/
theorem means_iff : Means cs r ↔ part? (Text.trim cs) = some r := by
  rw [part?, Text.splitOnce_trim (by decide)]
  constructor
  · rintro (hone | ⟨hfirst, hlast, hle⟩)
    · have hread := numbers_iff.1 hone
      have hdash : Text.isBlank '-' = false := by decide
      have hsplit := Text.splitOnce_trim hdash cs
      rw [Text.splitOnce_eq_none (notMem_of_cpu? hread).1] at hsplit
      rw [← hsplit, hread]
      rfl
    · have hfirst := numbers_iff.1 hfirst
      have hlast := numbers_iff.1 hlast
      rw [Text.splitOnce_eq_some_iff.2 ⟨rfl, fun hmem => ?_⟩, Option.map_some]
      · simp only [Text.trim_dropWhile, Text.trim_trimEnd, hfirst, hlast, bind, Option.bind_some,
          if_pos hle]
        rfl
      · exact (notMem_of_cpu? hfirst).1 (Text.mem_trim_of_mem (by decide) hmem)
  · cases hsplit : Text.splitOnce '-' cs with
    | none =>
        simp only [Option.map_none, Option.map_eq_some_iff]
        rintro ⟨n, hn, rfl⟩
        exact .one (numbers_iff.2 hn)
    | some p =>
        obtain ⟨front, back⟩ := p
        obtain ⟨rfl, -⟩ := Text.splitOnce_eq_some_iff.1 hsplit
        simp only [Option.map_some, Text.trim_dropWhile, Text.trim_trimEnd, Option.bind_eq_bind,
          Option.bind_eq_some_iff, Option.ite_none_right_eq_some]
        rintro ⟨first, hfirst, last, hlast, hle, hr⟩
        cases hr
        exact .range (numbers_iff.2 hfirst) (numbers_iff.2 hlast) hle

/-- The parts of a list that are not blank, as they stand there. -/
def segments (text : String) : List (List Char) :=
  ((Text.trim text.toList).splitOn ',').filter fun cs => !cs.all Text.isBlank

theorem parts_eq (text : String) : parts text.toList = (segments text).map Text.trim := by
  rw [parts, segments, List.filter_map]
  congr 2
  funext cs
  rw [Bool.eq_iff_iff]
  simp [Text.trim_eq_nil_iff]

/-! ## Lists -/

/-- Some of the parts of a list mean a CPU. -/
def Covers (text : String) (cpu : Nat) : Prop :=
  ∃ cs ∈ segments text, ∃ r, Means cs r ∧ r.1 ≤ cpu ∧ cpu ≤ r.2

theorem mem_cover_iff {cpu : Nat} : cpu ∈ cover r ↔ r.1 ≤ cpu ∧ cpu ≤ r.2 := by
  rw [cover, List.mem_range'_1]
  omega

section Ranges

variable {text : String} {ranges : List (Nat × Nat)}

theorem exists_mapM_parts_iff : (∃ ranges, (parts text.toList).mapM part? = some ranges) ↔
    ∀ cs ∈ segments text, ∃ r, Means cs r := by
  simp only [exists_mapM_part?_iff, parts_eq, List.forall_mem_map, means_iff]

theorem mem_iff_of_mapM_parts (h : (parts text.toList).mapM part? = some ranges) :
    r ∈ ranges ↔ ∃ cs ∈ segments text, Means cs r := by
  rw [mem_iff_of_mapM_part? h, parts_eq]
  constructor
  · rintro ⟨_, hmem, hpart⟩
    obtain ⟨cs, hcs, rfl⟩ := List.mem_map.1 hmem
    exact ⟨cs, hcs, means_iff.2 hpart⟩
  · rintro ⟨cs, hcs, hmeans⟩
    exact ⟨_, List.mem_map_of_mem hcs, means_iff.1 hmeans⟩

theorem ranges_eq_nil_iff (h : (parts text.toList).mapM part? = some ranges) :
    ranges = [] ↔ segments text = [] := by
  constructor
  · rintro rfl
    refine List.eq_nil_iff_forall_not_mem.2 fun cs hcs => ?_
    obtain ⟨r, hr⟩ := exists_mapM_parts_iff.1 ⟨_, h⟩ cs hcs
    exact List.not_mem_nil ((mem_iff_of_mapM_parts h).2 ⟨cs, hcs, hr⟩)
  · intro hnil
    refine List.eq_nil_iff_forall_not_mem.2 fun r hr => ?_
    obtain ⟨cs, hcs, -⟩ := (mem_iff_of_mapM_parts h).1 hr
    rw [hnil] at hcs
    exact List.not_mem_nil hcs

theorem mem_flatMap_cover_iff {cpu : Nat} (h : (parts text.toList).mapM part? = some ranges) :
    cpu ∈ ranges.flatMap cover ↔ Covers text cpu := by
  rw [List.mem_flatMap]
  constructor
  · rintro ⟨r, hr, hcpu⟩
    obtain ⟨cs, hcs, hmeans⟩ := (mem_iff_of_mapM_parts h).1 hr
    exact ⟨cs, hcs, r, hmeans, mem_cover_iff.1 hcpu⟩
  · rintro ⟨cs, hcs, r, hmeans, hcpu⟩
    exact ⟨r, (mem_iff_of_mapM_parts h).2 ⟨cs, hcs, hmeans⟩, mem_cover_iff.2 hcpu⟩

end Ranges

/-- A list is read if there are parts and all of them mean something. What is read is the ascending
list of the CPUs that the parts mean. -/
theorem parse?_eq_some_iff {text : String} {cpus : List Nat} :
    parse? text = some cpus ↔ segments text ≠ [] ∧ (∀ cs ∈ segments text, ∃ r, Means cs r) ∧
      cpus.Pairwise (· < ·) ∧ ∀ cpu, cpu ∈ cpus ↔ Covers text cpu := by
  rw [← exists_mapM_parts_iff]
  simp only [parse?, Option.bind_eq_bind, Option.bind_eq_some_iff]
  constructor
  · rintro ⟨ranges, hranges, h⟩
    split at h
    · cases h
    · next hne =>
        cases h
        refine ⟨mt (ranges_eq_nil_iff hranges).2 hne, ⟨ranges, hranges⟩, normalize_ascending _,
          fun cpu => ?_⟩
        rw [mem_normalize, mem_flatMap_cover_iff hranges]
  · rintro ⟨hne, ⟨ranges, hranges⟩, hascending, hmem⟩
    refine ⟨ranges, hranges, ?_⟩
    rw [if_neg (mt (ranges_eq_nil_iff hranges).1 hne)]
    refine congrArg some ((normalize_ascending _).eq_of_mem_iff hascending fun cpu => ?_)
    rw [mem_normalize, mem_flatMap_cover_iff hranges, hmem]

theorem parse?_eq_none_iff {text : String} : parse? text = none ↔
    segments text = [] ∨ ∃ cs ∈ segments text, ∀ r, ¬Means cs r := by
  constructor
  · intro hnone
    by_contra hmeans
    push Not at hmeans
    obtain ⟨ranges, hranges⟩ := exists_mapM_parts_iff.2 hmeans.2
    have hread : parse? text = some (normalize (ranges.flatMap cover)) := by
      refine parse?_eq_some_iff.2 ⟨hmeans.1, hmeans.2, normalize_ascending _, fun cpu => ?_⟩
      rw [mem_normalize, mem_flatMap_cover_iff hranges]
    rw [hnone] at hread
    cases hread
  · intro h
    refine Option.eq_none_iff_forall_ne_some.2 fun cpus hread => ?_
    obtain ⟨hne, hmeans, -⟩ := parse?_eq_some_iff.1 hread
    rcases h with hnil | ⟨cs, hcs, hnone⟩
    · exact hne hnil
    · obtain ⟨r, hr⟩ := hmeans cs hcs
      exact hnone r hr

end RegisterAtlas.CpuList
