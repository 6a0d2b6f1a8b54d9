import RegisterAtlas.Storage.Disk
import Mathlib.Data.List.Nodup

/-!
# Names in directories

What a directory lists are the names of what there is in it, each of them once. A name that is
joined to the name of a directory is followed from that directory on.
-/

namespace RegisterAtlas

namespace Text

theorem utf8ByteSize_le (s : String) : s.utf8ByteSize ≤ 4 * s.length := by
  have hchars : ∀ cs : List Char, (String.ofList cs).utf8ByteSize ≤ 4 * cs.length := by
    intro cs
    induction cs with
    | nil => exact Nat.le_refl 0
    | cons c cs ih =>
        have hc := c.utf8Size_le_four
        rw [String.ofList_cons, String.utf8ByteSize_append, String.utf8ByteSize_singleton,
          List.length_cons]
        omega
  have hsize := hchars s.toList
  rwa [String.ofList_toList, String.length_toList] at hsize

end Text

namespace Disk

variable {d : Disk} {place : Location} {name : String}

/-! ## Listings -/

/-- The names in a directory, in the order in which the disk lists them. -/
def names (d : Disk) (place : Location) : List String :=
  d.contents.keys.filterMap fun loc => if loc.dropLast = place then loc.getLast? else none

theorem getLast?_below_iff {loc : Location} :
    (if loc.dropLast = place then loc.getLast? else none) = some name ↔ loc = place ++ [name] := by
  rw [Option.ite_none_right_eq_some, List.getLast?_eq_some_iff]
  constructor
  · rintro ⟨hplace, front, rfl⟩
    rw [← hplace, List.dropLast_concat]
  · rintro rfl
    exact ⟨List.dropLast_concat, place, rfl⟩

theorem list_eq (h : d.isDirectory place = true) :
    d.list place = .ok ((d.names place).map fun name => (name, place ++ [name])) := by
  rw [list, if_pos h, names, List.map_filterMap]
  refine congrArg Except.ok (List.filterMap_congr fun loc _ => ?_)
  by_cases hloc : loc.dropLast = place
  · cases hlast : loc.getLast? with
    | none => simp
    | some name =>
        have hbelow : loc = place ++ [name] := getLast?_below_iff.1 ((if_pos hloc).trans hlast)
        simp [hbelow]
  · cases loc.getLast? <;> simp [hloc]

theorem mem_names_iff : name ∈ d.names place ↔ (d.content? (place ++ [name])).isSome := by
  have hcontent : d.content? (place ++ [name]) = d.contents.get? (place ++ [name]) :=
    if_neg (List.append_ne_nil_of_right_ne_nil _ (List.cons_ne_nil _ _))
  rw [hcontent, names, List.mem_filterMap, ← Table.contains, Table.contains_iff]
  simp only [getLast?_below_iff, exists_eq_right]

theorem nodup_names (d : Disk) (place : Location) : (d.names place).Nodup := by
  refine List.Nodup.filterMap (fun loc loc' name h h' => ?_) d.contents.nodup_keys
  rw [getLast?_below_iff.1 h, getLast?_below_iff.1 h']

theorem isSome_of_isDirectory (h : d.isDirectory place = true) : (d.content? place).isSome := by
  unfold isDirectory at h
  split at h
  · next hcontent => rw [hcontent]; rfl
  · cases h

/-- The names in a directory in a directory, each behind the name of the one that it is in. -/
def pairsIn (d : Disk) (place : Location) (directory : String) : List (String × String) :=
  if d.isDirectory (place ++ [directory]) then
    (d.names (place ++ [directory])).map fun name => (directory, name)
  else []

theorem mem_pairsIn_iff {directory : String} {pair : String × String} :
    pair ∈ d.pairsIn place directory ↔
      pair.1 = directory ∧ d.isDirectory (place ++ [directory]) = true ∧
        pair.2 ∈ d.names (place ++ [directory]) := by
  obtain ⟨first, second⟩ := pair
  rw [pairsIn]
  split
  · next hdir => simp [hdir, and_comm, eq_comm]
  · next hdir => simp [hdir]

/-- The names in all the directories in a directory, each behind the name of the one that it is
in. -/
def namePairs (d : Disk) (place : Location) : List (String × String) :=
  (d.names place).flatMap (d.pairsIn place)

theorem mem_namePairs_iff {directory : String} :
    (directory, name) ∈ d.namePairs place ↔
      d.isDirectory (place ++ [directory]) = true ∧
        (d.content? (place ++ [directory, name])).isSome := by
  have hplace : place ++ [directory] ++ [name] = place ++ [directory, name] := List.append_assoc ..
  rw [namePairs, List.mem_flatMap, ← hplace, ← mem_names_iff]
  constructor
  · rintro ⟨other, -, hmem⟩
    obtain ⟨rfl, hdir, hname⟩ := mem_pairsIn_iff.1 hmem
    exact ⟨hdir, hname⟩
  · rintro ⟨hdir, hname⟩
    exact ⟨directory, mem_names_iff.2 (isSome_of_isDirectory hdir),
      mem_pairsIn_iff.2 ⟨rfl, hdir, hname⟩⟩

theorem nodup_namePairs (d : Disk) (place : Location) : (d.namePairs place).Nodup := by
  refine List.nodup_flatMap.2 ⟨fun directory _ => ?_, (d.nodup_names place).imp ?_⟩
  · rw [pairsIn]
    split
    · exact (d.nodup_names _).map fun name name' h => (Prod.ext_iff.1 h).2
    · exact List.nodup_nil
  · -- pairs out of different directories differ in their first names
    intro directory directory' hne pair hpair hpair'
    exact hne ((mem_pairsIn_iff.1 hpair).1.symm.trans (mem_pairsIn_iff.1 hpair').1)

/-! ## Following names -/

theorem descend_append (d : Disk) (front back : List String) (place : Location) :
    d.descend place (front ++ back) = d.descend place front >>= fun p => d.descend p back := by
  induction front generalizing place with
  | nil => rfl
  | cons part front ih =>
      simp only [List.cons_append, descend]
      split
      · split
        · exact ih place
        split
        · exact ih place.dropLast
        split
        · rfl
        split
        · exact ih (place ++ [part])
        · rfl
      · rfl

/-- A part of a name that stands for something in a directory. -/
structure IsEntryName (part : String) : Prop where
  ne_empty : part ≠ ""
  ne_dot : part ≠ "."
  ne_dots : part ≠ ".."
  size_le : part.utf8ByteSize ≤ 255

/-- A name is one of something in a directory if it can be read as something that dots are not read
as. -/
theorem isEntryName_of_reads {α : Type} {read : List Char → Option α} {x : α} {name : String}
    (h : read name.toList = some x) (hempty : read [] = none) (hdot : read ['.'] = none)
    (hdots : read ['.', '.'] = none) (hlength : name.length ≤ 63) : IsEntryName name := by
  have hne : ∀ {other : String}, read other.toList = none → name ≠ other := by
    rintro other hother rfl
    rw [hother] at h
    cases h
  have hsize := Text.utf8ByteSize_le name
  exact ⟨hne hempty, hne hdot, hne hdots, by omega⟩

theorem descend_cons {part : String} (h : IsEntryName part) (rest : List String) :
    d.descend place (part :: rest) =
      if d.isDirectory place then
        if (d.content? (place ++ [part])).isSome then d.descend (place ++ [part]) rest
        else .error .noEntry
      else .error .notDirectory := by
  rw [descend, if_neg (not_or.2 ⟨h.ne_empty, h.ne_dot⟩), if_neg h.ne_dots,
    if_neg (Nat.not_lt.2 h.size_le)]
  cases d.content? (place ++ [part]) <;> rfl

/-- Two names are followed exactly to what is there under these names. -/
theorem descend_pair_eq_ok_iff {directory : String} {other : Location}
    (hdir : d.isDirectory place = true) (hdirectory : IsEntryName directory)
    (hname : IsEntryName name) :
    d.descend place [directory, name] = .ok other ↔
      (directory, name) ∈ d.namePairs place ∧ other = place ++ [directory, name] := by
  have hplace : place ++ [directory] ++ [name] = place ++ [directory, name] := List.append_assoc ..
  rw [descend_cons hdirectory, if_pos hdir, descend_cons hname, hplace, descend, mem_namePairs_iff]
  by_cases hbelow : d.isDirectory (place ++ [directory]) = true
  · rw [if_pos (isSome_of_isDirectory hbelow), if_pos hbelow]
    by_cases hcontent : (d.content? (place ++ [directory, name])).isSome
    · simp [hbelow, hcontent, eq_comm]
    · simp [hcontent]
  · rw [if_neg hbelow]
    split <;> simp [hbelow]

/-- The names that one after the other make up a name. -/
def parts (name : String) : List String := (name.toList.splitOn '/').map String.ofList

theorem locate_eq (d : Disk) (name : String) :
    d.locate name =
      if '\x00' ∈ name.toList then .error .nulInName
      else if name.toList = [] then .error .noEntry
      else if 4096 ≤ name.utf8ByteSize then .error .nameTooLong
      else d.descend (if name.toList.head? = some '/' then [] else d.workingDirectory)
        (parts name) := rfl

theorem locate_eq_ok_iff :
    d.locate name = .ok place ↔
      '\x00' ∉ name.toList ∧ name.toList ≠ [] ∧ name.utf8ByteSize < 4096 ∧
        d.descend (if name.toList.head? = some '/' then [] else d.workingDirectory) (parts name) =
          .ok place := by
  rw [locate_eq, ← Nat.not_le]
  by_cases hnul : '\x00' ∈ name.toList
  · simp [hnul]
  by_cases hempty : name.toList = []
  · simp [hempty]
  by_cases hsize : 4096 ≤ name.utf8ByteSize
  · rw [if_neg hnul, if_neg hempty, if_pos hsize]
    simp [hsize]
  rw [if_neg hnul, if_neg hempty, if_neg hsize]
  simp only [hnul, hempty, hsize, ne_eq, not_false_eq_true, true_and]

theorem joinNames_eq {root : String} {front : List Char} {last : Char}
    (hroot : root.toList = front ++ [last]) (hname : name.toList.head? ≠ some '/') :
    joinNames root name = if last = '/' then root ++ name else root ++ "/" ++ name := by
  unfold joinNames
  rw [hroot, List.getLast?_concat]
  split
  · next rest last' htext => exact (hname (by rw [htext]; rfl)).elim
  · next hlast _ => cases hlast
  · next hlast _ => rw [if_pos (Option.some.inj hlast)]
  · next hlast => rw [if_neg (fun hslash => hlast (congrArg some hslash))]

/-- A name that is no absolute one is joined behind a slash, which may be there already. -/
theorem toList_joinNames {root : String} (hroot : root.toList ≠ [])
    (hname : name.toList.head? ≠ some '/') :
    ∃ front, (joinNames root name).toList = front ++ '/' :: name.toList ∧
      (root.toList = front ∨ root.toList = front ++ ['/']) := by
  obtain ⟨front, last, hlast⟩ := (List.eq_nil_or_concat' root.toList).resolve_left hroot
  have hjoin := joinNames_eq hlast hname
  by_cases hslash : last = '/'
  · refine ⟨front, ?_, .inr (hslash ▸ hlast)⟩
    rw [hjoin, if_pos hslash, String.toList_append, hlast, hslash, List.append_assoc]
    rfl
  · refine ⟨root.toList, ?_, .inl rfl⟩
    rw [hjoin, if_neg hslash, String.toList_append, String.toList_append, List.append_assoc]
    rfl

/-- A joined name is followed from where the first one leads to. -/
theorem locate_joinNames {root : String} (h : d.locate root = .ok place)
    (hname : name.toList.head? ≠ some '/') (hnul : '\x00' ∉ name.toList)
    (hsize : (joinNames root name).utf8ByteSize < 4096) :
    d.locate (joinNames root name) = d.descend place (parts name) := by
  obtain ⟨hroot, hempty, -, hdescend⟩ := locate_eq_ok_iff.1 h
  obtain ⟨front, hjoin, hfront⟩ := toList_joinNames hempty hname
  have hnul' : '\x00' ∉ (joinNames root name).toList := by
    have hnone : '\x00' ∉ front := by
      rcases hfront with hfront | hfront <;> rw [hfront] at hroot
      · exact hroot
      · exact fun hmem => hroot (List.mem_append_left _ hmem)
    simp [hjoin, hnone, hnul]
  have hhead : (joinNames root name).toList.head? = root.toList.head? := by
    rcases hfront with hfront | hfront
    · obtain ⟨c, cs, hcons⟩ := List.exists_cons_of_ne_nil hempty
      rw [hjoin, ← hfront, hcons]
      rfl
    · rw [hjoin, hfront, List.head?_append, List.head?_append]
      rfl
  have hstart : d.descend (if root.toList.head? = some '/' then [] else d.workingDirectory)
      ((front.splitOn '/').map String.ofList) = .ok place := by
    generalize (if root.toList.head? = some '/' then [] else d.workingDirectory) = start at *
    rcases hfront with hfront | hfront
    · rwa [parts, hfront] at hdescend
    · -- the last part is empty, so it leads nowhere else
      rw [parts, hfront, List.splitOn_append_cons_self, List.map_append, descend_append] at hdescend
      cases hbefore : d.descend start ((front.splitOn '/').map String.ofList) with
      | error e =>
          rw [hbefore] at hdescend
          cases hdescend
      | ok before =>
          rw [hbefore] at hdescend
          change d.descend before [""] = _ at hdescend
          rw [descend] at hdescend
          split at hdescend
          · exact hdescend
          · cases hdescend
  rw [locate_eq, if_neg hnul', if_neg (by simp [hjoin]), if_neg (Nat.not_le.2 hsize), hhead, parts,
    hjoin, List.splitOn_append_cons_self, List.map_append, descend_append, hstart]
  rfl

end Disk

end RegisterAtlas
