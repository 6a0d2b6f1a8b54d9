import RegisterAtlas.Proofs.Pci.Names
import RegisterAtlas.Proofs.Storage.Directories
import RegisterAtlas.Proofs.Storage.Files
import Mathlib.Data.List.Pairwise

/-!
# Enumerations of PCI functions

An enumeration reads every pair of names in a bus directory, leaves out those that are not names of
functions, and sorts what is left (`enumerate_eq`). So functions with files at their nodes are
enumerated exactly, each once and in ascending order, whatever else there is, as long as it cannot
be read as the file of a function.
-/

namespace RegisterAtlas.Pci

namespace Address

variable {a b : Address}

/-! ## The order of addresses -/

/-- The order by segment, bus, device and function. -/
def Precedes (a b : Address) : Prop :=
  a.segment < b.segment ∨ a.segment = b.segment ∧
    (a.bus < b.bus ∨ a.bus = b.bus ∧
      (a.device < b.device ∨ a.device = b.device ∧ a.function < b.function))

theorem rank_lt_iff : a.rank < b.rank ↔ a.Precedes b := by
  have := a.bus.toNat_lt; have := a.device.toNat_lt; have := a.function.toNat_lt
  have := b.bus.toNat_lt; have := b.device.toNat_lt; have := b.function.toNat_lt
  simp only [Precedes, rank, UInt16.lt_iff_toNat_lt, UInt8.lt_iff_toNat_lt, ← UInt16.toNat_inj,
    ← UInt8.toNat_inj]
  omega

theorem sort_perm (addresses : List Address) : (sort addresses).Perm addresses :=
  List.mergeSort_perm ..

theorem pairwise_sort (addresses : List Address) :
    (sort addresses).Pairwise fun a b => a.rank ≤ b.rank := by
  have hsorted : (sort addresses).Pairwise fun a b => decide (a.rank ≤ b.rank) = true :=
    List.pairwise_mergeSort
      (fun a b c hab hbc => by simp only [decide_eq_true_eq] at *; omega)
      (fun a b => by simp only [Bool.or_eq_true, decide_eq_true_eq]; omega) addresses
  exact hsorted.imp of_decide_eq_true

/-- Addresses without repetition are sorted into ascending order. -/
theorem pairwise_precedes_sort {addresses : List Address} (h : addresses.Nodup) :
    (sort addresses).Pairwise Precedes := by
  have hnodup : (sort addresses).Nodup := (sort_perm addresses).nodup_iff.2 h
  refine (pairwise_sort addresses).imp₂ (fun a b hle hne => ?_) hnodup
  exact rank_lt_iff.1 (Nat.lt_of_le_of_ne hle fun heq => hne (rank_inj heq))

end Address

/-! ## What is enumerated -/

section

variable {d : Disk} {root : String} {place : Location} {a : Address}

/-- The functions that the pairs of names below a location are read as. -/
def functionsBelow (d : Disk) (place : Location) : List Address :=
  (d.namePairs place).filterMap fun pair => Address.ofNames? pair.1 pair.2

theorem mem_functionsBelow_iff :
    a ∈ functionsBelow d place ↔
      ∃ pair ∈ d.namePairs place, Address.ofNames? pair.1 pair.2 = some a := List.mem_filterMap

theorem enumerateBus_eq (d : Disk) (place : Location) (directory : String) :
    enumerateBus d directory (place ++ [directory]) =
      .ok ((d.pairsIn place directory).filterMap fun pair => Address.ofNames? pair.1 pair.2) := by
  by_cases hdir : d.isDirectory (place ++ [directory]) = true
  · rw [enumerateBus, Disk.pairsIn, if_pos hdir, List.filterMap_map]
    cases hbus : Address.parseBusName? directory.toList with
    | none =>
        have hnone : ∀ name ∈ d.names (place ++ [directory]),
            Address.ofNames? directory name = none := by
          simp [Address.ofNames?, hbus]
        exact congrArg Except.ok (List.filterMap_eq_nil_iff.2 hnone).symm
    | some numbers =>
        dsimp only
        rw [if_pos hdir, Disk.list_eq hdir]
        refine congrArg Except.ok ((List.filterMap_map ..).trans (List.filterMap_congr ?_))
        intro name _
        cases hfunction : Address.parseFunctionName? name.toList <;>
          simp [Address.ofNames?, hbus, hfunction]
  · rw [enumerateBus, Disk.pairsIn, if_neg hdir]
    cases Address.parseBusName? directory.toList with
    | none => rfl
    | some numbers => exact if_neg hdir

theorem enumerate_eq (hroot : d.locate root = .ok place) (hdir : d.isDirectory place = true) :
    enumerate d root = .ok (Address.sort (functionsBelow d place)) := by
  have hbuses : ((d.names place).map fun name => (name, place ++ [name])).mapM
      (fun bus : String × Location => enumerateBus d bus.1 bus.2) =
      .ok ((d.names place).map fun directory =>
        (d.pairsIn place directory).filterMap fun pair => Address.ofNames? pair.1 pair.2) := by
    rw [List.mapM_map]
    simp only [Function.comp_def, enumerateBus_eq]
    exact List.mapM_pure
  rw [functionsBelow, Disk.namePairs, List.filterMap_flatMap, List.flatMap_def, enumerate, hroot]
  simp only [bind, Except.bind, Disk.list_eq hdir, hbuses]
  rfl

/-! ## Functions with files at their nodes -/

/-- Whatever is read as a function is spelled as in the node of the function. -/
def Spelled (d : Disk) (place : Location) : Prop :=
  ∀ pair ∈ d.namePairs place, ∀ a, Address.ofNames? pair.1 pair.2 = some a →
    pair = (a.busName, a.functionName)

theorem Spelled.nodup (h : Spelled d place) : (functionsBelow d place).Nodup := by
  refine List.pairwise_filterMap.2 ((d.nodup_namePairs place).imp_of_mem ?_)
  intro pair pair' hpair hpair' hne a ha a' ha' heq
  subst heq
  exact hne ((h pair hpair a ha).trans (h pair' hpair' a ha').symm)

/-- The functions of a set have files at their nodes, and nothing else can be read as the file of a
function: other names are refused as the name of a bus or as the name of a function. -/
structure LaidOut (d : Disk) (place : Location) (functions : Set Address) : Prop where
  isValid : ∀ a ∈ functions, a.IsValid
  isDirectory : ∀ a ∈ functions, d.isDirectory (place ++ [a.busName]) = true
  isFile : ∀ a ∈ functions, (d.image? (place ++ [a.busName, a.functionName])).isSome
  others : ∀ pair ∈ d.namePairs place, (∃ a ∈ functions, pair = (a.busName, a.functionName)) ∨
    Address.parseBusName? pair.1.toList = none ∨ Address.parseFunctionName? pair.2.toList = none

namespace LaidOut

variable {functions : Set Address}

theorem mem_namePairs (h : LaidOut d place functions) (ha : a ∈ functions) :
    (a.busName, a.functionName) ∈ d.namePairs place := by
  obtain ⟨image, himage⟩ := Option.isSome_iff_exists.1 (h.isFile a ha)
  refine Disk.mem_namePairs_iff.2 ⟨h.isDirectory a ha, ?_⟩
  rw [Disk.image?_eq_some_iff.1 himage]
  rfl

/-- What is read as a function is one of the set and spelled as in its node. -/
theorem eq_of_ofNames? (h : LaidOut d place functions) {pair : String × String}
    (hpair : pair ∈ d.namePairs place) (ha : Address.ofNames? pair.1 pair.2 = some a) :
    a ∈ functions ∧ pair = (a.busName, a.functionName) := by
  obtain ⟨hbus, hfunction⟩ := Address.ofNames?_eq_some_iff.1 ha
  rcases h.others pair hpair with ⟨b, hb, rfl⟩ | hrefused | hrefused
  · rw [Address.ofNames?_names (h.isValid b hb)] at ha
    cases ha
    exact ⟨hb, rfl⟩
  · rw [hrefused] at hbus
    cases hbus
  · rw [hrefused] at hfunction
    cases hfunction

theorem spelled (h : LaidOut d place functions) : Spelled d place :=
  fun _ hpair _ ha => (h.eq_of_ofNames? hpair ha).2

theorem mem_functionsBelow_iff (h : LaidOut d place functions) :
    a ∈ functionsBelow d place ↔ a ∈ functions := by
  rw [Pci.mem_functionsBelow_iff]
  constructor
  · rintro ⟨pair, hpair, ha⟩
    exact (h.eq_of_ofNames? hpair ha).1
  · intro ha
    exact ⟨_, h.mem_namePairs ha, Address.ofNames?_names (h.isValid a ha)⟩

end LaidOut

end

/-- The node of a function is cut at its slash into two names that are read back as the address of
the function, so functions have different nodes. A set of functions with files at their nodes is
enumerated exactly, without repetition and in ascending order, whatever else there is that cannot be
read as the file of a function. The disk lists what there is in any order. -/
theorem enumerate_laidOut :
    (∀ a : Address, a.IsValid →
      a.node.toList.splitOn '/' = [a.busName.toList, a.functionName.toList] ∧
        Address.parseBusName? a.busName.toList = some (a.segment, a.bus) ∧
        Address.parseFunctionName? a.functionName.toList = some (a.device, a.function)) ∧
    Set.InjOn Address.node {a | a.IsValid} ∧
    ∀ (d : Disk) (root : String) (place : Location) (functions : Set Address),
      d.locate root = .ok place → d.isDirectory place = true → LaidOut d place functions →
        ∃ found, enumerate d root = .ok found ∧ (∀ a, a ∈ found ↔ a ∈ functions) ∧
          found.Nodup ∧ found.Pairwise Address.Precedes := by
  refine ⟨fun a h => ⟨a.splitOn_node, a.parseBusName?_busName,
    Address.parseFunctionName?_functionName h⟩, fun a ha b hb h => (Address.node_inj ha hb).1 h, ?_⟩
  intro d root place functions hroot hdir h
  have hperm := Address.sort_perm (functionsBelow d place)
  refine ⟨_, enumerate_eq hroot hdir, fun a => hperm.mem_iff.trans h.mem_functionsBelow_iff, ?_, ?_⟩
  · exact hperm.nodup_iff.2 h.spelled.nodup
  · exact Address.pairwise_precedes_sort h.spelled.nodup

/-- A bus directory with two functions, listed in descending order, among names that are refused: a
directory of drivers, a file in the place of a bus, and files that are no functions. -/
def busDisk : Disk :=
  [["pci", "0001:02", "00.0"], ["pci", "drivers", "00.0"], ["pci", "devices"], ["pci", "01"],
    ["pci", "00", "README"], ["pci", "00", "1f.9"], ["pci", "00", "1f.3"]].foldl
    (fun d place => d.addFile place (Image.zeros 256)) .empty

theorem enumerate_laidOut_busDisk :
    LaidOut busDisk ["pci"] {⟨0, 0, 0x1F, 3⟩, ⟨1, 2, 0, 0⟩} ∧
      ∃ found, enumerate busDisk "pci" = .ok found ∧ ⟨0, 0, 0x1F, 3⟩ ∈ found ∧
        ⟨1, 2, 0, 0⟩ ∈ found ∧ ⟨0, 0, 0, 0⟩ ∉ found ∧ found.Pairwise Address.Precedes := by
  have hlaidOut : LaidOut busDisk ["pci"] {⟨0, 0, 0x1F, 3⟩, ⟨1, 2, 0, 0⟩} := by
    have hothers : ∀ pair ∈ busDisk.namePairs ["pci"],
        pair = ("00", "1f.3") ∨ pair = ("0001:02", "00.0") ∨
          Address.parseBusName? pair.1.toList = none ∨
          Address.parseFunctionName? pair.2.toList = none := by decide +kernel
    constructor
    · rintro a (rfl | rfl) <;> exact ⟨by decide, by decide⟩
    · rintro a (rfl | rfl) <;> decide +kernel
    · rintro a (rfl | rfl) <;> decide +kernel
    · intro pair hpair
      rcases hothers pair hpair with rfl | rfl | hrefused
      · exact .inl ⟨⟨0, 0, 0x1F, 3⟩, .inl rfl, by decide +kernel⟩
      · exact .inl ⟨⟨1, 2, 0, 0⟩, .inr rfl, by decide +kernel⟩
      · exact .inr hrefused
  obtain ⟨found, hfound, hmem, -, hsorted⟩ := enumerate_laidOut.2.2 busDisk "pci" ["pci"] _
    (by decide +kernel) (by decide +kernel) hlaidOut
  exact ⟨hlaidOut, found, hfound, (hmem _).2 (.inl rfl), (hmem _).2 (.inr rfl),
    fun h => by simpa using (hmem _).1 h, hsorted⟩

end RegisterAtlas.Pci
