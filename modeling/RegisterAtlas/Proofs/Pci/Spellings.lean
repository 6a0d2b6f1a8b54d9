import RegisterAtlas.Description.System
import RegisterAtlas.Proofs.Discovery.Visits
import RegisterAtlas.Proofs.Pci.Enumeration
import RegisterAtlas.Proofs.Storage.Views

/-!
# Spellings of PCI functions

A number in a name can be spelled with zeros in front, with a plus sign, or with capital letters,
and every spelling is read. So a bus directory may hold several names of one function, and each of
them counts. The space of a function opens the file at its node though, whether the function has
been read from the names of the node or from others. Functions are found once, and each at its own
file, exactly if nothing is spelled otherwise (`nodup_and_mem_iff_spelled`).
-/

namespace RegisterAtlas.Pci

namespace Address

variable {a : Address}

theorem isEntryName_busName (a : Address) : Disk.IsEntryName a.busName :=
  Disk.isEntryName_of_reads (parseBusName?_busName a) rfl rfl rfl
    (Nat.le_trans a.length_busName_le (by decide))

theorem isEntryName_functionName (h : a.IsValid) : Disk.IsEntryName a.functionName :=
  Disk.isEntryName_of_reads (parseFunctionName?_functionName h) rfl rfl rfl
    (Nat.le_trans a.length_functionName_le (by decide))

theorem head?_node (a : Address) : a.node.toList.head? ≠ some '/' := by
  intro hhead
  have hslash : '/' ∉ a.busName.toList := notMem_busName (by decide) (by decide) a
  rw [toList_node] at hhead
  cases hbus : a.busName.toList with
  | nil => exact a.isEntryName_busName.ne_empty (String.toList_eq_nil_iff.1 hbus)
  | cons c cs =>
      rw [hbus, List.cons_append, List.head?_cons] at hhead
      rw [hbus, Option.some.inj hhead] at hslash
      exact hslash List.mem_cons_self

theorem nul_notMem_node (a : Address) : '\x00' ∉ a.node.toList := by
  have hbus : '\x00' ∉ a.busName.toList := notMem_busName (by decide) (by decide) a
  have hfunction : '\x00' ∉ a.functionName.toList := notMem_functionName (by decide) (by decide) a
  simp [toList_node, hbus, hfunction]

theorem parts_node (a : Address) : Disk.parts a.node = [a.busName, a.functionName] := by
  simp [Disk.parts, splitOn_node]

end Address

/-! ## Spaces of functions -/

/-- The space that discovery makes for a function in a bus directory. -/
abbrev nodeSpace (root : String) (a : Address) : Space := .pci a (joinNames root a.node)

variable {d : Disk} {root : String} {place : Location} {a : Address}

/-- The space of a function opens what is there under the names of its node, if they are not too
long together with the name of the bus directory. -/
theorem opens_nodeSpace_iff (hroot : d.locate root = .ok place)
    (hdir : d.isDirectory place = true) (ha : a.IsValid) {other : Location} :
    (nodeSpace root a).Opens d other ↔
      (joinNames root a.node).utf8ByteSize < 4096 ∧
        (a.busName, a.functionName) ∈ d.namePairs place ∧
        other = place ++ [a.busName, a.functionName] := by
  rw [Space.Opens]
  by_cases hsize : (joinNames root a.node).utf8ByteSize < 4096
  · rw [Disk.locate_joinNames hroot a.head?_node a.nul_notMem_node hsize, a.parts_node,
      Disk.descend_pair_eq_ok_iff hdir a.isEntryName_busName (Address.isEntryName_functionName ha)]
    simp only [hsize, true_and]
  · exact ⟨fun h => (hsize (Disk.locate_eq_ok_iff.1 h).2.2.1).elim, fun h => (hsize h.1).elim⟩

/-- Different functions have different files open. -/
theorem opens_nodeSpace_inj (hroot : d.locate root = .ok place)
    (hdir : d.isDirectory place = true) (ha : a.IsValid) {b : Address} (hb : b.IsValid)
    {other : Location} (h : (nodeSpace root a).Opens d other)
    (h' : (nodeSpace root b).Opens d other) : a = b := by
  have hplace := ((opens_nodeSpace_iff hroot hdir ha).1 h).2.2.symm.trans
    ((opens_nodeSpace_iff hroot hdir hb).1 h').2.2
  have hnames : a.busName = b.busName ∧ a.functionName = b.functionName := by
    simpa using List.append_cancel_left hplace
  refine (Address.node_inj ha hb).1 ?_
  rw [Address.node, Address.node, hnames.1, hnames.2]

theorem isValid_of_mem_functionsBelow (h : a ∈ functionsBelow d place) : a.IsValid := by
  obtain ⟨pair, -, ha⟩ := mem_functionsBelow_iff.1 h
  exact Address.isValid_of_ofNames? ha

/-- If no function is read twice, each is read from one pair of names. -/
theorem eq_of_ofNames?_eq (h : (functionsBelow d place).Nodup) {pair pair' : String × String}
    (hpair : pair ∈ d.namePairs place) (hpair' : pair' ∈ d.namePairs place)
    (ha : Address.ofNames? pair.1 pair.2 = some a)
    (ha' : Address.ofNames? pair'.1 pair'.2 = some a) : pair = pair' := by
  have hsymm : Std.Symm fun pair pair' : String × String =>
      ∀ b, Address.ofNames? pair.1 pair.2 = some b →
        ∀ b', Address.ofNames? pair'.1 pair'.2 = some b' → b ≠ b' :=
    ⟨fun _ _ h b hb b' hb' => (h b' hb' b hb).symm⟩
  refine Decidable.byContradiction fun hne => ?_
  exact (List.pairwise_filterMap.1 h).forall hpair hpair' hne a ha a ha' rfl

/-- Functions are read once and have files at their nodes exactly if nothing is spelled otherwise.
-/
theorem nodup_and_mem_iff_spelled :
    ((functionsBelow d place).Nodup ∧
      ∀ a ∈ functionsBelow d place, (a.busName, a.functionName) ∈ d.namePairs place) ↔
      Spelled d place := by
  constructor
  · rintro ⟨hnodup, hmem⟩ pair hpair a ha
    have hfound : a ∈ functionsBelow d place := mem_functionsBelow_iff.2 ⟨pair, hpair, ha⟩
    exact eq_of_ofNames?_eq hnodup hpair (hmem a hfound) ha
      (Address.ofNames?_names (isValid_of_mem_functionsBelow hfound))
  · intro h
    refine ⟨h.nodup, fun a hfound => ?_⟩
    obtain ⟨pair, hpair, ha⟩ := mem_functionsBelow_iff.1 hfound
    exact h pair hpair a ha ▸ hpair

/-- Nothing is spelled otherwise exactly if what is read as a function has the form of its names. -/
theorem spelled_iff_form :
    Spelled d place ↔ ∀ pair ∈ d.namePairs place, ∀ a, Address.ofNames? pair.1 pair.2 = some a →
      Address.BusForm pair.1.toList ∧ Address.FunctionForm pair.2.toList :=
  forall₄_congr fun _ _ _ ha => Address.names_eq_iff ha

/-! ## Discovery -/

/-- The driver for the functions in a bus directory visits those that are enumerated, each as often
as it is listed. -/
theorem fileDriver_discovers {c : Config} (hroot : c.systemPath "/proc/bus/pci" = root)
    (history : List (Registration Machine Address Identity Criterion)) {m : Machine}
    {found : List Address} (hfound : enumerate m.disk root = .ok found) :
    ∃ run, (fileDriver c (.ofHistory history)).discover = some run ∧ ∀ draft,
      Discovers Probes (InCharge Criterion.Matches history)
        (found.map fun a => (a, nodeSpace root a)) (draft, m) (run.runOn (draft, m)) := by
  subst hroot
  refine ⟨_, rfl, fun draft => ?_⟩
  rw [Action.runOn_bind, Describe.runOn_access, Action.runOn_mapError, Action.runOn_mapError]
  have hrun : (Machine.readingDisk (enumerate · (c.systemPath "/proc/bus/pci"))).runOn m =
      (.ok found, m) := by
    rw [← hfound]
    rfl
  rw [hrun]
  exact describeAll_discovers probes_probe
    (fun identity => (Registry.inCharge_iff accepts_iff).2 rfl) _ _

/-- A bus directory is always enumerated, and every function is listed as often as there are names
that are read as the function. Each is listed once, with something under the names of its node,
exactly if nothing is spelled otherwise than in a node; and this is so exactly if the names that are
read as functions all have the one form. The space of a listed function opens just what is there
under the names of its node. So if nothing is spelled otherwise, no two of them have the same file
open, and the driver that visits them one after the other meets none twice. -/
theorem enumerate_spelled {d : Disk} {root : String} {place : Location}
    (hroot : d.locate root = .ok place) (hdir : d.isDirectory place = true) :
    ∃ found, enumerate d root = .ok found ∧
      (∀ a, found.count a =
        (d.namePairs place).countP fun pair => Address.ofNames? pair.1 pair.2 = some a) ∧
      ((found.Nodup ∧ ∀ a ∈ found, (a.busName, a.functionName) ∈ d.namePairs place) ↔
        Spelled d place) ∧
      (Spelled d place ↔
        ∀ pair ∈ d.namePairs place, ∀ a, Address.ofNames? pair.1 pair.2 = some a →
          Address.BusForm pair.1.toList ∧ Address.FunctionForm pair.2.toList) ∧
      (∀ a ∈ found, ∀ other, (nodeSpace root a).Opens d other ↔
        (joinNames root a.node).utf8ByteSize < 4096 ∧
          (a.busName, a.functionName) ∈ d.namePairs place ∧
          other = place ++ [a.busName, a.functionName]) ∧
      (Spelled d place → found.Pairwise fun a b =>
        ∀ other, (nodeSpace root a).Opens d other → ¬ (nodeSpace root b).Opens d other) ∧
      ∀ (c : Config) (history : List (Registration Machine Address Identity Criterion))
        (m : Machine), c.systemPath "/proc/bus/pci" = root → m.disk = d →
          ∃ run, (fileDriver c (.ofHistory history)).discover = some run ∧ ∀ draft,
            Discovers Probes (InCharge Criterion.Matches history)
              (found.map fun a => (a, nodeSpace root a)) (draft, m) (run.runOn (draft, m)) := by
  have hperm := Address.sort_perm (functionsBelow d place)
  have hvalid : ∀ a ∈ Address.sort (functionsBelow d place), a.IsValid :=
    fun a ha => isValid_of_mem_functionsBelow (hperm.mem_iff.1 ha)
  have hfound := enumerate_eq hroot hdir
  refine ⟨_, hfound, fun a => ?_, ?_, spelled_iff_form,
    fun a ha other => opens_nodeSpace_iff hroot hdir (hvalid a ha), fun hspelled => ?_, ?_⟩
  · rw [hperm.count_eq, functionsBelow, List.count_filterMap]
    exact List.countP_congr fun pair _ => by rw [beq_iff_eq, decide_eq_true_iff]
  · simp only [hperm.nodup_iff, hperm.mem_iff]
    exact nodup_and_mem_iff_spelled
  · refine (hperm.nodup_iff.2 hspelled.nodup).imp_of_mem fun ha hb hne other h h' => hne ?_
    exact opens_nodeSpace_inj hroot hdir (hvalid _ ha) (hvalid _ hb) h h'
  · rintro c history m hc rfl
    exact fileDriver_discovers hc history hfound

/-- A disk with two functions at their nodes, and a name that is no function. -/
def procDisk : Disk :=
  [["proc", "bus", "pci", "0001:02", "00.0"], ["proc", "bus", "pci", "00", "README"],
    ["proc", "bus", "pci", "00", "1f.3"]].foldl
    (fun d place => d.addFile place (Image.zeros 256)) .empty

theorem enumerate_spelled_procDisk :
    ∃ found, enumerate procDisk "/proc/bus/pci" = .ok found ∧ found.Nodup ∧
      found.count ⟨0, 0, 0x1F, 3⟩ = 1 ∧
      (nodeSpace "/proc/bus/pci" ⟨0, 0, 0x1F, 3⟩).Opens procDisk
        ["proc", "bus", "pci", "00", "1f.3"] ∧
      ∃ run, (fileDriver {} (.ofHistory [])).discover = some run ∧
        Discovers Probes (InCharge Criterion.Matches [])
          (found.map fun a => (a, nodeSpace "/proc/bus/pci" a)) (.empty, { disk := procDisk })
          (run.runOn (.empty, { disk := procDisk })) := by
  have hspelled : Spelled procDisk ["proc", "bus", "pci"] := by
    have h : ∀ pair ∈ procDisk.namePairs ["proc", "bus", "pci"],
        ∀ a ∈ Address.ofNames? pair.1 pair.2, pair = (a.busName, a.functionName) := by
      decide +kernel
    exact h
  have hroot : procDisk.locate "/proc/bus/pci" = .ok ["proc", "bus", "pci"] := by decide +kernel
  obtain ⟨found, hfound, hcount, hiff, -, hopens, -, hdiscover⟩ :=
    enumerate_spelled hroot (by decide +kernel)
  have hone : found.count ⟨0, 0, 0x1F, 3⟩ = 1 := (hcount _).trans (by decide +kernel)
  have hmem : ⟨0, 0, 0x1F, 3⟩ ∈ found := List.count_pos_iff.1 (by omega)
  obtain ⟨run, hrun, hvisits⟩ := hdiscover {} [] { disk := procDisk } (by decide +kernel) rfl
  exact ⟨found, hfound, (hiff.2 hspelled).1, hone,
    (hopens _ hmem _).2 ⟨by decide +kernel, by decide +kernel, by decide +kernel⟩, run, hrun,
    hvisits .empty⟩

/-- A disk with two spellings of one bus, and with one function that has both and another that has
only the second one. -/
def respelledDisk : Disk :=
  [["pci", "00", "02.0"], ["pci", "0", "02.0"], ["pci", "0", "1f.3"]].foldl
    (fun d place => d.addFile place (Image.zeros 256)) .empty

/-- One function is listed twice, and for another one there is nothing at its node. -/
theorem enumerate_respelled :
    enumerate respelledDisk "pci" = .ok [⟨0, 0, 2, 0⟩, ⟨0, 0, 2, 0⟩, ⟨0, 0, 0x1F, 3⟩] ∧
      Address.node ⟨0, 0, 0x1F, 3⟩ = "00/1f.3" ∧
      respelledDisk.locate "pci/00/1f.3" = .error .noEntry := by
  have hread : functionsBelow respelledDisk ["pci"] =
      [⟨0, 0, 2, 0⟩, ⟨0, 0, 2, 0⟩, ⟨0, 0, 0x1F, 3⟩] := by decide +kernel
  have hroot : respelledDisk.locate "pci" = .ok ["pci"] := by decide +kernel
  refine ⟨?_, by decide +kernel, by decide +kernel⟩
  rw [enumerate_eq hroot (by decide +kernel), hread, Address.sort,
    List.mergeSort_of_pairwise (by decide)]

end RegisterAtlas.Pci
