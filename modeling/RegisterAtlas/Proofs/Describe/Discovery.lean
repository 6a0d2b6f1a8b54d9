import RegisterAtlas.Proofs.Describe.Vendors

/-!
# Discovery

Drivers with the built-in descriptions discover the CPUs of a list and the PCI functions of an
enumeration. What a draft shows after some of the drivers had their turns (`Discovered`) does not
depend on their order: each of them appends to an array of its own, and a driver that has more than
one turn appends the same again. One turn adds its part (`describeNamed_ensures`), and so do those
of a list one after the other (`forM_describeNamed_ensures`).
-/

namespace RegisterAtlas

open Describe Draft

/-- Hardware of a system: the CPUs and PCI functions to be looked for, the register spaces that
stand for them, and the MSRs of CPUs. -/
structure Hardware where
  cpus : List Nat
  cpuSpace : Nat → Space
  enumerate : Action Error Machine (List Pci.Address)
  pciSpace : Pci.Address → Space
  attachMsr : List Value → Action Error Machine Space

namespace Hardware

variable {hw : Hardware} {c : Config} {drivers : Drivers Machine} {I : Machine → Prop}

/-- Among some drivers are those that a configuration enables. They are for this hardware, and have
the built-in descriptions. -/
structure Drives (hw : Hardware) (c : Config) (drivers : Drivers Machine) : Prop where
  cpuid : c.isEnabled "cpuid" → ∃ registry, Cpuid.registerBuiltin {} = .ok registry ∧
    drivers.get? "cpuid" = some (Cpuid.driver hw.cpus hw.cpuSpace registry)
  pci : c.isEnabled "pci" → ∃ registry, Pci.registerBuiltin {} = .ok registry ∧
    drivers.get? "pci" = some (Pci.driver hw.enumerate hw.pciSpace registry)
  msr : c.isEnabled "msr" → ∃ driver, drivers.get? "msr" = some driver ∧
    driver.attach = hw.attachMsr

/-- The first register of a PCI function, which tells the vendor. -/
def readId (hw : Hardware) (a : Pci.Address) : Action Fault Machine Value :=
  Bus.read (hw.pciSpace a) 0 .w32

/-- The vendor id is not that of an empty slot. -/
def IsPresent (id : Value) : Prop := id.extractLsb' 0 16 ≠ Pci.Identity.absent

instance : DecidablePred IsPresent := fun _ => inferInstanceAs (Decidable (_ ≠ _))

/-- Wherever `I` holds, the lists of CPUs and functions that a configuration asks for can be had,
the MSRs of the CPUs can be attached, and the registers that are read answer. No list is longer than
what can be counted, and CPU numbers have 32 bits. -/
structure Works (hw : Hardware) (c : Config) (I : Machine → Prop) : Prop where
  cpus_length_le : hw.cpus.length ≤ indexLimit
  cpu_lt : ∀ cpu ∈ hw.cpus, cpu < wordCount 32
  leaf : c.isEnabled "cpuid" → ∀ cpu ∈ hw.cpus, ∀ leaf ∈ [0, 1],
    Answers I (Bus.read (hw.cpuSpace cpu) (Cpuid.address leaf 0) .w128)
  enumerate : c.isEnabled "pci" → Answers I hw.enumerate
  addresses_length_le : c.isEnabled "pci" → ∀ addresses, MayGive I hw.enumerate addresses →
    addresses.length ≤ indexLimit
  id : c.isEnabled "pci" → ∀ addresses, MayGive I hw.enumerate addresses →
    ∀ a ∈ addresses, Answers I (hw.readId a)
  header : c.isEnabled "pci" → ∀ addresses, MayGive I hw.enumerate addresses →
    ∀ a ∈ addresses, ∀ id, MayGive I (hw.readId a) id → IsPresent id →
      Answers I (Bus.read (hw.pciSpace a) 0x0E .w8)
  cpuList : c.isEnabled "msr" → Answers I (Machine.readingDisk c.cpuList)
  attachMsr : c.isEnabled "msr" → ∀ cpus, MayGive I (Machine.readingDisk c.cpuList) cpus →
    ∀ cpu ∈ cpus, Answers I (hw.attachMsr [BitVec.ofNat 128 cpu])

/-- The functions that are there, of the addresses that the enumeration comes to. -/
def FindsFunctions (hw : Hardware) (I : Machine → Prop) (functions : List Pci.Address) : Prop :=
  ∃ addresses ids, MayGive I hw.enumerate addresses ∧
    List.Forall₂ (fun a id => MayGive I (hw.readId a) id) addresses ids ∧
    functions = ((addresses.zip ids).filter fun p => IsPresent p.2).map Prod.fst

theorem FindsFunctions.exists_addresses {functions : List Pci.Address}
    (h : hw.FindsFunctions I functions) :
    ∃ addresses, MayGive I hw.enumerate addresses ∧ functions.length ≤ addresses.length := by
  obtain ⟨addresses, ids, haddresses, -, rfl⟩ := h
  refine ⟨addresses, haddresses, ?_⟩
  calc (((addresses.zip ids).filter fun p => IsPresent p.2).map Prod.fst).length
    _ ≤ (addresses.zip ids).length := by
      rw [List.length_map]
      exact List.length_filter_le ..
    _ ≤ addresses.length := by
      rw [List.length_zip]
      exact Nat.min_le_left ..

theorem FindsFunctions.length_le {functions : List Pci.Address} (h : hw.FindsFunctions I functions)
    (henabled : c.isEnabled "pci") (hworks : hw.Works c I) : functions.length ≤ indexLimit := by
  obtain ⟨addresses, haddresses, hle⟩ := h.exists_addresses
  exact Nat.le_trans hle (hworks.addresses_length_le henabled addresses haddresses)

/-! ## CPUs -/

theorem probe_answers {space : Space}
    (hanswers : ∀ leaf ∈ [0, 1], Answers I (Bus.read space (Cpuid.address leaf 0) .w128)) :
    Answers I (Cpuid.Identity.probe space) :=
  .bind (hanswers 0 (by simp)) fun _ => .bind (hanswers 1 (by simp)) fun _ => .pure _

/-- If every instance has an identity, there is a view of every instance. -/
theorem forall₂_of_described {α ι : Type} {Is : α → Option ι → Prop} {G : α → ι → View → Prop}
    {as : List α} {views : List View} (h : Described Is G as views) (hfound : ∀ a, ¬ Is a none) :
    List.Forall₂ (fun a view => ∃ identity, G a identity view) as views := by
  induction h with
  | nil => exact .nil
  | absent habsent _ _ => exact absurd habsent (hfound _)
  | found _ hview _ ih => exact .cons ⟨_, hview⟩ ih

theorem exists_vendors {cpus : List Nat} {views : List View}
    (h : List.Forall₂ (fun cpu view => ∃ vendor, Cpuid.Shows cpu vendor view) cpus views) :
    ∃ known : List (Nat × String), known.map Prod.fst = cpus ∧
      List.Forall₂ (fun p view => Cpuid.Shows p.1 p.2 view) known views := by
  induction h with
  | nil => exact ⟨[], rfl, .nil⟩
  | @cons cpu view cpus views hview _ ih =>
      obtain ⟨vendor, hview⟩ := hview
      obtain ⟨known, rfl, hknown⟩ := ih
      exact ⟨(cpu, vendor) :: known, rfl, .cons hview hknown⟩

/-- Every CPU of the list is described. -/
theorem discover_cpus_ensures (hdrives : hw.Drives c drivers) (hworks : hw.Works c I)
    (henabled : c.isEnabled "cpuid") (rows : Rows) :
    Ensures I (Shows rows) (drivers.discover "cpuid") fun _ d =>
      ∃ known views, known.map Prod.fst = hw.cpus ∧
        List.Forall₂ (fun p view => Cpuid.Shows p.1 p.2 view) known views ∧
        Shows (rows.append "cpu" views) d := by
  obtain ⟨registry, hregistry, hdriver⟩ := hdrives.cpuid henabled
  have hleaf := hworks.leaf henabled
  rw [Drivers.discover, hdriver]
  refine (Ensures.describeAll (P := fun views => Shows (rows.append "cpu" views))
    (G := fun p identity view => Cpuid.ShowsCpu I ⟨p.1, identity, p.2⟩ view) ?_ ?_ []).mono
    (fun _ hd => by rwa [Rows.append_nil]) ?_
  · intro p hp
    obtain ⟨cpu, hcpu, rfl⟩ := List.mem_map.1 hp
    exact .bind (probe_answers (hleaf cpu hcpu)) fun _ => .pure _
  · intro p hp identity _ views
    obtain ⟨cpu, hcpu, rfl⟩ := List.mem_map.1 hp
    exact Cpuid.dispatch_ensures hregistry (gathers_shows rows "cpu") (hleaf cpu hcpu 0 (by simp))
  · rintro _ d ⟨views, hviews, hd⟩
    have hall := forall₂_of_described hviews fun p hnone =>
      let ⟨_, _, h⟩ := hnone.of_map
      nomatch h
    obtain ⟨known, hknown, hviews⟩ := exists_vendors <| (List.forall₂_map_left_iff.1 hall).imp
      fun cpu view ⟨identity, hview⟩ => ⟨identity.vendor, hview.shows⟩
    exact ⟨known, views, hknown, hviews, hd⟩

/-! ## PCI functions -/

theorem of_mayGive_probe {a : Pci.Address} {o : Option Pci.Identity}
    (h : MayGive I (Pci.Identity.probe (hw.pciSpace a)) o) :
    ∃ id, MayGive I (hw.readId a) id ∧ (o.isSome ↔ IsPresent id) := by
  obtain ⟨id, hid, rfl⟩ := h.of_map
  refine ⟨id, hid, ?_⟩
  rw [IsPresent]
  split <;> simp_all

/-- There is a view of each function that is there. -/
theorem functions_of_described {G : Pci.Address → View → Prop} {addresses : List Pci.Address}
    {views : List View}
    (h : Described (fun p => MayGive I (Pci.Identity.probe p.2)) (fun p _ => G p.1)
      (addresses.map fun a => (a, hw.pciSpace a)) views) :
    ∃ ids, List.Forall₂ (fun a id => MayGive I (hw.readId a) id) addresses ids ∧
      List.Forall₂ G (((addresses.zip ids).filter fun p => IsPresent p.2).map Prod.fst) views := by
  induction addresses generalizing views with
  | nil =>
      cases h
      exact ⟨[], .nil, .nil⟩
  | cons a addresses ih =>
      rw [List.map_cons] at h
      cases h with
      | absent hnone hrest =>
          obtain ⟨id, hid, hpresent⟩ := of_mayGive_probe hnone
          obtain ⟨ids, hids, hviews⟩ := ih hrest
          refine ⟨id :: ids, .cons hid hids, ?_⟩
          rw [List.zip_cons_cons, List.filter_cons_of_neg (by simpa using hpresent)]
          exact hviews
      | found hsome hview hrest =>
          obtain ⟨id, hid, hpresent⟩ := of_mayGive_probe hsome
          obtain ⟨ids, hids, hviews⟩ := ih hrest
          refine ⟨id :: ids, .cons hid hids, ?_⟩
          rw [List.zip_cons_cons, List.filter_cons_of_pos (by simpa using hpresent)]
          exact .cons hview hviews

/-- Every function that is there is described. -/
theorem discover_functions_ensures (hdrives : hw.Drives c drivers) (hworks : hw.Works c I)
    (henabled : c.isEnabled "pci") (rows : Rows) :
    Ensures I (Shows rows) (drivers.discover "pci") fun _ d =>
      ∃ functions views, hw.FindsFunctions I functions ∧
        List.Forall₂ Pci.Shows functions views ∧ Shows (rows.append "pci" views) d := by
  obtain ⟨registry, hregistry, hdriver⟩ := hdrives.pci henabled
  rw [Drivers.discover, hdriver]
  refine .bind (.access_world (hworks.enumerate henabled)) fun addresses => .of_and fun ha => ?_
  refine (Ensures.describeAll (P := fun views => Shows (rows.append "pci" views))
    (G := fun p _ => Pci.Shows p.1) ?_ ?_ []).mono (fun _ hd => by rwa [Rows.append_nil]) ?_
  · intro p hp
    obtain ⟨a, hmem, rfl⟩ := List.mem_map.1 hp
    exact .bind (hworks.id henabled addresses ha a hmem) fun _ => .pure _
  · intro p hp identity hprobe views
    obtain ⟨a, hmem, rfl⟩ := List.mem_map.1 hp
    obtain ⟨id, hid, hpresent⟩ := of_mayGive_probe hprobe
    refine (Pci.dispatch_ensures hregistry (gathers_shows rows "pci")
      (hworks.header henabled addresses ha a hmem id hid (hpresent.1 rfl))).mono (fun _ hd => hd) ?_
    rintro _ d ⟨view, hview, hd⟩
    exact ⟨view, hview.shows, hd⟩
  · rintro _ d ⟨views, hviews, hd⟩
    obtain ⟨ids, hids, hviews⟩ := functions_of_described hviews
    exact ⟨_, views, ⟨addresses, ids, ha, hids, rfl⟩, hviews, hd⟩

/-! ## All drivers -/

/-- The functions that some enumerations find, one after the other. -/
def FindsInTurns (hw : Hardware) (I : Machine → Prop) (n : Nat) (functions : List Pci.Address) :
    Prop :=
  ∃ turns : List (List Pci.Address), turns.length = n ∧
    (∀ found ∈ turns, hw.FindsFunctions I found) ∧ functions = turns.flatten

/-- What there is to show after some drivers had their turns, a driver as many as it is named. -/
structure Discovery (hw : Hardware) (I : Machine → Prop) (names : List String)
    (known : List (Nat × String)) (functions : List Pci.Address) (rows : Rows) : Prop where
  cpus : known.map Prod.fst = (List.replicate (names.count "cpuid") hw.cpus).flatten
  found : hw.FindsInTurns I (names.count "pci") functions
  cpuViews : List.Forall₂ (fun p view => Cpuid.Shows p.1 p.2 view) known (rows "cpu")
  functionViews : List.Forall₂ Pci.Shows functions (rows "pci")
  others : ∀ name, name ≠ "cpu" → name ≠ "pci" → rows name = []

/-- A draft shows what some drivers discovered. -/
def Discovered (hw : Hardware) (I : Machine → Prop) (names : List String) (d : Draft) : Prop :=
  ∃ known functions rows, hw.Discovery I names known functions rows ∧ Shows rows d

theorem discovered_nil {d : Draft} (hd : Shows Rows.none d) : hw.Discovered I [] d :=
  ⟨[], [], Rows.none, ⟨rfl, ⟨[], rfl, nofun, rfl⟩, .nil, .nil, fun _ _ _ => rfl⟩, hd⟩

namespace Discovery

variable {names : List String} {known new : List (Nat × String)}
  {functions found : List Pci.Address} {rows : Rows} {views : List View}

/-- The CPUs are discovered once more. -/
theorem append_cpus (h : hw.Discovery I names known functions rows)
    (hnew : new.map Prod.fst = hw.cpus)
    (hviews : List.Forall₂ (fun p view => Cpuid.Shows p.1 p.2 view) new views) :
    hw.Discovery I (names ++ ["cpuid"]) (known ++ new) functions (rows.append "cpu" views) where
  cpus := by
    have hcount : (names ++ ["cpuid"]).count "cpuid" = names.count "cpuid" + 1 := by
      simp [List.count_append]
    rw [hcount, List.map_append, hnew, h.cpus, List.replicate_succ', List.flatten_append,
      List.flatten_singleton]
  found := by simpa [List.count_append] using h.found
  cpuViews := by simpa using List.rel_append h.cpuViews hviews
  functionViews := by simpa using h.functionViews
  others name hcpu hpci := by simpa [hcpu] using h.others name hcpu hpci

/-- The functions are discovered once more. -/
theorem append_functions (h : hw.Discovery I names known functions rows)
    (hfound : hw.FindsFunctions I found) (hviews : List.Forall₂ Pci.Shows found views) :
    hw.Discovery I (names ++ ["pci"]) known (functions ++ found) (rows.append "pci" views) where
  cpus := by simpa [List.count_append] using h.cpus
  found := by
    obtain ⟨turns, hlength, hturns, rfl⟩ := h.found
    have hcount : (names ++ ["pci"]).count "pci" = names.count "pci" + 1 := by
      simp [List.count_append]
    refine ⟨turns ++ [found], ?_, ?_, ?_⟩
    · rw [List.length_append, hlength, hcount, List.length_singleton]
    · exact List.forall_mem_append.2 ⟨hturns, List.forall_mem_singleton.2 hfound⟩
    · rw [List.flatten_append, List.flatten_singleton]
  cpuViews := by simpa using h.cpuViews
  functionViews := by simpa using List.rel_append h.functionViews hviews
  others name hcpu hpci := by simpa [hpci] using h.others name hcpu hpci

theorem append_msr (h : hw.Discovery I names known functions rows) :
    hw.Discovery I (names ++ ["msr"]) known functions rows where
  cpus := by simpa [List.count_append] using h.cpus
  found := by simpa [List.count_append] using h.found
  cpuViews := h.cpuViews
  functionViews := h.functionViews
  others := h.others

end Discovery

/-- A driver adds what it discovers. MSRs are not discovered. -/
theorem describeNamed_ensures {names : List String} {name : String}
    (hdrives : hw.Drives c drivers) (hworks : hw.Works c I)
    (henabled : name ≠ "msr" → name ∈ c.drivers) (hname : name ∈ ["cpuid", "pci", "msr"]) :
    Ensures I (hw.Discovered I names) (describeNamed drivers name) fun _ =>
      hw.Discovered I (names ++ [name]) := by
  refine .of_exists fun known => .of_exists fun functions => .of_exists fun rows =>
    .of_and fun hdiscovery => ?_
  have henabled (hmsr : name ≠ "msr") : c.isEnabled name := decide_eq_true (henabled hmsr)
  rw [describeNamed]
  fin_cases hname
  case _ =>
    refine .bind (discover_cpus_ensures hdrives hworks (henabled (by decide)) rows) fun _ =>
      .pure ?_
    rintro d ⟨new, views, hnew, hviews, hd⟩
    exact ⟨_, functions, _, hdiscovery.append_cpus hnew hviews, hd⟩
  case _ =>
    refine .bind (discover_functions_ensures hdrives hworks (henabled (by decide)) rows) fun _ =>
      .pure ?_
    rintro d ⟨found, views, hfound, hviews, hd⟩
    exact ⟨known, _, _, hdiscovery.append_functions hfound hviews, hd⟩
  case _ =>
    exact .pure fun d hd => ⟨known, functions, rows, hdiscovery.append_msr, hd⟩

/-- Drivers have their turns one after the other. -/
theorem forM_describeNamed_ensures {names : List String} (done : List String)
    (hdrives : hw.Drives c drivers) (hworks : hw.Works c I)
    (henabled : ∀ name ∈ names, name ≠ "msr" → name ∈ c.drivers)
    (hnames : ∀ name ∈ names, name ∈ ["cpuid", "pci", "msr"]) :
    Ensures I (hw.Discovered I done) (names.forM (describeNamed drivers)) fun _ =>
      hw.Discovered I (done ++ names) := by
  induction names generalizing done with
  | nil => exact .pure fun d hd => by rwa [List.append_nil]
  | cons name names ih =>
      obtain ⟨hfirst, henabled⟩ := List.forall_mem_cons.1 henabled
      obtain ⟨hname, hnames⟩ := List.forall_mem_cons.1 hnames
      -- the drivers that had their turn grow by the head of the list
      rw [List.append_cons]
      exact .bind (describeNamed_ensures hdrives hworks hfirst hname) fun _ => ih _ henabled hnames

end Hardware

end RegisterAtlas
