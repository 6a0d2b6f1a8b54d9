import RegisterAtlas.Proofs.Config.CpuList
import RegisterAtlas.Proofs.Describe.Discovery
import RegisterAtlas.Proofs.Machine.PlainBank

/-!
# The tree of a system

If all goes well with the hardware that a configuration asks for, the description of the system
succeeds, and its tree shows just that hardware (`ShowsSystem`): the CPUs, the PCI functions that
are there and the MSRs of CPUs, each in the order in which they were listed. Which MSRs have energy
counters follows from what the tree shows of the CPUs.
-/

namespace RegisterAtlas

open Describe Draft

/-- A vendor is shown for a CPU just if the first element for the CPU has it. -/
theorem shownVendor_eq_some_iff {known : List (Nat × String)} {cpu : Nat} {text : String} :
    shownVendor known cpu = some text ↔ ∃ j p, (known.map Prod.fst).findIdx? (· = cpu) = some j ∧
      known[j]? = some p ∧ Cpuid.vendorType.evaluate (Cpuid.vendorCode p.2) = text := by
  have hindex : (known.map Prod.fst).findIdx? (fun n => n = cpu) =
      known.findIdx? fun p => p.1 = cpu := List.findIdx?_map
  rw [shownVendor, List.find?_eq_bind_findIdx?_getElem?, hindex]
  simp only [Option.map_eq_some_iff, Option.bind_eq_some_iff]
  constructor
  · rintro ⟨p, ⟨j, hj, hp⟩, htext⟩
    exact ⟨j, p, hj, hp, htext⟩
  · rintro ⟨j, p, hj, hp, htext⟩
    exact ⟨p, ⟨j, hj, hp⟩, htext⟩

/-! ## What a tree shows of a system -/

namespace Tree

/-- The root has an array of so many elements, or nothing at all in place of an empty one. -/
def HasElements (t : Tree) (name : String) (n : Nat) : Prop :=
  if n = 0 then t.resolveText root ("/" ++ name) = .ok none
  else ∃ id items, t.resolveText root ("/" ++ name) = .ok (some id) ∧ t.array? id = some items ∧
    items.ids.length = n

/-- What is at a path reads as a value, whatever the machine is like. -/
def Reads (t : Tree) (path : String) (v : Value) : Prop :=
  (t.readPath root path : Access Machine Value) = pure v

/-- The entry at a path is displayed as a text, whatever the machine is like. -/
def Displays (t : Tree) (path text : String) : Prop :=
  ∃ id, t.resolveText root path = .ok (some id) ∧
    (t.evaluate id : Access Machine String) = pure text

/-- A tree shows CPUs, PCI functions and the MSRs of CPUs, and has nothing else at its root. MSRs
have energy counters just if the first element for their CPU is displayed as one of Intel. -/
structure ShowsSystem (t : Tree) (cpus : List Nat) (functions : List Pci.Address)
    (msrs : List Nat) : Prop where
  names : ∀ s, t.entry root = .scope s → ∀ name ∈ s.children.keys, name ∈ ["cpu", "pci", "msr"]
  cpus_length : t.HasElements "cpu" cpus.length
  functions_length : t.HasElements "pci" functions.length
  msrs_length : t.HasElements "msr" msrs.length
  cpu : ∀ i cpu, cpus[i]? = some cpu → t.Reads (insidePath "cpu" i "cpu") (BitVec.ofNat 128 cpu)
  segment : ∀ i a, functions[i]? = some a →
    t.Reads (insidePath "pci" i "segment") (BitVec.ofNat 128 a.segment.toNat)
  bus : ∀ i a, functions[i]? = some a →
    t.Reads (insidePath "pci" i "bus") (BitVec.ofNat 128 a.bus.toNat)
  device : ∀ i a, functions[i]? = some a →
    t.Reads (insidePath "pci" i "device") (BitVec.ofNat 128 a.device.toNat)
  function : ∀ i a, functions[i]? = some a →
    t.Reads (insidePath "pci" i "function") (BitVec.ofNat 128 a.function.toNat)
  msr : ∀ i cpu, msrs[i]? = some cpu → t.Reads (insidePath "msr" i "cpu") (BitVec.ofNat 128 cpu)
  rapl : ∀ i cpu, msrs[i]? = some cpu → (t.isDefined root (insidePath "msr" i "rapl") = true ↔
    ∃ j, cpus.findIdx? (· = cpu) = some j ∧ t.Displays (insidePath "cpu" j "vendor") "Intel")

variable {t : Tree} {rows : Rows} {name inner : String}

theorem Displays.text_eq {path text text' : String} (h : t.Displays path text)
    (h' : t.Displays path text') : text = text' := by
  obtain ⟨id, hid, htext⟩ := h
  obtain ⟨id', hid', htext'⟩ := h'
  cases hid.symm.trans hid'
  have hrun := congrArg (fun a => (a.runOn ({} : Machine)).1) (htext.symm.trans htext')
  exact Except.ok.inj hrun

namespace ShowsRows

theorem hasElements (h : t.ShowsRows rows) (hw : t.WellFormed) (hname : isName name.toList = true) :
    t.HasElements name (rows name).length := by
  rw [HasElements, ← h.rows_eq, List.length_map]
  rcases h.resolveText_array hw hname with
    ⟨hnone, hitems⟩ | ⟨id, items, hsome, harray, hitems, hne⟩
  · rw [if_pos (by rw [hitems]; rfl)]
    exact hnone
  · rw [← hitems, if_neg (by simpa using hne)]
    exact ⟨id, items, hsome, harray, rfl⟩

/-- The root has a child for no other names than those with elements. -/
theorem row_ne_nil (h : t.ShowsRows rows) (hw : t.WellFormed) {s : Scope}
    (hs : t.entry root = .scope s) (hname : name ∈ s.children.keys) : rows name ≠ [] := by
  obtain ⟨id, hid⟩ : ∃ id, s.children.get? name = some id :=
    Option.isSome_iff_exists.1 (Table.contains_iff.2 hname)
  have hview : t.view root name = some (t.entry id) := by
    rw [view_of_scope hs, hid, Option.map_some]
  obtain ⟨items, ha, -⟩ := h.array name _ hview
  have hitems : (t.view root).items name = items.ids := by rw [View.items, hview, ha]
  rw [← h.rows_eq, hitems]
  simpa using hw.items_ne_nil id items ha

/-- A constant that all elements of an array hold is found in each of them. -/
theorem reads_displays {α : Type} {G : α → View → Prop} {xs : List α} {i : Nat} {x : α}
    {datatype : Datatype} {v : Value} (h : t.ShowsRows rows) (hw : t.WellFormed)
    (hviews : List.Forall₂ G xs (rows name)) (hlength : xs.length ≤ indexLimit)
    (hname : isName name.toList = true) (hinner : isName inner.toList = true)
    (hx : xs[i]? = some x)
    (hfield : ∀ view, G x view → view inner = some (.field (.constant datatype v))) :
    t.Reads (insidePath name i inner) v ∧
      t.Displays (insidePath name i inner) (datatype.evaluate v) := by
  obtain ⟨id, hid, hread, hevaluate⟩ := h.constant_inside (σ := Machine) hw hviews hlength hname
    hinner hx hfield
  exact ⟨hread, id, hid, hevaluate⟩

end ShowsRows

end Tree

/-! ## From rows to systems -/

/-- The elements for CPUs, PCI functions and MSRs of CPUs. -/
structure SystemRows (known : List (Nat × String)) (functions : List Pci.Address) (msrs : List Nat)
    (rows : Rows) : Prop where
  cpuViews : List.Forall₂ (fun p view => Cpuid.Shows p.1 p.2 view) known (rows "cpu")
  functionViews : List.Forall₂ Pci.Shows functions (rows "pci")
  msrViews : List.Forall₂ (fun cpu => Msr.Shows cpu (shownVendor known cpu = some "Intel")) msrs
    (rows "msr")
  others : ∀ name, name ∉ ["cpu", "pci", "msr"] → rows name = []

namespace SystemRows

variable {t : Tree} {rows : Rows} {known : List (Nat × String)} {functions : List Pci.Address}
  {msrs : List Nat}

/-- There are energy counters just if the tree shows that the CPU is one of Intel. -/
theorem rapl_iff (h : SystemRows known functions msrs rows) (hrows : t.ShowsRows rows)
    (hw : t.WellFormed) (hknown : known.length ≤ indexLimit) (hmsrs : msrs.length ≤ indexLimit)
    {i cpu : Nat} (hcpu : msrs[i]? = some cpu) :
    t.isDefined Tree.root (insidePath "msr" i "rapl") = true ↔
      ∃ j, (known.map Prod.fst).findIdx? (· = cpu) = some j ∧
        t.Displays (insidePath "cpu" j "vendor") "Intel" := by
  have hdefined : t.isDefined Tree.root (insidePath "msr" i "rapl") = true ↔
      shownVendor known cpu = some "Intel" := by
    obtain ⟨view, hview, hshows⟩ := exists_view h.msrViews hcpu
    have hi := Nat.lt_of_lt_of_le (List.getElem?_eq_some_iff.1 hcpu).1 hmsrs
    have hplain : ∀ e, view "rapl" = some e → e.kind ≠ .alias := fun e he => by
      rw [hshows.rapl_scope e he]
      exact Kind.noConfusion
    obtain ⟨r, hr, -, hentry⟩ :=
      hrows.resolveText_inside hw (by decide) (by decide) hi hview hplain
    have hsome : r.isSome = true ↔ shownVendor known cpu = some "Intel" := by
      rw [← Option.isSome_map (f := t.entry), hentry, hshows.rapl, decide_eq_true_iff]
    rw [Tree.isDefined, hr, ← hsome]
    cases r <;> rfl
  have hdisplays : ∀ {j : Nat} {p : Nat × String}, known[j]? = some p →
      t.Displays (insidePath "cpu" j "vendor")
        (Cpuid.vendorType.evaluate (Cpuid.vendorCode p.2)) := fun hp =>
    (hrows.reads_displays hw h.cpuViews hknown (by decide) (by decide) hp
      fun _ hview => hview.vendor).2
  rw [hdefined, shownVendor_eq_some_iff]
  constructor
  · rintro ⟨j, p, hj, hp, htext⟩
    exact ⟨j, hj, htext ▸ hdisplays hp⟩
  · rintro ⟨j, hj, hintel⟩
    have hlt : j < known.length := by
      simpa using (List.findIdx?_eq_some_iff_getElem.1 hj).1
    have hp := List.getElem?_eq_getElem hlt
    exact ⟨j, _, hj, hp, (hdisplays hp).text_eq hintel⟩

theorem showsSystem (h : SystemRows known functions msrs rows) (hrows : t.ShowsRows rows)
    (hw : t.WellFormed) (hknown : known.length ≤ indexLimit)
    (hfunctions : functions.length ≤ indexLimit) (hmsrs : msrs.length ≤ indexLimit) :
    t.ShowsSystem (known.map Prod.fst) functions msrs where
  names s hs name hname := by
    by_contra hother
    exact hrows.row_ne_nil hw hs hname (h.others name hother)
  cpus_length := by
    rw [List.length_map, h.cpuViews.length_eq]
    exact hrows.hasElements hw (by decide)
  functions_length := by
    rw [h.functionViews.length_eq]
    exact hrows.hasElements hw (by decide)
  msrs_length := by
    rw [h.msrViews.length_eq]
    exact hrows.hasElements hw (by decide)
  cpu i cpu hcpu := by
    rw [List.getElem?_map] at hcpu
    obtain ⟨p, hp, rfl⟩ := Option.map_eq_some_iff.1 hcpu
    exact (hrows.reads_displays hw h.cpuViews hknown (by decide) (by decide) hp
      fun _ hview => hview.cpu).1
  segment _ _ ha := (hrows.reads_displays hw h.functionViews hfunctions (by decide) (by decide) ha
    fun _ hview => hview.segment).1
  bus _ _ ha := (hrows.reads_displays hw h.functionViews hfunctions (by decide) (by decide) ha
    fun _ hview => hview.bus).1
  device _ _ ha := (hrows.reads_displays hw h.functionViews hfunctions (by decide) (by decide) ha
    fun _ hview => hview.device).1
  function _ _ ha := (hrows.reads_displays hw h.functionViews hfunctions (by decide) (by decide) ha
    fun _ hview => hview.function).1
  msr _ _ hcpu := (hrows.reads_displays hw h.msrViews hmsrs (by decide) (by decide) hcpu
    fun _ hview => hview.cpu).1
  rapl _ _ hcpu := h.rapl_iff hrows hw hknown hmsrs hcpu

end SystemRows

/-! ## Describing a system -/

/-- The MSRs are described if they are enabled. -/
def describeEnabledMsrs (c : Config) (drivers : Drivers Machine) : Describe Machine Unit :=
  if c.isEnabled "msr" then
    match drivers.get? "msr" with
    | none => .fail (.notFound (.driver "msr"))
    | some msr => do
        let cpus ← Describe.access fun _ => (Machine.readingDisk c.cpuList).mapError .error
        cpus.forM (describeMsrs msr.attach)
  else pure ()

theorem describeDevices_eq (c : Config) (drivers : Drivers Machine) :
    describeDevices c drivers = (do
      c.drivers.forM (describeNamed drivers)
      describeEnabledMsrs c drivers) := rfl

namespace Hardware

variable {hw : Hardware} {c : Config} {drivers : Drivers Machine} {I : Machine → Prop}

/-- What a configuration makes of hardware: the CPUs and functions that its drivers discover, and
the CPUs whose MSRs are described. -/
structure Finds (hw : Hardware) (c : Config) (I : Machine → Prop) (cpus : List Nat)
    (functions : List Pci.Address) (msrs : List Nat) : Prop where
  cpus : cpus = if c.isEnabled "cpuid" then hw.cpus else []
  functions : if c.isEnabled "pci" then hw.FindsFunctions I functions else functions = []
  msrs : if c.isEnabled "msr" then MayGive I (Machine.readingDisk c.cpuList) msrs else msrs = []

theorem canonical_of_mayGive {cpus : List Nat}
    (h : MayGive I (Machine.readingDisk c.cpuList) cpus) : CpuList.Canonical cpus := by
  obtain ⟨w, w', -, hrun⟩ := h
  exact Config.canonical_of_cpuList (congrArg Prod.fst hrun)

section

variable {cpus msrs : List Nat} {functions : List Pci.Address}

theorem Finds.cpus_sublist (h : hw.Finds c I cpus functions msrs) : cpus.Sublist hw.cpus := by
  rw [h.cpus]
  split
  · exact .refl _
  · exact List.nil_sublist _

theorem Finds.cpus_length_le (h : hw.Finds c I cpus functions msrs) (hworks : hw.Works c I) :
    cpus.length ≤ indexLimit := Nat.le_trans h.cpus_sublist.length_le hworks.cpus_length_le

theorem Finds.functions_length_le (h : hw.Finds c I cpus functions msrs) (hworks : hw.Works c I) :
    functions.length ≤ indexLimit := by
  have hfunctions := h.functions
  split at hfunctions
  · next henabled => exact hfunctions.length_le henabled hworks
  · rw [hfunctions]
    exact Nat.zero_le _

theorem Finds.msrs_length_le (h : hw.Finds c I cpus functions msrs) : msrs.length ≤ indexLimit := by
  have hmsrs := h.msrs
  split at hmsrs
  · exact Nat.le_trans (canonical_of_mayGive hmsrs).length_le (by decide)
  · rw [hmsrs]
    exact Nat.zero_le _

end

section

variable {known : List (Nat × String)} {functions : List Pci.Address} {msrs : List Nat}
  {rows : Rows}

theorem FindsInTurns.of_nodup {names : List String} (hnodup : names.Nodup)
    (h : hw.FindsInTurns I (names.count "pci") functions) :
    if "pci" ∈ names then hw.FindsFunctions I functions else functions = [] := by
  obtain ⟨turns, hlength, hturns, rfl⟩ := h
  rw [hnodup.count] at hlength
  by_cases hpci : "pci" ∈ names
  · rw [if_pos hpci] at hlength ⊢
    obtain ⟨found, rfl⟩ := List.length_eq_one_iff.1 hlength
    rw [List.flatten_singleton]
    exact hturns found List.mem_cons_self
  · rw [if_neg hpci] at hlength ⊢
    rw [List.eq_nil_of_length_eq_zero hlength, List.flatten_nil]

/-- When each driver has one turn, what is discovered is what is found. -/
theorem Discovery.finds (h : hw.Discovery I c.drivers known functions rows)
    (hnodup : c.drivers.Nodup)
    (hmsrs : if c.isEnabled "msr" then MayGive I (Machine.readingDisk c.cpuList) msrs
      else msrs = []) : hw.Finds c I (known.map Prod.fst) functions msrs where
  cpus := by
    rw [h.cpus, hnodup.count]
    by_cases hcpuid : "cpuid" ∈ c.drivers <;> simp [hcpuid, Config.isEnabled]
  functions := by simpa [Config.isEnabled] using h.found.of_nodup hnodup
  msrs := hmsrs

theorem Discovery.systemRows {names : List String} {views : List View}
    (h : hw.Discovery I names known functions rows)
    (hviews : List.Forall₂ (fun cpu => Msr.Shows cpu (shownVendor known cpu = some "Intel")) msrs
      views) : SystemRows known functions msrs (rows.append "msr" views) where
  cpuViews := by simpa using h.cpuViews
  functionViews := by simpa using h.functionViews
  msrViews := by simpa [h.others "msr" (by decide) (by decide)] using hviews
  others name hname := by
    obtain ⟨hcpu, hpci, hmsr⟩ : name ≠ "cpu" ∧ name ≠ "pci" ∧ name ≠ "msr" := by simpa using hname
    rw [Rows.append_apply, if_neg hmsr]
    exact h.others name hcpu hpci

theorem Discovery.known_length {names : List String}
    (h : hw.Discovery I names known functions rows) :
    known.length = names.count "cpuid" * hw.cpus.length := by
  have hlength := congrArg List.length h.cpus
  rwa [List.length_map, List.length_flatten, List.map_replicate, List.sum_replicate,
    smul_eq_mul] at hlength

theorem Discovery.showsCpus {names : List String} (h : hw.Discovery I names known functions rows)
    (hlength : names.count "cpuid" * hw.cpus.length ≤ indexLimit)
    (hcpu : ∀ cpu ∈ hw.cpus, cpu < wordCount 32) : ShowsCpus rows known where
  views := h.cpuViews
  length_le := h.known_length ▸ hlength
  cpu_lt p hp := by
    have hmem : p.1 ∈ known.map Prod.fst := List.mem_map_of_mem hp
    rw [h.cpus] at hmem
    obtain ⟨cpus, hcpus, hmem⟩ := List.mem_flatten.1 hmem
    exact hcpu p.1 (List.eq_of_mem_replicate hcpus ▸ hmem)

end

/-- After all discovery, the MSRs are described if they are enabled. -/
theorem describeDevices_ensures_discovery (hdrives : hw.Drives c drivers) (hworks : hw.Works c I)
    (hnames : ∀ name ∈ c.drivers, name ∈ ["cpuid", "pci", "msr"])
    (hlength : c.drivers.count "cpuid" * hw.cpus.length ≤ indexLimit) :
    Ensures I (Shows Rows.none) (describeDevices c drivers) fun _ d =>
      ∃ known functions msrs found rows, hw.Discovery I c.drivers known functions found ∧
        (if c.isEnabled "msr" then MayGive I (Machine.readingDisk c.cpuList) msrs else msrs = []) ∧
        SystemRows known functions msrs rows ∧ Shows rows d := by
  rw [describeDevices_eq]
  refine .bind ((forM_describeNamed_ensures [] hdrives hworks (fun _ h _ => h) hnames).mono
    (fun _ => discovered_nil) fun _ _ h => h) fun _ => ?_
  refine .of_exists fun known => .of_exists fun functions => .of_exists fun rows =>
    .of_and fun hdiscovery => ?_
  rw [describeEnabledMsrs]
  split
  case isTrue henabled =>
    obtain ⟨driver, hdriver, hattach⟩ := hdrives.msr henabled
    rw [hdriver]
    refine .bind (.access_world (hworks.cpuList henabled)) fun msrs => .of_and fun hmsrs => ?_
    refine (forM_describeMsrs_ensures (canonical_of_mayGive hmsrs).cpu_lt
      (hdiscovery.showsCpus hlength hworks.cpu_lt)
      (fun cpu hcpu => hattach ▸ hworks.attachMsr henabled msrs hmsrs cpu hcpu) []).mono
      (fun _ hd => by rwa [Rows.append_nil]) ?_
    rintro _ d ⟨views, hviews, hd⟩
    exact ⟨known, functions, msrs, rows, _, hdiscovery, hmsrs, hdiscovery.systemRows hviews, hd⟩
  case isFalse hdisabled =>
    refine .pure fun d hd => ⟨known, functions, [], rows, _, hdiscovery, rfl,
      hdiscovery.systemRows .nil, ?_⟩
    rwa [Rows.append_nil]

/-- If each driver has one turn, what is described is what is found. -/
theorem describeDevices_ensures (hdrives : hw.Drives c drivers) (hworks : hw.Works c I)
    (hnames : ∀ name ∈ c.drivers, name ∈ ["cpuid", "pci", "msr"]) (hnodup : c.drivers.Nodup) :
    Ensures I (Shows Rows.none) (describeDevices c drivers) fun _ d =>
      ∃ known functions msrs rows, hw.Finds c I (known.map Prod.fst) functions msrs ∧
        SystemRows known functions msrs rows ∧ Shows rows d := by
  have hlength : c.drivers.count "cpuid" * hw.cpus.length ≤ indexLimit := calc
    _ ≤ 1 * hw.cpus.length := Nat.mul_le_mul_right _ (List.nodup_iff_count_le_one.1 hnodup _)
    _ = hw.cpus.length := Nat.one_mul _
    _ ≤ indexLimit := hworks.cpus_length_le
  refine (describeDevices_ensures_discovery hdrives hworks hnames hlength).mono (fun _ h => h) ?_
  rintro _ d ⟨known, functions, msrs, found, rows, hdiscovery, hmsrs, hrows, hd⟩
  exact ⟨known, functions, msrs, rows, hdiscovery.finds hnodup hmsrs, hrows, hd⟩

end Hardware

theorem shows_ofTree_empty (limit : Nat) :
    Shows Rows.none (.ofTree (Tree.empty.setPollLimit limit)) where
  wellFormed := ofTree_wellFormed ((Tree.WellFormed.withRoot none).setPollLimit limit)
  current_eq := rfl
  shows _ := ⟨nofun, rfl⟩

theorem forM_describeNamed_msr (drivers : Drivers Machine) (front back : List String) :
    (front ++ "msr" :: back).forM (describeNamed drivers) =
      (front ++ back).forM (describeNamed drivers) := by
  have hskip : describeNamed drivers "msr" = pure () := if_pos rfl
  simp only [List.forM_eq_forM, List.forM_append, List.forM_cons, hskip, pure_bind]

/-- MSRs come last, wherever they stand among the drivers. -/
theorem describeSystem_congr {c : Config} (drivers : Drivers Machine)
    {front back front' back' : List String} (hdrivers : c.drivers = front ++ "msr" :: back)
    (hmoved : front' ++ back' = front ++ back) :
    describeSystem { c with drivers := front' ++ "msr" :: back' } drivers =
      describeSystem c drivers := by
  have henabled : c.isEnabled "msr" = true := by simp [Config.isEnabled, hdrivers]
  have henabled' :
      ({ c with drivers := front' ++ "msr" :: back' } : Config).isEnabled "msr" = true := by
    simp [Config.isEnabled]
  rw [describeSystem, describeSystem, describeDevices, describeDevices, henabled, henabled',
    hdrivers, forM_describeNamed_msr, forM_describeNamed_msr, hmoved]
  rfl

/-- If the hardware that a configuration asks for works, the description of the system succeeds and
its tree shows what there is, no matter where the MSRs stand among the drivers. -/
theorem describeSystem_shows {hw : Hardware} {c : Config} {drivers : Drivers Machine}
    {I : Machine → Prop} {m : Machine} (hdrives : hw.Drives c drivers) (hworks : hw.Works c I)
    (hnames : ∀ name ∈ c.drivers, name ∈ ["cpuid", "pci", "msr"]) (hnodup : c.drivers.Nodup)
    (hm : I m) :
    (∃ t m' cpus functions msrs, (describeSystem c drivers).runOn m = (.ok t, m') ∧
      hw.Finds c I cpus functions msrs ∧ t.ShowsSystem cpus functions msrs) ∧
    ∀ front back front' back', c.drivers = front ++ "msr" :: back →
      front' ++ back' = front ++ back →
        describeSystem { c with drivers := front' ++ "msr" :: back' } drivers =
          describeSystem c drivers := by
  refine ⟨?_, fun _ _ _ _ hdrivers hmoved => describeSystem_congr drivers hdrivers hmoved⟩
  obtain ⟨_, d, m', hrun, ⟨known, functions, msrs, rows, hfinds, hrows, hd⟩, -⟩ :=
    Hardware.describeDevices_ensures hdrives hworks hnames hnodup
      (.ofTree (Tree.empty.setPollLimit c.pollLimit)) m (shows_ofTree_empty c.pollLimit) hm
  have hknown : known.length ≤ indexLimit := by simpa using hfinds.cpus_length_le hworks
  refine ⟨d.tree, m', _, functions, msrs, ?_, hfinds, hrows.showsSystem hd.shows hd.wellFormed.tree
    hknown (hfinds.functions_length_le hworks) hfinds.msrs_length_le⟩
  rw [describeSystem, Action.runOn_bind, Describe.run_runOn hrun]
  rfl

/-! ## Hardware on plain banks -/

/-- The drivers of hardware, with the built-in descriptions. -/
def Hardware.drivers (hw : Hardware) : Except Error (Drivers Machine) := do
  let cpuRegistry ← Cpuid.registerBuiltin {}
  let pciRegistry ← Pci.registerBuiltin {}
  pure (.ofList [Cpuid.driver hw.cpus hw.cpuSpace cpuRegistry,
    Pci.driver hw.enumerate hw.pciSpace pciRegistry, { name := "msr", attach := hw.attachMsr }])

theorem Hardware.exists_drivers (hw : Hardware) (c : Config) :
    ∃ drivers, hw.drivers = .ok drivers ∧ hw.Drives c drivers :=
  ⟨_, rfl, fun _ => ⟨_, rfl, rfl⟩, fun _ => ⟨_, rfl, rfl⟩, fun _ => ⟨_, rfl, rfl⟩⟩

/-- All banks of a machine are plain, and they hold certain values. -/
structure Machine.PlainWith (values : String × Value → Value) (m : Machine) : Prop where
  plain : ∀ name, m.PlainBank name
  value_eq : m.value = values

namespace Machine.PlainWith

variable {values : String × Value → Value} {name label : String} {address : Value} {width : Width}

theorem yields : Yields (PlainWith values) (Bus.read (.bank name label) address width)
    (width.truncate (values (name, address))) := by
  intro m hm
  obtain ⟨m', hrun, hvalue, hplain⟩ := Machine.runOn_read
    (r := ⟨.bank name label, address, width⟩) (c := (name, address)) rfl (hm.plain name)
  rw [hm.value_eq] at hrun
  exact ⟨m', hrun, fun n => hplain n (hm.plain n), hvalue.trans hm.value_eq⟩

end Machine.PlainWith

/-- Two CPUs, and two places on a bus. -/
def bankHardware : Hardware where
  cpus := [1, 0]
  cpuSpace cpu := .simulated ("cpu" ++ toString cpu)
  enumerate := pure [⟨0, 0, 0, 0⟩, ⟨0, 0, 1, 0⟩]
  pciSpace a := .simulated a.node
  attachMsr _ := pure (.simulated "msr")

/-- The drivers in an unusual order. -/
def bankConfig : Config := { cpus := some "0-1", drivers := ["msr", "pci", "cpuid"] }

/-- CPU 0 is one of Intel, and the second place on the bus is empty. -/
def bankMachine : Machine :=
  let intel : Cpuid.Leaf := ⟨0xD, 0x756E6547, 0x6C65746E, 0x49656E69⟩
  let machine := ({} : Machine).setBank (({ name := "cpu0" } : Bank).set 0 intel.pack)
  let machine := machine.setBank (({ name := "00/00.0" } : Bank).set 0 0x00011234)
  machine.setBank (({ name := "00/01.0" } : Bank).set 0 0xFFFFFFFF)

theorem plainWith_bankMachine : bankMachine.PlainWith bankMachine.value where
  plain _ := .setBank ⟨rfl, rfl, rfl, rfl⟩ (.setBank ⟨rfl, rfl, rfl, rfl⟩
    (.setBank ⟨rfl, rfl, rfl, rfl⟩ ⟨rfl, ⟨rfl, rfl, rfl, rfl⟩⟩))
  value_eq := rfl

theorem bankHardware_works :
    bankHardware.Works bankConfig (Machine.PlainWith bankMachine.value) where
  cpus_length_le := by decide
  cpu_lt := by decide
  leaf _ _ _ _ _ := Machine.PlainWith.yields.answers
  enumerate _ := .pure _
  addresses_length_le _ addresses h := by
    obtain ⟨w, w', -, hrun⟩ := h
    cases hrun
    decide
  id _ _ _ _ _ := Machine.PlainWith.yields.answers
  header _ _ _ _ _ _ _ _ := Machine.PlainWith.yields.answers
  cpuList _ := fun w hw => ⟨_, w, rfl, hw⟩
  attachMsr _ _ _ _ _ := .pure _

/-- What is found there is known beforehand. -/
theorem bankHardware_finds {cpus msrs : List Nat} {functions : List Pci.Address}
    (h : bankHardware.Finds bankConfig (Machine.PlainWith bankMachine.value) cpus functions msrs) :
    cpus = [1, 0] ∧ functions = [⟨0, 0, 0, 0⟩] ∧ msrs = [0, 1] := by
  refine ⟨h.cpus, ?_, ?_⟩
  · obtain ⟨addresses, ids, ⟨w, w', -, hrun⟩, hids, rfl⟩ := h.functions
    cases hrun
    obtain _ | ⟨hfirst, _ | ⟨hsecond, _ | _⟩⟩ := hids
    rw [hfirst.eq_of_yields Machine.PlainWith.yields, hsecond.eq_of_yields Machine.PlainWith.yields]
    rfl
  · obtain ⟨w, w', -, hrun⟩ := h.msrs
    have hlist : bankConfig.cpuList w.disk = .ok (CpuList.normalize [0, 1]) := rfl
    have hmsrs : bankConfig.cpuList w.disk = .ok msrs := congrArg Prod.fst hrun
    rw [hlist, CpuList.normalize_eq_self (by decide)] at hmsrs
    exact (Except.ok.inj hmsrs).symm

theorem describeSystem_shows_bankHardware :
    ∃ drivers, bankHardware.Drives bankConfig drivers ∧
      bankHardware.Works bankConfig (Machine.PlainWith bankMachine.value) ∧
      (∀ name ∈ bankConfig.drivers, name ∈ ["cpuid", "pci", "msr"]) ∧ bankConfig.drivers.Nodup ∧
      bankMachine.PlainWith bankMachine.value ∧
      (∃ t m', (describeSystem bankConfig drivers).runOn bankMachine = (.ok t, m') ∧
        t.ShowsSystem [1, 0] [⟨0, 0, 0, 0⟩] [0, 1]) ∧
      describeSystem { bankConfig with drivers := ["pci", "cpuid", "msr"] } drivers =
        describeSystem bankConfig drivers := by
  obtain ⟨drivers, -, hdrives⟩ := bankHardware.exists_drivers bankConfig
  have hnames : ∀ name ∈ bankConfig.drivers, name ∈ ["cpuid", "pci", "msr"] := by decide
  have hnodup : bankConfig.drivers.Nodup := by decide
  obtain ⟨⟨t, m', cpus, functions, msrs, hrun, hfinds, hshows⟩, hmoved⟩ :=
    describeSystem_shows hdrives bankHardware_works hnames hnodup plainWith_bankMachine
  obtain ⟨rfl, rfl, rfl⟩ := bankHardware_finds hfinds
  exact ⟨drivers, hdrives, bankHardware_works, hnames, hnodup, plainWith_bankMachine,
    ⟨t, m', hrun, hshows⟩, hmoved [] _ ["pci", "cpuid"] [] rfl rfl⟩

end RegisterAtlas
