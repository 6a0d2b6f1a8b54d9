import RegisterAtlas.Proofs.Describe.System

/-!
# Identities in the tree

The dispatch of discovery goes by the identity that is probed of a device, and the tree shows the
device by fields of its own. Both go back to the same registers. As long as these give the same
values again, the fields read what the identity says (`ShowsIdentity`), for all values that the
registers may hold.
-/

namespace RegisterAtlas

open Describe Draft

variable {σ : Type} [Bus σ] {I : σ → Prop}

namespace Tree

variable {t : Tree} {scope : EntryId} {name : String} {v : Value}

theorem yields_read_range {r : Register} {low count : Nat} {datatype : Datatype} {id : EntryId}
    (h : t.entry id = .field (.direct datatype (.range r low count))) (hv : Yields I r.read v)
    (depth : Nat) :
    Yields I (t.readWithin (depth + 1) id) ((v.extractLsb' low count).setWidth 128) := by
  rw [readWithin_range h]
  exact (hv.mapError _).bind (.pure _)

/-- An open scope, by the name of one of its entries. -/
structure IsScope (t : Tree) (scope : EntryId) : Prop where
  wellFormed : t.WellFormed
  lt_size : scope < t.size
  kind_eq : t.kind scope = .scope

theorem IsScope.yields_range (h : t.IsScope scope) {r : Register} {low count : Nat}
    {datatype : Datatype} (hname : isName name.toList = true)
    (hview : t.view scope name = some (.field (.direct datatype (.range r low count))))
    (hv : Yields I r.read v) :
    Yields I (t.readPath scope name) ((v.extractLsb' low count).setWidth 128) := by
  obtain ⟨child, -, -, hentry, -, hread⟩ := readPath_child (σ := σ) h.wellFormed h.lt_size h.kind_eq
    hname hview
  rw [hread, read, maxNesting_eq_succ]
  exact yields_read_range hentry hv _

theorem IsScope.yields_evaluate_constant (h : t.IsScope scope) {datatype : Datatype}
    (hname : isName name.toList = true)
    (hview : t.view scope name = some (.field (.constant datatype v))) :
    ∃ id, t.resolveText scope name = .ok (some id) ∧
      Yields I (t.evaluate id) (datatype.evaluate v) := by
  obtain ⟨child, hchild, -, hentry, -, -⟩ :=
    readPath_child (σ := σ) h.wellFormed h.lt_size h.kind_eq hname hview
  refine ⟨child, hchild, ?_⟩
  rw [evaluate_field hentry, read_constant hentry]
  exact (Yields.pure v).bind (.pure _)

end Tree

/-! ## Discovery -/

/-- With identities that are known beforehand, there is a view of each instance that has one. -/
theorem Described.forall₂_filterMap {α ι : Type} {Is : α → Option ι → Prop}
    {G : α → ι → View → Prop} {as : List α} {views : List View} (h : Described Is G as views)
    (identity : α → Option ι)
    (hidentity : ∀ a ∈ as, ∀ o, Is a o → o = identity a) :
    List.Forall₂ (fun p view => G p.1 p.2 view) (as.filterMap fun a => (identity a).map (a, ·))
      views := by
  induction h with
  | nil => exact .nil
  | absent hnone _ ih =>
      obtain ⟨hfirst, hidentity⟩ := List.forall_mem_cons.1 hidentity
      rw [List.filterMap_cons, ← hfirst none hnone]
      exact ih hidentity
  | found hsome hview _ ih =>
      obtain ⟨hfirst, hidentity⟩ := List.forall_mem_cons.1 hidentity
      rw [List.filterMap_cons, ← hfirst _ hsome]
      exact .cons hview (ih hidentity)

/-- Discovery by a driver succeeds and appends an element to an array of the open scope for each of
certain instances, in their order. -/
def Presents {ι : Type} (I : σ → Prop) (driver : Driver σ) (name : String) (d : Draft) (w : σ)
    (found : List ι) (Shown : ι → Tree → EntryId → Prop) : Prop :=
  ∃ discover n d' w', driver.discover = some discover ∧
    discover.runOn (d, w) = (.ok n, d', w') ∧ I w' ∧ d'.current = d.current ∧
    ((d'.tree.view d.current).items name).length =
      ((d.tree.view d.current).items name).length + found.length ∧
    ∀ i x, found[i]? = some x → ∃ element,
      d'.tree.Lists d.current
        (.indexed name (.pos (((d.tree.view d.current).items name).length + i))) element ∧
      Shown x d'.tree element

omit [Bus σ] in
theorem Presents.mono {ι : Type} {driver : Driver σ} {name : String} {d : Draft} {w : σ}
    {found : List ι} {Shown Shown' : ι → Tree → EntryId → Prop}
    (h : Presents I driver name d w found Shown)
    (hshown : ∀ x ∈ found, ∀ t element, Shown x t element → Shown' x t element) :
    Presents I driver name d w found Shown' := by
  obtain ⟨discover, n, d', w', hdiscover, hrun, hw', hcurrent, hlength, helements⟩ := h
  refine ⟨discover, n, d', w', hdiscover, hrun, hw', hcurrent, hlength, fun i x hx => ?_⟩
  obtain ⟨element, hl, hx'⟩ := helements i x hx
  exact ⟨element, hl, hshown x (List.mem_of_getElem? hx) _ _ hx'⟩

omit [Bus σ] in
theorem presents_of_ensures {ι : Type} {driver : Driver σ} {name : String} {d : Draft} {w : σ}
    {found : List ι} {G : ι → View → Prop} {Shown : ι → Tree → EntryId → Prop}
    {discover : Describe σ Nat} (hdiscover : driver.discover = some discover) (hd : d.WellFormed)
    (htakes : (d.tree.view d.current).Takes name .scope) (hw : I w)
    (h : ∀ views, Ensures I (ShowsElements d.current name views) discover fun _ d' =>
      ∃ new, List.Forall₂ G found new ∧ ShowsElements d.current name (views ++ new) d')
    (hshown : ∀ x ∈ found, ∀ t element, t.IsScope element → G x (t.view element) →
      Shown x t element) :
    Presents I driver name d w found Shown := by
  obtain ⟨n, d', w', hrun, ⟨new, hnew, hd'⟩, hw'⟩ := h _ d w ⟨hd, rfl, htakes, rfl⟩ hw
  have hviews := hd'.shows.views_eq
  have hlength := congrArg List.length hviews
  rw [List.length_map, List.length_append, List.length_map, ← hnew.length_eq] at hlength
  refine ⟨discover, n, d', w', hdiscover, hrun, hw', hd'.current_eq, hlength, fun i x hx => ?_⟩
  obtain ⟨hi, rfl⟩ := List.getElem?_eq_some_iff.1 hx
  have hi' : i < new.length := hnew.length_eq ▸ hi
  have hitem := congrArg (·[((d.tree.view d.current).items name).length + i]?) hviews
  simp only [List.getElem?_map] at hitem
  rw [List.getElem?_append_right (by simp), List.length_map, Nat.add_sub_cancel_left,
    List.getElem?_eq_getElem hi', Option.map_eq_some_iff] at hitem
  obtain ⟨element, helement, hview⟩ := hitem
  have hl := Tree.lists_of_items helement
  have hw := hd'.wellFormed.tree
  have hkind := hd'.shows.element_kind hw (List.mem_of_getElem? helement)
  exact ⟨element, hl, hshown _ (List.getElem_mem hi) _ _ ⟨hw, hl.lt_size hw, hkind⟩
    (hview ▸ hnew.get hi hi')⟩

/-! ## CPUs -/

namespace Cpuid

/-- The text that the field for the vendor shows. -/
def vendorText (vendor : String) : String :=
  if vendor = "Intel" then "Intel" else if vendor = "AMD" then "AMD" else "other"

theorem evaluate_vendorCode (vendor : String) :
    vendorType.evaluate (vendorCode vendor) = vendorText vendor := by
  rw [vendorCode, vendorText]
  split_ifs <;> decide +kernel

/-- The element for a CPU reads what its identity says, and the largest leaf as leaf 0 has it. -/
structure ShowsIdentity (I : σ → Prop) (t : Tree) (element : EntryId) (i : Identity)
    (maxLeaf : BitVec 32) : Prop where
  family : Yields I (t.readPath element "family") (BitVec.ofNat 128 i.signature.family)
  model : Yields I (t.readPath element "model") (BitVec.ofNat 128 i.signature.model)
  stepping : Yields I (t.readPath element "stepping") (BitVec.ofNat 128 i.signature.stepping)
  maxLeaf : Yields I (t.readPath element "max_leaf") (maxLeaf.setWidth 128)
  vendor : ∃ id, t.resolveText element "vendor" = .ok (some id) ∧
    Yields I (t.evaluate id) (vendorText i.vendor)

/-- The identity that leaves 0 and 1 make up. -/
def identityOf (leaf0 leaf1 : Value) : Identity :=
  let vendor := Leaf.unpack leaf0
  ⟨vendorName vendor.ebx vendor.ecx vendor.edx, .decode (Leaf.unpack leaf1).eax⟩

variable {t : Tree} {element : EntryId} {space : Space} {leaf0 leaf1 : Value}

theorem yields_probe (h₀ : Yields I (Bus.read space (address 0 0) .w128) leaf0)
    (h₁ : Yields I (Bus.read space (address 1 0) .w128) leaf1) :
    Yields I (Identity.probe space) (identityOf leaf0 leaf1) :=
  h₀.bind (h₁.bind (.pure _))

/-- A part of the signature is reckoned from the leaf when it is read. -/
theorem yields_signaturePart {name : String} {datatype : Datatype} {part : Signature → Nat}
    (h : t.IsScope element) (hname : isName name.toList = true)
    (hview : t.view element name = some (.field (.readOnly datatype (signaturePart part))))
    (hsignature : t.view element "%signature" =
      some (.field (.direct (hex 32) (.range ⟨space, address 1 0, .w128⟩ 0 32))))
    (h₁ : Yields I (Bus.read space (address 1 0) .w128) leaf1) :
    Yields I (t.readPath element name)
      (BitVec.ofNat 128 (part (.decode (Leaf.unpack leaf1).eax))) := by
  obtain ⟨child, -, -, hentry, hparent, hread⟩ := Tree.readPath_child (σ := σ) h.wellFormed
    h.lt_size h.kind_eq hname hview
  obtain ⟨source, -, htarget, hsource, -, -⟩ := Tree.readPath_child (σ := σ) h.wellFormed
    h.lt_size h.kind_eq (by decide) hsignature
  have hrun : (t.read child : Access σ Value) =
      t.readWithin (t.size + 4094 + 1) source >>= fun v =>
        pure (BitVec.ofNat 128 (part (.decode (v.setWidth 32)))) := by
    rw [Tree.read, Tree.maxNesting_eq_succ]
    refine (Tree.readWithin_field hentry _).trans ?_
    simp only [Field.readOnly, hparent, signaturePart, Tree.run, htarget, Access.ofExcept_ok,
      pure_bind]
  have hword : ((leaf1.extractLsb' 0 32).setWidth 128).setWidth 32 = (Leaf.unpack leaf1).eax := by
    simp [Leaf.unpack]
  rw [hread, hrun, ← hword]
  exact (Tree.yields_read_range hsource h₁ _).bind (.pure _)

theorem ShowsCpu.showsIdentity {cpu : Nat} (h : t.IsScope element)
    (hshows : ShowsCpu I ⟨cpu, identityOf leaf0 leaf1, space⟩ (t.view element))
    (h₀ : Yields I (Bus.read space (address 0 0) .w128) leaf0)
    (h₁ : Yields I (Bus.read space (address 1 0) .w128) leaf1) :
    ShowsIdentity I t element (identityOf leaf0 leaf1) (Leaf.unpack leaf0).eax where
  family := yields_signaturePart h (by decide) hshows.leaves.family hshows.leaves.signature h₁
  model := yields_signaturePart h (by decide) hshows.leaves.model hshows.leaves.signature h₁
  stepping := by
    have hbits : (leaf1.extractLsb' 0 4).setWidth 128 =
        BitVec.ofNat 128 (Signature.decode (Leaf.unpack leaf1).eax).stepping := by
      rw [Signature.decode, BitVec.ofNat_toNat, Leaf.unpack]
      congr 1
      ext i hi
      simp
    have hread := h.yields_range (by decide) hshows.leaves.stepping h₁
    rwa [hbits] at hread
  maxLeaf := h.yields_range (by decide) hshows.leaves.maxLeaf h₀
  vendor := by
    rw [← evaluate_vendorCode]
    exact h.yields_evaluate_constant (by decide) hshows.shows.vendor

theorem discover_ensures {cpus : List Nat} {spaceOf : Nat → Space} {leaf0 leaf1 : Nat → Value}
    {r : Registry σ} {array : EntryId} {P : List View → Draft → Prop}
    (hr : registerBuiltin {} = .ok r) (hP : Gathers array "cpu" P)
    (h₀ : ∀ cpu ∈ cpus, Yields I (Bus.read (spaceOf cpu) (address 0 0) .w128) (leaf0 cpu))
    (h₁ : ∀ cpu ∈ cpus, Yields I (Bus.read (spaceOf cpu) (address 1 0) .w128) (leaf1 cpu))
    (views : List View) :
    Ensures I (P views) (r.describeAll (fun s => do pure (some (← Identity.probe s)))
        (cpus.map fun cpu => (cpu, spaceOf cpu))) fun _ d =>
      ∃ new, List.Forall₂ (fun cpu view =>
          ShowsCpu I ⟨cpu, identityOf (leaf0 cpu) (leaf1 cpu), spaceOf cpu⟩ view) cpus new ∧
        P (views ++ new) d := by
  have hprobe : ∀ cpu ∈ cpus, Yields I (do pure (some (← Identity.probe (spaceOf cpu))))
      (some (identityOf (leaf0 cpu) (leaf1 cpu))) := fun cpu hcpu =>
    (yields_probe (h₀ cpu hcpu) (h₁ cpu hcpu)).bind (.pure _)
  refine (Ensures.describeAll (G := fun p i view => ShowsCpu I ⟨p.1, i, p.2⟩ view) ?_ ?_
    views).mono (fun _ hd => hd) ?_
  · intro p hp
    obtain ⟨cpu, hcpu, rfl⟩ := List.mem_map.1 hp
    exact (hprobe cpu hcpu).answers
  · intro p hp i _ views
    obtain ⟨cpu, hcpu, rfl⟩ := List.mem_map.1 hp
    exact dispatch_ensures hr hP (h₀ cpu hcpu).answers
  · rintro _ d ⟨new, hnew, hd⟩
    have hall := hnew.forall₂_filterMap (fun p => some (identityOf (leaf0 p.1) (leaf1 p.1)))
      fun p hp o ho => by
        obtain ⟨cpu, hcpu, rfl⟩ := List.mem_map.1 hp
        exact ho.eq_of_yields (hprobe cpu hcpu)
    simp only [Option.map_some, List.filterMap_eq_map', List.map_map] at hall
    have hcpus := List.forall₂_map_left_iff.1 hall
    exact ⟨new, hcpus, hd⟩

end Cpuid

/-! ## PCI functions -/

namespace Pci

/-- The element for a PCI function reads the ids of its identity. -/
structure ShowsIdentity (I : σ → Prop) (t : Tree) (element : EntryId) (i : Identity) : Prop where
  vendor : Yields I (t.readPath element "vendor_id") (i.vendor.setWidth 128)
  device : Yields I (t.readPath element "device_id") (i.device.setWidth 128)

/-- The identity that the first register makes up, if there is a function at all. -/
def identityOf (id : Value) : Option Identity :=
  if id.extractLsb' 0 16 = Identity.absent then none
  else some ⟨id.extractLsb' 0 16, id.extractLsb' 16 16⟩

variable {t : Tree} {element : EntryId} {space : Space} {id : Value} {i : Identity}

theorem yields_probe (h : Yields I (Bus.read space 0 .w32) id) :
    Yields I (Identity.probe space) (identityOf id) := h.bind (.pure _)

theorem ShowsIds.showsIdentity (h : t.IsScope element) (hshows : ShowsIds space (t.view element))
    (hid : Yields I (Bus.read space 0 .w32) id) (hi : identityOf id = some i) :
    ShowsIdentity I t element i := by
  rw [identityOf] at hi
  split at hi
  · cases hi
  · cases hi
    exact ⟨h.yields_range (by decide) hshows.vendor hid,
      h.yields_range (by decide) hshows.device hid⟩

theorem discover_ensures {addresses : List Address} {spaceOf : Address → Space}
    {ids : Address → Value} {enumerate : Action Error σ (List Address)} {r : Registry σ}
    {array : EntryId} {P : List View → Draft → Prop} (hr : registerBuiltin {} = .ok r)
    (hP : Gathers array "pci" P) (henumerate : Yields I enumerate addresses)
    (hids : ∀ a ∈ addresses, Yields I (Bus.read (spaceOf a) 0 .w32) (ids a))
    (hheader : ∀ a ∈ addresses, identityOf (ids a) ≠ none →
      Answers I (Bus.read (spaceOf a) 0x0E .w8)) (views : List View) :
    Ensures I (P views) (do
        let addresses ← Describe.access fun _ => enumerate.mapError .error
        r.describeAll Identity.probe (addresses.map fun a => (a, spaceOf a))) fun _ d =>
      ∃ new, List.Forall₂ (fun (p : Address × Identity) view =>
          ShowsFunction p.1 (spaceOf p.1) view)
          (addresses.filterMap fun a => (identityOf (ids a)).map (a, ·)) new ∧
        P (views ++ new) d := by
  refine .bind (.access_world henumerate.answers) fun found => .of_and fun hfound => ?_
  obtain rfl := hfound.eq_of_yields henumerate
  have hprobe : ∀ a ∈ found, Yields I (Identity.probe (spaceOf a)) (identityOf (ids a)) :=
    fun a ha => yields_probe (hids a ha)
  refine (Ensures.describeAll (G := fun p _ view => ShowsFunction p.1 p.2 view) ?_ ?_
    views).mono (fun _ hd => hd) ?_
  · intro p hp
    obtain ⟨a, ha, rfl⟩ := List.mem_map.1 hp
    exact (hprobe a ha).answers
  · intro p hp i hi views
    obtain ⟨a, ha, rfl⟩ := List.mem_map.1 hp
    have hsome : some i = identityOf (ids a) := hi.eq_of_yields (hprobe a ha)
    exact dispatch_ensures hr hP (hheader a ha (hsome ▸ Option.some_ne_none i))
  · rintro _ d ⟨new, hnew, hd⟩
    have hall := hnew.forall₂_filterMap (fun p => identityOf (ids p.1)) fun p hp o ho => by
      obtain ⟨a, ha, rfl⟩ := List.mem_map.1 hp
      exact ho.eq_of_yields (hprobe a ha)
    have hfunctions : (found.map fun a => (a, spaceOf a)).filterMap
          (fun p => (identityOf (ids p.1)).map (p, ·)) =
        (found.filterMap fun a => (identityOf (ids a)).map (a, ·)).map
          fun p => ((p.1, spaceOf p.1), p.2) := by
      simp only [List.filterMap_map, List.map_filterMap, Function.comp_def, Option.map_map]
    rw [hfunctions] at hall
    have hall := List.forall₂_map_left_iff.1 hall
    exact ⟨new, hall, hd⟩

end Pci

/-- What discovery goes by is what the tree shows. Whatever leaves 0 and 1 of some CPUs hold and the
configuration spaces of some PCI functions hold, each CPU and each function that is there gets an
element, and the element reads what the identity says that was probed. -/
theorem discover_shows_identities {d : Draft} {w : σ} (hd : d.WellFormed) (hw : I w) :
    (∀ (cpus : List Nat) (spaceOf : Nat → Space) (leaf0 leaf1 : Nat → Value)
        (r : Cpuid.Registry σ), Cpuid.registerBuiltin {} = .ok r →
      (d.tree.view d.current).Takes "cpu" .scope →
      (∀ cpu ∈ cpus, Yields I (Bus.read (spaceOf cpu) (Cpuid.address 0 0) .w128) (leaf0 cpu)) →
      (∀ cpu ∈ cpus, Yields I (Bus.read (spaceOf cpu) (Cpuid.address 1 0) .w128) (leaf1 cpu)) →
      ∃ identity : Nat → Cpuid.Identity,
        (∀ cpu ∈ cpus, Yields I (Cpuid.Identity.probe (spaceOf cpu)) (identity cpu)) ∧
        Presents I (Cpuid.driver cpus spaceOf r) "cpu" d w cpus fun cpu t element =>
          Cpuid.ShowsIdentity I t element (identity cpu) (Cpuid.Leaf.unpack (leaf0 cpu)).eax) ∧
    ∀ (enumerate : Action Error σ (List Pci.Address)) (addresses : List Pci.Address)
        (spaceOf : Pci.Address → Space) (ids : Pci.Address → Value) (r : Pci.Registry σ),
      Pci.registerBuiltin {} = .ok r → (d.tree.view d.current).Takes "pci" .scope →
      Yields I enumerate addresses →
      (∀ a ∈ addresses, Yields I (Bus.read (spaceOf a) 0 .w32) (ids a)) →
      (∀ a ∈ addresses, Pci.identityOf (ids a) ≠ none →
        Answers I (Bus.read (spaceOf a) 0x0E .w8)) →
      ∃ identity : Pci.Address → Option Pci.Identity,
        (∀ a ∈ addresses, Yields I (Pci.Identity.probe (spaceOf a)) (identity a)) ∧
        Presents I (Pci.driver enumerate spaceOf r) "pci" d w
          (addresses.filterMap fun a => (identity a).map (a, ·)) fun p t element =>
            Pci.ShowsIdentity I t element p.2 := by
  constructor
  · intro cpus spaceOf leaf0 leaf1 r hr htakes h₀ h₁
    refine ⟨fun cpu => Cpuid.identityOf (leaf0 cpu) (leaf1 cpu),
      fun cpu hcpu => Cpuid.yields_probe (h₀ cpu hcpu) (h₁ cpu hcpu), ?_⟩
    refine presents_of_ensures rfl hd htakes hw
      (Cpuid.discover_ensures hr (gathers_showsElements _ _) h₀ h₁)
      fun cpu hcpu t element h hshows => hshows.showsIdentity h (h₀ cpu hcpu) (h₁ cpu hcpu)
  · intro enumerate addresses spaceOf ids r hr htakes henumerate hids hheader
    refine ⟨fun a => Pci.identityOf (ids a), fun a ha => Pci.yields_probe (hids a ha), ?_⟩
    refine presents_of_ensures rfl hd htakes hw (Pci.discover_ensures hr (gathers_showsElements _ _)
      henumerate hids hheader) fun p hp t element h hshows => ?_
    obtain ⟨a, ha, hsome⟩ := List.mem_filterMap.1 hp
    obtain ⟨i, hi, rfl⟩ := Option.map_eq_some_iff.1 hsome
    exact hshows.ids.showsIdentity h (hids a ha) hi

/-- On plain banks all registers are stable: here two CPUs, one of them of Intel, and two places on
a bus. -/
theorem discover_shows_identities_bankHardware :
    ∃ (r₁ : Cpuid.Registry Machine) (r₂ : Pci.Registry Machine) (d : Draft),
      let I := Machine.PlainWith bankMachine.value
      d.WellFormed ∧ I bankMachine ∧
      (∃ identity : Nat → Cpuid.Identity,
        (∀ cpu ∈ [1, 0],
          Yields I (Cpuid.Identity.probe (bankHardware.cpuSpace cpu)) (identity cpu)) ∧
        Presents I (Cpuid.driver [1, 0] bankHardware.cpuSpace r₁) "cpu" d bankMachine [1, 0]
          fun cpu t element => Cpuid.ShowsIdentity I t element (identity cpu)
            (Cpuid.Leaf.unpack (Width.w128.truncate
              (bankMachine.value ("cpu" ++ toString cpu, Cpuid.address 0 0)))).eax) ∧
      ∃ identity : Pci.Address → Option Pci.Identity,
        (∀ a ∈ [(⟨0, 0, 0, 0⟩ : Pci.Address), ⟨0, 0, 1, 0⟩],
          Yields I (Pci.Identity.probe (bankHardware.pciSpace a)) (identity a)) ∧
        Presents I (Pci.driver bankHardware.enumerate bankHardware.pciSpace r₂) "pci" d bankMachine
          ([(⟨0, 0, 0, 0⟩ : Pci.Address), ⟨0, 0, 1, 0⟩].filterMap fun a => (identity a).map (a, ·))
          fun p t element => Pci.ShowsIdentity I t element p.2 := by
  have hstart := shows_ofTree_empty 1000
  obtain ⟨r₁, hr₁⟩ : ∃ r, Cpuid.registerBuiltin ({} : Cpuid.Registry Machine) = .ok r := ⟨_, rfl⟩
  obtain ⟨r₂, hr₂⟩ : ∃ r, Pci.registerBuiltin ({} : Pci.Registry Machine) = .ok r := ⟨_, rfl⟩
  obtain ⟨hcpus, hfunctions⟩ := discover_shows_identities hstart.wellFormed plainWith_bankMachine
  refine ⟨r₁, r₂, _, hstart.wellFormed, plainWith_bankMachine, ?_, ?_⟩
  · exact hcpus [1, 0] bankHardware.cpuSpace _
      (fun cpu => Width.w128.truncate
        (bankMachine.value ("cpu" ++ toString cpu, Cpuid.address 1 0))) r₁ hr₁
      (hstart.shows "cpu").takes (fun _ _ => Machine.PlainWith.yields)
      fun _ _ => Machine.PlainWith.yields
  · exact hfunctions _ _ bankHardware.pciSpace
      (fun a => Width.w32.truncate (bankMachine.value (a.node, 0))) r₂ hr₂
      (hstart.shows "pci").takes (.pure _) (fun _ _ => Machine.PlainWith.yields)
      fun _ _ _ => Machine.PlainWith.yields.answers

end RegisterAtlas
