import RegisterAtlas.Proofs.Describe.System

/-!
# Drivers that are named more than once

A configuration names its drivers in a list. For the MSRs the list counts as a set, while every
other driver has a turn for each time that it is named. So a driver that discovers anything
describes its devices once for each turn. With all registers stable nothing else changes: there is
the same error as if each driver were named once, or the same system but for the repeated devices.
-/

namespace RegisterAtlas

open Describe Draft

/-! ## Later repetitions -/

section

variable {α : Type} [DecidableEq α]

theorem nodup_eraseDups (l : List α) : l.eraseDups.Nodup := by
  induction l using List.reverseRecOn with
  | nil => exact List.nodup_nil
  | append_singleton l a ih =>
      rw [eraseDups_concat]
      split
      · exact ih
      · next h => exact List.concat_eq_append ▸ ih.concat (mt List.mem_eraseDups.1 h)

theorem eraseDups_of_nodup {l : List α} (h : l.Nodup) : l.eraseDups = l := by
  induction l using List.reverseRecOn with
  | nil => rfl
  | append_singleton l a ih =>
      obtain ⟨hl, -, hne⟩ := List.nodup_append.1 h
      have ha : a ∉ l := fun hmem => hne a hmem a List.mem_cons_self rfl
      rw [eraseDups_concat, if_neg ha, ih hl]

theorem count_eraseDups (l : List α) (a : α) : l.eraseDups.count a = if a ∈ l then 1 else 0 := by
  simp only [(nodup_eraseDups l).count, List.mem_eraseDups]

theorem count_eraseDups_le (l : List α) (a : α) : l.eraseDups.count a ≤ l.count a := by
  rw [count_eraseDups]
  split
  · next h => exact List.count_pos_iff.2 h
  · exact Nat.zero_le _

/-- What is named gets one turn, and for anything else there is nothing. -/
theorem flatten_replicate_count_eraseDups {β : Type} {l : List α} {a : α} {xs : List β}
    (h : a ∉ l → xs = []) : (List.replicate (l.eraseDups.count a) xs).flatten = xs := by
  rw [count_eraseDups]
  split
  · rw [List.replicate_one, List.flatten_singleton]
  · next ha => rw [h ha]; rfl

theorem find?_eraseDups (p : α → Bool) (l : List α) : l.eraseDups.find? p = l.find? p := by
  induction l using List.reverseRecOn with
  | nil => rfl
  | append_singleton l a ih =>
      rw [eraseDups_concat, List.find?_append]
      split
      · next h =>
          rw [ih]
          cases hfind : l.find? p with
          | some b => rfl
          | none => simp [List.find?_eq_none.1 hfind a h]
      · rw [List.find?_append, ih]

/-- Steps that change nothing once they were taken need not be taken again. -/
theorem forM_eraseDups {m : Type → Type} [Monad m] [LawfulMonad m] {f : α → m PUnit} {l : List α}
    (h : ∀ a, 1 < l.count a → ∀ front : List α, a ∈ front →
      (front.forM f >>= fun _ => f a) = front.forM f) : l.eraseDups.forM f = l.forM f := by
  have hconcat (l : List α) (a : α) : (l ++ [a]).forM f = l.forM f >>= fun _ => f a := by
    simp [List.forM_eq_forM]
  induction l using List.reverseRecOn with
  | nil => rfl
  | append_singleton l a ih =>
      have hl := ih fun b hb => h b (Nat.lt_of_lt_of_le hb (List.Sublist.count_le b (by simp)))
      rw [eraseDups_concat, hconcat]
      split
      · next ha =>
          have hcount : 1 < (l ++ [a]).count a := by
            rw [List.count_append, List.count_singleton_self]
            exact Nat.succ_lt_succ (List.count_pos_iff.2 ha)
          rw [hl, h a hcount l ha]
      · rw [hconcat, hl]

end

/-- Nothing is done after a failure. -/
theorem Describe.fail_bind {σ α β : Type} (e : Error) (k : α → Describe σ β) :
    (Describe.fail e >>= k) = Describe.fail e := rfl

/-- The turn of a driver without discovery either does nothing or fails, so it makes no difference
to have another one. -/
theorem forM_describeNamed_bind {drivers : Drivers Machine} {name : String} {front : List String}
    (hname : name = "msr" ∨ ∀ d, drivers.get? name = some d → d.discover = none)
    (hmem : name ∈ front) :
    (front.forM (describeNamed drivers) >>= fun _ => describeNamed drivers name) =
      front.forM (describeNamed drivers) := by
  by_cases hmsr : name = "msr"
  · have hskip : describeNamed drivers name = pure () := if_pos hmsr
    rw [hskip]
    exact bind_pure_unit
  · obtain ⟨e, he⟩ : ∃ e, describeNamed drivers name = Describe.fail e := by
      rw [describeNamed, if_neg hmsr, Drivers.discover]
      cases hd : drivers.get? name with
      | none => exact ⟨_, rfl⟩
      | some d =>
          dsimp only
          rw [hname.resolve_left hmsr d hd]
          exact ⟨_, rfl⟩
    obtain ⟨before, after, rfl⟩ := List.append_of_mem hmem
    simp only [List.forM_eq_forM, List.forM_append, List.forM_cons, he, Describe.fail_bind,
      bind_assoc]

theorem describeEnabledMsrs_congr {c : Config} {names : List String}
    (hmem : ∀ name, name ∈ names ↔ name ∈ c.drivers) (drivers : Drivers Machine) :
    describeEnabledMsrs { c with drivers := names } drivers = describeEnabledMsrs c drivers := by
  simp only [describeEnabledMsrs, Config.isEnabled, hmem]
  rfl

/-! ## Stable hardware -/

namespace Hardware

variable {hw : Hardware} {c : Config} {drivers : Drivers Machine} {I : Machine → Prop}
  {names : List String} {name : String}

/-- The drivers for CPUs and PCI functions are for this hardware and have the built-in descriptions,
and no other driver discovers anything. -/
structure BuiltIn (hw : Hardware) (drivers : Drivers Machine) : Prop where
  cpuid : ∀ d, drivers.get? "cpuid" = some d → ∃ registry, Cpuid.registerBuiltin {} = .ok registry ∧
    d = Cpuid.driver hw.cpus hw.cpuSpace registry
  pci : ∀ d, drivers.get? "pci" = some d → ∃ registry, Pci.registerBuiltin {} = .ok registry ∧
    d = Pci.driver hw.enumerate hw.pciSpace registry
  msr : ∀ d, drivers.get? "msr" = some d → d.attach = hw.attachMsr
  other : ∀ name d, drivers.get? name = some d → name ∉ ["cpuid", "pci", "msr"] → d.discover = none

/-- Wherever `I` holds, the registers that are read have the same contents, and all else that a
configuration asks for has the same outcome, be it an error. Even with the elements for all turns of
their drivers no array is longer than what can be counted, and CPU numbers have 32 bits. -/
structure Stable (hw : Hardware) (c : Config) (I : Machine → Prop) : Prop where
  cpus_length_le : hw.cpus.length ≤ indexLimit
  cpus_turns_le : c.drivers.count "cpuid" * hw.cpus.length ≤ indexLimit
  cpu_lt : ∀ cpu ∈ hw.cpus, cpu < wordCount 32
  leaf : c.isEnabled "cpuid" → ∀ cpu ∈ hw.cpus, ∀ leaf ∈ [0, 1],
    ∃ v, Yields I (Bus.read (hw.cpuSpace cpu) (Cpuid.address leaf 0) .w128) v
  enumerate : c.isEnabled "pci" → Settled I hw.enumerate
  addresses_turns_le : c.isEnabled "pci" → ∀ addresses, Yields I hw.enumerate addresses →
    c.drivers.count "pci" * addresses.length ≤ indexLimit
  id : c.isEnabled "pci" → ∀ addresses, Yields I hw.enumerate addresses →
    ∀ a ∈ addresses, ∃ id, Yields I (hw.readId a) id
  header : c.isEnabled "pci" → ∀ addresses, Yields I hw.enumerate addresses →
    ∀ a ∈ addresses, ∀ id, Yields I (hw.readId a) id → IsPresent id →
      ∃ v, Yields I (Bus.read (hw.pciSpace a) 0x0E .w8) v
  cpuList : c.isEnabled "msr" → Settled I (Machine.readingDisk c.cpuList)
  attachMsr : c.isEnabled "msr" → ∀ cpus, Yields I (Machine.readingDisk c.cpuList) cpus →
    ∀ cpu ∈ cpus, Settled I (hw.attachMsr [BitVec.ofNat 128 cpu])

/-- The turn of a driver succeeds. -/
def Runs (hw : Hardware) (drivers : Drivers Machine) (I : Machine → Prop) (name : String) : Prop :=
  name = "msr" ∨ (∃ d, drivers.get? name = some d) ∧
    (name = "cpuid" ∨ name = "pci" ∧ ∃ addresses, Yields I hw.enumerate addresses)

/-- Otherwise it fails, with the same error in every draft. -/
theorem exists_refuses (hbuiltin : hw.BuiltIn drivers)
    (hsettled : name = "pci" → Settled I hw.enumerate) (hruns : ¬ hw.Runs drivers I name) :
    ∃ h, ∀ P, Refuses I P (describeNamed drivers name) h := by
  rw [Runs, not_or, not_and, not_or, not_and] at hruns
  obtain ⟨hmsr, hruns⟩ := hruns
  rw [describeNamed, if_neg hmsr, Drivers.discover]
  cases hd : drivers.get? name with
  | none => exact ⟨_, fun P => (Refuses.fail _).bind_left _⟩
  | some d =>
      obtain ⟨hcpuid, hpci⟩ := hruns ⟨d, hd⟩
      by_cases hname : name = "pci"
      · subst hname
        obtain ⟨registry, -, rfl⟩ := hbuiltin.pci d hd
        obtain ⟨addresses, haddresses⟩ | ⟨e, he⟩ := hsettled rfl
        · exact absurd ⟨addresses, haddresses⟩ (hpci rfl)
        · exact ⟨_, fun P => ((Refuses.access_world he).bind_left _).bind_left _⟩
      · dsimp only
        rw [hbuiltin.other name d hd (by simp [hcpuid, hname, hmsr])]
        exact ⟨_, fun P => (Refuses.fail _).bind_left _⟩

/-- The MSRs can be had for all CPUs of the configuration. -/
structure HasMsrs (hw : Hardware) (c : Config) (drivers : Drivers Machine) (I : Machine → Prop) :
    Prop where
  driver : ∃ d, drivers.get? "msr" = some d
  attachMsr : ∃ cpus, Yields I (Machine.readingDisk c.cpuList) cpus ∧
    ∀ cpu ∈ cpus, Answers I (hw.attachMsr [BitVec.ofNat 128 cpu])

theorem Runs.mem (h : hw.Runs drivers I name) : name ∈ ["cpuid", "pci", "msr"] := by
  obtain rfl | ⟨-, rfl | ⟨rfl, -⟩⟩ := h <;> simp

theorem Runs.exists_driver (h : hw.Runs drivers I name) (hname : name ≠ "msr") :
    ∃ d, drivers.get? name = some d := (h.resolve_left hname).1

theorem Runs.enumerates (h : hw.Runs drivers I "pci") :
    ∃ addresses, Yields I hw.enumerate addresses := by
  obtain hmsr | ⟨-, hcpuid | ⟨-, haddresses⟩⟩ := h
  · exact absurd hmsr (by decide)
  · exact absurd hcpuid (by decide)
  · exact haddresses

theorem drives_of_runs (hbuiltin : hw.BuiltIn drivers)
    (hruns : ∀ name ∈ names, hw.Runs drivers I name)
    (hmsrs : "msr" ∈ names → hw.HasMsrs c drivers I) :
    hw.Drives { c with drivers := names } drivers where
  cpuid h := by
    obtain ⟨d, hd⟩ := (hruns _ (of_decide_eq_true h)).exists_driver (by decide)
    obtain ⟨registry, hregistry, rfl⟩ := hbuiltin.cpuid d hd
    exact ⟨registry, hregistry, hd⟩
  pci h := by
    obtain ⟨d, hd⟩ := (hruns _ (of_decide_eq_true h)).exists_driver (by decide)
    obtain ⟨registry, hregistry, rfl⟩ := hbuiltin.pci d hd
    exact ⟨registry, hregistry, hd⟩
  msr h := by
    obtain ⟨d, hd⟩ := (hmsrs (of_decide_eq_true h)).driver
    exact ⟨d, hd, hbuiltin.msr d hd⟩

theorem works_of_runs (hstable : hw.Stable c I) (hmem : ∀ name ∈ names, name ∈ c.drivers)
    (hruns : ∀ name ∈ names, hw.Runs drivers I name)
    (hmsrs : "msr" ∈ names → hw.HasMsrs c drivers I) :
    hw.Works { c with drivers := names } I := by
  have henabled {name : String} (h : ({ c with drivers := names } : Config).isEnabled name = true) :
      c.isEnabled name = true := decide_eq_true (hmem name (of_decide_eq_true h))
  have hyields (h : ({ c with drivers := names } : Config).isEnabled "pci" = true)
      {addresses : List Pci.Address} (hmay : MayGive I hw.enumerate addresses) :
      Yields I hw.enumerate addresses := by
    obtain ⟨_, haddresses⟩ := (hruns _ (of_decide_eq_true h)).enumerates
    rwa [hmay.eq_of_yields haddresses]
  exact {
    cpus_length_le := hstable.cpus_length_le
    cpu_lt := hstable.cpu_lt
    leaf := fun h cpu hcpu leaf hleaf =>
      let ⟨_, hv⟩ := hstable.leaf (henabled h) cpu hcpu leaf hleaf
      hv.answers
    enumerate := fun h =>
      let ⟨_, haddresses⟩ := (hruns _ (of_decide_eq_true h)).enumerates
      haddresses.answers
    addresses_length_le := fun h addresses hmay => by
      have hcount : 0 < c.drivers.count "pci" := List.count_pos_iff.2 (hmem _ (of_decide_eq_true h))
      exact Nat.le_trans (Nat.le_mul_of_pos_left _ hcount)
        (hstable.addresses_turns_le (henabled h) addresses (hyields h hmay))
    id := fun h addresses hmay a ha =>
      let ⟨_, hid⟩ := hstable.id (henabled h) addresses (hyields h hmay) a ha
      hid.answers
    header := fun h addresses hmay a ha id hmayId hpresent => by
      obtain ⟨_, hid⟩ := hstable.id (henabled h) addresses (hyields h hmay) a ha
      obtain rfl := hmayId.eq_of_yields hid
      obtain ⟨_, hheader⟩ :=
        hstable.header (henabled h) addresses (hyields h hmay) a ha id hid hpresent
      exact hheader.answers
    cpuList := fun h =>
      let ⟨_, hcpus, _⟩ := (hmsrs (of_decide_eq_true h)).attachMsr
      hcpus.answers
    attachMsr := fun h cpus hmay => by
      obtain ⟨_, hcpus, hattach⟩ := (hmsrs (of_decide_eq_true h)).attachMsr
      rwa [MayGive.eq_of_yields hmay hcpus] }

/-! ## Errors -/

/-- Discovery succeeds if all turns do. -/
theorem discovery_ensures (hbuiltin : hw.BuiltIn drivers) (hstable : hw.Stable c I)
    (hmem : ∀ name ∈ names, name ∈ c.drivers) (hruns : ∀ name ∈ names, hw.Runs drivers I name) :
    Ensures I (Shows Rows.none) (names.forM (describeNamed drivers)) fun _ =>
      hw.Discovered I names := by
  -- whether the MSRs can be had does not matter to discovery
  have hsub {name : String} (h : name ∈ names.filter (· ≠ "msr")) :
      name ∈ names ∧ name ≠ "msr" := by
    simpa using h
  have hmsrs (h : "msr" ∈ names.filter (· ≠ "msr")) : hw.HasMsrs c drivers I :=
    absurd rfl (hsub h).2
  have hruns' (name : String) (h : name ∈ names.filter (· ≠ "msr")) : hw.Runs drivers I name :=
    hruns name (hsub h).1
  refine (forM_describeNamed_ensures [] (drives_of_runs hbuiltin hruns' hmsrs)
    (works_of_runs hstable (fun name h => hmem name (hsub h).1) hruns' hmsrs)
    (fun name hname hmsr => List.mem_filter.2 ⟨hname, decide_eq_true hmsr⟩)
    fun name hname => (hruns name hname).mem).mono (fun _ => discovered_nil) fun _ _ hd => hd

/-- The first turn that fails decides about the error. -/
theorem discovery_refuses (hbuiltin : hw.BuiltIn drivers) (hstable : hw.Stable c I) {h : Halt}
    (hmem : ∀ name ∈ names, name ∈ c.drivers) {front back : List String}
    (hnames : names = front ++ name :: back) (hruns : ∀ name ∈ front, hw.Runs drivers I name)
    (hrefuses : ∀ P, Refuses I P (describeNamed drivers name) h) :
    Refuses I (Shows Rows.none) (names.forM (describeNamed drivers)) h := by
  subst hnames
  have hsplit : (front ++ name :: back).forM (describeNamed drivers) = (do
      front.forM (describeNamed drivers)
      describeNamed drivers name
      back.forM (describeNamed drivers)) := by
    simp only [List.forM_eq_forM, List.forM_append, List.forM_cons]
  rw [hsplit]
  have hfront := discovery_ensures hbuiltin hstable
    (fun n hn => hmem n (List.mem_append_left _ hn)) hruns
  exact .bind hfront fun _ => (hrefuses _).bind_left _

theorem exists_describeEnabledMsrs_refuses {m : Machine} (hbuiltin : hw.BuiltIn drivers)
    (hstable : hw.Stable c I) (hm : I m) (henabled : c.isEnabled "msr" = true)
    (hmsrs : ¬ hw.HasMsrs c drivers I) :
    ∃ h, ∀ rows known, ShowsCpus rows known →
      Refuses I (Shows rows) (describeEnabledMsrs c drivers) h := by
  simp only [describeEnabledMsrs, henabled, if_true]
  cases hd : drivers.get? "msr" with
  | none => exact ⟨_, fun _ _ _ => Refuses.fail _⟩
  | some d =>
      obtain ⟨cpus, hcpus⟩ | ⟨e, he⟩ := hstable.cpuList henabled
      · have hattach : ¬ ∀ cpu ∈ cpus, Answers I (d.attach [BitVec.ofNat 128 cpu]) := fun hattach =>
          hmsrs ⟨⟨d, hd⟩, cpus, hcpus, hbuiltin.msr d hd ▸ hattach⟩
        have hsettled := hstable.attachMsr henabled cpus hcpus
        rw [← hbuiltin.msr d hd] at hsettled
        have hlt := (canonical_of_mayGive (hcpus.mayGive hm)).cpu_lt
        obtain ⟨e, hrefuses⟩ := forM_describeMsrs_refuses hlt hsettled hattach
        refine ⟨.error e, fun rows known hknown => ?_⟩
        refine .bind (.access_world hcpus.answers) fun cpus' => .of_and fun hmay => ?_
        rw [MayGive.eq_of_yields hmay hcpus]
        exact (hrefuses rows known [] hknown).mono fun _ h => by rwa [Rows.append_nil]
      · exact ⟨_, fun _ _ _ => (Refuses.access_world he).bind_left _⟩

/-- For all lists of drivers with the same names in the same order, the description of the system
fails with the same error, or everything that is asked for works. -/
theorem describeDevices_settled {m : Machine} (hbuiltin : hw.BuiltIn drivers)
    (hstable : hw.Stable c I) (hm : I m) :
    (∃ h, ∀ names, names.eraseDups = c.drivers.eraseDups →
      names.count "cpuid" * hw.cpus.length ≤ indexLimit →
      Refuses I (Shows Rows.none) (describeDevices { c with drivers := names } drivers) h) ∨
    ∀ names, names.eraseDups = c.drivers.eraseDups →
      hw.Drives { c with drivers := names } drivers ∧ hw.Works { c with drivers := names } I ∧
        ∀ name ∈ names, name ∈ ["cpuid", "pci", "msr"] := by
  classical
  have hmem {names : List String} (hnames : names.eraseDups = c.drivers.eraseDups) (name : String) :
      name ∈ names ↔ name ∈ c.drivers := by
    rw [← List.mem_eraseDups, hnames, List.mem_eraseDups]
  by_cases hruns : ∀ name ∈ c.drivers, hw.Runs drivers I name
  · have hruns' {names : List String} (hnames : names.eraseDups = c.drivers.eraseDups)
        (name : String) (h : name ∈ names) : hw.Runs drivers I name :=
      hruns name ((hmem hnames name).1 h)
    by_cases hmsrs : "msr" ∈ c.drivers → hw.HasMsrs c drivers I
    · refine .inr fun names hnames => ?_
      have hmsrs' (h : "msr" ∈ names) : hw.HasMsrs c drivers I := hmsrs ((hmem hnames _).1 h)
      exact ⟨drives_of_runs hbuiltin (hruns' hnames) hmsrs',
        works_of_runs hstable (fun name => (hmem hnames name).1) (hruns' hnames) hmsrs',
        fun name h => (hruns' hnames name h).mem⟩
    · rw [Classical.not_imp] at hmsrs
      obtain ⟨henabled, hmsrs⟩ := hmsrs
      obtain ⟨h, hrefuses⟩ := exists_describeEnabledMsrs_refuses hbuiltin hstable hm
        (decide_eq_true henabled) hmsrs
      refine .inl ⟨h, fun names hnames hlength => ?_⟩
      rw [describeDevices_eq, describeEnabledMsrs_congr (hmem hnames)]
      refine .bind (discovery_ensures hbuiltin hstable (fun name => (hmem hnames name).1)
        (hruns' hnames)) fun _ => ?_
      refine .of_exists fun known => .of_exists fun functions => .of_exists fun rows =>
        .of_and fun hdiscovery => ?_
      exact hrefuses rows known (hdiscovery.showsCpus hlength hstable.cpu_lt)
  · obtain ⟨name, hfind⟩ :
        ∃ name, c.drivers.find? (fun n => ¬ hw.Runs drivers I n) = some name := by
      rw [← Option.isSome_iff_exists, List.find?_isSome]
      simpa using hruns
    have hsettled (hpci : name = "pci") : Settled I hw.enumerate := by
      have henabled := List.mem_of_find?_eq_some hfind
      rw [hpci] at henabled
      exact hstable.enumerate (decide_eq_true henabled)
    have hname : ¬ hw.Runs drivers I name := by simpa using List.find?_some hfind
    obtain ⟨h, hrefuses⟩ := exists_refuses hbuiltin hsettled hname
    refine .inl ⟨h, fun names hnames _ => ?_⟩
    -- the first turn that fails is the same one, as only repetitions are between
    rw [← find?_eraseDups, ← hnames, find?_eraseDups, List.find?_eq_some_iff_append] at hfind
    obtain ⟨-, front, back, hsplit, hfront⟩ := hfind
    rw [describeDevices_eq]
    exact (discovery_refuses hbuiltin hstable (fun name => (hmem hnames name).1) hsplit
      (fun n hn => by simpa using hfront n hn) hrefuses).bind_left _

/-! ## Repeated devices -/

theorem FindsFunctions.eq_of_yields {addresses found found' : List Pci.Address}
    (haddresses : Yields I hw.enumerate addresses)
    (hid : ∀ a ∈ addresses, ∃ id, Yields I (hw.readId a) id) (h : hw.FindsFunctions I found)
    (h' : hw.FindsFunctions I found') : found = found' := by
  obtain ⟨_, ids, hmay, hids, rfl⟩ := h
  obtain ⟨_, ids', hmay', hids', rfl⟩ := h'
  obtain rfl := hmay.eq_of_yields haddresses
  obtain rfl := hmay'.eq_of_yields haddresses
  suffices hsame : ids = ids' by rw [hsame]
  clear haddresses hmay hmay'
  induction hids generalizing ids' with
  | nil =>
      cases hids'
      rfl
  | cons hfirst _ ih =>
      obtain ⟨⟨id, hfirstId⟩, hid⟩ := List.forall_mem_cons.1 hid
      cases hids' with
      | cons hfirst' hrest' =>
          rw [hfirst.eq_of_yields hfirstId, hfirst'.eq_of_yields hfirstId, ih _ hrest' hid]

theorem FindsInTurns.eq_flatten {n : Nat} {functions found : List Pci.Address}
    (h : hw.FindsInTurns I n functions)
    (hunique : ∀ found', hw.FindsFunctions I found' → found' = found) :
    functions = (List.replicate n found).flatten := by
  obtain ⟨turns, rfl, hturns, rfl⟩ := h
  rw [← List.eq_replicate_iff.2 ⟨rfl, fun found' h => hunique found' (hturns found' h)⟩]

theorem exists_run {Q : Draft → Prop} {m : Machine}
    (h : Ensures I (Shows Rows.none) (describeDevices c drivers) fun _ => Q) (hm : I m) :
    ∃ d m', (describeSystem c drivers).runOn m = (.ok d.tree, m') ∧ Q d := by
  obtain ⟨_, d, m', hrun, hd, -⟩ := h _ m (shows_ofTree_empty c.pollLimit) hm
  refine ⟨d, m', ?_, hd⟩
  rw [describeSystem, Action.runOn_bind, Describe.run_runOn hrun]
  rfl

theorem exists_run_error {h : Halt} {m : Machine}
    (hrefuses : Refuses I (Shows Rows.none) (describeDevices c drivers) h) (hm : I m) :
    ∃ m', (describeSystem c drivers).runOn m = (.error h, m') := by
  obtain ⟨s, hrun⟩ := hrefuses _ m (shows_ofTree_empty c.pollLimit) hm
  exact ⟨s.2, by rw [describeSystem, Action.runOn_bind, Describe.run_runOn_error hrun]⟩

theorem Finds.congr {cpus msrs : List Nat} {functions : List Pci.Address}
    (h : hw.Finds { c with drivers := names } I cpus functions msrs)
    (hmem : ∀ name, name ∈ names ↔ name ∈ c.drivers) : hw.Finds c I cpus functions msrs := by
  have henabled (name : String) :
      ({ c with drivers := names } : Config).isEnabled name = c.isEnabled name := by
    simp only [Config.isEnabled, hmem]
  obtain ⟨hcpus, hfunctions, hmsrs⟩ := h
  rw [henabled] at hcpus hfunctions hmsrs
  exact ⟨hcpus, hfunctions, hmsrs⟩

/-- With all registers stable the same functions are found in each turn. -/
theorem Stable.functions_eq {m : Machine} {functions functions' : List Pci.Address}
    (hstable : hw.Stable c I) (hm : I m) (hcount : names.count "pci" ≤ c.drivers.count "pci")
    (henumerate : "pci" ∈ names → Answers I hw.enumerate)
    (hfinds : if c.isEnabled "pci" then hw.FindsFunctions I functions else functions = [])
    (h : hw.FindsInTurns I (names.count "pci") functions') :
    functions' = (List.replicate (names.count "pci") functions).flatten ∧
      functions'.length ≤ indexLimit := by
  by_cases hpci : "pci" ∈ names
  · have henabled : c.isEnabled "pci" = true := decide_eq_true
      (List.count_pos_iff.1 (Nat.lt_of_lt_of_le (List.count_pos_iff.2 hpci) hcount))
    rw [if_pos henabled] at hfinds
    obtain ⟨addresses, haddresses⟩ :=
      (hstable.enumerate henabled).exists_yields (henumerate hpci) hm
    have hflatten := h.eq_flatten fun found' hfound =>
      hfound.eq_of_yields haddresses (hstable.id henabled addresses haddresses) hfinds
    refine ⟨hflatten, ?_⟩
    obtain ⟨_, hmay, hle⟩ := hfinds.exists_addresses
    rw [hmay.eq_of_yields haddresses] at hle
    calc functions'.length
      _ = names.count "pci" * functions.length := by
        rw [hflatten, List.length_flatten, List.map_replicate, List.sum_replicate, smul_eq_mul]
      _ ≤ c.drivers.count "pci" * addresses.length := Nat.mul_le_mul hcount hle
      _ ≤ indexLimit := hstable.addresses_turns_le henabled addresses haddresses
  · rw [List.count_eq_zero_of_not_mem hpci] at h ⊢
    obtain ⟨turns, hlength, -, rfl⟩ := h
    rw [List.eq_nil_of_length_eq_zero hlength]
    exact ⟨rfl, Nat.zero_le _⟩

/-- For all lists of drivers with the same names in the same order there is the same error, or the
tree shows the devices of each driver once for each time that it is named. -/
theorem describeSystem_turns {m : Machine} (hbuiltin : hw.BuiltIn drivers)
    (hstable : hw.Stable c I) (hm : I m) :
    (∃ h, ∀ names, names.eraseDups = c.drivers.eraseDups →
      (∀ name, names.count name ≤ c.drivers.count name) →
      ∃ m', (describeSystem { c with drivers := names } drivers).runOn m = (.error h, m')) ∨
    ∃ cpus functions msrs, hw.Finds c I cpus functions msrs ∧
      ∀ names, names.eraseDups = c.drivers.eraseDups →
        (∀ name, names.count name ≤ c.drivers.count name) →
        ∃ t m', (describeSystem { c with drivers := names } drivers).runOn m = (.ok t, m') ∧
          t.ShowsSystem (List.replicate (names.count "cpuid") cpus).flatten
            (List.replicate (names.count "pci") functions).flatten msrs := by
  have hlength {names : List String} (hcount : ∀ name, names.count name ≤ c.drivers.count name) :
      names.count "cpuid" * hw.cpus.length ≤ indexLimit :=
    Nat.le_trans (Nat.mul_le_mul_right _ (hcount "cpuid")) hstable.cpus_turns_le
  rcases describeDevices_settled hbuiltin hstable hm with ⟨h, hrefuses⟩ | hruns
  · exact .inl ⟨h, fun names hnames hcount =>
      exists_run_error (hrefuses names hnames (hlength hcount)) hm⟩
  right
  -- what is found is what the drivers discover when each of them has one turn
  have hnodup := nodup_eraseDups c.drivers
  obtain ⟨hdrives, hworks, hthree⟩ := hruns _ (eraseDups_of_nodup hnodup)
  obtain ⟨-, -, -, known, functions, msrs, -, hfinds, -⟩ :=
    exists_run (describeDevices_ensures hdrives hworks hthree hnodup) hm
  have hfinds := hfinds.congr fun name => List.mem_eraseDups
  refine ⟨_, functions, msrs, hfinds, fun names hnames hcount => ?_⟩
  obtain ⟨hdrives, hworks, hthree⟩ := hruns names hnames
  have hmem (name : String) : name ∈ names ↔ name ∈ c.drivers := by
    rw [← List.mem_eraseDups, hnames, List.mem_eraseDups]
  have henabled (name : String) :
      ({ c with drivers := names } : Config).isEnabled name = c.isEnabled name := by
    simp only [Config.isEnabled, hmem]
  obtain ⟨d, m', hrun, known', functions', msrs', found, rows, hdiscovery, hmsrs, hrows, hd⟩ :=
    exists_run (describeDevices_ensures_discovery hdrives hworks hthree (hlength hcount)) hm
  obtain ⟨hfunctions, hfunctions_le⟩ := hstable.functions_eq hm (hcount "pci")
    (fun h => hworks.enumerate (decide_eq_true h)) hfinds.functions hdiscovery.found
  have hcpus : known'.map Prod.fst =
      (List.replicate (names.count "cpuid") (known.map Prod.fst)).flatten := by
    rw [hdiscovery.cpus, hfinds.cpus, ← henabled]
    split
    · rfl
    · next hdisabled =>
        rw [List.count_eq_zero_of_not_mem (by simpa [Config.isEnabled] using hdisabled)]
        rfl
  have hmsrs : msrs' = msrs := by
    have hfound := hfinds.msrs
    rw [henabled] at hmsrs
    split at hmsrs
    · next h =>
        rw [if_pos h] at hfound
        obtain ⟨cpus, hyields⟩ := (hstable.cpuList h).exists_yields
          (hworks.cpuList ((henabled _).trans h)) hm
        rw [MayGive.eq_of_yields hmsrs hyields, MayGive.eq_of_yields hfound hyields]
    · next h =>
        rw [if_neg h] at hfound
        rw [hmsrs, hfound]
  refine ⟨d.tree, m', hrun, ?_⟩
  rw [← hcpus, ← hfunctions, ← hmsrs]
  exact hrows.showsSystem hd.shows hd.wellFormed.tree
    (hdiscovery.known_length ▸ hlength hcount) hfunctions_le (hmsrs ▸ hfinds.msrs_length_le)

end Hardware

/-- It makes no difference to name a driver once more that discovers nothing. With the built-in
descriptions and all registers stable, any repetitions leave the error as it is, if there is one,
and else the tree shows all devices of a driver as often as it is named, and the MSRs once. -/
theorem describeSystem_repeated (c : Config) (drivers : Drivers Machine) :
    let once : Config := { c with drivers := c.drivers.eraseDups }
    ((∀ name, 1 < c.drivers.count name →
        name = "msr" ∨ ∀ d, drivers.get? name = some d → d.discover = none) →
      describeSystem once drivers = describeSystem c drivers) ∧
    ∀ (hw : Hardware) (I : Machine → Prop) (m : Machine),
      hw.BuiltIn drivers → hw.Stable c I → I m →
      (∃ h m₁ m₂, (describeSystem once drivers).runOn m = (.error h, m₁) ∧
        (describeSystem c drivers).runOn m = (.error h, m₂)) ∨
      ∃ cpus functions msrs t₁ m₁ t₂ m₂, hw.Finds c I cpus functions msrs ∧
        (describeSystem once drivers).runOn m = (.ok t₁, m₁) ∧
        (describeSystem c drivers).runOn m = (.ok t₂, m₂) ∧
        t₁.ShowsSystem cpus functions msrs ∧
        t₂.ShowsSystem (List.replicate (c.drivers.count "cpuid") cpus).flatten
          (List.replicate (c.drivers.count "pci") functions).flatten msrs := by
  refine ⟨fun hnames => ?_, fun hw I m hbuiltin hstable hm => ?_⟩
  · have hturns := forM_eraseDups fun name hname front hmem =>
      forM_describeNamed_bind (hnames name hname) hmem
    rw [describeSystem, describeSystem, describeDevices_eq, describeDevices_eq, hturns,
      describeEnabledMsrs_congr fun name => List.mem_eraseDups]
  · have honce := eraseDups_of_nodup (nodup_eraseDups c.drivers)
    obtain ⟨h, herror⟩ | ⟨cpus, functions, msrs, hfinds, hshows⟩ :=
      Hardware.describeSystem_turns hbuiltin hstable hm
    · obtain ⟨m₁, hrun₁⟩ := herror _ honce (count_eraseDups_le _)
      obtain ⟨m₂, hrun₂⟩ := herror c.drivers rfl fun _ => Nat.le_refl _
      exact .inl ⟨h, m₁, m₂, hrun₁, hrun₂⟩
    · obtain ⟨t₁, m₁, hrun₁, hshows₁⟩ := hshows _ honce (count_eraseDups_le _)
      obtain ⟨t₂, m₂, hrun₂, hshows₂⟩ := hshows c.drivers rfl fun _ => Nat.le_refl _
      refine .inr ⟨cpus, functions, msrs, t₁, m₁, t₂, m₂, hfinds, hrun₁, hrun₂, ?_, hshows₂⟩
      have hcpus : (List.replicate (c.drivers.eraseDups.count "cpuid") cpus).flatten = cpus :=
        flatten_replicate_count_eraseDups fun hcpuid => by
          rw [hfinds.cpus, if_neg (by simpa [Config.isEnabled] using hcpuid)]
      have hfunctions :
          (List.replicate (c.drivers.eraseDups.count "pci") functions).flatten = functions :=
        flatten_replicate_count_eraseDups fun hpci => by
          have hnone := hfinds.functions
          rwa [if_neg (by simpa [Config.isEnabled] using hpci)] at hnone
      rwa [hcpus, hfunctions] at hshows₁

/-! ## Repetitions on plain banks -/

theorem Hardware.exists_builtIn (hw : Hardware) :
    ∃ drivers, hw.BuiltIn drivers ∧ ∀ c, hw.Drives c drivers := by
  obtain ⟨drivers, hdrivers, -⟩ := hw.exists_drivers bankConfig
  refine ⟨drivers, ?_, fun c => ?_⟩
  · obtain rfl := Except.ok.inj hdrivers
    refine ⟨fun d hd => ⟨_, rfl, (Option.some.inj hd).symm⟩,
      fun d hd => ⟨_, rfl, (Option.some.inj hd).symm⟩, fun d hd => ?_, fun name d hd hname => ?_⟩
    · rw [← Option.some.inj hd]
    · have hkey := Table.contains_iff.1 (Option.isSome_iff_exists.2 ⟨d, hd⟩)
      exact absurd hkey hname
  · obtain ⟨_, hsame, hdrives⟩ := hw.exists_drivers c
    rwa [Except.ok.inj (hdrivers.symm.trans hsame)]

/-- With fewer drivers enabled there is less that has to work. -/
theorem Hardware.Works.of_isEnabled {hw : Hardware} {c : Config} {I : Machine → Prop}
    {names : List String} (h : hw.Works c I) (hnames : ∀ name ∈ names, c.isEnabled name = true) :
    hw.Works { c with drivers := names } I := by
  have henabled {name : String} (h : ({ c with drivers := names } : Config).isEnabled name = true) :
      c.isEnabled name = true := hnames name (of_decide_eq_true h)
  exact {
    cpus_length_le := h.cpus_length_le
    cpu_lt := h.cpu_lt
    leaf := fun hname => h.leaf (henabled hname)
    enumerate := fun hname => h.enumerate (henabled hname)
    addresses_length_le := fun hname => h.addresses_length_le (henabled hname)
    id := fun hname => h.id (henabled hname)
    header := fun hname => h.header (henabled hname)
    cpuList := fun hname => h.cpuList (henabled hname)
    attachMsr := fun hname => h.attachMsr (henabled hname) }

/-- Drivers in an order of their own, two of them named twice. -/
def repeatedConfig : Config :=
  { bankConfig with drivers := ["cpuid", "msr", "pci", "msr", "cpuid"] }

theorem bankHardware_stable :
    bankHardware.Stable repeatedConfig (Machine.PlainWith bankMachine.value) where
  cpus_length_le := by decide
  cpus_turns_le := by decide
  cpu_lt := by decide
  leaf _ _ _ _ _ := ⟨_, Machine.PlainWith.yields⟩
  enumerate _ := .inl ⟨_, .pure _⟩
  addresses_turns_le _ addresses h := by
    obtain ⟨_, hrun, -⟩ := h _ plainWith_bankMachine
    cases hrun
    decide
  id _ _ _ _ _ := ⟨_, Machine.PlainWith.yields⟩
  header _ _ _ _ _ _ _ _ := ⟨_, Machine.PlainWith.yields⟩
  cpuList _ := .inl ⟨_, fun w hw => ⟨w, rfl, hw⟩⟩
  attachMsr _ _ _ _ _ := .inl ⟨_, .pure _⟩

/-- The description of that system does not fail. -/
theorem bankHardware_succeeds {drivers : Drivers Machine}
    (hdrives : ∀ c, bankHardware.Drives c drivers) :
    ∃ t m, (describeSystem repeatedConfig drivers).runOn bankMachine = (.ok t, m) := by
  have hworks : bankHardware.Works repeatedConfig (Machine.PlainWith bankMachine.value) :=
    bankHardware_works.of_isEnabled (by decide)
  obtain ⟨d, m, hrun, -⟩ := Hardware.exists_run (Hardware.describeDevices_ensures_discovery
    (hdrives repeatedConfig) hworks (by decide) (by decide)) plainWith_bankMachine
  exact ⟨d.tree, m, hrun⟩

theorem repeatedConfig_finds {cpus msrs : List Nat} {functions : List Pci.Address}
    (h : bankHardware.Finds repeatedConfig (Machine.PlainWith bankMachine.value) cpus functions
      msrs) : cpus = [1, 0] ∧ functions = [⟨0, 0, 0, 0⟩] ∧ msrs = [0, 1] := by
  refine bankHardware_finds (Hardware.Finds.congr (c := bankConfig) h fun name => ?_)
  simp only [bankConfig, List.mem_cons, List.not_mem_nil]
  tauto

/-- The MSRs named twice make no difference; the CPUs are there twice. -/
theorem describeSystem_repeated_bankHardware :
    ∃ drivers : Drivers Machine,
      (∀ name, 1 < ["msr", "cpuid", "msr"].count name →
        name = "msr" ∨ ∀ d, drivers.get? name = some d → d.discover = none) ∧
      describeSystem { bankConfig with drivers := ["msr", "cpuid"] } drivers =
        describeSystem { bankConfig with drivers := ["msr", "cpuid", "msr"] } drivers ∧
      bankHardware.BuiltIn drivers ∧
      bankHardware.Stable repeatedConfig (Machine.PlainWith bankMachine.value) ∧
      bankMachine.PlainWith bankMachine.value ∧
      ∃ t₁ m₁ t₂ m₂,
        (describeSystem { repeatedConfig with drivers := ["cpuid", "msr", "pci"] } drivers).runOn
          bankMachine = (.ok t₁, m₁) ∧
        (describeSystem repeatedConfig drivers).runOn bankMachine = (.ok t₂, m₂) ∧
        t₁.ShowsSystem [1, 0] [⟨0, 0, 0, 0⟩] [0, 1] ∧
        t₂.ShowsSystem [1, 0, 1, 0] [⟨0, 0, 0, 0⟩] [0, 1] := by
  obtain ⟨drivers, hbuiltin, hdrives⟩ := bankHardware.exists_builtIn
  have hmsr (name : String) (h : 1 < ["msr", "cpuid", "msr"].count name) : name = "msr" := by
    by_contra hne
    simp only [List.count_cons_of_ne (Ne.symm hne), List.count_cons, List.count_nil] at h
    split at h <;> omega
  refine ⟨drivers, fun name h => .inl (hmsr name h), ?_, hbuiltin, bankHardware_stable,
    plainWith_bankMachine, ?_⟩
  · exact (describeSystem_repeated { bankConfig with drivers := ["msr", "cpuid", "msr"] } drivers).1
      fun name h => .inl (hmsr name h)
  · obtain ⟨h, m₁, m₂, -, herror⟩ | ⟨cpus, functions, msrs, t₁, m₁, t₂, m₂, hfinds, hrun₁, hrun₂,
        hshows₁, hshows₂⟩ := (describeSystem_repeated repeatedConfig drivers).2 bankHardware
      (Machine.PlainWith bankMachine.value) bankMachine hbuiltin bankHardware_stable
      plainWith_bankMachine
    · obtain ⟨t, m, hrun⟩ := bankHardware_succeeds hdrives
      cases hrun.symm.trans herror
    · obtain ⟨rfl, rfl, rfl⟩ := repeatedConfig_finds hfinds
      exact ⟨t₁, m₁, t₂, m₂, hrun₁, hrun₂, hshows₁, hshows₂⟩

/-- There are more CPUs in the tree than if each driver were named once. -/
theorem repeatedConfig_repeats_cpus :
    ∃ drivers : Drivers Machine, bankHardware.BuiltIn drivers ∧ ∃ t₁ m₁ t₂ m₂,
      (describeSystem { repeatedConfig with drivers := repeatedConfig.drivers.eraseDups }
        drivers).runOn bankMachine = (.ok t₁, m₁) ∧
      (describeSystem repeatedConfig drivers).runOn bankMachine = (.ok t₂, m₂) ∧
      t₁.HasElements "cpu" 2 ∧ t₂.HasElements "cpu" 4 := by
  obtain ⟨drivers, hbuiltin, hdrives⟩ := bankHardware.exists_builtIn
  have hlists : repeatedConfig.drivers.eraseDups.eraseDups = repeatedConfig.drivers.eraseDups :=
    eraseDups_of_nodup (nodup_eraseDups _)
  refine ⟨drivers, hbuiltin, ?_⟩
  obtain ⟨h, herror⟩ | ⟨cpus, functions, msrs, hfinds, hshows⟩ :=
    Hardware.describeSystem_turns hbuiltin bankHardware_stable plainWith_bankMachine
  · obtain ⟨t, m, hrun⟩ := bankHardware_succeeds hdrives
    obtain ⟨m', herror⟩ := herror repeatedConfig.drivers rfl fun _ => Nat.le_refl _
    cases hrun.symm.trans herror
  · obtain ⟨rfl, rfl, rfl⟩ := repeatedConfig_finds hfinds
    obtain ⟨t₁, m₁, hrun₁, hshows₁⟩ := hshows _ hlists (count_eraseDups_le _)
    obtain ⟨t₂, m₂, hrun₂, hshows₂⟩ := hshows repeatedConfig.drivers rfl fun _ => Nat.le_refl _
    exact ⟨t₁, m₁, t₂, m₂, hrun₁, hrun₂, hshows₁.cpus_length, hshows₂.cpus_length⟩

end RegisterAtlas
