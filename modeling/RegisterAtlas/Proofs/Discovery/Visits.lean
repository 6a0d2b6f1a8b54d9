import RegisterAtlas.Machine
import RegisterAtlas.Proofs.Discovery.InCharge
import Mathlib.Control.Monad.Basic

/-!
# Runs of a discovery

A driver visits its instances in their order. It probes an instance, passes over it if there is
nothing, and else calls the description in charge of what there is, if any, on the draft that the
visits before have left (`Visits`). The first probe or description to fail ends the run (`Fails`),
and what comes behind is not visited. `Discovers` is what a run comes to, and the drivers for CPUs
and for PCI functions do just that, with all registries.
-/

namespace RegisterAtlas

theorem Describe.runOn_access {σ α : Type} (a : Draft → Access σ α) (d : Draft) (w : σ) :
    (access a).runOn (d, w) = (((a d).runOn w).1, d, ((a d).runOn w).2) := rfl

/-! ## Visits -/

section

variable {σ α ι : Type} (Probes : Space → σ → Except Fault (Option ι) → σ → Prop)
  (Charge : ι → Option (Description σ α ι) → Prop)

/-- A visit of one instance that does not fail, and whether a description was called. -/
inductive Visits : α × Space → Draft × σ → Bool → Draft × σ → Prop where
  | absent {a : α} {space : Space} {d : Draft} {w w' : σ} (h : Probes space w (.ok none) w') :
      Visits (a, space) (d, w) false (d, w')
  | unmatched {a : α} {space : Space} {d : Draft} {w w' : σ} {identity : ι}
      (h : Probes space w (.ok (some identity)) w') (hcharge : Charge identity none) :
      Visits (a, space) (d, w) false (d, w')
  | described {a : α} {space : Space} {d : Draft} {w w' : σ} {identity : ι}
      {description : Description σ α ι} {s' : Draft × σ}
      (h : Probes space w (.ok (some identity)) w') (hcharge : Charge identity (some description))
      (hcall : (description ⟨a, identity, space⟩).runOn (d, w') = (.ok (), s')) :
      Visits (a, space) (d, w) true s'

/-- A visit of one instance that fails, and with which error. -/
inductive Fails : α × Space → Draft × σ → Halt → Draft × σ → Prop where
  | probe {a : α} {space : Space} {d : Draft} {w w' : σ} {fault : Fault}
      (h : Probes space w (.error fault) w') :
      Fails (a, space) (d, w) (.error (.access fault)) (d, w')
  | description {a : α} {space : Space} {d : Draft} {w w' : σ} {identity : ι}
      {description : Description σ α ι} {halt : Halt} {s' : Draft × σ}
      (h : Probes space w (.ok (some identity)) w') (hcharge : Charge identity (some description))
      (hcall : (description ⟨a, identity, space⟩).runOn (d, w') = (.error halt, s')) :
      Fails (a, space) (d, w) halt s'

/-- Visits of instances in their order, each from where the one before has ended. -/
inductive VisitsAll : List (α × Space) → Draft × σ → List Bool → Draft × σ → Prop where
  | nil {s : Draft × σ} : VisitsAll [] s [] s
  | cons {instance₁ : α × Space} {instances : List (α × Space)} {described : Bool}
      {rest : List Bool} {s s₁ s' : Draft × σ} (h : Visits Probes Charge instance₁ s described s₁)
      (hrest : VisitsAll instances s₁ rest s') :
      VisitsAll (instance₁ :: instances) s (described :: rest) s'

/-- What a discovery of instances comes to: all are visited, and it is counted for how many a
description was called, or a visit fails and is the last one. -/
inductive Discovers (instances : List (α × Space)) (s : Draft × σ) :
    Except Halt Nat × (Draft × σ) → Prop where
  | finishes {described : List Bool} {s' : Draft × σ}
      (h : VisitsAll Probes Charge instances s described s') :
      Discovers instances s (.ok (described.count true), s')
  | stops {front back : List (α × Space)} {last : α × Space} {described : List Bool}
      {s₁ s' : Draft × σ} {halt : Halt} (h : instances = front ++ last :: back)
      (hfront : VisitsAll Probes Charge front s described s₁)
      (hlast : Fails Probes Charge last s₁ halt s') :
      Discovers instances s (.error halt, s')

end

section

variable {σ α ι : Type} {Probes : Space → σ → Except Fault (Option ι) → σ → Prop}
  {Charge : ι → Option (Description σ α ι) → Prop} {instance₁ : α × Space}
  {instances : List (α × Space)} {s s₁ s' : Draft × σ} {described : Bool} {halt : Halt}

/-- After a visit comes the discovery of the other instances, and the visit is counted in. -/
theorem Discovers.cons {count : Describe σ Nat}
    (h : Visits Probes Charge instance₁ s described s₁)
    (hrest : Discovers Probes Charge instances s₁ (count.runOn s₁)) :
    Discovers Probes Charge (instance₁ :: instances) s
      ((do let n ← count; pure (if described then n + 1 else n) : Describe σ Nat).runOn s₁) := by
  rw [Action.runOn_bind]
  generalize count.runOn s₁ = outcome at hrest
  cases hrest with
  | @finishes rest s' hall =>
      have hcount : (if described then rest.count true + 1 else rest.count true) =
          (described :: rest).count true := by
        cases described <;> simp
      simp only [hcount, Action.runOn_pure]
      exact .finishes (.cons h hall)
  | stops heq hfront hlast =>
      subst heq
      exact .stops rfl (.cons h hfront) hlast

theorem Discovers.head (h : Fails Probes Charge instance₁ s halt s') :
    Discovers Probes Charge (instance₁ :: instances) s (.error halt, s') :=
  .stops rfl .nil h

variable {κ : Type} [Criteria κ ι] {r : Registry σ α ι κ}
  {probe : Space → Action Fault σ (Option ι)}

/-- What there is at an instance is dispatched to the description in charge. -/
theorem dispatch_cases {a : α} {space : Space} {d : Draft} {w w' : σ} {identity : ι}
    (h : Probes space w (.ok (some identity)) w') (hcharge : Charge identity (r.select identity)) :
    (∃ described s', (r.dispatch ⟨a, identity, space⟩).runOn (d, w') = (.ok described, s') ∧
      Visits Probes Charge (a, space) (d, w) described s') ∨
    ∃ halt s', (r.dispatch ⟨a, identity, space⟩).runOn (d, w') = (.error halt, s') ∧
      Fails Probes Charge (a, space) (d, w) halt s' := by
  rw [Registry.dispatch]
  cases hselect : r.select identity with
  | none =>
      rw [hselect] at hcharge
      exact .inl ⟨false, (d, w'), rfl, .unmatched h hcharge⟩
  | some description =>
      rw [hselect] at hcharge
      simp only [Action.runOn_bind]
      rcases hcall : (description ⟨a, identity, space⟩).runOn (d, w') with ⟨halt | _, s'⟩
      · exact .inr ⟨halt, s', rfl, .description h hcharge hcall⟩
      · exact .inl ⟨true, s', rfl, .described h hcharge hcall⟩

/-- What a registry does with instances is a discovery, whatever is in charge by the registry. -/
theorem describeAll_discovers
    (hprobe : ∀ space w, Probes space w ((probe space).runOn w).1 ((probe space).runOn w).2)
    (hcharge : ∀ identity, Charge identity (r.select identity)) (instances : List (α × Space))
    (s : Draft × σ) :
    Discovers Probes Charge instances s ((r.describeAll probe instances).runOn s) := by
  induction instances generalizing s with
  | nil => exact .finishes .nil
  | cons first rest ih =>
      obtain ⟨a, space⟩ := first
      obtain ⟨d, w⟩ := s
      have hp := hprobe space w
      rw [Registry.describeAll, Action.runOn_bind, Describe.runOn_access, Access.ofFault,
        Action.runOn_mapError]
      generalize (probe space).runOn w = probed at hp
      rcases probed with ⟨fault | _ | identity, w'⟩
      · exact .head (.probe hp)
      · have hvisit : Visits Probes Charge (a, space) (d, w) false (d, w') := .absent hp
        exact .cons hvisit (ih (d, w'))
      · dsimp only
        rw [Action.runOn_bind]
        rcases dispatch_cases hp (hcharge identity) with
          ⟨described, s₁, hrun, hvisit⟩ | ⟨halt, s', hrun, hfails⟩
        · rw [hrun]
          exact .cons hvisit (ih s₁)
        · rw [hrun]
          exact .head hfails

end

/-! ## Probes -/

section

variable {σ : Type} [Bus σ]

/-- A PCI function is probed by reading the first register. A vendor id with all bits set stands for
an empty slot. -/
inductive Pci.Probes (space : Space) (w : σ) : Except Fault (Option Identity) → σ → Prop where
  | faulty {fault : Fault} {w' : σ} (h : (Bus.read space 0 .w32).runOn w = (.error fault, w')) :
      Probes space w (.error fault) w'
  | empty {v : Value} {w' : σ} (h : (Bus.read space 0 .w32).runOn w = (.ok v, w'))
      (hv : v.toNat % 0x10000 = 0xFFFF) : Probes space w (.ok none) w'
  | present {v : Value} {w' : σ} {identity : Identity}
      (h : (Bus.read space 0 .w32).runOn w = (.ok v, w')) (hv : v.toNat % 0x10000 ≠ 0xFFFF)
      (hvendor : identity.vendor.toNat = v.toNat % 0x10000)
      (hdevice : identity.device.toNat = v.toNat / 0x10000 % 0x10000) :
      Probes space w (.ok (some identity)) w'

theorem Pci.probes_probe (space : Space) (w : σ) :
    Probes space w ((Identity.probe space).runOn w).1 ((Identity.probe space).runOn w).2 := by
  rw [Identity.probe, Action.runOn_bind]
  rcases hread : (Bus.read space 0 .w32).runOn w with ⟨fault | v, w'⟩
  · exact .faulty hread
  · have hvendor : (v.extractLsb' 0 16).toNat = v.toNat % 0x10000 := by
      simp [BitVec.extractLsb'_toNat]
    have hdevice : (v.extractLsb' 16 16).toNat = v.toNat / 0x10000 % 0x10000 := by
      simp [BitVec.extractLsb'_toNat, Nat.shiftRight_eq_div_pow]
    have habsent : v.extractLsb' 0 16 = Identity.absent ↔ v.toNat % 0x10000 = 0xFFFF := by
      rw [← hvendor, ← BitVec.toNat_inj]
      rfl
    by_cases hv : v.extractLsb' 0 16 = Identity.absent
    · simp only [if_pos hv, Action.runOn_pure]
      exact .empty hread (habsent.1 hv)
    · simp only [if_neg hv, Action.runOn_pure]
      exact .present hread (fun h => hv (habsent.2 h)) hvendor hdevice

/-- A CPU is probed by reading leaf 0 for the vendor and then leaf 1 for the signature. -/
inductive Cpuid.Probes (space : Space) (w : σ) : Except Fault (Option Identity) → σ → Prop where
  | faultyVendor {fault : Fault} {w' : σ}
      (h : (Bus.read space (address 0 0) .w128).runOn w = (.error fault, w')) :
      Probes space w (.error fault) w'
  | faultySignature {v : Value} {fault : Fault} {w₁ w' : σ}
      (h : (Bus.read space (address 0 0) .w128).runOn w = (.ok v, w₁))
      (h' : (Bus.read space (address 1 0) .w128).runOn w₁ = (.error fault, w')) :
      Probes space w (.error fault) w'
  | present {vendor model : Value} {w₁ w' : σ}
      (h : (Bus.read space (address 0 0) .w128).runOn w = (.ok vendor, w₁))
      (h' : (Bus.read space (address 1 0) .w128).runOn w₁ = (.ok model, w')) :
      Probes space w (.ok (some
        { vendor := vendorName (Leaf.unpack vendor).ebx (Leaf.unpack vendor).ecx
            (Leaf.unpack vendor).edx
          signature := .decode (Leaf.unpack model).eax })) w'

/-- How the driver for CPUs probes. -/
abbrev Cpuid.probe (space : Space) : Action Fault σ (Option Identity) := do
  pure (some (← Identity.probe space))

theorem Cpuid.probes_probe (space : Space) (w : σ) :
    Probes space w ((probe space).runOn w).1 ((probe space).runOn w).2 := by
  rw [probe, Action.runOn_bind, Identity.probe, Action.runOn_bind]
  rcases hvendor : (Bus.read space (address 0 0) .w128).runOn w with ⟨fault | vendor, w₁⟩
  · exact .faultyVendor hvendor
  · simp only [Action.runOn_bind]
    rcases hmodel : (Bus.read space (address 1 0) .w128).runOn w₁ with ⟨fault | model, w'⟩
    · exact .faultySignature hvendor hmodel
    · exact .present hvendor hmodel

end

/-! ## Drivers -/

/-- Whatever has been registered, the driver for PCI functions discovers those that its enumeration
finds, and the driver for CPUs those of its list. In charge of each is the first description
registered with criteria that match, or else the first one for everything else; a second one for
everything else is refused and changes nothing. -/
theorem discover_visits {σ : Type} [Bus σ] :
    (∀ history : List (Registration σ Pci.Address Pci.Identity Pci.Criterion),
      (∀ identity, ∃! o, InCharge Pci.Criterion.Matches history identity o) ∧
      ∀ (enumerate : Action Error σ (List Pci.Address)) (space : Pci.Address → Space),
        ∃ run, (Pci.driver enumerate space (.ofHistory history)).discover = some run ∧ ∀ d w,
          (∃ err w', enumerate.runOn w = (.error err, w') ∧
            run.runOn (d, w) = (.error (.error err), d, w')) ∨
          ∃ addresses w', enumerate.runOn w = (.ok addresses, w') ∧
            Discovers Pci.Probes (InCharge Pci.Criterion.Matches history)
              (addresses.map fun a => (a, space a)) (d, w') (run.runOn (d, w))) ∧
    (∀ history : List (Registration σ Nat Cpuid.Identity Cpuid.Criterion),
      (∀ identity, ∃! o, InCharge Cpuid.Criterion.Matches history identity o) ∧
      ∀ (cpus : List Nat) (space : Nat → Space),
        ∃ run, (Cpuid.driver cpus space (.ofHistory history)).discover = some run ∧ ∀ s,
          Discovers Cpuid.Probes (InCharge Cpuid.Criterion.Matches history)
            (cpus.map fun cpu => (cpu, space cpu)) s (run.runOn s)) ∧
    ∀ (α ι κ : Type) (history : List (Registration σ α ι κ)) (first description),
      .catchAll first ∈ history →
        (Registry.ofHistory history).registerCatchAll description =
            .error (.configuration .secondCatchAll) ∧
          Registry.ofHistory (history ++ [.catchAll description]) = .ofHistory history := by
  refine ⟨fun history => ⟨Registry.existsUnique_inCharge Pci.accepts_iff history, ?_⟩,
    fun history => ⟨Registry.existsUnique_inCharge Cpuid.accepts_iff history, ?_⟩,
    fun α ι κ history first description h => Registry.registerCatchAll_of_mem h⟩
  · intro enumerate space
    refine ⟨_, rfl, fun d w => ?_⟩
    rw [Action.runOn_bind, Describe.runOn_access, Action.runOn_mapError]
    rcases henumerate : enumerate.runOn w with ⟨err | addresses, w'⟩
    · exact .inl ⟨err, w', rfl, rfl⟩
    · refine .inr ⟨addresses, w', rfl, ?_⟩
      exact describeAll_discovers Pci.probes_probe
        (fun identity => (Registry.inCharge_iff Pci.accepts_iff).2 rfl) _ _
  · intro cpus space
    refine ⟨_, rfl, fun s => ?_⟩
    exact describeAll_discovers Cpuid.probes_probe
      (fun identity => (Registry.inCharge_iff Cpuid.accepts_iff).2 rfl) _ s

/-- Describes what is found as an element of an array. -/
def listUnder (name : String) : Description Machine Pci.Address Pci.Identity := fun found => do
  let _ ← Describe.openBound (name ++ "[]") found.space
  Describe.closeScope

/-- Here the same criteria are registered twice, and one description for everything else comes
before them and one behind. -/
def overlapping : List (Registration Machine Pci.Address Pci.Identity Pci.Criterion) :=
  [.catchAll (listUnder "other"), .criteria ⟨0x8086, 0x1234⟩ (listUnder "first"),
    .criteria ⟨0x8086, 0x1234⟩ (listUnder "second"), .catchAll (listUnder "last")]

/-- A bus with a function of the criteria, an empty place, and another function. -/
def threePlaces : Machine :=
  let machine := ({} : Machine).setBank (({ name := "00/00.0" } : Bank).set 0 0x12348086)
  let machine := machine.setBank (({ name := "00/01.0" } : Bank).set 0 0xABCDFFFF)
  machine.setBank (({ name := "00/02.0" } : Bank).set 0 0x00011234)

theorem discover_visits_threePlaces :
    (∃ run, (Pci.driver (pure [⟨0, 0, 0, 0⟩, ⟨0, 0, 1, 0⟩, ⟨0, 0, 2, 0⟩]) (.simulated ·.node)
        (.ofHistory overlapping)).discover = some run ∧
      Discovers Pci.Probes (InCharge Pci.Criterion.Matches overlapping)
        [(⟨0, 0, 0, 0⟩, .simulated "00/00.0"), (⟨0, 0, 1, 0⟩, .simulated "00/01.0"),
          (⟨0, 0, 2, 0⟩, .simulated "00/02.0")] (.empty, threePlaces)
        (run.runOn (.empty, threePlaces)) ∧
      (run.runOn (.empty, threePlaces)).1 = .ok 2 ∧
      (run.runOn (.empty, threePlaces)).2.1.find "first[0]" = .ok (some 2) ∧
      (run.runOn (.empty, threePlaces)).2.1.find "other[0]" = .ok (some 4)) ∧
    (Registry.ofHistory overlapping).registerCatchAll (listUnder "more") =
      .error (.configuration .secondCatchAll) := by
  obtain ⟨hpci, -, hrefused⟩ := discover_visits (σ := Machine)
  obtain ⟨-, hdriver⟩ := hpci overlapping
  obtain ⟨run, hrun, hvisits⟩ := hdriver (pure [⟨0, 0, 0, 0⟩, ⟨0, 0, 1, 0⟩, ⟨0, 0, 2, 0⟩])
    (.simulated ·.node)
  refine ⟨⟨run, hrun, ?_⟩, (hrefused _ _ _ overlapping (listUnder "other") _ (.head _)).1⟩
  rcases hvisits .empty threePlaces with
    ⟨err, w', herr, -⟩ | ⟨addresses, w', haddresses, hdiscovers⟩
  · cases herr
  · cases haddresses
    cases hrun
    exact ⟨hdiscovers, by decide +kernel, by decide +kernel, by decide +kernel⟩

end RegisterAtlas
