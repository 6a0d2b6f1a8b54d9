import RegisterAtlas.Description.Cpu
import RegisterAtlas.Description.Msr
import RegisterAtlas.Description.Pci
import RegisterAtlas.Proofs.Describe.Elements
import RegisterAtlas.Proofs.Discovery.InCharge

/-!
# Descriptions of devices

What the built-in descriptions leave in the tree: each of them succeeds if the registers that it
reads answer, closes every scope that it opens, and shows where its device is. A CPU also shows its
vendor and what goes back to its leaves, and no other names than those for its vendor; a PCI
function shows its ids, and the MSRs of a CPU have energy counters or not.
-/

namespace RegisterAtlas

open Describe Draft

variable {σ : Type} {I : σ → Prop} {t : Tree} {scope : EntryId} {space : Space} {view view' : View}

/-- What is shown under certain names stays. -/
def View.Keeps (names : List String) (view view' : View) : Prop := ∀ n ∈ names, view' n = view n

@[simp] theorem View.keeps_refl (names : List String) (view : View) : view.Keeps names view :=
  fun _ _ => rfl

@[simp] theorem View.keeps_put {names : List String} {view view' : View} {name : String} {e : Entry}
    (hname : name ∉ names) : view.Keeps names (view'.put name e) ↔ view.Keeps names view' := by
  refine forall₂_congr fun n hn => ?_
  have hne : n ≠ name := fun heq => hname (heq ▸ hn)
  rw [View.put_apply, if_neg hne]

/-- Fields are shown under certain names, and under all others what was shown before. -/
structure View.Adds (names : List String) (view view' : View) : Prop where
  shown : ∀ n ∈ names, ∃ f, view' n = some (.field f)
  kept : ∀ n, n ∉ names → view' n = view n

namespace View.Adds

variable {names : List String}

theorem refl (view : View) : view.Adds [] view := ⟨nofun, fun _ _ => rfl⟩

theorem put {name : String} {f : Field} (h : view.Adds names view') :
    view.Adds (name :: names) (view'.put name (.field f)) where
  shown n hn := by
    rw [put_apply]
    split
    · exact ⟨f, rfl⟩
    · next hne => exact h.shown n (List.mem_of_ne_of_mem hne hn)
  kept n hn := by
    rw [List.mem_cons, not_or] at hn
    rw [put_apply, if_neg hn.1, h.kept n hn.2]

theorem congr {names' : List String} (h : view.Adds names view') (hnames : names.Perm names') :
    view.Adds names' view' where
  shown n hn := h.shown n (hnames.mem_iff.2 hn)
  kept n hn := h.kept n fun hmem => hn (hnames.mem_iff.1 hmem)

theorem trans {names' : List String} {view'' : View} (h : view.Adds names view')
    (h' : view'.Adds names' view'') : view.Adds (names ++ names') view'' where
  shown n hn := by
    by_cases hn' : n ∈ names'
    · exact h'.shown n hn'
    · rw [h'.kept n hn']
      exact h.shown n ((List.mem_append.1 hn).resolve_right hn')
  kept n hn := by
    rw [List.mem_append, not_or] at hn
    rw [h'.kept n hn.2, h.kept n hn.1]

theorem keeps {kept : List String} (h : view.Adds names view') (hkept : ∀ n ∈ kept, n ∉ names) :
    view.Keeps kept view' := fun n hn => h.kept n (hkept n hn)

end View.Adds

/-! ## CPUs -/

namespace Cpuid

/-- What a CPU shows of itself. -/
structure Shows (cpu : Nat) (vendor : String) (view : View) : Prop where
  cpu : view "cpu" = some (.field (.constant int (BitVec.ofNat 128 cpu)))
  vendor : view "vendor" = some (.field (.constant vendorType (vendorCode vendor)))

/-- The field that shows the largest number of a leaf. -/
def maxLeaf (space : Space) : Entry :=
  .field (.direct (hex 32) (.range ⟨space, address 0 0, .w128⟩ 0 32))

/-- What is shown of the model of a CPU goes back to its leaves. -/
structure ShowsLeaves (space : Space) (view : View) : Prop where
  maxLeaf : view "max_leaf" = some (maxLeaf space)
  signature : view "%signature" =
    some (.field (.direct (hex 32) (.range ⟨space, address 1 0, .w128⟩ 0 32)))
  stepping : view "stepping" =
    some (.field (.direct int (.range ⟨space, address 1 0, .w128⟩ 0 4)))
  family : view "family" = some (.field (.readOnly (hex 8) (signaturePart Signature.family)))
  model : view "model" = some (.field (.readOnly (hex 8) (signaturePart Signature.model)))

/-- The names under which a CPU shows what it is. -/
def marks : List String :=
  ["cpu", "vendor", "max_leaf", "%signature", "stepping", "family", "model"]

theorem Shows.keeps {cpu : Nat} {vendor : String} (h : Shows cpu vendor view)
    (hkeeps : view.Keeps marks view') : Shows cpu vendor view' where
  cpu := (hkeeps "cpu" (by simp [marks])).trans h.cpu
  vendor := (hkeeps "vendor" (by simp [marks])).trans h.vendor

theorem ShowsLeaves.keeps (h : ShowsLeaves space view) (hkeeps : view.Keeps marks view') :
    ShowsLeaves space view' where
  maxLeaf := (hkeeps "max_leaf" (by simp [marks])).trans h.maxLeaf
  signature := (hkeeps "%signature" (by simp [marks])).trans h.signature
  stepping := (hkeeps "stepping" (by simp [marks])).trans h.stepping
  family := (hkeeps "family" (by simp [marks])).trans h.family
  model := (hkeeps "model" (by simp [marks])).trans h.model

/-- The names that every CPU shows. -/
def commonNames : List String :=
  ["cpu", "vendor", "%leaf0", "max_leaf", "%leaf1", "%signature", "stepping", "family", "model",
    "apic_id", "logical_count", "features", "features2"]

theorem describeCommon_ensures (cpu : Nat) (vendor : String) :
    Ensures I (Filling t scope space view) (describeCommon cpu vendor) fun _ =>
      Filled t scope space fun view' =>
        Shows cpu vendor view' ∧ ShowsLeaves space view' ∧ view.Adds commonNames view' := by
  unfold describeCommon
  refine .bookmark ?_
  refine .constant (by decide) fun _ => ?_
  refine .constant (by decide) fun _ => ?_
  refine .register (by decide) ?_
  refine .bits (by decide) (by decide) fun _ => ?_
  refine .register (by decide) ?_
  refine .bits (by decide) (by decide) fun _ => ?_
  refine .bits (by decide) (by decide) fun _ => ?_
  refine .readOnly (by decide) fun _ => ?_
  refine .readOnly (by decide) fun _ => ?_
  refine .bits (by decide) (by decide) fun _ => ?_
  refine .bits (by decide) (by decide) fun _ => ?_
  refine .bits (by decide) (by decide) fun _ => ?_
  refine .bits (by decide) (by decide) fun _ => ?_
  refine .filled ⟨⟨by simp, by simp⟩,
    ⟨by simp [maxLeaf], by simp, by simp, by simp, by simp⟩, ?_⟩
  apply View.Adds.congr
  · repeat first | exact .refl view | apply View.Adds.put
  · decide

/-! ### What is peculiar to a vendor -/

def intelNames : List String := ["%leaf16", "base_freq", "max_freq", "bus_freq"]

def amdNames : List String := ["%leaf80000001", "ext_features"]

/-- The names that only CPUs of a vendor show. Those of Intel have the leaf for them if leaf 0 says
so. -/
def peculiarNames (vendor : String) (leaf0 : Value) : List String :=
  if vendor = "Intel" then if (Leaf.unpack leaf0).eax < 0x16 then [] else intelNames
  else if vendor = "AMD" then amdNames
  else []

theorem notMem_peculiarNames {vendor : String} {leaf0 : Value} :
    ∀ n ∈ marks, n ∉ peculiarNames vendor leaf0 := by
  have hintel : ∀ n ∈ marks, n ∉ intelNames := by decide
  have hamd : ∀ n ∈ marks, n ∉ amdNames := by decide
  rw [peculiarNames]
  split_ifs
  · exact fun _ _ => List.not_mem_nil
  · exact hintel
  · exact hamd
  · exact fun _ _ => List.not_mem_nil

/-- What a description adds for a vendor. -/
def IsVendorPart [Bus σ] (I : σ → Prop) (space : Space) (vendor : String) (part : Describe σ Unit) :
    Prop :=
  ∀ t scope view, view "max_leaf" = some (maxLeaf space) →
    Ensures I (Filling t scope space view) part fun _ =>
      Filled t scope space fun view' => ∃ leaf0 : Value,
        (vendor = "Intel" → MayGive I (Bus.read space (address 0 0) .w128) leaf0) ∧
        view.Adds (peculiarNames vendor leaf0) view'

theorem describeIntel_isVendorPart [Bus σ]
    (hanswers : Answers I (Bus.read space (address 0 0) .w128 : Action Fault σ Value)) :
    IsVendorPart I space "Intel" describeIntel := by
  intro t scope view hmax
  unfold describeIntel
  refine .read (by decide) hmax hanswers fun leaf0 hleaf0 => ?_
  have hless : (leaf0.extractLsb' 0 32).setWidth 128 < (0x16 : Value) ↔
      (Leaf.unpack leaf0).eax < 0x16 := by
    have hlt := (leaf0.extractLsb' 0 32).isLt
    simp only [BitVec.lt_def, BitVec.toNat_setWidth, Leaf.unpack, BitVec.reduceToNat]
    omega
  by_cases h : (Leaf.unpack leaf0).eax < 0x16
  · simp only [if_pos (hless.2 h)]
    refine .filled ⟨leaf0, fun _ => hleaf0, ?_⟩
    rw [peculiarNames, if_pos rfl, if_pos h]
    exact .refl view
  · simp only [if_neg (mt hless.1 h)]
    refine .register (by decide) ?_
    refine .datatype ?_
    refine .bits (by decide) (by decide) fun _ => ?_
    refine .bits (by decide) (by decide) fun _ => ?_
    refine .bits (by decide) (by decide) fun _ => ?_
    refine .filled ⟨leaf0, fun _ => hleaf0, ?_⟩
    rw [peculiarNames, if_pos rfl, if_neg h]
    apply View.Adds.congr
    · repeat first | exact .refl view | apply View.Adds.put
    · decide

theorem describeAmd_isVendorPart [Bus σ] : IsVendorPart I space "AMD" describeAmd := by
  intro t scope view _
  unfold describeAmd
  refine .register (by decide) ?_
  refine .bits (by decide) (by decide) fun _ => ?_
  refine .filled ⟨0, fun h => absurd h (by decide), ?_⟩
  rw [peculiarNames, if_neg (by decide), if_pos rfl]
  apply View.Adds.congr
  · repeat first | exact .refl view | apply View.Adds.put
  · decide

theorem pure_isVendorPart [Bus σ] {vendor : String} (hintel : vendor ≠ "Intel")
    (hamd : vendor ≠ "AMD") : IsVendorPart I space vendor (pure ()) := by
  intro t scope view _
  refine .filled ⟨0, fun h => absurd h hintel, ?_⟩
  rw [peculiarNames, if_neg hintel, if_neg hamd]
  exact .refl view

/-- What the element for a CPU shows: which CPU it is, its leaves, and names peculiar to its vendor
besides those of all CPUs. -/
structure ShowsCpu [Bus σ] (I : σ → Prop) (found : Found Nat Identity) (view : View) : Prop where
  shows : Shows found.address found.identity.vendor view
  leaves : ShowsLeaves found.space view
  names : ∃ leaf0 : Value, (found.identity.vendor = "Intel" →
      MayGive I (Bus.read found.space (address 0 0) .w128) leaf0) ∧
    View.none.Adds (commonNames ++ peculiarNames found.identity.vendor leaf0) view

variable {array : EntryId} {P : List View → Draft → Prop} {views : List View}

theorem describeCpu_ensures [Bus σ] {part : Describe σ Unit} {found : Found Nat Identity}
    (hP : Gathers array "cpu" P) (hpart : IsVendorPart I found.space found.identity.vendor part) :
    Ensures I (P views) (describeCpu part found) fun _ d =>
      ∃ view, ShowsCpu I found view ∧ P (views ++ [view]) d := by
  refine Ensures.element hP rfl (by decide) fun inner t' => ?_
  refine .bind (describeCommon_ensures _ _) fun _ => ?_
  refine .of_filled fun view ⟨hshows, hleaves, hcommon⟩ => ?_
  refine .bind (hpart t' inner view hleaves.maxLeaf) fun _ => ?_
  refine .of_filled fun view' ⟨leaf0, hleaf0, hpeculiar⟩ => ?_
  have hkeeps := hpeculiar.keeps notMem_peculiarNames
  exact .closeScope ⟨hshows.keeps hkeeps, hleaves.keeps hkeeps, leaf0, hleaf0,
    hcommon.trans hpeculiar⟩

/-- The criteria of the built-in descriptions ask for a vendor and nothing else. -/
theorem accepts_vendor_iff {vendor : String} {i : Identity} :
    Criteria.accepts ({ vendor } : Criterion) i = true ↔ vendor = i.vendor := by
  rw [accepts_iff]
  exact ⟨fun h => h.vendor_eq, fun h => ⟨h, nofun, nofun, nofun⟩⟩

/-- Every CPU is described by the built-in description for its vendor. -/
theorem dispatch_ensures [Bus σ] {r : Registry σ} (hr : registerBuiltin {} = .ok r)
    {found : Found Nat Identity} (hP : Gathers array "cpu" P)
    (hanswers : Answers I (Bus.read found.space (address 0 0) .w128 : Action Fault σ Value)) :
    Ensures I (P views) (r.dispatch found) fun _ d =>
      ∃ view, ShowsCpu I found view ∧ P (views ++ [view]) d := by
  obtain rfl := Except.ok.inj hr
  refine .dispatch (fun entry hentry haccepts => ?_) rfl fun hrejects =>
    describeCpu_ensures hP (pure_isVendorPart ?_ ?_)
  · fin_cases hentry
    · rw [accepts_vendor_iff] at haccepts
      exact describeCpu_ensures hP (haccepts ▸ describeIntel_isVendorPart hanswers)
    · rw [accepts_vendor_iff] at haccepts
      exact describeCpu_ensures hP (haccepts ▸ describeAmd_isVendorPart)
  · intro heq
    have hreject := hrejects ({ vendor := "Intel" }, describeCpu describeIntel) (.head _)
    rw [accepts_vendor_iff.2 heq.symm] at hreject
    cases hreject
  · intro heq
    have hreject := hrejects ({ vendor := "AMD" }, describeCpu describeAmd) (.tail _ (.head _))
    rw [accepts_vendor_iff.2 heq.symm] at hreject
    cases hreject

end Cpuid

/-! ## MSRs -/

namespace Msr

/-- The MSRs of a CPU show the CPU, and energy counters just if they are asked for. -/
structure Shows (cpu : Nat) (rapl : Bool) (view : View) : Prop where
  cpu : view "cpu" = some (.field (.constant (.int none) (BitVec.ofNat 128 cpu)))
  rapl : (view "rapl").isSome = rapl
  rapl_scope : ∀ e, view "rapl" = some e → e.kind = .scope

theorem describeCounter_ensures {ticks : Datatype} {name : String} {address : Value}
    (hstatus : isName ("%" ++ name ++ "_status").toList = true)
    (hname : isName name.toList = true) :
    Ensures I (Filling t scope space view) (describeCounter ticks name address) fun _ =>
      Filled t scope space fun _ => True := by
  unfold describeCounter
  refine .register hstatus ?_
  refine .bits hname (by decide) fun _ => ?_
  exact .filled trivial

theorem describeRapl_ensures :
    Ensures I (Filling t scope space view) (describeRapl : Describe σ Unit) fun _ =>
      Filled t scope space fun view' => ∃ e, e.kind = .scope ∧ view' = view.put "rapl" e := by
  unfold describeRapl
  refine .openScope (by decide) fun inner t' => ?_
  refine .register (by decide) ?_
  refine .bits (by decide) (by decide) fun _ => ?_
  refine .bits (by decide) (by decide) fun _ => ?_
  refine .bits (by decide) (by decide) fun _ => ?_
  refine .readOnly (by decide) fun _ => ?_
  refine .datatype ?_
  refine .bind (describeCounter_ensures (by decide) (by decide)) fun _ => .of_filled fun _ _ => ?_
  refine .bind (describeCounter_ensures (by decide) (by decide)) fun _ => .of_filled fun _ _ => ?_
  refine .bind (describeCounter_ensures (by decide) (by decide)) fun _ => .of_filled fun _ _ => ?_
  refine .addAlias (by decide) (by decide +kernel) fun _ => ?_
  exact .closeScope trivial

theorem describe_ensures {array : EntryId} {P : List View → Draft → Prop} {views : List View}
    (hP : Gathers array "msr" P) (cpu : Nat) (space : Space) (rapl : Bool) :
    Ensures I (P views) (describe cpu space rapl) fun _ d =>
      ∃ view, Shows cpu rapl view ∧ P (views ++ [view]) d := by
  unfold describe
  refine .element hP rfl (by decide) fun inner t' => ?_
  refine .bookmark ?_
  refine .constant (by decide) fun _ => ?_
  refine .register (by decide) ?_
  refine .field (by decide) fun _ => ?_
  refine .register (by decide) ?_
  refine .bit (by decide) (by decide) fun _ => ?_
  refine .bit (by decide) (by decide) fun _ => ?_
  refine .bit (by decide) (by decide) fun _ => ?_
  refine .bits (by decide) (by decide) fun _ => ?_
  cases rapl with
  | false => exact .closeScope ⟨by simp, by simp [View.none], by simp [View.none]⟩
  | true =>
      refine .bind describeRapl_ensures fun _ => .of_filled ?_
      rintro _ ⟨e, hkind, rfl⟩
      exact .closeScope ⟨by simp, by simp, by simp [hkind]⟩

end Msr

/-! ## PCI functions -/

namespace Pci

/-- Where a PCI function is. -/
structure Shows (a : Address) (view : View) : Prop where
  segment : view "segment" =
    some (.field (.constant (hex 16) (BitVec.ofNat 128 a.segment.toNat)))
  bus : view "bus" = some (.field (.constant (hex 8) (BitVec.ofNat 128 a.bus.toNat)))
  device : view "device" = some (.field (.constant (hex 8) (BitVec.ofNat 128 a.device.toNat)))
  function : view "function" =
    some (.field (.constant (.int none) (BitVec.ofNat 128 a.function.toNat)))

/-- The ids of a PCI function go back to its first register. -/
structure ShowsIds (space : Space) (view : View) : Prop where
  vendor : view "vendor_id" = some (.field (.direct (hex 16) (.range ⟨space, 0, .w32⟩ 0 16)))
  device : view "device_id" = some (.field (.direct (hex 16) (.range ⟨space, 0, .w32⟩ 16 16)))

/-- The names under which a PCI function shows where it is. -/
def marks : List String := ["segment", "bus", "device", "function"]

/-- The names under which a PCI function shows what it is. -/
def ids : List String := ["vendor_id", "device_id"]

theorem Shows.keeps {a : Address} (h : Shows a view) (hkeeps : view.Keeps marks view') :
    Shows a view' where
  segment := (hkeeps "segment" (by simp [marks])).trans h.segment
  bus := (hkeeps "bus" (by simp [marks])).trans h.bus
  device := (hkeeps "device" (by simp [marks])).trans h.device
  function := (hkeeps "function" (by simp [marks])).trans h.function

theorem ShowsIds.keeps (h : ShowsIds space view) (hkeeps : view.Keeps ids view') :
    ShowsIds space view' where
  vendor := (hkeeps "vendor_id" (by simp [ids])).trans h.vendor
  device := (hkeeps "device_id" (by simp [ids])).trans h.device

/-- The names stay, and more base address registers can be appended. -/
def Goes (view view' : View) : Prop := view.Keeps (marks ++ ids) view' ∧ view'.Takes "bar" .field

theorem describeBar_ensures (offset : Value) :
    Ensures I (Filled t scope space (Goes view)) (describeBar offset) fun _ =>
      Filled t scope space (Goes view) := by
  refine .of_filled fun view' ⟨hkeeps, htakes⟩ => ?_
  unfold describeBar
  refine .boundSpace ?_
  refine .item "bar" rfl (by decide) htakes fun _ items hkind => ?_
  refine .filled ⟨by simpa [marks, ids] using hkeeps, fun e he => ?_⟩
  rw [View.put_apply, if_pos rfl] at he
  exact ⟨items, (Option.some.inj he).symm, hkind⟩

theorem describeNormalHeader_ensures (htakes : view.Takes "bar" .field) :
    Ensures I (Filling t scope space view) (describeNormalHeader : Describe σ Unit) fun _ =>
      Filled t scope space (view.Keeps (marks ++ ids)) := by
  unfold describeNormalHeader
  have hgoes : Goes view view := ⟨by simp, htakes⟩
  refine .bind (.forM_filled hgoes fun offset _ => describeBar_ensures offset) fun _ =>
    .of_filled fun view' ⟨hkeeps, _⟩ => ?_
  refine .register (by decide) ?_
  refine .bits (by decide) (by decide) fun _ => ?_
  refine .bits (by decide) (by decide) fun _ => ?_
  exact .filled (by simpa [marks, ids] using hkeeps)

/-- A header leaves alone where the function is and shows what it is. -/
structure ShowsHeader (space : Space) (view view' : View) : Prop where
  keeps : view.Keeps marks view'
  shows : ShowsIds space view'

theorem ShowsHeader.trans {view'' : View} (h : ShowsHeader space view view')
    (hkeeps : view'.Keeps (marks ++ ids) view'') : ShowsHeader space view view'' where
  keeps n hn := (hkeeps n (List.mem_append_left _ hn)).trans (h.keeps n hn)
  shows := h.shows.keeps fun n hn => hkeeps n (List.mem_append_right _ hn)

theorem describeHeader_ensures [Bus σ] (htakes : view.Takes "bar" .field)
    (hanswers : Answers I (Bus.read space 0x0E .w8 : Action Fault σ Value)) :
    Ensures I (Filling t scope space view) describeHeader fun _ =>
      Filled t scope space (ShowsHeader space view) := by
  unfold describeHeader
  refine .register (by decide) ?_
  refine .bits (by decide) (by decide) fun _ => ?_
  refine .bits (by decide) (by decide) fun _ => ?_
  refine .forget (F := fun view' => ShowsHeader space view view' ∧ view'.Takes "bar" .field)
    ⟨⟨by simp [marks], by simp, by simp⟩, fun e he => htakes e (by simpa using he)⟩
    fun view' ⟨hheader, htakes⟩ => ?_
  refine .datatype ?_
  refine .register (by decide) ?_
  refine .bit (by decide) (by decide) fun _ => ?_
  refine .bit (by decide) (by decide) fun _ => ?_
  refine .bit (by decide) (by decide) fun _ => ?_
  refine .bit (by decide) (by decide) fun _ => ?_
  refine .bit (by decide) (by decide) fun _ => ?_
  refine .register (by decide) ?_
  refine .bit (by decide) (by decide) fun _ => ?_
  refine .register (by decide) ?_
  refine .bits (by decide) (by decide) fun _ => ?_
  refine .bits (by decide) (by decide) fun _ => ?_
  refine .register (by decide) ?_
  refine .bits (by decide) (by decide) fun _ => ?_
  refine .bit (by decide) (by decide) fun _ => ?_
  refine .read (by decide) (by simp; rfl) hanswers fun layout _ => ?_
  refine .forget (F := fun view' => ShowsHeader space view view' ∧ view'.Takes "bar" .field)
    ⟨hheader.trans (by simp [marks, ids]), fun e he => htakes e (by simpa using he)⟩
    fun view' ⟨hheader, htakes⟩ => ?_
  refine .when (M := Filled t scope space (ShowsHeader space view)) (fun _ => ?_)
    (fun _ d hd => ⟨_, hheader, hd⟩) ?_
  · refine (describeNormalHeader_ensures htakes).mono (fun _ hd => hd) ?_
    rintro _ d ⟨view', hkeeps, hd⟩
    exact ⟨view', hheader.trans hkeeps, hd⟩
  · refine .of_filled fun view' hheader => ?_
    refine .register (by decide) ?_
    refine .bits (by decide) (by decide) fun _ => ?_
    refine .bits (by decide) (by decide) fun _ => ?_
    exact .filled (hheader.trans (by simp [marks, ids]))

theorem describeCounter_ensures (n : Nat) :
    Ensures I (Filled t scope space fun view => view.Takes "counter" .scope)
      (describeCounter n : Describe σ Unit) fun _ =>
        Filled t scope space fun view => view.Takes "counter" .scope := by
  refine .of_filled fun view htakes => ?_
  unfold describeCounter
  refine .mono (.openItem "counter" rfl (by decide) htakes fun inner t' => ?_) (fun _ hd => hd) ?_
  · refine .register (by decide) ?_
    refine .bits (by decide) (by decide) fun _ => ?_
    refine .bits (by decide) (by decide) fun _ => ?_
    refine .bit (by decide) (by decide) fun _ => ?_
    refine .register (by decide) ?_
    refine .bits (by decide) (by decide) fun _ => ?_
    exact .closeScope trivial
  · rintro _ d ⟨_, ⟨items, hkind, rfl⟩, hd⟩
    refine ⟨_, fun e he => ?_, hd⟩
    rw [View.put_apply, if_pos rfl] at he
    exact ⟨items, (Option.some.inj he).symm, hkind⟩

/-- What is peculiar to a device leaves alone where its function is and what it is. -/
def IsDevicePart (I : σ → Prop) (space : Space) (part : Describe σ Unit) : Prop :=
  ∀ t scope view, Ensures I (Filling t scope space view) part fun _ =>
    Filled t scope space (view.Keeps (marks ++ ids))

theorem describeController_isDevicePart :
    IsDevicePart I space (describeController : Describe σ Unit) := by
  intro t scope view
  unfold describeController
  refine .mono (.openScope (by decide) fun inner t' => ?_) (fun _ hd => hd) ?_
  · refine .register (by decide) ?_
    refine .bit (by decide) (by decide) fun _ => ?_
    refine .bit (by decide) (by decide) fun _ => ?_
    refine .bind (.forM_filled (.of_none (by simp [View.none])) fun n _ =>
      describeCounter_ensures n) fun _ => .of_filled fun _ _ => ?_
    refine .addAlias (by decide) (by decide +kernel) fun _ => ?_
    exact .closeScope trivial
  · rintro _ d ⟨_, ⟨e, -, rfl⟩, hd⟩
    exact ⟨_, by simp [marks, ids], hd⟩

theorem pure_isDevicePart : IsDevicePart I space (pure () : Describe σ Unit) :=
  fun _ _ _ => .filled (by simp)

/-- What the element for a PCI function shows: where it is and what it is. -/
structure ShowsFunction (a : Address) (space : Space) (view : View) : Prop where
  shows : Shows a view
  ids : ShowsIds space view

variable {array : EntryId} {P : List View → Draft → Prop} {views : List View}

theorem describeFunction_ensures [Bus σ] {part : Describe σ Unit} {found : Found Address Identity}
    (hP : Gathers array "pci" P) (hpart : IsDevicePart I found.space part)
    (hanswers : Answers I (Bus.read found.space 0x0E .w8 : Action Fault σ Value)) :
    Ensures I (P views) (describeFunction part found) fun _ d =>
      ∃ view, ShowsFunction found.address found.space view ∧ P (views ++ [view]) d := by
  refine .element hP rfl (by decide) fun inner t' => ?_
  refine .bookmark ?_
  refine .constant (by decide) fun _ => ?_
  refine .constant (by decide) fun _ => ?_
  refine .constant (by decide) fun _ => ?_
  refine .constant (by decide) fun _ => ?_
  refine .forget (F := fun view => Shows found.address view ∧ view.Takes "bar" .field)
    ⟨⟨by simp, by simp, by simp, by simp⟩, .of_none (by simp [View.none])⟩
    fun view ⟨hshows, htakes⟩ => ?_
  refine .bind (describeHeader_ensures htakes hanswers) fun _ => .of_filled fun view hheader => ?_
  refine .bind (hpart t' inner view) fun _ => ?_
  refine .of_filled fun view' hkeeps => ?_
  have hheader' := hheader.trans hkeeps
  exact .closeScope ⟨hshows.keeps hheader'.keeps, hheader'.shows⟩

/-- Every function is described by one of the built-in descriptions. -/
theorem dispatch_ensures [Bus σ] {r : Registry σ} (hr : registerBuiltin {} = .ok r)
    {found : Found Address Identity} (hP : Gathers array "pci" P)
    (hanswers : Answers I (Bus.read found.space 0x0E .w8 : Action Fault σ Value)) :
    Ensures I (P views) (r.dispatch found) fun _ d =>
      ∃ view, ShowsFunction found.address found.space view ∧ P (views ++ [view]) d := by
  obtain rfl := Except.ok.inj hr
  refine .dispatch (fun entry hentry _ => ?_) rfl fun _ =>
    describeFunction_ensures hP pure_isDevicePart hanswers
  fin_cases hentry <;> exact describeFunction_ensures hP describeController_isDevicePart hanswers

end Pci

end RegisterAtlas
