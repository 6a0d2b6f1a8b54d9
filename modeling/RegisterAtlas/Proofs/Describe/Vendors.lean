import RegisterAtlas.Description.System
import RegisterAtlas.Proofs.Describe.Devices
import RegisterAtlas.Proofs.Describe.Paths

/-!
# Vendors of described CPUs

Whether energy counters are described depends on what the tree in the making shows of the CPU. The
search for the vendor of a CPU reads constants only, so it succeeds in any state and finds the
vendor of the first element that is for the CPU (`vendorOf_eq`). With that the MSRs of a list of
CPUs are described one after the other.
-/

namespace RegisterAtlas

open Describe Draft

/-- The vendor that is shown for a CPU, going by numbers and vendors of CPUs in the order of the
array. -/
def shownVendor (known : List (Nat × String)) (cpu : Nat) : Option String :=
  (known.find? (·.1 = cpu)).map fun p => Cpuid.vendorType.evaluate (Cpuid.vendorCode p.2)

/-- The elements of `cpu` are for certain CPUs. -/
structure ShowsCpus (rows : Rows) (known : List (Nat × String)) : Prop where
  views : List.Forall₂ (fun p view => Cpuid.Shows p.1 p.2 view) known (rows "cpu")
  length_le : known.length ≤ indexLimit
  cpu_lt : ∀ p ∈ known, p.1 < wordCount 32

/-- Values tell the numbers of CPUs apart. -/
theorem cpu_eq_of_ofNat_eq {a b : Nat} (ha : a < wordCount 32) (hb : b < wordCount 32)
    (h : BitVec.ofNat 128 a = BitVec.ofNat 128 b) : a = b := by
  have hle : wordCount 32 ≤ 2 ^ 128 := by decide
  have hnat := congrArg BitVec.toNat h
  rwa [BitVec.toNat_ofNat, BitVec.toNat_ofNat, Nat.mod_eq_of_lt (Nat.lt_of_lt_of_le ha hle),
    Nat.mod_eq_of_lt (Nat.lt_of_lt_of_le hb hle)] at hnat

namespace Tree

variable {σ : Type} [Bus σ] {t : Tree} {rows : Rows} {known : List (Nat × String)}

/-- An element of `cpu` tells a number and a vendor. -/
def Tells (σ : Type) [Bus σ] (t : Tree) (p : Nat × String) (id : EntryId) : Prop :=
  (t.readPath root (t.pathOf id ++ "/cpu") : Access σ Value) = pure (BitVec.ofNat 128 p.1) ∧
  ∃ vendor, t.resolveText root (t.pathOf id ++ "/vendor") = .ok (some vendor) ∧
    (t.evaluate vendor : Access σ String) =
      pure (Cpuid.vendorType.evaluate (Cpuid.vendorCode p.2))

theorem tells_of_showsCpus (h : ShowsCpus rows known) (hrows : t.ShowsRows rows)
    (hw : t.WellFormed) : List.Forall₂ (t.Tells σ) known ((t.view root).items "cpu") := by
  have hlength : known.length = ((t.view root).items "cpu").length := by
    rw [h.views.length_eq, ← hrows.rows_eq, List.length_map]
  refine List.forall₂_iff_get.2 ⟨hlength, fun i hi hi' => ?_⟩
  have hknown := List.getElem?_eq_getElem hi
  have hpath := pathOf_element hw (lists_of_items (List.getElem?_eq_getElem hi'))
  obtain ⟨-, -, hread, -⟩ := hrows.constant_inside (σ := σ) hw h.views h.length_le (by decide)
    (by decide) hknown fun _ hview => hview.cpu
  obtain ⟨vendor, hvendor, -, hevaluate⟩ := hrows.constant_inside (σ := σ) hw h.views h.length_le
    (by decide) (by decide) hknown fun _ hview => hview.vendor
  rw [List.get_eq_getElem, List.get_eq_getElem, Tells, hpath]
  exact ⟨hread, vendor, hvendor, hevaluate⟩

theorem vendorAmong_eq {cpu : Nat} {ids : List EntryId} (hcpu : cpu < wordCount 32)
    (hknown : ∀ p ∈ known, p.1 < wordCount 32) (h : List.Forall₂ (t.Tells σ) known ids) :
    (t.vendorAmong cpu ids : Access σ (Option String)) = pure (shownVendor known cpu) := by
  induction h with
  | nil => rfl
  | @cons p id known ids hp hrest ih =>
      obtain ⟨hread, vendor, hvendor, hevaluate⟩ := hp
      obtain ⟨hlt, hknown⟩ := List.forall_mem_cons.1 hknown
      rw [vendorAmong, hread]
      by_cases heq : p.1 = cpu
      · simp only [heq, pure_bind, if_pos, hvendor, shownVendor, List.find?_cons, decide_true,
          Access.ofExcept_ok, hevaluate, map_pure, Option.map_some]
      · have hne : BitVec.ofNat 128 p.1 ≠ BitVec.ofNat 128 cpu := fun h =>
          heq (cpu_eq_of_ofNat_eq hlt hcpu h)
        simp only [pure_bind, if_neg hne, ih hknown, shownVendor, List.find?_cons, heq,
          decide_false]

/-- The vendor of a CPU is found without any access to registers. -/
theorem vendorOf_eq {cpu : Nat} (hcpu : cpu < wordCount 32) (h : ShowsCpus rows known)
    (hrows : t.ShowsRows rows) (hw : t.WellFormed) :
    (t.vendorOf cpu : Access σ (Option String)) = pure (shownVendor known cpu) := by
  have htells := tells_of_showsCpus (σ := σ) h hrows hw
  have hcpus : t.resolveText root ("/" ++ "cpu") = t.resolveText root "/cpu" := rfl
  rw [vendorOf, ← hcpus]
  have hname : isName "cpu".toList = true := by decide
  rcases hrows.resolveText_array hw hname with
    ⟨hnone, hitems⟩ | ⟨id, items, hsome, harray, hitems, -⟩
  · rw [hitems, List.forall₂_nil_right_iff] at htells
    rw [hnone, htells]
    rfl
  · rw [← hitems] at htells
    simp only [hsome, Access.ofExcept_ok, pure_bind, harray]
    exact vendorAmong_eq hcpu h.cpu_lt htells

end Tree

/-! ## MSRs -/

section

variable {I : Machine → Prop} {rows : Rows} {known : List (Nat × String)}
  {attach : List Value → Action Error Machine Space} {cpu : Nat} {cpus : List Nat}

theorem ShowsCpus.append {name : String} (h : ShowsCpus rows known) (hname : name ≠ "cpu")
    (views : List View) : ShowsCpus (rows.append name views) known :=
  ⟨by simpa [hname.symm] using h.views, h.length_le, h.cpu_lt⟩

theorem vendorOf_ensures (hcpu : cpu < wordCount 32) (hknown : ShowsCpus rows known) :
    Ensures I (Shows rows) (Describe.access fun d => d.tree.vendorOf cpu) fun vendor d =>
      vendor = shownVendor known cpu ∧ Shows rows d :=
  .access_pure fun _ hd => Tree.vendorOf_eq hcpu hknown hd.shows hd.wellFormed.tree

theorem describeMsrs_ensures (hcpu : cpu < wordCount 32) (hknown : ShowsCpus rows known)
    (hattach : Answers I (attach [BitVec.ofNat 128 cpu])) (views : List View) :
    Ensures I (Shows (rows.append "msr" views)) (describeMsrs attach cpu) fun _ d =>
      ∃ view, Msr.Shows cpu (shownVendor known cpu = some "Intel") view ∧
        Shows (rows.append "msr" (views ++ [view])) d := by
  unfold describeMsrs
  refine .bind_eq (vendorOf_ensures hcpu (hknown.append (by decide) views)) ?_
  exact .bind (.access_world hattach) fun space => .of_and fun _ =>
    Msr.describe_ensures (gathers_shows rows "msr") _ _ _

theorem describeMsrs_refuses {e : Error} (hcpu : cpu < wordCount 32) (hknown : ShowsCpus rows known)
    (hattach : FailsWith I (attach [BitVec.ofNat 128 cpu]) e) :
    Refuses I (Shows rows) (describeMsrs attach cpu) (.error e) := by
  unfold describeMsrs
  refine .bind (vendorOf_ensures hcpu hknown) fun _ => .of_and fun _ => ?_
  exact (Refuses.access_world hattach).bind_left _

/-- The MSRs of all CPUs of a list. -/
theorem forM_describeMsrs_ensures (hcpus : ∀ cpu ∈ cpus, cpu < wordCount 32)
    (hknown : ShowsCpus rows known)
    (hattach : ∀ cpu ∈ cpus, Answers I (attach [BitVec.ofNat 128 cpu])) (views : List View) :
    Ensures I (Shows (rows.append "msr" views)) (cpus.forM (describeMsrs attach)) fun _ d =>
      ∃ new, List.Forall₂ (fun cpu => Msr.Shows cpu (shownVendor known cpu = some "Intel")) cpus
        new ∧ Shows (rows.append "msr" (views ++ new)) d := by
  induction cpus generalizing views with
  | nil => exact .pure fun d hd => ⟨[], .nil, by rwa [List.append_nil]⟩
  | cons cpu rest ih =>
      obtain ⟨hcpu, hcpus⟩ := List.forall_mem_cons.1 hcpus
      obtain ⟨hfirst, hattach⟩ := List.forall_mem_cons.1 hattach
      refine .bind (describeMsrs_ensures hcpu hknown hfirst views) fun _ => .of_exists fun view =>
        .of_and fun hview => ?_
      refine (ih hcpus hattach (views ++ [view])).mono (fun _ hd => hd) ?_
      rintro _ d ⟨new, hnew, hd⟩
      rw [List.append_assoc, List.singleton_append] at hd
      exact ⟨view :: new, .cons hview hnew, hd⟩

/-- If the MSRs of a CPU cannot be attached, there is the same error whatever is known of the CPUs.
-/
theorem forM_describeMsrs_refuses (hcpus : ∀ cpu ∈ cpus, cpu < wordCount 32)
    (hsettled : ∀ cpu ∈ cpus, Settled I (attach [BitVec.ofNat 128 cpu]))
    (hattach : ¬ ∀ cpu ∈ cpus, Answers I (attach [BitVec.ofNat 128 cpu])) :
    ∃ e, ∀ rows known views, ShowsCpus rows known →
      Refuses I (Shows (rows.append "msr" views)) (cpus.forM (describeMsrs attach)) (.error e) := by
  induction cpus with
  | nil => exact absurd nofun hattach
  | cons cpu rest ih =>
      obtain ⟨hcpu, hcpus⟩ := List.forall_mem_cons.1 hcpus
      obtain ⟨hfirst, hsettled⟩ := List.forall_mem_cons.1 hsettled
      rcases hfirst with ⟨space, hspace⟩ | ⟨e, he⟩
      · obtain ⟨e, hrest⟩ := ih hcpus hsettled fun hrest =>
          hattach (List.forall_mem_cons.2 ⟨hspace.answers, hrest⟩)
        exact ⟨e, fun rows known views hknown =>
          .bind (describeMsrs_ensures hcpu hknown hspace.answers views) fun _ =>
            .of_exists fun view => .of_and fun _ => hrest rows known _ hknown⟩
      · exact ⟨e, fun rows known views hknown =>
          (describeMsrs_refuses hcpu (hknown.append (by decide) views) he).bind_left _⟩

end

end RegisterAtlas
