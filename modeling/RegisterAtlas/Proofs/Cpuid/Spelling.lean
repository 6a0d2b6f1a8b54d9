import Mathlib.Data.List.DropRight
import RegisterAtlas.Proofs.Describe.Identities
import RegisterAtlas.Proofs.Text.Utf8

/-!
# How CPUs spell their vendor

Leaf 0 spells the vendor in twelve bytes. A CPU counts as one of Intel or AMD if it spells the long
name of the vendor. It also does if it spells the short name, with zeros behind it: the zeros are
taken away from whatever is spelled, and then the name can no longer be told from the short one
(`vendorName_eq_intel_iff`). All other CPUs are described by the catch-all, and show only what is
common to all CPUs.
-/

namespace RegisterAtlas

/-- With all that a scope shows being fields, the names with a field are those that are found. -/
theorem Tree.IsScope.isDefined_iff {t : Tree} {scope : EntryId} {names : List String}
    {name : String} (h : t.IsScope scope) (hadds : View.none.Adds names (t.view scope))
    (hname : isName name.toList = true) : t.isDefined scope name = true ↔ name ∈ names := by
  have hview : (t.view scope name).isSome ↔ name ∈ names := by
    by_cases hmem : name ∈ names
    · obtain ⟨f, hf⟩ := hadds.shown name hmem
      simp [hf, hmem]
    · simp [hadds.kept name hmem, View.none, hmem]
  have hplain : ∀ e, t.view scope name = some e → e.kind ≠ .alias := fun e he => by
    obtain ⟨f, hf⟩ := hadds.shown name (hview.1 (he ▸ rfl))
    cases hf.symm.trans he
    exact Kind.noConfusion
  obtain ⟨r, hr, -, hentry, -⟩ :=
    resolveText_child h.wellFormed h.lt_size h.kind_eq hname hplain
  rw [← hview, ← hentry, Option.isSome_map, isDefined, hr]
  cases r <;> rfl

namespace Cpuid

open Draft

/-- The registers for the vendor spell a text of ASCII characters. -/
def Leaf.Spells (l : Leaf) (text : String) : Prop :=
  vendorBytes l.ebx l.ecx l.edx = Text.asciiBytes text.toList

instance (l : Leaf) (text : String) : Decidable (l.Spells text) :=
  inferInstanceAs (Decidable (_ = _))

/-- Zeros behind a name, so that it has as many bytes as are spelled. -/
def padded (name : String) : String :=
  .ofList (name.toList ++ List.replicate (12 - name.length) '\x00')

/-- What counts as a CPU of Intel. -/
def Leaf.IsIntel (l : Leaf) : Prop := l.Spells "GenuineIntel" ∨ l.Spells (padded "Intel")

/-- What counts as a CPU of AMD. -/
def Leaf.IsAmd (l : Leaf) : Prop := l.Spells "AuthenticAMD" ∨ l.Spells (padded "AMD")

instance (l : Leaf) : Decidable l.IsIntel := inferInstanceAs (Decidable (_ ∨ _))

instance (l : Leaf) : Decidable l.IsAmd := inferInstanceAs (Decidable (_ ∨ _))

/-! ## Names of vendors -/

variable {l : Leaf}

theorem Leaf.spells_iff {text : String} (h : ∀ c ∈ text.toList, c.toNat < 0x80) :
    l.Spells text ↔ Text.decodeLossy (vendorBytes l.ebx l.ecx l.edx) = text.toList :=
  (Text.decodeLossy_eq_iff h).symm

/-- A name is left when the zeros are taken away from a text if the text is the name with zeros
behind it. -/
theorem stripZeros_eq_iff {cs name : List Char} (hname : ∀ c ∈ name.getLast?, c ≠ '\x00') :
    (cs.reverse.dropWhile (· = '\x00')).reverse = name ↔
      ∃ k, cs = name ++ List.replicate k '\x00' := by
  constructor
  · rintro rfl
    have hzeros : cs.reverse.takeWhile (· = '\x00') =
        List.replicate (cs.reverse.takeWhile (· = '\x00')).length '\x00' :=
      List.eq_replicate_iff.2 ⟨rfl, fun c hc => by simpa using List.mem_takeWhile_imp hc⟩
    refine ⟨(cs.reverse.takeWhile (· = '\x00')).length, ?_⟩
    rw [← List.reverse_replicate, ← hzeros, ← List.reverse_append, List.takeWhile_append_dropWhile,
      List.reverse_reverse]
  · rintro ⟨k, rfl⟩
    rw [List.reverse_append, List.reverse_replicate,
      List.dropWhile_append_of_pos (by simp), ← List.reverse_inj, List.reverse_reverse]
    cases hrev : name.reverse with
    | nil => rfl
    | cons c rest =>
        have hc : c ∈ name.getLast? := by rw [← List.head?_reverse, hrev, List.head?_cons]; rfl
        rw [List.dropWhile_cons_of_neg (by simpa using hname c hc)]

theorem length_vendorBytes (ebx ecx edx : BitVec 32) : (vendorBytes ebx ecx edx).length = 12 := by
  simp [vendorBytes]

/-- As there are twelve bytes, it is clear how many zeros there are behind a name. -/
theorem Leaf.spells_padded_iff {name : String} (hascii : ∀ c ∈ name.toList, c.toNat < 0x80)
    (hlast : ∀ c ∈ name.toList.getLast?, c ≠ '\x00') :
    l.Spells (padded name) ↔
      ((Text.decodeLossy (vendorBytes l.ebx l.ecx l.edx)).reverse.dropWhile (· = '\x00')).reverse =
        name.toList := by
  have hzeros (k : Nat) : ∀ c ∈ name.toList ++ List.replicate k '\x00', c.toNat < 0x80 := by
    refine List.forall_mem_append.2 ⟨hascii, fun c hc => ?_⟩
    rw [List.eq_of_mem_replicate hc]
    decide
  rw [stripZeros_eq_iff hlast, Spells, padded, String.toList_ofList]
  simp only [Text.decodeLossy_eq_iff (hzeros _)]
  refine ⟨fun h => ⟨_, h⟩, fun ⟨k, hk⟩ => ?_⟩
  have hlength := congrArg List.length hk
  rw [length_vendorBytes, Text.asciiBytes, List.length_map, List.length_append,
    List.length_replicate, String.length_toList] at hlength
  rw [hk, show 12 - name.length = k by omega]

theorem vendorName_eq_intel_iff : vendorName l.ebx l.ecx l.edx = "Intel" ↔ l.IsIntel := by
  rw [Leaf.IsIntel, Leaf.spells_iff (by simp), Leaf.spells_padded_iff (by simp) (by simp),
    vendorName]
  generalize Text.decodeLossy (vendorBytes l.ebx l.ecx l.edx) = spelt
  split_ifs with hintel hamd
  · simp [hintel]
  · subst hamd
    decide
  · rw [or_iff_right hintel, ← String.toList_inj, String.toList_ofList]

theorem vendorName_eq_amd_iff : vendorName l.ebx l.ecx l.edx = "AMD" ↔ l.IsAmd := by
  rw [Leaf.IsAmd, Leaf.spells_iff (by simp), Leaf.spells_padded_iff (by simp) (by simp),
    vendorName]
  generalize Text.decodeLossy (vendorBytes l.ebx l.ecx l.edx) = spelt
  split_ifs with hintel hamd
  · subst hintel
    decide
  · simp [hamd]
  · rw [or_iff_right hamd, ← String.toList_inj, String.toList_ofList]

/-! ## Descriptions by vendor -/

/-- The text that is shown for the vendor of a CPU. -/
def Leaf.vendorText (l : Leaf) : String :=
  if l.IsIntel then "Intel" else if l.IsAmd then "AMD" else "other"

/-- The names that a CPU shows besides those of all CPUs. Those of Intel have the leaf for them if
leaf 0 says so. -/
def Leaf.peculiarNames (l : Leaf) : List String :=
  if l.IsIntel then if l.eax < 0x16 then [] else intelNames
  else if l.IsAmd then amdNames
  else []

theorem vendorText_eq (l : Leaf) : vendorText (vendorName l.ebx l.ecx l.edx) = l.vendorText := by
  simp only [vendorText, Leaf.vendorText, vendorName_eq_intel_iff, vendorName_eq_amd_iff]

theorem peculiarNames_eq (leaf0 : Value) :
    let l := Leaf.unpack leaf0
    peculiarNames (vendorName l.ebx l.ecx l.edx) leaf0 = l.peculiarNames := by
  simp only [peculiarNames, Leaf.peculiarNames, vendorName_eq_intel_iff, vendorName_eq_amd_iff]

theorem peculiarNames_congr {vendor : String} {leaf0 leaf0' : Value}
    (h : vendor = "Intel" → leaf0 = leaf0') :
    peculiarNames vendor leaf0 = peculiarNames vendor leaf0' := by
  by_cases hintel : vendor = "Intel"
  · rw [h hintel]
  · rw [peculiarNames, peculiarNames, if_neg hintel, if_neg hintel]

variable {σ : Type} [Bus σ] {I : σ → Prop} {t : Tree} {element : EntryId}

/-- What is described for the vendor that leaf 0 spells. -/
def Leaf.vendorPart (l : Leaf) : Describe σ Unit :=
  if l.IsIntel then describeIntel else if l.IsAmd then describeAmd else pure ()

theorem select_eq {r : Registry σ} (hr : registerBuiltin {} = .ok r) (i : Identity) :
    r.select i = some (describeCpu (if i.vendor = "Intel" then describeIntel
      else if i.vendor = "AMD" then describeAmd else pure ())) := by
  obtain rfl := Except.ok.inj hr
  have haccepts (vendor : String) :
      Criteria.accepts ({ vendor } : Criterion) i = decide (i.vendor = vendor) := by
    rw [Bool.eq_iff_iff, accepts_vendor_iff, decide_eq_true_iff, eq_comm]
  simp only [Registry.select, Registry.register, List.nil_append, List.cons_append,
    List.find?_cons, List.find?_nil, haccepts]
  split_ifs with hintel hamd
  · simp [hintel]
  · simp [hamd]
  · simp [hintel, hamd]

theorem select_vendorName {r : Registry σ} (hr : registerBuiltin {} = .ok r) (l : Leaf)
    (signature : Signature) :
    r.select ⟨vendorName l.ebx l.ecx l.edx, signature⟩ = some (describeCpu l.vendorPart) := by
  simp only [select_eq hr, Leaf.vendorPart, vendorName_eq_intel_iff, vendorName_eq_amd_iff]

/-- The element for a CPU tells the vendor that leaf 0 spells, and has just the fields for it. -/
structure ShowsVendor (I : σ → Prop) (t : Tree) (element : EntryId) (l : Leaf) : Prop where
  vendor : ∃ id, t.resolveText element "vendor" = .ok (some id) ∧
    Yields I (t.evaluate id) l.vendorText
  fields : ∀ name, isName name.toList = true →
    (t.isDefined element name = true ↔ name ∈ commonNames ++ l.peculiarNames)

theorem ShowsCpu.showsVendor {cpu : Nat} {space : Space} {leaf0 leaf1 : Value}
    (h : t.IsScope element)
    (hshows : ShowsCpu I ⟨cpu, identityOf leaf0 leaf1, space⟩ (t.view element))
    (h₀ : Yields I (Bus.read space (address 0 0) .w128) leaf0) :
    ShowsVendor I t element (Leaf.unpack leaf0) where
  vendor := by
    rw [← vendorText_eq, ← evaluate_vendorCode]
    exact h.yields_evaluate_constant (by decide) hshows.shows.vendor
  fields name hname := by
    obtain ⟨leaf, hleaf, hadds⟩ := hshows.names
    have hnames := peculiarNames_congr fun hintel => (hleaf hintel).eq_of_yields h₀
    rw [hnames] at hadds
    rw [h.isDefined_iff hadds hname, ← peculiarNames_eq]
    rfl

section

variable {d : Draft} {w : σ} {cpus : List Nat} {spaceOf : Nat → Space} {leaf0 leaf1 : Nat → Value}
  {r : Registry σ}

theorem presents_vendors (hd : d.WellFormed) (hw : I w) (hr : registerBuiltin {} = .ok r)
    (htakes : (d.tree.view d.current).Takes "cpu" .scope)
    (h₀ : ∀ cpu ∈ cpus, Yields I (Bus.read (spaceOf cpu) (address 0 0) .w128) (leaf0 cpu))
    (h₁ : ∀ cpu ∈ cpus, Yields I (Bus.read (spaceOf cpu) (address 1 0) .w128) (leaf1 cpu)) :
    Presents I (driver cpus spaceOf r) "cpu" d w cpus fun cpu t element =>
      ShowsVendor I t element (Leaf.unpack (leaf0 cpu)) :=
  presents_of_ensures rfl hd htakes hw (discover_ensures hr (gathers_showsElements _ _) h₀ h₁)
    fun cpu hcpu _ _ h hshows => hshows.showsVendor h (h₀ cpu hcpu)

/-- Whatever leaf 0 spells, the built-in description for a CPU is the one of Intel just if it spells
`GenuineIntel` or `Intel` with zeros behind, the one of AMD just if it spells `AuthenticAMD` or
`AMD` with zeros behind, and the catch-all in all other cases. The elements for CPUs tell the vendor
accordingly, and no CPU shows fields for a vendor that it is not of. -/
theorem discover_shows_vendors (hd : d.WellFormed) (hw : I w) (hr : registerBuiltin {} = .ok r)
    (htakes : (d.tree.view d.current).Takes "cpu" .scope)
    (h₀ : ∀ cpu ∈ cpus, Yields I (Bus.read (spaceOf cpu) (address 0 0) .w128) (leaf0 cpu))
    (h₁ : ∀ cpu ∈ cpus, Yields I (Bus.read (spaceOf cpu) (address 1 0) .w128) (leaf1 cpu)) :
    (∀ (l : Leaf) (signature : Signature),
      r.select ⟨vendorName l.ebx l.ecx l.edx, signature⟩ = some (describeCpu l.vendorPart)) ∧
    Presents I (driver cpus spaceOf r) "cpu" d w cpus fun cpu t element =>
      ShowsVendor I t element (Leaf.unpack (leaf0 cpu)) :=
  ⟨select_vendorName hr, presents_vendors hd hw hr htakes h₀ h₁⟩

end

/-- A CPU of Intel that spells the long name, and one that spells nothing. -/
theorem discover_shows_vendors_bankHardware :
    ∃ (r : Registry Machine) (d : Draft),
      let I := Machine.PlainWith bankMachine.value
      let leaf0 cpu := Width.w128.truncate (bankMachine.value ("cpu" ++ toString cpu, address 0 0))
      registerBuiltin {} = .ok r ∧ d.WellFormed ∧ I bankMachine ∧
      (Leaf.unpack (leaf0 0)).Spells "GenuineIntel" ∧ ¬ (Leaf.unpack (leaf0 1)).IsIntel ∧
      (∀ (l : Leaf) (signature : Signature),
        r.select ⟨vendorName l.ebx l.ecx l.edx, signature⟩ = some (describeCpu l.vendorPart)) ∧
      Presents I (driver [1, 0] bankHardware.cpuSpace r) "cpu" d bankMachine [1, 0]
        fun cpu t element => ShowsVendor I t element (Leaf.unpack (leaf0 cpu)) := by
  have hstart := shows_ofTree_empty 1000
  obtain ⟨r, hr⟩ : ∃ r, registerBuiltin ({} : Registry Machine) = .ok r := ⟨_, rfl⟩
  refine ⟨r, _, hr, hstart.wellFormed, plainWith_bankMachine, ?_, ?_, ?_⟩
  · decide +kernel
  · decide +kernel
  · exact discover_shows_vendors hstart.wellFormed plainWith_bankMachine hr
      (hstart.shows "cpu").takes (fun _ _ => Machine.PlainWith.yields)
      fun _ _ => Machine.PlainWith.yields

/-- Leaf 0 with the short name of Intel. -/
def abbreviated : Leaf := ⟨0x16, 0x65746E49, 0, 0x6C⟩

def abbreviatedMachine : Machine :=
  ({} : Machine).setBank (({ name := "cpu0" } : Bank).set 0 abbreviated.pack)

/-- A CPU that does not spell `GenuineIntel` shows the frequencies of one of Intel. -/
theorem abbreviated_shows_frequencies :
    ¬ abbreviated.Spells "GenuineIntel" ∧ ∃ r : Registry Machine, registerBuiltin {} = .ok r ∧
      Presents (Machine.PlainWith abbreviatedMachine.value)
        (driver [0] bankHardware.cpuSpace r) "cpu"
        (.ofTree (Tree.empty.setPollLimit 1000)) abbreviatedMachine [0] fun _ t element =>
          t.isDefined element "base_freq" = true := by
  have hstart := shows_ofTree_empty 1000
  obtain ⟨r, hr⟩ : ∃ r, registerBuiltin ({} : Registry Machine) = .ok r := ⟨_, rfl⟩
  have hplain : abbreviatedMachine.PlainWith abbreviatedMachine.value :=
    ⟨fun _ => .setBank ⟨rfl, rfl, rfl, rfl⟩ ⟨rfl, ⟨rfl, rfl, rfl, rfl⟩⟩, rfl⟩
  have hfrequencies : "base_freq" ∈ commonNames ++ abbreviated.peculiarNames := by decide
  refine ⟨by decide, r, hr, (presents_vendors hstart.wellFormed hplain hr (hstart.shows "cpu").takes
    (fun _ _ => Machine.PlainWith.yields) fun _ _ => Machine.PlainWith.yields).mono ?_⟩
  intro cpu hcpu t element hshows
  obtain rfl := List.mem_singleton.1 hcpu
  exact (hshows.fields "base_freq" (by decide)).2 hfrequencies

end Cpuid

end RegisterAtlas
