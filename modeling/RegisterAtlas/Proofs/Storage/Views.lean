import RegisterAtlas.Machine
import RegisterAtlas.Proofs.Storage.Files
import RegisterAtlas.Proofs.Storage.Windows

/-!
# Register spaces of files

The register spaces that files stand for are views of the bytes of their files. Each of them accepts
certain accesses, and puts each of these at a place in the file (`Accepts`). All go the same way
(`exists_steps`): an access is checked, the file is opened, and a number is moved. So an access that
is not accepted fails without any effect, and one that lies within the file reads or writes the
little-endian number there.
-/

namespace RegisterAtlas

namespace Space

variable {d d' : Disk} {space : Space} {place place' : Location} {address : Value} {width : Width}
  {start start' : Nat}

/-! ## Accesses -/

/-- The spaces that files stand for. -/
inductive IsFile : Space → Prop where
  | pci (function : Pci.Address) (node : String) : IsFile (.pci function node)
  | msr (cpu : Nat) (node : String) : IsFile (.msr cpu node)
  | memory (w : Window) : IsFile (.memory w)
  | ports (w : Window) : IsFile (.ports w)

/-- The accesses that are accepted, and the place of each in the file. -/
inductive Accepts : Space → Value → Width → Nat → Prop where
  | pci {function : Pci.Address} {node : String} {address : Value} {width : Width}
      (hwidth : width ≠ .w128) (hend : address.toNat + width.bytes ≤ 4096) :
      Accepts (.pci function node) address width address.toNat
  | msr {cpu : Nat} {node : String} {address : Value} (hlt : address.toNat < 2 ^ 64) :
      Accepts (.msr cpu node) address .w64 address.toNat
  | memory {w : Window} {address : Value} {width : Width} (hwidth : width ≠ .w128)
      (hend : address.toNat + width.bytes ≤ w.size.toNat)
      (hlt : w.base.toNat + address.toNat < 2 ^ 64)
      (haligned : width.bytes ∣ w.base.toNat + address.toNat) :
      Accepts (.memory w) address width (w.base.toNat + address.toNat)
  | ports {w : Window} {address : Value} {width : Width} (hwidth : width ≠ .w64)
      (hwidth' : width ≠ .w128) (hend : address.toNat + width.bytes ≤ w.size.toNat)
      (hlt : w.base.toNat + address.toNat < 2 ^ 64) :
      Accepts (.ports w) address width (w.base.toNat + address.toNat)

theorem Accepts.isFile (h : space.Accepts address width start) : space.IsFile := by
  cases h with
  | pci => exact .pci ..
  | msr => exact .msr ..
  | memory => exact .memory ..
  | ports => exact .ports ..

theorem Accepts.unique (h : space.Accepts address width start)
    (h' : space.Accepts address width start') : start = start' := by
  cases h <;> cases h' <;> rfl

theorem accepts_pci_iff {function : Pci.Address} {node device : String} :
    (Space.pci function node).Accepts address width start ↔
      Pci.configOffset device address width = .ok start := by
  rw [Pci.configOffset_eq]
  constructor
  · intro h
    cases h with
    | pci hwidth hend => rw [if_neg hwidth, if_pos hend]
  · intro h
    split_ifs at h with hwidth hend
    cases h
    exact .pci hwidth hend

theorem accepts_msr_iff {cpu : Nat} {node device : String} :
    (Space.msr cpu node).Accepts address width start ↔
      Msr.number device address width = .ok start := by
  unfold Msr.number
  constructor
  · intro h
    cases h with
    | msr hlt =>
        rw [if_neg (not_not_intro rfl)]
        exact if_pos hlt
  · intro h
    split_ifs at h with hwidth hlt
    cases h
    cases not_not.1 hwidth
    exact .msr hlt

theorem accepts_memory_iff {w : Window} :
    (Space.memory w).Accepts address width start ↔
      Memory.position w address width = .ok start := by
  rw [Memory.position_eq]
  constructor
  · intro h
    cases h with
    | memory hwidth hend hlt haligned =>
        rw [if_neg hwidth, if_pos ⟨hend, hlt⟩, if_pos haligned]
  · intro h
    split_ifs at h with hwidth hin haligned
    cases h
    exact .memory hwidth hin.1 hin.2 haligned

theorem accepts_ports_iff {w : Window} :
    (Space.ports w).Accepts address width start ↔ Port.number w address width = .ok start := by
  rw [Port.number_eq]
  constructor
  · intro h
    cases h with
    | ports hwidth hwidth' hend hlt =>
        rw [if_neg (not_or.2 ⟨hwidth, hwidth'⟩), if_pos ⟨hend, hlt⟩]
  · intro h
    split_ifs at h with hwidth hin
    cases h
    exact .ports (not_or.1 hwidth).1 (not_or.1 hwidth).2 hin.1 hin.2

/-- The check that an access to the space of a file goes through, which puts it at a place in the
file or refuses it. -/
def check? (address : Value) (width : Width) : Space → Option (Except Fault Nat)
  | .pci function node =>
      some (Pci.configOffset (Space.pci function node).describe address width)
  | .msr cpu node => some (Msr.number (Space.msr cpu node).describe address width)
  | .memory w => some (Memory.position w address width)
  | .ports w => some (Port.number w address width)
  | .bank _ _ => none
  | .cpuid _ => none

theorem isFile_of_check? {checked : Except Fault Nat}
    (h : check? address width space = some checked) : space.IsFile := by
  cases space with
  | pci => exact .pci ..
  | msr => exact .msr ..
  | memory => exact .memory ..
  | ports => exact .ports ..
  | bank | cpuid => cases h

/-! ## Open files -/

/-- The file that a space has open. -/
def Opens (d : Disk) : Space → Location → Prop
  | .pci _ node, place => d.locate node = .ok place
  | .msr _ node, place => d.openFile node = .ok place
  | .memory w, place => Memory.openWindow w d = .ok place
  | .ports w, place => d.openFile w.file = .ok place
  | .bank _ _, _ => False
  | .cpuid _, _ => False

theorem Opens.unique (h : Opens d space place) (h' : Opens d space place') : place = place' := by
  cases space with
  | pci | msr | memory | ports => exact Except.ok.inj (h.symm.trans h')
  | bank | cpuid => exact h.elim

theorem opens_iff (h : d.SameNames d') : Opens d' space place ↔ Opens d space place := by
  cases space with
  | pci function node => rw [Opens, Opens, h.locate_eq]
  | msr cpu node => rw [Opens, Opens, h.openFile_eq]
  | memory w =>
      simp only [Opens, Memory.openWindow, Memory.mapWindow, h.openFile_eq, h.mapRefusal_eq]
  | ports w => rw [Opens, Opens, h.openFile_eq]
  | bank | cpuid => exact Iff.rfl

/-- A space is a view of a file. File sizes are signed 64-bit numbers. -/
structure Views (d : Disk) (space : Space) (place : Location) (image : Image) : Prop where
  opens : Opens d space place
  image_eq : d.image? place = some image
  size_lt : image.size < 2 ^ 63

/-- The buffers through which numbers pass; a number in memory is accessed in place. -/
inductive Buffers : Space → Nat → Prop where
  | pci {function : Pci.Address} {node : String} : Buffers (.pci function node) 8
  | msr {cpu : Nat} {node : String} : Buffers (.msr cpu node) 8
  | ports {w : Window} : Buffers (.ports w) 4

theorem Accepts.bytes_le {size : Nat} (h : space.Accepts address width start)
    (hbuffers : space.Buffers size) : width.bytes ≤ size := by
  cases hbuffers with
  | pci =>
      cases h with
      | pci hwidth hend => cases width <;> first | decide | contradiction
  | msr =>
      cases h with
      | msr hlt => decide
  | ports =>
      cases h with
      | ports hwidth hwidth' hend hlt => cases width <;> first | decide | contradiction

/-- The place of an access to memory lies in the mapping, which starts on a page. -/
theorem mapped_of_accepts {w : Window} (hopens : Opens d (.memory w) place)
    (h : (Space.memory w).Accepts address width start) :
    ∃ mapping, Memory.mapWindow w d = .ok (place, mapping) ∧
      Memory.mapping? Memory.pageSize w = some mapping ∧
      mapping.start.toNat + (mapping.skew.toNat + address.toNat) = start ∧
      mapping.skew.toNat + address.toNat + width.bytes ≤ mapping.length.toNat := by
  have hpage : Memory.pageSize.toNat = 2 ^ 12 := rfl
  obtain ⟨mapping, hmap⟩ := Memory.openWindow_eq_ok_iff.1 hopens
  have hmapping := (Memory.mapping?_of_mapWindow hmap).2
  obtain ⟨hstart, hend, -⟩ := Memory.mapped_of_position (by decide) (by decide) hpage hmapping
    (accepts_memory_iff.1 h)
  exact ⟨mapping, hmap, hmapping, hstart, hend⟩

end Space

namespace Machine

open Space

variable {m m' : Machine} {space : Space} {place : Location} {address : Value} {width : Width}
  {start : Nat} {image : Image} {v : Value}

/-! ## Single accesses -/

/-- What is left of a machine when its disk has been written to, or could not be. -/
def written (m : Machine) : Except Fault Disk → Except Fault Unit × Machine
  | .ok disk => (.ok (), { m with disk })
  | .error fault => (.error fault, m)

theorem runOn_writingDisk (m : Machine) (f : Disk → Except Fault Disk) :
    (writingDisk f).runOn m = m.written (f m.disk) := by
  rw [Action.runOn, writingDisk]
  cases f m.disk <;> rfl

/-- An access to a space of a file is checked, the file is opened, and a number is moved. -/
structure Steps (m : Machine) (space : Space) (address : Value) (width : Width)
    (checked : Except Fault Nat) (opened : Except Fault Location) : Prop where
  accepts_iff : ∀ start, space.Accepts address width start ↔ checked = .ok start
  opens_iff : ∀ place, Opens m.disk space place ↔ opened = .ok place
  runOn_read : ∃ fault : Nat → SystemError → Fault,
    (Bus.read space address width).runOn m =
      (do
        let start ← checked
        let place ← opened
        SystemError.orFault (m.disk.readNumber place start width) (fault start), m)
  runOn_write : ∀ v, ∃ fault : Nat → SystemError → Fault,
    (Bus.write space address width v).runOn m = m.written do
      let start ← checked
      let place ← opened
      SystemError.orFault (m.disk.writeNumber place start width v) (fault start)

theorem orFault_eq_ok_iff {α : Type} {r : Except SystemError α} {fault : SystemError → Fault}
    {x : α} : SystemError.orFault r fault = .ok x ↔ r = .ok x := by
  cases r <;> simp [SystemError.orFault]

/-- All accesses to spaces of files go these steps. -/
theorem exists_steps (hfile : space.IsFile) (m : Machine) (address : Value) (width : Width) :
    ∃ checked opened, check? address width space = some checked ∧
      m.Steps space address width checked opened := by
  cases hfile with
  | pci function node =>
      refine ⟨Pci.configOffset (Space.pci function node).describe address width,
        SystemError.orFault (m.disk.locate node) (.openFailed node), rfl,
        fun start => accepts_pci_iff, fun place => orFault_eq_ok_iff.symm, ?_, fun v => ?_⟩
      · exact ⟨fun _ => _, rfl⟩
      · exact ⟨fun _ => _, runOn_writingDisk m _⟩
  | msr cpu node =>
      refine ⟨Msr.number (Space.msr cpu node).describe address width, Msr.openNode node m.disk,
        rfl, fun start => accepts_msr_iff, fun place => orFault_eq_ok_iff.symm, ?_, fun v => ?_⟩
      · refine ⟨fun msr => .readFailed node (BitVec.ofNat 128 msr) .w64, ?_⟩
        show (Msr.read cpu node m.disk address width, m) = _
        by_cases hwidth : width = .w64
        · subst hwidth
          rfl
        · rw [Msr.read, Msr.number, if_pos hwidth]
          rfl
      · refine ⟨fun msr => .writeFailed node (BitVec.ofNat 128 msr) .w64, ?_⟩
        refine (runOn_writingDisk m (Msr.write cpu node · address width v)).trans ?_
        by_cases hwidth : width = .w64
        · subst hwidth
          rfl
        · rw [Msr.write, Msr.number, if_pos hwidth]
          rfl
  | memory w =>
      refine ⟨Memory.position w address width, Memory.openWindow w m.disk,
        rfl, fun start => accepts_memory_iff, fun place => Iff.rfl, ?_, fun v => ?_⟩
      · exact ⟨fun _ => _, congrArg (·, m) (Memory.read_eq w m.disk address width)⟩
      · have hwrite := Memory.write_eq w m.disk address width v
        exact ⟨fun _ => _, (runOn_writingDisk m (Memory.write w · address width v)).trans
          (congrArg m.written hwrite)⟩
  | ports w =>
      refine ⟨Port.number w address width, Port.openWindow w m.disk,
        rfl, fun start => accepts_ports_iff, fun place => orFault_eq_ok_iff.symm, ?_, fun v => ?_⟩
      · exact ⟨fun _ => _, rfl⟩
      · exact ⟨fun _ => _, runOn_writingDisk m _⟩

/-- An access that is not accepted fails without any effect. -/
theorem runOn_of_not_accepts (hfile : space.IsFile)
    (h : ∀ start, ¬ space.Accepts address width start) :
    (∃ fault, (Bus.read space address width).runOn m = (.error fault, m)) ∧
      ∀ v, ∃ fault, (Bus.write space address width v).runOn m = (.error fault, m) := by
  obtain ⟨checked, opened, -, hsteps⟩ := exists_steps hfile m address width
  cases checked with
  | ok start => exact (h start ((hsteps.accepts_iff start).2 rfl)).elim
  | error fault =>
      obtain ⟨_, hread⟩ := hsteps.runOn_read
      refine ⟨⟨fault, hread⟩, fun v => ?_⟩
      obtain ⟨_, hwrite⟩ := hsteps.runOn_write v
      exact ⟨fault, hwrite⟩

theorem runOn_read_of_accepts (hopens : Opens m.disk space place)
    (h : space.Accepts address width start)
    (hread : m.disk.readNumber place start width = .ok v) :
    (Bus.read space address width).runOn m = (.ok v, m) := by
  obtain ⟨checked, opened, -, hsteps⟩ := exists_steps h.isFile m address width
  obtain ⟨fault, hrun⟩ := hsteps.runOn_read
  rw [(hsteps.accepts_iff start).1 h, (hsteps.opens_iff place).1 hopens] at hrun
  refine hrun.trans ?_
  show (SystemError.orFault (m.disk.readNumber place start width) (fault start), m) = _
  rw [hread]
  rfl

theorem runOn_write_of_accepts {disk : Disk} (hopens : Opens m.disk space place)
    (h : space.Accepts address width start)
    (hwrite : m.disk.writeNumber place start width v = .ok disk) :
    (Bus.write space address width v).runOn m = (.ok (), { m with disk }) := by
  obtain ⟨checked, opened, -, hsteps⟩ := exists_steps h.isFile m address width
  obtain ⟨fault, hrun⟩ := hsteps.runOn_write v
  rw [(hsteps.accepts_iff start).1 h, (hsteps.opens_iff place).1 hopens] at hrun
  refine hrun.trans ?_
  show m.written (SystemError.orFault (m.disk.writeNumber place start width v) (fault start)) = _
  rw [hwrite]
  rfl

/-- A number has been written to the disk of a machine, and nothing else is different. -/
structure Stores (m m' : Machine) (place : Location) (start : Nat) (width : Width) (v : Value) :
    Prop where
  banks_eq : m'.banks = m.banks
  processors_eq : m'.processors = m.processors
  disk : m.disk.Stores m'.disk place start width v

/-- An access within a file reads the number that the bytes there hold. On its way it passes through
the buffer of the space. -/
theorem runOn_read_within (hviews : space.Views m.disk place image)
    (h : space.Accepts address width start) (hend : start + width.bytes ≤ image.size) :
    ∃ v, (Bus.read space address width).runOn m = (.ok v, m) ∧
      v.toNat = ∑ i ∈ Finset.range width.bytes, (image.byte (start + i)).toNat * 256 ^ i ∧
      ∀ size, space.Buffers size → m.disk.readBuffered size place start width = .ok v := by
  obtain ⟨v, hread, hv⟩ := Disk.readNumber_eq hviews.image_eq hviews.size_lt hend
  refine ⟨v, runOn_read_of_accepts hviews.opens h hread, hv, fun size _ => ?_⟩
  rw [Disk.readBuffered_eq, hread]

/-- An access within a file writes the bytes of the value there. On its way the value passes through
the buffer of the space. -/
theorem runOn_write_within (hviews : space.Views m.disk place image)
    (h : space.Accepts address width start) (hend : start + width.bytes ≤ image.size) (v : Value) :
    ∃ m', (Bus.write space address width v).runOn m = (.ok (), m') ∧
      m.Stores m' place start width v ∧
      ∀ size, space.Buffers size → m.disk.writeBuffered size place start width v = .ok m'.disk := by
  obtain ⟨disk, hwrite, hstores⟩ :=
    Disk.writeNumber_stores hviews.image_eq hviews.size_lt hend v
  refine ⟨{ m with disk }, runOn_write_of_accepts hviews.opens h hwrite, ⟨rfl, rfl, hstores⟩, ?_⟩
  intro size hbuffers
  rw [Disk.writeBuffered_eq (h.bytes_le hbuffers), hwrite]

end Machine

end RegisterAtlas
