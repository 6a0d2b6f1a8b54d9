import RegisterAtlas.Proofs.Storage.Views

/-!
# Window checks

The accesses to configuration spaces, to windows of ports and to mapped windows of memory are
checked against exact bounds. An access that passes its check moves a number at its place in the
file, which for memory lies in the mapping; one that does not pass it has no effect.
-/

namespace RegisterAtlas

open Space

namespace Machine

variable {m : Machine} {space : Space} {address : Value} {width : Width}

/-- An access that does not pass its check has no effect. -/
theorem runOn_of_refused {fault : Fault} (h : check? address width space = some (.error fault))
    (m : Machine) :
    (Bus.read space address width).runOn m = (.error fault, m) ∧
      ∀ v, (Bus.write space address width v).runOn m = (.error fault, m) := by
  obtain ⟨checked, opened, hcheck, hsteps⟩ :=
    exists_steps (isFile_of_check? h) m address width
  obtain rfl : Except.error fault = checked := Option.some.inj (h.symm.trans hcheck)
  obtain ⟨_, hread⟩ := hsteps.runOn_read
  refine ⟨hread, fun v => ?_⟩
  obtain ⟨_, hwrite⟩ := hsteps.runOn_write v
  exact hwrite

/-- An access that passes its check moves a number at its place in the open file. -/
theorem runOn_of_passed {start : Nat} {place : Location}
    (h : check? address width space = some (.ok start)) (hopens : Opens m.disk space place) :
    (∃ fault, (Bus.read space address width).runOn m =
      (SystemError.orFault (m.disk.readNumber place start width) fault, m)) ∧
    ∀ v, ∃ fault, (Bus.write space address width v).runOn m =
      m.written (SystemError.orFault (m.disk.writeNumber place start width v) fault) := by
  obtain ⟨checked, opened, hcheck, hsteps⟩ :=
    exists_steps (isFile_of_check? h) m address width
  obtain rfl : Except.ok start = checked := Option.some.inj (h.symm.trans hcheck)
  obtain rfl : opened = .ok place := (hsteps.opens_iff place).1 hopens
  obtain ⟨fault, hread⟩ := hsteps.runOn_read
  refine ⟨⟨fault start, hread⟩, fun v => ?_⟩
  obtain ⟨fault, hwrite⟩ := hsteps.runOn_write v
  exact ⟨fault start, hwrite⟩

end Machine

/-- Configuration spaces, windows of ports and mapped windows of memory are checked as in exact
arithmetic, whatever the address. What is accepted of a mapped window lies in the mapping, and is
aligned in memory if the mapping starts on a page. -/
theorem windowChecks_exact :
    (∀ function node address width,
      (Space.pci function node).check? address width = some
        (if width = .w128 then .error (.unsupportedWidth (Space.pci function node).describe width)
        else if address.toNat + width.bytes ≤ 4096 then .ok address.toNat
        else .error (.outOfRange (Space.pci function node).describe address))) ∧
    (∀ (w : Window) address width, (Space.ports w).check? address width = some
      (if width = .w64 ∨ width = .w128 then .error (.unsupportedWidth w.device width)
      else if address.toNat + width.bytes ≤ w.size.toNat ∧
          w.base.toNat + address.toNat < 2 ^ 64 then
        .ok (w.base.toNat + address.toNat)
      else .error (.outOfRange w.device address))) ∧
    (∀ (w : Window) (d : Disk) place, Memory.openWindow w d = .ok place →
      w.size ≠ 0 ∧ ∃ mapping, Memory.mapping? Memory.pageSize w = some mapping) ∧
    (∀ k page, 3 ≤ k → k < 64 → page.toNat = 2 ^ k → ∀ w mapping,
      Memory.mapping? page w = some mapping →
        w.base.toNat + w.size.toNat < 2 ^ 64 ∧
        mapping.start.toNat + mapping.skew.toNat = w.base.toNat ∧
        mapping.length.toNat = w.size.toNat + mapping.skew.toNat ∧
        ∀ address width,
          (Space.memory w).check? address width = some
            (if width = .w128 then .error (.unsupportedWidth w.device width)
            else if address.toNat + width.bytes ≤ w.size.toNat then
              if width.bytes ∣ w.base.toNat + address.toNat then .ok (w.base.toNat + address.toNat)
              else .error (.trouble w.device (.unaligned width address.toNat))
            else .error (.outOfRange w.device address)) ∧
          ∀ place, (Space.memory w).check? address width = some (.ok place) →
            mapping.start.toNat + (mapping.skew.toNat + address.toNat) = place ∧
            mapping.skew.toNat + address.toNat + width.bytes ≤ mapping.length.toNat ∧
            ∀ origin, page.toNat ∣ origin →
              width.bytes ∣ origin + (mapping.skew.toNat + address.toNat)) ∧
    ∀ (m : Machine) space address width,
      (∀ fault, Space.check? address width space = some (.error fault) →
        (Bus.read space address width).runOn m = (.error fault, m) ∧
          ∀ v, (Bus.write space address width v).runOn m = (.error fault, m)) ∧
      ∀ start place, Space.check? address width space = some (.ok start) →
        Opens m.disk space place →
        (∃ fault, (Bus.read space address width).runOn m =
          (SystemError.orFault (m.disk.readNumber place start width) fault, m)) ∧
        ∀ v, ∃ fault, (Bus.write space address width v).runOn m =
          m.written (SystemError.orFault (m.disk.writeNumber place start width v) fault) := by
  refine ⟨fun function node address width => congrArg some (Pci.configOffset_eq ..),
    fun w address width => congrArg some (Port.number_eq ..),
    fun w d place => Memory.exists_mapping_of_openWindow, ?_,
    fun m space address width => ⟨fun fault h => Machine.runOn_of_refused h m,
      fun start place h hopens => Machine.runOn_of_passed h hopens⟩⟩
  intro k page hthree hk hpage w mapping hmapping
  obtain ⟨⟨-, hsum, hlength⟩, hlt, -⟩ := (Memory.mapping?_eq_some_iff hk hpage).1 hmapping
  refine ⟨hlt, hsum, hlength, fun address width => ⟨congrArg some ?_, fun place hplace => ?_⟩⟩
  · -- an access inside the window is below its end, which has 64 bits
    have hin : address.toNat + width.bytes ≤ w.size.toNat ∧ w.base.toNat + address.toNat < 2 ^ 64 ↔
        address.toNat + width.bytes ≤ w.size.toNat := by omega
    rw [Memory.position_eq]
    simp only [hin]
  · exact Memory.mapped_of_position hthree hk hpage hmapping (Option.some.inj hplace)

/-- A machine whose memory has three pages. -/
def threePages : Machine := { disk := Disk.empty.addFile ["dev", "mem"] (Image.zeros 0x3000) }

/-- A window within the second page. -/
def windowInside : Window := ⟨"/dev/mem", 0x1040, 0x20⟩

theorem windowChecks_exact_windowInside :
    Memory.openWindow windowInside threePages.disk = .ok ["dev", "mem"] ∧
      (∃ mapping, Memory.mapping? Memory.pageSize windowInside = some mapping ∧
        mapping = ⟨0x1000, 0x60, 0x40⟩ ∧ mapping.length.toNat = 0x20 + mapping.skew.toNat ∧
        (Space.memory windowInside).check? 0x18 .w64 = some (.ok 0x1058) ∧
        mapping.skew.toNat + 0x18 + 8 ≤ mapping.length.toNat ∧
        ∀ origin, 0x1000 ∣ origin → 8 ∣ origin + (mapping.skew.toNat + 0x18)) ∧
      (∃ fault, (Bus.read (.memory windowInside) 0x18 .w64).runOn threePages =
        (SystemError.orFault (threePages.disk.readNumber ["dev", "mem"] 0x1058 .w64) fault,
          threePages)) ∧
      (Bus.read (.memory windowInside) 0x1C .w64).runOn threePages =
        (.error (.outOfRange windowInside.device 0x1C), threePages) ∧
      (Bus.read (.memory windowInside) 2 .w32).runOn threePages =
        (.error (.trouble windowInside.device (.unaligned .w32 2)), threePages) ∧
      (Bus.read (.ports windowInside) (-1) .w8).runOn threePages =
        (.error (.outOfRange windowInside.device (-1)), threePages) := by
  obtain ⟨-, hports, hopened, hmapped, haccesses⟩ := windowChecks_exact
  have hopen : Memory.openWindow windowInside threePages.disk = .ok ["dev", "mem"] := by
    decide +kernel
  obtain ⟨-, mapping, hmapping⟩ := hopened windowInside threePages.disk _ hopen
  have hvalue : mapping = ⟨0x1000, 0x60, 0x40⟩ :=
    Option.some.inj (hmapping.symm.trans (by decide))
  obtain ⟨-, -, hlength, hmemory⟩ :=
    hmapped 12 Memory.pageSize (by decide) (by decide) (by decide) windowInside mapping hmapping
  have hinside : (Space.memory windowInside).check? 0x18 .w64 = some (.ok 0x1058) := by decide
  obtain ⟨-, hplace⟩ := hmemory 0x18 .w64
  obtain ⟨-, hend, haligned⟩ := hplace 0x1058 hinside
  refine ⟨hopen, ⟨mapping, hmapping, hvalue, hlength, hinside, hend, haligned⟩, ?_, ?_, ?_, ?_⟩
  · exact ((haccesses threePages (.memory windowInside) 0x18 .w64).2 _ _ hinside hopen).1
  · exact ((haccesses threePages (.memory windowInside) 0x1C .w64).1 _
      (hmemory 0x1C .w64).1).1
  · exact ((haccesses threePages (.memory windowInside) 2 .w32).1 _ (hmemory 2 .w32).1).1
  · exact ((haccesses threePages (.ports windowInside) (-1) .w8).1 _ (hports _ (-1) .w8)).1

end RegisterAtlas
