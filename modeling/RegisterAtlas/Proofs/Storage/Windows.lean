import RegisterAtlas.Storage.DeviceFile
import Mathlib.Algebra.Group.Nat.Defs
import Mathlib.Tactic.SplitIfs

/-!
# Windows in exact arithmetic

Devices check accesses, and the windows that they are opened for, with words of 64 bits. The checks
come out as they would in exact arithmetic, for all addresses of 128 bits: no sum wraps around. What
is accepted of a mapped window lies in the mapping, and is aligned there as it is in the file.
-/

namespace RegisterAtlas

theorem addWords?_eq_none_iff {a b : UInt64} :
    addWords? a b = none ↔ 2 ^ 64 ≤ a.toNat + b.toNat := by
  have ha := a.toNat_lt
  have hb := b.toNat_lt
  simp only [addWords?, UInt64.lt_iff_toNat_lt, UInt64.toNat_add]
  split
  · simp only [true_iff]
    omega
  · simp only [reduceCtorEq, false_iff]
    omega

theorem Width.toNat_bytes (width : Width) : width.bytes.toUInt64.toNat = width.bytes := by
  cases width <;> rfl

/-! ## Windows -/

theorem offsetWithin?_eq_some_iff {size offset : UInt64} {address : Value} {width : Width} :
    offsetWithin? size address width = some offset ↔
      address.toNat = offset.toNat ∧ address.toNat + width.bytes ≤ size.toNat := by
  have hsize := size.toNat_lt
  simp only [offsetWithin?, Option.bind_eq_bind, Option.bind_eq_some_iff, Value.word?_eq_some_iff,
    addWords?_eq_some_iff, Width.toNat_bytes, UInt64.le_iff_toNat_le, Option.ite_none_right_eq_some,
    Option.some.injEq]
  constructor
  · rintro ⟨o, ho, stop, hstop, hle, rfl⟩
    exact ⟨ho, by omega⟩
  · rintro ⟨ho, hle⟩
    have hlt : address.toNat + width.bytes < UInt64.size := Nat.lt_of_le_of_lt hle hsize
    refine ⟨offset, ho, .ofNatLT _ hlt, ?_, hle, rfl⟩
    rw [UInt64.toNat_ofNatLT, ho]

theorem offsetWithin?_eq_none_iff {size : UInt64} {address : Value} {width : Width} :
    offsetWithin? size address width = none ↔ size.toNat < address.toNat + width.bytes := by
  have hsize := size.toNat_lt
  rw [Option.eq_none_iff_forall_ne_some, ← Nat.not_le]
  constructor
  · intro h hle
    have hlt : address.toNat < UInt64.size := by simp only [UInt64.size]; omega
    exact h (.ofNatLT _ hlt) (offsetWithin?_eq_some_iff.2 ⟨UInt64.toNat_ofNatLT.symm, hle⟩)
  · exact fun h offset hoffset => h (offsetWithin?_eq_some_iff.1 hoffset).2

theorem Window.place?_eq_some_iff {w : Window} {address : Value} {width : Width} {place : UInt64} :
    w.place? address width = some place ↔
      address.toNat + width.bytes ≤ w.size.toNat ∧ w.base.toNat + address.toNat = place.toNat := by
  simp only [place?, Option.bind_eq_bind, Option.bind_eq_some_iff, addWords?_eq_some_iff]
  constructor
  · rintro ⟨offset, hoffset, hplace⟩
    obtain ⟨ho, hle⟩ := offsetWithin?_eq_some_iff.1 hoffset
    exact ⟨hle, by omega⟩
  · rintro ⟨hle, hplace⟩
    cases hoffset : offsetWithin? w.size address width with
    | none => exact absurd hle (Nat.not_le.2 (offsetWithin?_eq_none_iff.1 hoffset))
    | some offset => exact ⟨offset, rfl, (offsetWithin?_eq_some_iff.1 hoffset).1 ▸ hplace⟩

theorem Window.place?_eq_none_iff {w : Window} {address : Value} {width : Width} :
    w.place? address width = none ↔
      ¬ (address.toNat + width.bytes ≤ w.size.toNat ∧ w.base.toNat + address.toNat < 2 ^ 64) := by
  rw [Option.eq_none_iff_forall_ne_some]
  constructor
  · rintro h ⟨hle, hlt⟩
    exact h (.ofNatLT _ hlt) (place?_eq_some_iff.2 ⟨hle, UInt64.toNat_ofNatLT.symm⟩)
  · intro h place hplace
    obtain ⟨hle, heq⟩ := place?_eq_some_iff.1 hplace
    exact h ⟨hle, heq ▸ place.toNat_lt⟩

/-! ## Checks in exact arithmetic -/

theorem Pci.configOffset_eq (device : String) (address : Value) (width : Width) :
    configOffset device address width =
      if width = .w128 then .error (.unsupportedWidth device width)
      else if address.toNat + width.bytes ≤ 4096 then .ok address.toNat
      else .error (.outOfRange device address) := by
  rw [configOffset]
  cases hoffset : offsetWithin? configSpaceSize address width with
  | some offset =>
      obtain ⟨ho, hle⟩ := offsetWithin?_eq_some_iff.1 hoffset
      have hle : address.toNat + width.bytes ≤ 4096 := hle
      simp only [← ho, if_pos hle]
  | none =>
      have hlt : 4096 < address.toNat + width.bytes := offsetWithin?_eq_none_iff.1 hoffset
      simp only [if_neg (Nat.not_le.2 hlt)]

theorem Port.number_eq (w : Window) (address : Value) (width : Width) :
    number w address width =
      if width = .w64 ∨ width = .w128 then .error (.unsupportedWidth w.device width)
      else if address.toNat + width.bytes ≤ w.size.toNat ∧
          w.base.toNat + address.toNat < 2 ^ 64 then
        .ok (w.base.toNat + address.toNat)
      else .error (.outOfRange w.device address) := by
  rw [number]
  cases hport : w.place? address width with
  | some port =>
      obtain ⟨hle, heq⟩ := Window.place?_eq_some_iff.1 hport
      have hlt : w.base.toNat + address.toNat < 2 ^ 64 := heq ▸ port.toNat_lt
      simp only [← heq, if_pos (And.intro hle hlt)]
  | none => simp only [if_neg (Window.place?_eq_none_iff.1 hport)]

namespace Memory

theorem offset_eq (w : Window) (address : Value) (width : Width) :
    offset w address width =
      if width = .w128 then .error (.unsupportedWidth w.device width)
      else if address.toNat + width.bytes ≤ w.size.toNat ∧
          w.base.toNat + address.toNat < 2 ^ 64 then
        if width.bytes ∣ w.base.toNat + address.toNat then .ok (.ofNat address.toNat)
        else .error (.trouble w.device (.unaligned width address.toNat))
      else .error (.outOfRange w.device address) := by
  rw [offset]
  cases hoffset : offsetWithin? w.size address width with
  | none =>
      have hlt := offsetWithin?_eq_none_iff.1 hoffset
      simp only [if_neg fun h => absurd (And.left h) (Nat.not_le.2 hlt)]
  | some o =>
      obtain ⟨ho, hle⟩ := offsetWithin?_eq_some_iff.1 hoffset
      have ho' : UInt64.ofNat address.toNat = o := by rw [ho, UInt64.ofNat_toNat]
      cases hplace : addWords? w.base o with
      | none =>
          have hge : 2 ^ 64 ≤ w.base.toNat + address.toNat := ho ▸ addWords?_eq_none_iff.1 hplace
          simp only [hplace, if_neg fun h => absurd (And.right h) (Nat.not_lt.2 hge)]
      | some place =>
          have heq := addWords?_eq_some_iff.1 hplace
          have hlt : w.base.toNat + address.toNat < 2 ^ 64 := by rw [ho, heq]; exact place.toNat_lt
          have haligned : place % width.bytes.toUInt64 = 0 ↔
              width.bytes ∣ w.base.toNat + address.toNat := by
            rw [← UInt64.toNat_inj, UInt64.toNat_mod, Width.toNat_bytes, ho, heq,
              Nat.dvd_iff_mod_eq_zero]
            rfl
          simp only [hplace, haligned, if_pos (And.intro hle hlt), ho', ← ho]

/-- The place of an access in the file of its window. -/
def position (w : Window) (address : Value) (width : Width) : Except Fault Nat :=
  (offset w address width).map fun offset => w.base.toNat + offset.toNat

theorem position_eq (w : Window) (address : Value) (width : Width) :
    position w address width =
      if width = .w128 then .error (.unsupportedWidth w.device width)
      else if address.toNat + width.bytes ≤ w.size.toNat ∧
          w.base.toNat + address.toNat < 2 ^ 64 then
        if width.bytes ∣ w.base.toNat + address.toNat then .ok (w.base.toNat + address.toNat)
        else .error (.trouble w.device (.unaligned width address.toNat))
      else .error (.outOfRange w.device address) := by
  rw [position, offset_eq]
  split_ifs with hwidth hin haligned
  · rfl
  · have hlt : address.toNat < 2 ^ 64 := by omega
    rw [Except.map, UInt64.toNat_ofNat_of_lt' hlt]
  · rfl
  · rfl

end Memory

/-! ## Mappings -/

namespace Memory

variable {page : UInt64} {w : Window} {mapping : Mapping} {k : Nat}

/-- Clearing the bits below a page goes back to where the page starts. -/
theorem toNat_pageStart (hk : k < 64) (hpage : page.toNat = 2 ^ k) (a : UInt64) :
    (a &&& ~~~(page - 1)).toNat = page.toNat * (a.toNat / page.toNat) := by
  have hone : (page - 1).toNat = 2 ^ k - 1 := by
    have hle : (1 : UInt64).toNat ≤ page.toNat := hpage ▸ Nat.one_le_two_pow
    rw [UInt64.toNat_sub_of_le _ _ (UInt64.le_iff_toNat_le.2 hle), hpage]
    rfl
  have hlt : 2 ^ k - 1 < 2 ^ 64 :=
    Nat.lt_of_le_of_lt (Nat.sub_le ..) (Nat.pow_lt_pow_right (by decide) hk)
  have hnot : (~~~(page - 1)).toNat = 2 ^ 64 - (2 ^ k - 1 + 1) := by
    have hsize : UInt64.size = 2 ^ 64 := rfl
    rw [UInt64.toNat_not, hone, hsize, Nat.sub_sub, Nat.add_comm]
  refine Nat.eq_of_testBit_eq fun i => ?_
  rw [UInt64.toNat_and, hnot, Nat.testBit_and, Nat.testBit_two_pow_sub_succ hlt,
    Nat.testBit_two_pow_sub_one, hpage, Nat.testBit_two_pow_mul, Nat.testBit_div_two_pow]
  rcases Nat.lt_or_ge i k with hi | hi
  · simp [hi, Nat.not_le.2 hi]
  · have hge : ¬ i < k := Nat.not_lt.2 hi
    have hbit : a.toNat.testBit i = true → i < 64 := by
      intro hbit
      have hpow : 2 ^ i < 2 ^ 64 :=
        Nat.lt_of_le_of_lt (Nat.ge_two_pow_of_testBit hbit) a.toNat_lt
      exact (Nat.pow_lt_pow_iff_right (by decide)).1 hpow
    rw [Nat.sub_add_cancel hi]
    cases htest : a.toNat.testBit i with
    | true => simp [hi, hge, hbit htest]
    | false => simp

/-- A mapping goes from the start of a page, in front of the window, to the end of the window. -/
theorem mapping?_eq_some_iff (hk : k < 64) (hpage : page.toNat = 2 ^ k) :
    mapping? page w = some mapping ↔
      (mapping.start.toNat = page.toNat * (w.base.toNat / page.toNat) ∧
        mapping.start.toNat + mapping.skew.toNat = w.base.toNat ∧
        mapping.length.toNat = w.size.toNat + mapping.skew.toNat) ∧
      w.base.toNat + w.size.toNat < 2 ^ 64 ∧ mapping.start.toNat < 2 ^ 63 := by
  have hstart := toNat_pageStart hk hpage w.base
  have hle : (w.base &&& ~~~(page - 1)).toNat ≤ w.base.toNat := hstart ▸ Nat.mul_div_le ..
  have hskew := UInt64.toNat_sub_of_le _ _ (UInt64.le_iff_toNat_le.2 hle)
  simp only [mapping?, Option.bind_eq_bind, Option.bind_eq_some_iff, addWords?_eq_some_iff,
    Option.ite_none_right_eq_some, Option.some.injEq]
  constructor
  · rintro ⟨stop, hstop, length, hlength, hlt, rfl⟩
    refine ⟨⟨hstart, ?_, hlength.symm⟩, hstop ▸ stop.toNat_lt, hlt⟩
    rw [hskew, Nat.add_sub_cancel' hle]
  · rintro ⟨⟨hstart', hsum, hlength⟩, hlt, hsigned⟩
    have heq : w.base &&& ~~~(page - 1) = mapping.start :=
      UInt64.toNat_inj.1 (hstart.trans hstart'.symm)
    have heq' : w.base - mapping.start = mapping.skew := by
      rw [← UInt64.toNat_inj, ← heq, hskew, heq]
      omega
    rw [heq, heq']
    exact ⟨.ofNatLT _ hlt, UInt64.toNat_ofNatLT.symm, mapping.length, hlength.symm, hsigned, rfl⟩

/-- What is accepted of a window that is mapped lies in the mapping, behind the part in front of the
window, and is aligned in memory if the mapping is. -/
theorem mapped_of_position {address : Value} {width : Width} {place : Nat} (hthree : 3 ≤ k)
    (hk : k < 64) (hpage : page.toNat = 2 ^ k) (hmapping : mapping? page w = some mapping)
    (h : position w address width = .ok place) :
    mapping.start.toNat + (mapping.skew.toNat + address.toNat) = place ∧
      mapping.skew.toNat + address.toNat + width.bytes ≤ mapping.length.toNat ∧
      ∀ origin, page.toNat ∣ origin →
        width.bytes ∣ origin + (mapping.skew.toNat + address.toNat) := by
  obtain ⟨⟨hstart, hsum, hlength⟩, -, -⟩ := (mapping?_eq_some_iff hk hpage).1 hmapping
  rw [position_eq] at h
  split_ifs at h with hwidth hin haligned
  cases h
  have hpage' : width.bytes ∣ page.toNat := by
    have height : width.bytes ∣ 2 ^ 3 := by cases width <;> first | decide | contradiction
    exact hpage ▸ Nat.dvd_trans height (Nat.pow_dvd_pow 2 hthree)
  refine ⟨by omega, by omega, fun origin horigin => ?_⟩
  have hbase : width.bytes ∣ mapping.start.toNat :=
    hstart ▸ Nat.dvd_trans hpage' (Nat.dvd_mul_right ..)
  have hplace : mapping.start.toNat + (mapping.skew.toNat + address.toNat) =
      w.base.toNat + address.toNat := by omega
  have hinside : width.bytes ∣ mapping.skew.toNat + address.toNat :=
    (Nat.dvd_add_right hbase).1 (hplace ▸ haligned)
  exact Nat.dvd_add (Nat.dvd_trans hpage' horigin) hinside

/-! ## Accesses through mappings -/

variable {d : Disk} {place : Location}

theorem mapping?_of_mapWindow (h : mapWindow w d = .ok (place, mapping)) :
    w.size ≠ 0 ∧ mapping? pageSize w = some mapping := by
  rw [mapWindow] at h
  split at h
  · cases h
  next hsize =>
  cases hmapping : mapping? pageSize w with
  | none => rw [hmapping] at h; cases h
  | some mapping' =>
      rw [hmapping] at h
      cases hfile : SystemError.orFault (d.openFile w.file) (.openFailed w.device) with
      | error fault => simp only [hfile] at h; cases h
      | ok place' =>
          simp only [hfile, bind, Except.bind] at h
          split at h <;> cases h
          exact ⟨hsize, rfl⟩

theorem openWindow_eq_ok_iff :
    openWindow w d = .ok place ↔ ∃ mapping, mapWindow w d = .ok (place, mapping) := by
  rw [openWindow]
  cases mapWindow w d with
  | error fault => simp [Except.map]
  | ok found => simp [Except.map, Prod.ext_iff, eq_comm]

theorem exists_mapping_of_openWindow (h : openWindow w d = .ok place) :
    w.size ≠ 0 ∧ ∃ mapping, mapping? pageSize w = some mapping := by
  obtain ⟨mapping, hmap⟩ := openWindow_eq_ok_iff.1 h
  obtain ⟨hsize, hmapping⟩ := mapping?_of_mapWindow hmap
  exact ⟨hsize, mapping, hmapping⟩

/-- The mapping of a window shows the bytes of the window. -/
theorem Mapping.place_eq {address : Value} {width : Width} {o : UInt64}
    (hmapping : mapping? pageSize w = some mapping) (ho : offset w address width = .ok o) :
    mapping.place o = .ok (w.base.toNat + o.toNat) := by
  have hpage : pageSize.toNat = 2 ^ 12 := rfl
  obtain ⟨⟨-, hsum, hlength⟩, -, -⟩ := (mapping?_eq_some_iff (by decide) hpage).1 hmapping
  have hlt := mapping.length.toNat_lt
  rw [offset_eq] at ho
  split_ifs at ho with hwidth hin haligned
  cases ho
  have haddress : (UInt64.ofNat address.toNat).toNat = address.toNat :=
    UInt64.toNat_ofNat_of_lt' (by simp only [UInt64.size]; omega)
  have hinside : mapping.skew.toNat + (UInt64.ofNat address.toNat).toNat < 2 ^ 64 := by omega
  have hplace : addWords? mapping.skew (.ofNat address.toNat) = some (.ofNatLT _ hinside) :=
    addWords?_eq_some_iff.2 UInt64.toNat_ofNatLT.symm
  rw [place, hplace]
  refine congrArg Except.ok ?_
  rw [UInt64.toNat_ofNatLT]
  omega

/-- So an access goes to the place in the file that its address has in the window. -/
theorem bind_place {α : Type} (address : Value) (width : Width)
    (f : Location → Nat → Except Fault α) :
    (do
      let offset ← offset w address width
      let (place, mapping) ← mapWindow w d
      let start ← mapping.place offset
      f place start) = (do
      let start ← position w address width
      let place ← openWindow w d
      f place start) := by
  rw [position, openWindow]
  cases ho : offset w address width with
  | error fault => rfl
  | ok o =>
      cases hmap : mapWindow w d with
      | error fault => rfl
      | ok found =>
          obtain ⟨place, mapping⟩ := found
          have hplace := Mapping.place_eq (mapping?_of_mapWindow hmap).2 ho
          simp only [bind, Except.bind, Except.map, hplace]

theorem read_eq (w : Window) (d : Disk) (address : Value) (width : Width) :
    read w d address width = (do
      let start ← position w address width
      let place ← openWindow w d
      SystemError.orFault (d.readNumber place start width) (.readFailed w.device address width)) :=
  bind_place address width fun place start =>
    SystemError.orFault (d.readNumber place start width) (.readFailed w.device address width)

theorem write_eq (w : Window) (d : Disk) (address : Value) (width : Width) (v : Value) :
    write w d address width v = (do
      let start ← position w address width
      let place ← openWindow w d
      SystemError.orFault (d.writeNumber place start width v)
        (.writeFailed w.device address width)) :=
  bind_place address width fun place start =>
    SystemError.orFault (d.writeNumber place start width v) (.writeFailed w.device address width)

end Memory

end RegisterAtlas
