import RegisterAtlas.Pci.Address
import RegisterAtlas.Proofs.Text.Hexadecimal

/-!
# Names of PCI functions

The two names in the node of a function are read back as its address, and the node is cut into these
names at its slash. So functions are told apart by their nodes. The numbers of a name can be spelled
in other ways too, so a name that is read need not be the one of what is read from it. It is if it
has the form of such names, with a fixed number of digits in small letters (`names_eq_iff`).
-/

namespace RegisterAtlas.Pci.Address

variable {a b : Address}

/-- A bus has 32 devices of 8 functions. -/
structure IsValid (a : Address) : Prop where
  device_lt : a.device < 32
  function_lt : a.function < 8

/-- The function with a file of this name in a bus directory of that name. -/
def ofNames? (bus function : String) : Option Address := do
  let (segment, bus) ← parseBusName? bus.toList
  let (device, function) ← parseFunctionName? function.toList
  pure { segment, bus, device, function }

theorem ofNames?_eq_some_iff {bus function : String} :
    ofNames? bus function = some a ↔
      parseBusName? bus.toList = some (a.segment, a.bus) ∧
        parseFunctionName? function.toList = some (a.device, a.function) := by
  obtain ⟨s, u, d, f⟩ := a
  cases hbus : parseBusName? bus.toList <;>
    cases hfunction : parseFunctionName? function.toList <;>
    simp [ofNames?, hbus, hfunction, Prod.ext_iff, and_assoc]

/-! ## Reading names -/

theorem toUInt8_of_read {radix n : Nat} {cs : List Char} {byte : UInt8}
    (h : Text.readUnsigned radix (wordCount 8) cs = some n) :
    n.toUInt8 = byte ↔ n = byte.toNat := by
  have hn : n.toUInt8.toNat = n := UInt8.toNat_ofNat_of_lt (Text.readUnsigned_lt h)
  rw [← UInt8.toNat_inj, hn]

theorem toUInt16_of_read {radix n : Nat} {cs : List Char} {word : UInt16}
    (h : Text.readUnsigned radix (wordCount 16) cs = some n) :
    n.toUInt16 = word ↔ n = word.toNat := by
  have hn : n.toUInt16.toNat = n := UInt16.toNat_ofNat_of_lt (Text.readUnsigned_lt h)
  rw [← UInt16.toNat_inj, hn]

theorem parseBusName?_of_notMem {name : List Char} (h : ':' ∉ name) {segment : UInt16}
    {bus : UInt8} :
    parseBusName? name = some (segment, bus) ↔
      segment = 0 ∧ Text.readUnsigned 16 (wordCount 8) name = some bus.toNat := by
  rw [parseBusName?, Text.splitOnce_eq_none h]
  cases hbus : Text.readUnsigned 16 (wordCount 8) name with
  | none => simp
  | some n => simp [toUInt8_of_read hbus, @eq_comm _ segment]

theorem parseBusName?_append {front back : List Char} (h : ':' ∉ front) {segment : UInt16}
    {bus : UInt8} :
    parseBusName? (front ++ ':' :: back) = some (segment, bus) ↔
      Text.readUnsigned 16 (wordCount 16) front = some segment.toNat ∧
        Text.readUnsigned 16 (wordCount 8) back = some bus.toNat := by
  rw [parseBusName?, Text.splitOnce_eq_some_iff.2 ⟨rfl, h⟩]
  cases hsegment : Text.readUnsigned 16 (wordCount 16) front with
  | none => simp [hsegment]
  | some m =>
      cases hbus : Text.readUnsigned 16 (wordCount 8) back with
      | none => simp [hsegment, hbus]
      | some n => simp [hsegment, hbus, toUInt16_of_read hsegment, toUInt8_of_read hbus]

theorem parseFunctionName?_append {front back : List Char} (h : '.' ∉ front)
    {device function : UInt8} :
    parseFunctionName? (front ++ '.' :: back) = some (device, function) ↔
      Text.readUnsigned 16 (wordCount 8) front = some device.toNat ∧
        Text.readUnsigned 10 (wordCount 8) back = some function.toNat ∧
        device < 32 ∧ function < 8 := by
  rw [parseFunctionName?, Text.splitOnce_eq_some_iff.2 ⟨rfl, h⟩]
  cases hdevice : Text.readUnsigned 16 (wordCount 8) front with
  | none => simp [hdevice]
  | some m =>
      cases hfunction : Text.readUnsigned 10 (wordCount 8) back with
      | none => simp [hdevice, hfunction]
      | some n =>
          have hread : (m < 32 ∧ n < 8) ∧ m = device.toNat ∧ n = function.toNat ↔
              m = device.toNat ∧ n = function.toNat ∧ device.toNat < 32 ∧ function.toNat < 8 := by
            omega
          simpa [hdevice, hfunction, Option.ite_none_right_eq_some, toUInt8_of_read hdevice,
            toUInt8_of_read hfunction, UInt8.lt_iff_toNat_lt] using hread

/-- Only functions that a bus can have are read. -/
theorem isValid_of_ofNames? {bus function : String} (h : ofNames? bus function = some a) :
    a.IsValid := by
  have hread := (ofNames?_eq_some_iff.1 h).2
  cases hsplit : Text.splitOnce '.' function.toList with
  | none =>
      rw [parseFunctionName?, hsplit] at hread
      cases hread
  | some parts =>
      obtain ⟨front, back⟩ := parts
      obtain ⟨heq, hpoint⟩ := Text.splitOnce_eq_some_iff.1 hsplit
      rw [heq] at hread
      obtain ⟨-, -, hdevice, hfunction⟩ := (parseFunctionName?_append hpoint).1 hread
      exact ⟨hdevice, hfunction⟩

/-! ## Names of functions -/

theorem toList_busName_zero (h : a.segment = 0) :
    a.busName.toList = (Text.hexPadded 2 a.bus.toNat).toList := by
  rw [busName, if_pos h, String.empty_append]

theorem toList_busName (h : a.segment ≠ 0) :
    a.busName.toList = (Text.hexPadded 4 a.segment.toNat).toList ++
      ':' :: (Text.hexPadded 2 a.bus.toNat).toList := by
  rw [busName, if_neg h]
  simp

theorem toList_functionName (a : Address) :
    a.functionName.toList = (Text.hexPadded 2 a.device.toNat).toList ++
      '.' :: Nat.toDigits 10 a.function.toNat := by
  rw [functionName]
  simp

theorem parseBusName?_busName (a : Address) :
    parseBusName? a.busName.toList = some (a.segment, a.bus) := by
  have hbus := Text.readUnsigned_hexPadded a.bus.toNat_lt 2
  by_cases h : a.segment = 0
  · rw [toList_busName_zero h, parseBusName?_of_notMem (Text.notMem_hexPadded (by decide) 2 _)]
    exact ⟨h, hbus⟩
  · rw [toList_busName h, parseBusName?_append (Text.notMem_hexPadded (by decide) 4 _)]
    exact ⟨Text.readUnsigned_hexPadded a.segment.toNat_lt 4, hbus⟩

theorem parseFunctionName?_functionName (h : a.IsValid) :
    parseFunctionName? a.functionName.toList = some (a.device, a.function) := by
  rw [toList_functionName, parseFunctionName?_append (Text.notMem_hexPadded (by decide) 2 _)]
  exact ⟨Text.readUnsigned_hexPadded a.device.toNat_lt 2,
    Text.readUnsigned_toDigits a.function.toNat_lt, h.device_lt, h.function_lt⟩

theorem ofNames?_names (h : a.IsValid) : ofNames? a.busName a.functionName = some a :=
  ofNames?_eq_some_iff.2 ⟨parseBusName?_busName a, parseFunctionName?_functionName h⟩

/-! ## Nodes -/

theorem notMem_busName {c : Char} (hc : Text.alphanumericValue? c = none) (hsep : c ≠ ':')
    (a : Address) : c ∉ a.busName.toList := by
  have hnumeral := Text.notMem_hexPadded hc
  by_cases h : a.segment = 0
  · rw [toList_busName_zero h]
    exact hnumeral 2 _
  · simp [toList_busName h, hnumeral, hsep]

theorem notMem_functionName {c : Char} (hc : Text.alphanumericValue? c = none) (hsep : c ≠ '.')
    (a : Address) : c ∉ a.functionName.toList := by
  have hdigits : c ∉ Nat.toDigits 10 a.function.toNat :=
    Text.notMem_of_readDigits hc (Text.readDigits_toDigits 10 (by decide) (by decide) _)
  simp [toList_functionName, Text.notMem_hexPadded hc, hsep, hdigits]

theorem toList_node (a : Address) :
    a.node.toList = a.busName.toList ++ '/' :: a.functionName.toList := by
  rw [node]
  simp

/-- The slash of a node stands between its two names, and there is no other. -/
theorem splitOn_node (a : Address) :
    a.node.toList.splitOn '/' = [a.busName.toList, a.functionName.toList] := by
  have hbus : '/' ∉ a.busName.toList := notMem_busName (by decide) (by decide) a
  have hfunction : '/' ∉ a.functionName.toList := notMem_functionName (by decide) (by decide) a
  rw [toList_node, List.splitOn_append_cons_self, List.splitOn_eq_singleton hbus,
    List.splitOn_eq_singleton hfunction]
  rfl

/-- Functions are told apart by their nodes. -/
theorem node_inj (ha : a.IsValid) (hb : b.IsValid) : a.node = b.node ↔ a = b := by
  refine ⟨fun h => ?_, congrArg node⟩
  have hsplit := splitOn_node a
  rw [h, splitOn_node b] at hsplit
  obtain ⟨hbus, hfunction⟩ : b.busName.toList = a.busName.toList ∧
    b.functionName.toList = a.functionName.toList := by simpa using hsplit
  have hread := ofNames?_names hb
  rw [String.toList_inj.1 hbus, String.toList_inj.1 hfunction, ofNames?_names ha] at hread
  exact Option.some.inj hread

/-! ## The form of names -/

/-- Two digits for the bus stand behind four for the segment, which is left out if it is 0. Letters
are small ones. -/
inductive BusForm : List Char → Prop where
  | bus {bus : List Char} (h : Text.HexText 2 bus) : BusForm bus
  | segment {segment bus : List Char} (h : Text.HexText 4 segment) (hbus : Text.HexText 2 bus)
      (hne : segment ≠ ['0', '0', '0', '0']) : BusForm (segment ++ ':' :: bus)

/-- Two digits for the device, a point, and the digit of the function. -/
inductive FunctionForm : List Char → Prop where
  | function {device : List Char} {n : Nat} (h : Text.HexText 2 device) (hn : n < 8) :
      FunctionForm (device ++ ['.', Nat.digitChar n])

theorem busForm_busName (a : Address) : BusForm a.busName.toList := by
  have hbus : Text.HexText 2 (Text.hexPadded 2 a.bus.toNat).toList :=
    Text.hexText_hexPadded (by decide) a.bus.toNat_lt
  by_cases h : a.segment = 0
  · rw [toList_busName_zero h]
    exact .bus hbus
  · rw [toList_busName h]
    refine .segment (Text.hexText_hexPadded (by decide) a.segment.toNat_lt) hbus fun hzero => h ?_
    have hread : Text.readUnsigned 16 (wordCount 16) (Text.hexPadded 4 a.segment.toNat).toList =
        some a.segment.toNat := Text.readUnsigned_hexPadded a.segment.toNat_lt 4
    rw [hzero] at hread
    exact UInt16.toNat_inj.1 (Option.some.inj hread).symm

theorem functionForm_functionName (h : a.IsValid) : FunctionForm a.functionName.toList := by
  have hfunction : a.function.toNat < 8 := h.function_lt
  rw [toList_functionName, Nat.toDigits_of_lt_base (Nat.lt_trans hfunction (by decide))]
  exact .function (Text.hexText_hexPadded (by decide) a.device.toNat_lt) hfunction

/-- Among the names of this form, only one is read as a given segment and bus. -/
theorem BusForm.eq_busName {name : String} (h : BusForm name.toList)
    (hread : parseBusName? name.toList = some (a.segment, a.bus)) : name = a.busName := by
  rw [← String.toList_inj]
  generalize name.toList = cs at h hread
  cases h with
  | bus h =>
      obtain ⟨hzero, hbus⟩ := (parseBusName?_of_notMem (h.notMem (by decide))).1 hread
      rw [toList_busName_zero hzero]
      exact h.eq_hexPadded (by decide) hbus a.bus.toNat_lt
  | segment h hbus hne =>
      obtain ⟨hsegment, hread⟩ := (parseBusName?_append (h.notMem (by decide))).1 hread
      have hprinted := h.eq_hexPadded (by decide) hsegment a.segment.toNat_lt
      have hzero : a.segment ≠ 0 := by
        intro hzero
        rw [hzero] at hprinted
        exact hne hprinted
      rw [toList_busName hzero, hprinted, hbus.eq_hexPadded (by decide) hread a.bus.toNat_lt]

theorem FunctionForm.eq_functionName {name : String} (h : FunctionForm name.toList)
    (hread : parseFunctionName? name.toList = some (a.device, a.function)) :
    name = a.functionName := by
  rw [← String.toList_inj]
  generalize name.toList = cs at h hread
  cases h with
  | @function device n h hn =>
      obtain ⟨hdevice, hfunction, -, -⟩ :=
        (parseFunctionName?_append (h.notMem (by decide))).1 hread
      have hdigits : Nat.toDigits 10 n = [Nat.digitChar n] :=
        Nat.toDigits_of_lt_base (Nat.lt_trans hn (by decide))
      have hprinted : Text.readUnsigned 10 (wordCount 8) (Nat.toDigits 10 n) = some n :=
        Text.readUnsigned_toDigits (Nat.lt_trans hn (by decide))
      rw [hdigits, hfunction] at hprinted
      rw [toList_functionName, Option.some.inj hprinted, hdigits,
        h.eq_hexPadded (by decide) hdevice a.device.toNat_lt]

/-- Names that are read as a function are those of its node exactly if they have the form. -/
theorem names_eq_iff {bus function : String} (h : ofNames? bus function = some a) :
    (bus, function) = (a.busName, a.functionName) ↔
      BusForm bus.toList ∧ FunctionForm function.toList := by
  obtain ⟨hbus, hfunction⟩ := ofNames?_eq_some_iff.1 h
  constructor
  · intro heq
    obtain ⟨rfl, rfl⟩ := Prod.ext_iff.1 heq
    exact ⟨busForm_busName a, functionForm_functionName (isValid_of_ofNames? h)⟩
  · rintro ⟨hform, hform'⟩
    rw [hform.eq_busName hbus, hform'.eq_functionName hfunction]

/-! ## Sizes -/

theorem length_busName_le (a : Address) : a.busName.length ≤ 7 := by
  have hsegment : (Text.hexPadded 4 a.segment.toNat).length = 4 :=
    Text.length_hexPadded (by decide) a.segment.toNat_lt
  have hbus : (Text.hexPadded 2 a.bus.toNat).length = 2 :=
    Text.length_hexPadded (by decide) a.bus.toNat_lt
  rw [← String.length_toList]
  by_cases h : a.segment = 0
  · rw [toList_busName_zero h, String.length_toList]
    omega
  · rw [toList_busName h, List.length_append, List.length_cons, String.length_toList,
      String.length_toList]
    omega

theorem length_functionName_le (a : Address) : a.functionName.length ≤ 6 := by
  have hdevice : (Text.hexPadded 2 a.device.toNat).length = 2 :=
    Text.length_hexPadded (by decide) a.device.toNat_lt
  have hfunction : (Nat.toDigits 10 a.function.toNat).length ≤ 3 :=
    (Nat.length_toDigits_le_iff (by decide) (by decide)).2
      (Nat.lt_trans a.function.toNat_lt (by decide))
  rw [← String.length_toList, toList_functionName, List.length_append, List.length_cons,
    String.length_toList]
  omega

end RegisterAtlas.Pci.Address
