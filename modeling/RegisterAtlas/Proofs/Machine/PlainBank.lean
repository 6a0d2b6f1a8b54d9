import RegisterAtlas.Machine
import RegisterAtlas.Register

/-!
# Plain banks

A bank is plain if it is nothing but memory: it can be written, no reads of it are scripted and no
address is faulty. Accesses to the registers of plain banks always succeed. `runOn_read` and
`runOn_write` say what they return and what the machine holds afterwards, so that later proofs need
not look into banks.
-/

namespace RegisterAtlas

/-! ## One bank -/

namespace Bank

structure IsPlain (b : Bank) : Prop where
  writable : b.readOnly = false
  unscripted : b.script = ∅
  sound_reads : b.faultyReads = []
  sound_writes : b.faultyWrites = []

theorem advance_eq_self {b : Bank} (hb : b.IsPlain) (address : Value) : b.advance address = b := by
  simp only [advance, hb.unscripted, Table.get?_empty]

theorem IsPlain.record {b : Bank} (hb : b.IsPlain) (e : Event) : (b.record e).IsPlain :=
  ⟨hb.writable, hb.unscripted, hb.sound_reads, hb.sound_writes⟩

/-- Reading a plain bank leaves nothing behind but an event. -/
theorem runOn_read {b : Bank} (hb : b.IsPlain) (address : Value) (width : Width) :
    (Bank.read address width).runOn b =
      (.ok (width.truncate (b.value address)), b.record (.read address width)) := by
  have hsound : address ∉ (b.record (.read address width)).faultyReads := by
    rw [(hb.record _).sound_reads]
    exact List.not_mem_nil
  simp only [Action.runOn, read, if_neg hsound, advance_eq_self (hb.record _), value_record]

/-- Writing a plain bank stores the bits that the width lets through. -/
theorem runOn_write {b : Bank} (hb : b.IsPlain) (address : Value) (width : Width) (v : Value) :
    ∃ b', (Bank.write address width v).runOn b = (.ok (), b') ∧ b'.name = b.name ∧ b'.IsPlain ∧
      ∀ a, b'.value a = if a = address then width.truncate v else b.value a := by
  have hp := hb.record (.write address width v)
  have hsound : address ∉ (b.record (.write address width v)).faultyWrites := by
    rw [hp.sound_writes]
    exact List.not_mem_nil
  refine ⟨{ (b.record (.write address width v)).set address (width.truncate v) with
      journal := (address, width, width.truncate v) :: b.journal }, ?_, rfl,
    ⟨hp.writable, hp.unscripted, hp.sound_reads, hp.sound_writes⟩, fun a => rfl⟩
  simp only [Action.runOn, write, if_neg hsound, hp.writable]
  rfl

end Bank

/-! ## The banks of a machine -/

/-- The bank that a space stands for, if it is one. -/
def Space.bank? : Space → Option String
  | .bank name _ => some name
  | _ => none

/-- The place of a register in the banks of a machine: the name of its bank and its address. -/
def Register.cell? (r : Register) : Option (String × Value) :=
  r.space.bank?.map fun name => (name, r.address)

theorem Register.eq_of_cell?_eq_some {r : Register} {c : String × Value} (h : r.cell? = some c) :
    ∃ label, r = ⟨.bank c.1 label, c.2, r.width⟩ := by
  obtain ⟨space, address, width⟩ := r
  cases space with
  | bank name label =>
      obtain rfl : (name, address) = c := Option.some.inj h
      exact ⟨label, rfl⟩
  | _ => cases h

namespace Machine

/-- What a bank holds at an address. -/
def value (m : Machine) (c : String × Value) : Value := (m.bank c.1).value c.2

/-- The bank of a name is plain, and it is kept under its own name. -/
structure PlainBank (m : Machine) (name : String) : Prop where
  name_eq : (m.bank name).name = name
  plain : (m.bank name).IsPlain

theorem bank_setBank (m : Machine) (b : Bank) (name : String) :
    (m.setBank b).bank name = if b.name = name then b else m.bank name := by
  simp only [setBank, bank, Table.get?_insert]
  split <;> rfl

theorem PlainBank.setBank {m : Machine} {b : Bank} (hb : b.IsPlain) {name : String}
    (hm : m.PlainBank name) : (m.setBank b).PlainBank name := by
  constructor
  · rw [bank_setBank]
    split
    · assumption
    · exact hm.name_eq
  · rw [bank_setBank]
    split
    · exact hb
    · exact hm.plain

theorem value_setBank (m : Machine) (b : Bank) (c : String × Value) :
    (m.setBank b).value c = if b.name = c.1 then b.value c.2 else m.value c := by
  simp only [value, bank_setBank]
  split <;> rfl

theorem runOn_onBank {ε α : Type} (name : String) (a : Action ε Bank α) (m : Machine) :
    (onBank name a).runOn m =
      ((a.runOn (m.bank name)).1, m.setBank (a.runOn (m.bank name)).2) := rfl

variable {m : Machine} {r : Register} {c : String × Value}

/-- Reading a register of a plain bank gives what its width shows of it, and changes no register. -/
theorem runOn_read (hr : r.cell? = some c) (hm : m.PlainBank c.1) :
    ∃ m', (r.read : Action Fault Machine Value).runOn m =
        (.ok (r.width.truncate (m.value c)), m') ∧
      m'.value = m.value ∧ ∀ name, m.PlainBank name → m'.PlainBank name := by
  obtain ⟨label, hr⟩ := Register.eq_of_cell?_eq_some hr
  refine ⟨m.setBank ((m.bank c.1).record (.read c.2 r.width)), ?_, ?_, ?_⟩
  · rw [hr]
    show (onBank c.1 (Bank.read c.2 r.width)).runOn m = _
    rw [runOn_onBank, Bank.runOn_read hm.plain]
    rfl
  · funext c'
    rw [value_setBank]
    split
    · next h =>
        have h : c.1 = c'.1 := hm.name_eq ▸ h
        simp only [Bank.value_record, value, h]
    · rfl
  · exact fun name => PlainBank.setBank (hm.plain.record _)

/-- Writing a register of a plain bank stores what its width lets through, and changes no other
register. -/
theorem runOn_write (hr : r.cell? = some c) (hm : m.PlainBank c.1) (v : Value) :
    ∃ m', (r.write v : Action Fault Machine Unit).runOn m = (.ok (), m') ∧
      (∀ c', m'.value c' = if c' = c then r.width.truncate v else m.value c') ∧
      ∀ name, m.PlainBank name → m'.PlainBank name := by
  obtain ⟨label, hr⟩ := Register.eq_of_cell?_eq_some hr
  obtain ⟨b, hrun, hname, hplain, hvalue⟩ := Bank.runOn_write hm.plain c.2 r.width v
  refine ⟨m.setBank b, ?_, fun c' => ?_, fun name => PlainBank.setBank hplain⟩
  · rw [hr]
    show (onBank c.1 (Bank.write c.2 r.width v)).runOn m = _
    rw [runOn_onBank, hrun]
  · have hb : b.name = c.1 := hname.trans hm.name_eq
    rw [value_setBank, hb, hvalue]
    by_cases h : c.1 = c'.1
    · simp [h, Prod.ext_iff, value]
    · simp [h, Ne.symm h, Prod.ext_iff]

end Machine

end RegisterAtlas
