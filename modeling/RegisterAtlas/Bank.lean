import RegisterAtlas.Space
import RegisterAtlas.Table

/-! # Simulated banks

A bank keeps one value per address and stands in for a device in tests and dry runs. Registers never
written read as zero. A bank may be scripted: reads of an address then find the listed values one
after the other, and accesses to faulty addresses fail. Every access is recorded as an event, and
every write that was carried out is entered in the journal. -/

namespace RegisterAtlas

inductive Event where
  | read (address : Value) (width : Width)
  | write (address : Value) (width : Width) (value : Value)
deriving DecidableEq, Repr

def Event.text : Event → String
  | read address width => "r 0x" ++ Text.hex address.toNat ++ " " ++ toString width.bits
  | write address width value =>
      "w 0x" ++ Text.hex address.toNat ++ " " ++ toString width.bits ++ " 0x" ++
        Text.hex value.toNat

structure Bank where
  name : String
  readOnly : Bool := false
  registers : Value → Value := fun _ => 0
  script : Table Value (List Value) := ∅
  faultyReads : List Value := []
  faultyWrites : List Value := []
  /-- The events that were not taken yet, latest first. -/
  events : List Event := []
  /-- The writes that were carried out, latest first. -/
  journal : List (Value × Width × Value) := []

namespace Bank

/-- The space that a bank stands for. -/
def space (b : Bank) : Space := .simulated b.name

def value (b : Bank) (address : Value) : Value := b.registers address

/-- Stores a whole value, without an event. -/
def set (b : Bank) (address value : Value) : Bank :=
  { b with registers := fun a => if a = address then value else b.registers a }

def record (b : Bank) (e : Event) : Bank := { b with events := e :: b.events }

/-- Lets the next scripted value of an address arrive in its register. -/
def advance (b : Bank) (address : Value) : Bank :=
  match b.script.get? address with
  | some (next :: rest) =>
      { b.set address next with script := b.script.insert address rest }
  | _ => b

def fault (b : Bank) (cause : Trouble) : Fault := .trouble b.space.describe cause

def read (address : Value) (width : Width) : Action Fault Bank Value := fun b =>
  let b := b.record (.read address width)
  if address ∈ b.faultyReads then (.error (b.fault .readFault), b)
  else
    let b := b.advance address
    (.ok (width.truncate (b.value address)), b)

def write (address : Value) (width : Width) (value : Value) : Action Fault Bank Unit := fun b =>
  let b := b.record (.write address width value)
  if address ∈ b.faultyWrites then (.error (b.fault .writeFault), b)
  else if b.readOnly then (.error (.readOnly b.name), b)
  else
    let stored := width.truncate value
    (.ok (), { b.set address stored with journal := (address, width, stored) :: b.journal })

/-- The events since the last time in their order, and the bank without them. -/
def takeEvents (b : Bank) : List Event × Bank := (b.events.reverse, { b with events := [] })

/-- The writes that were carried out, in their order. -/
def writes (b : Bank) : List (Value × Width × Value) := b.journal.reverse

@[simp] theorem value_set (b : Bank) (address value a : Value) :
    (b.set address value).value a = if a = address then value else b.value a := rfl

@[simp] theorem value_record (b : Bank) (e : Event) (a : Value) :
    (b.record e).value a = b.value a := rfl

end Bank

end RegisterAtlas
