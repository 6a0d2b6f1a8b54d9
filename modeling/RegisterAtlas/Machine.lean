import RegisterAtlas.Bank
import RegisterAtlas.Storage.DeviceFile

/-! # Machines

A machine is the world that a description is written about: simulated banks, a disk with device
files, and processors. It answers the accesses to every kind of register space. -/

namespace RegisterAtlas

structure Machine where
  banks : Table String Bank := ∅
  disk : Disk := .empty
  /-- What the CPUID instruction answers on each CPU that there is. -/
  processors : Nat → Option (Value → Value) := fun _ => none

namespace Machine

/-- The bank of a name; one that was not set up is blank. -/
def bank (m : Machine) (name : String) : Bank := (m.banks.get? name).getD { name }

def setBank (m : Machine) (b : Bank) : Machine := { m with banks := m.banks.insert b.name b }

/-- Lets a bank act. -/
def onBank {ε α : Type} (name : String) (a : Action ε Bank α) : Action ε Machine α := fun m =>
  let (r, b) := a (m.bank name)
  (r, m.setBank b)

/-- Reads from the disk, which stays as it is. -/
def readingDisk {ε α : Type} (f : Disk → Except ε α) : Action ε Machine α := fun m => (f m.disk, m)

/-- Writes to the disk; a failed write leaves it as it is. -/
def writingDisk {ε : Type} (f : Disk → Except ε Disk) : Action ε Machine Unit := fun m =>
  match f m.disk with
  | .ok disk => (.ok (), { m with disk })
  | .error e => (.error e, m)

/-- CPUs from this number on cannot be pinned. -/
def pinnableCpus : Nat := 1024

/-- Executes CPUID on a CPU. A leaf is read whole; its address holds the leaf number and, above
that, the number of the subleaf. -/
def readCpuid (cpu : Nat) (address : Value) (width : Width) : Action Fault Machine Value := fun m =>
  let device := (Space.cpuid cpu).describe
  let answer : Except Fault Value :=
    if width ≠ .w128 then .error (.unsupportedWidth device width)
    else if wordCount 64 ≤ address.toNat then .error (.outOfRange device address)
    else if pinnableCpus ≤ cpu then .error (.trouble device (.unpinnableCpu cpu))
    else match m.processors cpu with
      | some leaf => .ok (leaf address)
      | none => .error (.trouble device .absentCpu)
  (answer, m)

instance : Bus Machine where
  read
    | .bank name _, address, width => onBank name (Bank.read address width)
    | .cpuid cpu, address, width => readCpuid cpu address width
    | .pci function node, address, width =>
        readingDisk (Pci.readConfig function node · address width)
    | .msr cpu node, address, width => readingDisk (Msr.read cpu node · address width)
    | .memory window, address, width => readingDisk (Memory.read window · address width)
    | .ports window, address, width => readingDisk (Port.read window · address width)
  write
    | .bank name _, address, width, v => onBank name (Bank.write address width v)
    | .cpuid cpu, _, _, _ => throw (.readOnly (Space.cpuid cpu).describe)
    | .pci function node, address, width, v =>
        writingDisk (Pci.writeConfig function node · address width v)
    | .msr cpu node, address, width, v => writingDisk (Msr.write cpu node · address width v)
    | .memory window, address, width, v => writingDisk (Memory.write window · address width v)
    | .ports window, address, width, v => writingDisk (Port.write window · address width v)

end Machine

end RegisterAtlas
