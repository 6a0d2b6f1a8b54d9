import RegisterAtlas.Config
import RegisterAtlas.Description.Cpu
import RegisterAtlas.Description.Msr
import RegisterAtlas.Description.Pci
import RegisterAtlas.Machine

/-! # Descriptions of whole systems

The drivers for the device files that a configuration points to, and the tree of all that they
discover: `cpu` has the CPUs, `pci` the PCI functions, and `msr` the MSRs of each CPU. -/

namespace RegisterAtlas

/-! ## Drivers for device files -/

namespace Pci

/-- The driver for the functions with a node in the bus directory. -/
def fileDriver (c : Config) (registry : Registry Machine) : Driver Machine :=
  let root := c.systemPath "/proc/bus/pci"
  driver ((Machine.readingDisk (enumerate · root)).mapError .system)
    (fun a => .pci a (joinNames root a.node)) registry

end Pci

namespace Msr

/-- The driver for the MSRs of every CPU. -/
def fileDriver (c : Config) : Driver Machine where
  name := "msr"
  attach args := Action.ofExcept do
    checkArguments "msr" ["cpu"] args
    let cpu ← narrow "msr" "cpu" 32 (args.getD 0 0)
    pure (.msr cpu (node c.rootPrefix cpu))

end Msr

namespace Memory

/-- The window that two arguments stand for. -/
def windowOf (file : String) (args : List Value) : Except Error Window := do
  checkArguments "mem" ["base", "size"] args
  let base ← narrow "mem" "base" 64 (args.getD 0 0)
  let size ← narrow "mem" "size" 64 (args.getD 1 0)
  pure ⟨file, base.toUInt64, size.toUInt64⟩

/-- The driver for windows of the physical memory. -/
def fileDriver (c : Config) : Driver Machine where
  name := "mem"
  attach args := do
    let window ← Action.ofExcept (windowOf (c.systemPath "/dev/mem") args)
    let _ ← (Machine.readingDisk (openWindow window)).mapError .access
    pure (.memory window)

end Memory

namespace Port

/-- The number of I/O ports. -/
def portCount : Nat := 0x10000

/-- The window that two arguments stand for. Its end is added up with 64 bits. -/
def windowOf (file : String) (args : List Value) : Except Error Window := do
  checkArguments "port" ["base", "size"] args
  let base ← narrow "port" "base" 16 (args.getD 0 0)
  let size ← narrow "port" "size" 64 (args.getD 1 0)
  if wordCount 64 ≤ base + size then throw (.access .overflow)
  if portCount < base + size then throw (.arguments (.portWindow base size))
  pure ⟨file, base.toUInt64, size.toUInt64⟩

/-- The driver for windows of I/O ports. -/
def fileDriver (c : Config) : Driver Machine where
  name := "port"
  attach args := do
    let window ← Action.ofExcept (windowOf (c.systemPath "/dev/port") args)
    let _ ← (Machine.readingDisk (openWindow window)).mapError .access
    pure (.ports window)

end Port

/-- The drivers for the device files of a configuration, with all built-in descriptions. -/
def systemDrivers (c : Config) (d : Disk) : Except Error (Drivers Machine) := do
  let cpus ← c.cpuList d
  let cpuRegistry ← Cpuid.registerBuiltin {}
  let pciRegistry ← Pci.registerBuiltin {}
  pure (.ofList [Cpuid.driver cpus .cpuid cpuRegistry, Pci.fileDriver c pciRegistry,
    Msr.fileDriver c, Memory.fileDriver c, Port.fileDriver c])

/-! ## The tree of a system -/

namespace Tree

variable {σ : Type} [Bus σ]

/-- The vendor that `cpu` shows for the first of some scopes that are for a CPU. -/
def vendorAmong (t : Tree) (cpu : Nat) : List EntryId → Access σ (Option String)
  | [] => pure none
  | scope :: rest => do
      let v ← t.readPath root (t.pathOf scope ++ "/cpu")
      if v = BitVec.ofNat 128 cpu then
        match ← Access.ofExcept (t.resolveText root (t.pathOf scope ++ "/vendor")) with
        | some id => some <$> t.evaluate id
        | none => pure none
      else t.vendorAmong cpu rest

/-- The vendor of a CPU, if the CPU is described. -/
def vendorOf (t : Tree) (cpu : Nat) : Access σ (Option String) := do
  match ← Access.ofExcept (t.resolveText root "/cpu") with
  | none => pure none
  | some id =>
      match t.array? id with
      | some items => t.vendorAmong cpu items.ids
      | none => pure none

end Tree

/-- Describes the MSRs of a CPU. Only those of Intel CPUs count energy. -/
def describeMsrs (attach : List Value → Action Error Machine Space) (cpu : Nat) :
    Describe Machine Unit := do
  let vendor ← Describe.access fun d => d.tree.vendorOf cpu
  let space ← Describe.access fun _ => (attach [BitVec.ofNat 128 cpu]).mapError .error
  Msr.describe cpu space (vendor = some "Intel")

/-- Lets the driver of a name describe what it discovers. MSRs are not discovered. -/
def describeNamed (drivers : Drivers Machine) (name : String) : Describe Machine Unit :=
  if name = "msr" then pure ()
  else do
    let _ ← drivers.discover name

/-- Lets each configured driver describe what it discovers. MSRs come last, as the vendors of the
CPUs decide about them. -/
def describeDevices (c : Config) (drivers : Drivers Machine) : Describe Machine Unit := do
  c.drivers.forM (describeNamed drivers)
  if c.isEnabled "msr" then
    match drivers.get? "msr" with
    | none => .fail (.notFound (.driver "msr"))
    | some msr =>
        let cpus ← Describe.access fun _ => (Machine.readingDisk c.cpuList).mapError .error
        cpus.forM (describeMsrs msr.attach)

def describeSystem (c : Config) (drivers : Drivers Machine) : Access Machine Tree := do
  let (_, d) ← (describeDevices c drivers).run (.ofTree (Tree.empty.setPollLimit c.pollLimit))
  pure d.tree

end RegisterAtlas
