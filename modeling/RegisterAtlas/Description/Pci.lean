import RegisterAtlas.Pci.Identity

/-! # Descriptions of PCI functions

Every function has the common configuration header. The channels of some memory controllers have
performance counters as well. -/

namespace RegisterAtlas.Pci

variable {σ : Type}

def hex (width : Nat) : Datatype := .hex width none

def yesNo : Datatype := .boolean "yes" "no"

def layouts : Datatype := .enum (.ofList [("normal", 0), ("bridge", 1), ("cardbus", 2)] none)

def interruptPins : Datatype :=
  .enum (.ofList [("none", 0), ("INTA", 1), ("INTB", 2), ("INTC", 3), ("INTD", 4)] none)

/-- One base address register, an element of `bar`. -/
def describeBar (offset : Value) : Describe σ Unit := do
  let space ← Describe.inspect (·.space)
  let _ ← .field "bar[]" (.direct (hex 32) (Register.all ⟨space, offset, .w32⟩))

/-- What only a normal header holds. -/
def describeNormalHeader : Describe σ Unit := do
  [0x10, 0x14, 0x18, 0x1C, 0x20, 0x24].forM describeBar
  let subsystem ← .register "%subsystem" 0x2C .w32
  let _ ← .bits "subsystem_vendor" (hex 16) subsystem 15 0
  let _ ← .bits "subsystem_id" (hex 16) subsystem 31 16

def describeHeader [Bus σ] : Describe σ Unit := do
  let id ← .register "%id" 0x00 .w32
  let _ ← .bits "vendor_id" (hex 16) id 15 0
  let _ ← .bits "device_id" (hex 16) id 31 16
  let enabled ← .datatype "enabled" (.boolean "enabled" "disabled")
  let command ← .register "%command" 0x04 .w16
  let _ ← .bit "io" enabled command 0
  let _ ← .bit "memory" enabled command 1
  let _ ← .bit "bus_master" enabled command 2
  let _ ← .bit "serr" enabled command 8
  let _ ← .bit "intx_disable" yesNo command 10
  let status ← .register "%status" 0x06 .w16
  let _ ← .bit "capabilities" yesNo status 4
  let class_ ← .register "%class" 0x08 .w32
  let _ ← .bits "revision" (hex 8) class_ 7 0
  let _ ← .bits "class_code" (hex 24) class_ 31 8
  let header ← .register "%header_type" 0x0E .w8
  let _ ← .bits "layout" layouts header 6 0
  let _ ← .bit "multifunction" yesNo header 7
  let layout ← .read "layout"
  if layout = 0 then describeNormalHeader
  let irq ← .register "%interrupt" 0x3C .w16
  let _ ← .bits "interrupt_line" (.int none) irq 7 0
  let _ ← .bits "interrupt_pin" interruptPins irq 15 8

/-- One performance counter and its control register. -/
def describeCounter (n : Nat) : Describe σ Unit := do
  let _ ← .openScope "counter[]"
  let control ← .register "%ctl" (BitVec.ofNat 128 (0xD8 + 4 * n)) .w32
  let _ ← .bits "event" (hex 8) control 7 0
  let _ ← .bits "umask" (hex 8) control 15 8
  let _ ← .bit "enable" yesNo control 22
  let counter ← .register "%ctr" (BitVec.ofNat 128 (0xA0 + 8 * n)) .w64
  let _ ← .bits "count" (.int none) counter 47 0
  .closeScope

/-- The performance counters of a memory controller channel. -/
def describeController : Describe σ Unit := do
  let _ ← .openScope "pmu"
  let box ← .register "%box_ctl" 0xF4 .w32
  let _ ← .bit "freeze" yesNo box 8
  let _ ← .bit "reset" yesNo box 16
  [0, 1, 2, 3].forM describeCounter
  let _ ← .addAlias "frozen" "freeze"
  .closeScope

variable [Bus σ]

/-- Describes a function as the next element of `pci`, with what is peculiar to its device. -/
def describeFunction (devicePart : Describe σ Unit) (found : Found Address Identity) :
    Describe σ Unit := do
  let _ ← .openBound "pci[]" found.space
  .bookmark "pci"
  let _ ← .constant "segment" (hex 16) (BitVec.ofNat 128 found.address.segment.toNat)
  let _ ← .constant "bus" (hex 8) (BitVec.ofNat 128 found.address.bus.toNat)
  let _ ← .constant "device" (hex 8) (BitVec.ofNat 128 found.address.device.toNat)
  let _ ← .constant "function" (.int none) (BitVec.ofNat 128 found.address.function.toNat)
  describeHeader
  devicePart
  .closeScope

/-- The memory controller channels that are described beyond their header. -/
def controllers : List Criterion := [⟨0x8086, 0x2042⟩, ⟨0x8086, 0x2046⟩, ⟨0x8086, 0x204A⟩]

/-- Adds the built-in descriptions. -/
def registerBuiltin (r : Registry σ) : Except Error (Registry σ) :=
  (controllers.foldl
    (fun r criterion => r.register criterion (describeFunction describeController))
    r).registerCatchAll (describeFunction (pure ()))

end RegisterAtlas.Pci
