import RegisterAtlas.Discovery

/-! # Identities of PCI functions

The first register of a configuration space holds the ids of the vendor and of the device. Where
there is no function, all bits of the vendor id read as one. -/

namespace RegisterAtlas.Pci

structure Identity where
  vendor : BitVec 16
  device : BitVec 16
deriving DecidableEq, Repr

namespace Identity

/-- The vendor id of an empty slot. -/
def absent : BitVec 16 := 0xFFFF

def probe {σ : Type} [Bus σ] (space : Space) : Action Fault σ (Option Identity) := do
  let id ← Bus.read space 0 .w32
  let vendor := id.extractLsb' 0 16
  pure (if vendor = absent then none else some ⟨vendor, id.extractLsb' 16 16⟩)

end Identity

structure Criterion where
  vendor : BitVec 16
  device : BitVec 16
deriving DecidableEq, Repr

instance : Criteria Criterion Identity where
  accepts c i := c.vendor == i.vendor && c.device == i.device

abbrev Registry (σ : Type) := RegisterAtlas.Registry σ Address Identity Criterion

/-- The address that four arguments stand for. -/
def addressOf (args : List Value) : Except Error Address := do
  checkArguments "pci" ["segment", "bus", "device", "function"] args
  let segment ← narrow "pci" "segment" 16 (args.getD 0 0)
  let bus ← narrow "pci" "bus" 8 (args.getD 1 0)
  let device ← narrow "pci" "device" 8 (args.getD 2 0)
  let function ← narrow "pci" "function" 8 (args.getD 3 0)
  pure ⟨segment.toUInt16, bus.toUInt8, device.toUInt8, function.toUInt8⟩

/-- The driver for the functions that an enumeration finds. -/
def driver {σ : Type} [Bus σ] (enumerate : Action Error σ (List Address)) (space : Address → Space)
    (registry : Registry σ) : Driver σ where
  name := "pci"
  attach args := Action.ofExcept ((addressOf args).map space)
  discover := some do
    let addresses ← Describe.access fun _ => enumerate.mapError .error
    registry.describeAll Identity.probe (addresses.map fun a => (a, space a))

end RegisterAtlas.Pci
