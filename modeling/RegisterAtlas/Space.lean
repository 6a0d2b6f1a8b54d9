import RegisterAtlas.Action
import RegisterAtlas.Fault
import RegisterAtlas.Pci.Address

/-! # Register spaces

A register space is what a scope of the tree is bound to: a simulated bank, the CPUID leaves of a
CPU, the configuration space of a PCI function, the MSRs of a CPU, or a window of memory or of I/O
ports. A bus is anything that answers accesses to register spaces. -/

namespace RegisterAtlas

/-- The bytes `base` to `base + size` of a device file. -/
structure Window where
  file : String
  base : UInt64
  size : UInt64
deriving DecidableEq, Repr

def Window.device (w : Window) : String :=
  w.file ++ "@0x" ++ Text.hex w.base.toNat ++ "+0x" ++ Text.hex w.size.toNat

inductive Space where
  | bank (name label : String)
  | cpuid (cpu : Nat)
  | pci (address : Pci.Address) (node : String)
  | msr (cpu : Nat) (node : String)
  | memory (window : Window)
  | ports (window : Window)
deriving DecidableEq, Repr

namespace Space

/-- The simulated bank of a given name. -/
def simulated (name : String) : Space := .bank name ("sim:" ++ name)

def describe : Space → String
  | bank _ label => label
  | cpuid cpu => "cpuid(cpu " ++ toString cpu ++ ")"
  | pci address _ => "pci(" ++ address.text ++ ")"
  | msr cpu _ => "msr(cpu " ++ toString cpu ++ ")"
  | memory window => "mem(" ++ window.device ++ ")"
  | ports window => "port(" ++ window.device ++ ")"

end Space

/-- States `σ` in which register spaces answer accesses. Nothing is assumed of the answers: a read
may give another value each time, and any access may fail. -/
class Bus (σ : Type) where
  read : Space → Value → Width → Action Fault σ Value
  write : Space → Value → Width → Value → Action Fault σ Unit

end RegisterAtlas
