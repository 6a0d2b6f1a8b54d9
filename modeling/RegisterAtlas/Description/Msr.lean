import RegisterAtlas.Describe

/-! # Descriptions of MSRs

The architectural MSRs of one CPU: the time stamp counter, the APIC base, and for some vendors the
energy counters. -/

namespace RegisterAtlas.Msr

variable {σ : Type}

/-- One tick of an energy counter is a joule divided by two to the power of the energy unit. -/
def energyTick : Procedure :=
  .read "energy_units" fun unit => .done (1000000000#128 >>> unit.toNat)

/-- A counter register and the field that shows its count. -/
def describeCounter (ticks : Datatype) (name : String) (address : Value) : Describe σ Unit := do
  let r ← .register ("%" ++ name ++ "_status") address .w64
  let _ ← .bits name ticks r 31 0

def describeRapl : Describe σ Unit := do
  let _ ← .openScope "rapl"
  let unit ← .register "%power_unit" 0x606 .w64
  let _ ← .bits "power_units" (.int none) unit 3 0
  let _ ← .bits "energy_units" (.int none) unit 12 8
  let _ ← .bits "time_units" (.int none) unit 19 16
  let _ ← .readOnly "energy_tick" (.int (some "nJ")) energyTick
  let ticks ← .datatype "ticks" (.int none)
  describeCounter ticks "pkg_energy" 0x611
  describeCounter ticks "dram_energy" 0x619
  describeCounter ticks "pp0_energy" 0x639
  let _ ← .addAlias "energy" "pkg_energy"
  .closeScope

/-- Describes the MSRs of a CPU as the next element of `msr`. -/
def describe (cpu : Nat) (space : Space) (rapl : Bool) : Describe σ Unit := do
  let _ ← .openBound "msr[]" space
  .bookmark "msr"
  let _ ← .constant "cpu" (.int none) (BitVec.ofNat 128 cpu)
  let tsc ← .register "%tsc" 0x10 .w64
  let _ ← .field "tsc" (.direct (.int none) tsc.all)
  let apic ← .register "%apic_base" 0x1B .w64
  let _ ← .bit "bsp" (.boolean "yes" "no") apic 8
  let _ ← .bit "x2apic" (.boolean "enabled" "disabled") apic 10
  let _ ← .bit "apic_enable" (.boolean "enabled" "disabled") apic 11
  let _ ← .bits "apic_page" (.hex 40 none) apic 51 12
  if rapl then describeRapl
  .closeScope

end RegisterAtlas.Msr
