import RegisterAtlas.Cpuid.Identity

/-! # Descriptions of CPUs

The raw CPUID leaves of a CPU, its identity as the CPU reports it, and its feature flags. Some
leaves are described for certain vendors only. -/

namespace RegisterAtlas.Cpuid

/-- Vendors as the field `vendor` numbers them. -/
def vendorType : Datatype := .enum (.ofList [("Intel", 1), ("AMD", 2)] (some "other"))

def vendorCode (vendor : String) : Value :=
  if vendor = "Intel" then 1 else if vendor = "AMD" then 2 else 0

def hex (width : Nat) : Datatype := .hex width none

def int : Datatype := .int none

/-- A bitmask type whose bits are known to be in range. -/
def flags (names : List (String × Nat)) : Datatype :=
  .bitmask ⟨names.foldl (fun t p => t.insertNew p.1 p.2) ∅⟩

def leaf1Edx : Datatype := flags [
  ("fpu", 0), ("tsc", 4), ("msr", 5), ("apic", 9), ("mtrr", 12), ("cmov", 15), ("clflush", 19),
  ("mmx", 23), ("sse", 25), ("sse2", 26), ("htt", 28)]

def leaf1Ecx : Datatype := flags [
  ("sse3", 0), ("vmx", 5), ("ssse3", 9), ("sse4_1", 19), ("sse4_2", 20), ("x2apic", 21),
  ("popcnt", 23), ("aes", 25), ("avx", 28), ("rdrand", 30), ("hypervisor", 31)]

def leaf80000001Ecx : Datatype := flags [
  ("lahf_lm", 0), ("cmp_legacy", 1), ("svm", 2), ("abm", 5), ("sse4a", 6), ("topoext", 22)]

/-- Reads a part of the decoded signature. -/
def signaturePart (part : Signature → Nat) : Procedure :=
  .read "%signature" fun v => .done (BitVec.ofNat 128 (part (.decode (v.setWidth 32))))

variable {σ : Type}

def describeCommon (cpu : Nat) (vendor : String) : Describe σ Unit := do
  .bookmark "cpu"
  let _ ← .constant "cpu" int (BitVec.ofNat 128 cpu)
  let _ ← .constant "vendor" vendorType (vendorCode vendor)
  let leaf0 ← .register "%leaf0" (address 0 0) .w128
  let _ ← .bits "max_leaf" (hex 32) leaf0 31 0
  let leaf1 ← .register "%leaf1" (address 1 0) .w128
  let _ ← .bits "%signature" (hex 32) leaf1 31 0
  let _ ← .bits "stepping" int leaf1 3 0
  let _ ← .readOnly "family" (hex 8) (signaturePart Signature.family)
  let _ ← .readOnly "model" (hex 8) (signaturePart Signature.model)
  let _ ← .bits "apic_id" int leaf1 63 56
  let _ ← .bits "logical_count" int leaf1 55 48
  let _ ← .bits "features" leaf1Edx leaf1 127 96
  let _ ← .bits "features2" leaf1Ecx leaf1 95 64

/-- The frequencies, on CPUs that have the leaf for them. -/
def describeIntel [Bus σ] : Describe σ Unit := do
  let maxLeaf ← .read "max_leaf"
  if maxLeaf < 0x16 then return
  let leaf ← .register "%leaf16" (address 0x16 0) .w128
  let mhz ← .datatype "mhz" (.int (some "MHz"))
  let _ ← .bits "base_freq" mhz leaf 15 0
  let _ ← .bits "max_freq" mhz leaf 47 32
  let _ ← .bits "bus_freq" mhz leaf 79 64

def describeAmd : Describe σ Unit := do
  let leaf ← .register "%leaf80000001" (address 0x80000001 0) .w128
  let _ ← .bits "ext_features" leaf80000001Ecx leaf 95 64

/-- Describes a CPU as the next element of `cpu`, with what is peculiar to its vendor. -/
def describeCpu (vendorPart : Describe σ Unit) (found : Found Nat Identity) : Describe σ Unit := do
  let _ ← .openBound "cpu[]" found.space
  describeCommon found.address found.identity.vendor
  vendorPart
  .closeScope

variable [Bus σ]

/-- Adds the built-in descriptions. -/
def registerBuiltin (r : Registry σ) : Except Error (Registry σ) :=
  ((r.register { vendor := "Intel" } (describeCpu describeIntel)).register
    { vendor := "AMD" } (describeCpu describeAmd)).registerCatchAll (describeCpu (pure ()))

end RegisterAtlas.Cpuid
