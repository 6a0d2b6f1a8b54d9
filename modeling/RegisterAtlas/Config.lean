import RegisterAtlas.Config.CpuList
import RegisterAtlas.Config.Toml
import RegisterAtlas.Error
import RegisterAtlas.Storage.Disk

/-! # Configurations

A configuration says where device files are, which CPUs to describe, with which drivers, and how
often to poll. It is read from a settings file; what is not set there keeps its default. -/

namespace RegisterAtlas

structure Config where
  rootPrefix : String := "/"
  /-- The CPUs to describe, as a list; without one, those that are online. -/
  cpus : Option String := none
  pollLimit : Nat := 1000
  drivers : List String := ["cpuid", "pci", "msr"]
deriving DecidableEq, Repr

namespace Config

/-- The configuration without a settings file, for a given directory of device files. -/
def standard (rootPrefix : Option String) : Config := { rootPrefix := rootPrefix.getD "/" }

/-- The texts of an array that holds nothing else. -/
def strings? : List Toml.Item → Option (List String)
  | [] => some []
  | .string s :: rest => (strings? rest).map (s :: ·)
  | _ => none

/-- Makes one setting. -/
def set? (c : Config) : String × Toml.Item → Option Config
  | ("root_prefix", .string s) => some { c with rootPrefix := s }
  | ("cpus", .string s) => some { c with cpus := some s }
  | ("poll_limit", .integer n) =>
      if 0 ≤ n ∧ n.toNat < wordCount 32 then some { c with pollLimit := n.toNat } else none
  | ("drivers", .array items) => (strings? items).map fun drivers => { c with drivers }
  | _ => none

/-- Makes the settings of a text over those that there are. -/
def ofToml (c : Config) (text : String) : Except Error Config :=
  match Toml.settings? text >>= fun settings => settings.foldlM set? c with
  | none => .error (.configuration .malformed)
  | some c => if c.pollLimit = 0 then .error (.configuration .zeroPollLimit) else .ok c

def load (c : Config) (d : Disk) (file : String) : Except Error Config :=
  match d.readText file with
  | .ok text => c.ofToml text
  | .error e => .error (.configuration (.unreadable file e))

/-- Where a system file is found. -/
def systemPath (c : Config) (path : String) : String :=
  joinNames c.rootPrefix (String.ofList (path.toList.dropWhile (· = '/')))

/-- The CPUs that the system reports as online, or else the first eight. -/
def onlineCpus (c : Config) (d : Disk) : List Nat :=
  match d.readText (c.systemPath "/sys/devices/system/cpu/online") with
  | .ok text => (CpuList.parse? text).getD (List.range 8)
  | .error _ => List.range 8

/-- The CPUs to describe. -/
def cpuList (c : Config) (d : Disk) : Except Error (List Nat) :=
  match c.cpus with
  | none => .ok (c.onlineCpus d)
  | some text =>
      match CpuList.parse? text with
      | some cpus => .ok cpus
      | none => .error (.configuration (.badCpuList text))

def isEnabled (c : Config) (driver : String) : Bool := driver ∈ c.drivers

end Config

end RegisterAtlas
