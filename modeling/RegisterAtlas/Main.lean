import RegisterAtlas.CommandLine

/-! # The program

The device files that a command line can reach are taken into a disk, the command line is run on it
with notes of what it does, and the files that it changed are written back. -/

namespace RegisterAtlas

/-- Takes a regular file, or a directory with all that it holds, into a disk. -/
def takeIn : Nat → Disk → String → IO Disk
  | 0, d, _ => pure d
  | levels + 1, d, name => do
      let path := (← IO.currentDir) / name
      if ← path.isDir then
        let entries ← path.readDir
        entries.toList.foldlM (fun d e => takeIn levels d (joinNames name e.fileName))
          (d.addDirectory (d.place name))
      else if ← path.pathExists then
        match (← path.metadata).type with
        | .file => pure (d.addFile (d.place name) (.ofBytes (← IO.FS.readBinFile path).data))
        | _ => pure d
      else pure d

/-- The configuration that a run will have. -/
def configOf (rootPrefix : Option String) (args : CommandLine.Arguments) (d : Disk) : Config :=
  match (CommandLine.loadConfig rootPrefix args).runOn { disk := d } with
  | (.ok c, _) => c
  | (.error _, _) => .standard rootPrefix

/-- The files that a configuration makes reachable. -/
def reachable (c : Config) : List String :=
  ["/proc/bus/pci", "/dev/cpu", "/dev/mem", "/dev/port", "/sys/devices/system/cpu/online"].map
    c.systemPath

def takeInSystem (rootPrefix : Option String) (words : List String) : IO Disk := do
  let here := (← IO.currentDir).toString
  let d : Disk := { Disk.empty with workingDirectory := Disk.empty.place ("/" ++ here) }
  match CommandLine.Arguments.ofWords words with
  | none => pure d
  | some args =>
      let d ← args.configFile.toList.foldlM (takeIn 1) d
      (reachable (configOf rootPrefix args d)).foldlM (takeIn 3) d

/-- Writes a file back if it changed. -/
def writeBack (old new : Disk) (place : Location) : IO Unit :=
  match old.image? place, new.image? place with
  | some before, some after =>
      if before.bytes = after.bytes then pure ()
      else
        IO.FS.writeBinFile ("/" ++ String.intercalate "/" place) ⟨after.bytes.toArray⟩
  | _, _ => pure ()

end RegisterAtlas

open RegisterAtlas in
/-- Runs the command line of the program and ends with its exit code. -/
def main (words : List String) : IO UInt32 := do
  let rootPrefix ← IO.getEnv "REGTREE_ROOT"
  let disk ← takeInSystem rootPrefix words
  let (outcome, m) := CommandLine.run rootPrefix true words { disk }
  disk.contents.keys.forM (writeBack disk m.disk)
  IO.print outcome.printed
  IO.eprint outcome.complaint
  pure outcome.exit.toUInt32
