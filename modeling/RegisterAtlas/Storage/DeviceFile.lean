import RegisterAtlas.Space
import RegisterAtlas.Storage.Disk

/-! # Device files

The register spaces that files stand for: PCI configuration spaces, MSRs, and windows of memory and
of I/O ports. Each first checks an access against its own bounds and then moves little-endian
numbers in or out of its file. -/

namespace RegisterAtlas

/-- The fault that a refusal of the system amounts to. -/
def SystemError.orFault {α : Type} (r : Except SystemError α) (fault : SystemError → Fault) :
    Except Fault α :=
  match r with
  | .ok x => .ok x
  | .error e => .error (fault e)

namespace Disk

def readNumber (d : Disk) (place : Location) (offset : Nat) (width : Width) :
    Except SystemError Value := do
  let bytes ← d.readBytes place offset width.bytes
  pure (BitVec.ofNat 128 (ofLittleEndian bytes))

def writeNumber (d : Disk) (place : Location) (offset : Nat) (width : Width) (v : Value) :
    Except SystemError Disk :=
  d.writeBytes place offset (littleEndian width.bytes v.toNat)

end Disk

/-- The offset of an access into a window of `size` bytes, if all its bytes lie in there. -/
def offsetWithin? (size : UInt64) (address : Value) (width : Width) : Option UInt64 := do
  let offset ← address.word?
  let stop ← addWords? offset width.bytes.toUInt64
  if stop ≤ size then some offset else none

/-- The place of an access to a window in the file of the window. -/
def Window.place? (w : Window) (address : Value) (width : Width) : Option UInt64 := do
  let offset ← offsetWithin? w.size address width
  addWords? w.base offset

namespace Pci

def configSpaceSize : UInt64 := 4096

/-- The place of an access in the configuration space. -/
def configOffset (device : String) (address : Value) (width : Width) : Except Fault Nat :=
  if width = .w128 then .error (.unsupportedWidth device width)
  else match offsetWithin? configSpaceSize address width with
    | some offset => .ok offset.toNat
    | none => .error (.outOfRange device address)

def readConfig (function : Address) (node : String) (d : Disk) (address : Value) (width : Width) :
    Except Fault Value := do
  let device := (Space.pci function node).describe
  let offset ← configOffset device address width
  let place ← SystemError.orFault (d.locate node) (.openFailed node)
  SystemError.orFault (d.readNumber place offset width) (.readFailed device address width)

def writeConfig (function : Address) (node : String) (d : Disk) (address : Value) (width : Width)
    (v : Value) : Except Fault Disk := do
  let device := (Space.pci function node).describe
  let offset ← configOffset device address width
  let place ← SystemError.orFault (d.locate node) (.openFailed node)
  SystemError.orFault (d.writeNumber place offset width v) (.writeFailed device address width)

/-- The functions found at a name in the bus directory; they are in a directory named after the bus.
-/
def enumerateBus (d : Disk) (name : String) (place : Location) :
    Except SystemError (List Address) :=
  match Address.parseBusName? name.toList with
  | some (segment, bus) =>
      if d.isDirectory place then do
        let names ← d.list place
        pure (names.filterMap fun (name, _) =>
          (Address.parseFunctionName? name.toList).map fun (device, function) =>
            { segment, bus, device, function })
      else pure []
  | none => pure []

/-- The functions found in a directory with one directory for each bus. -/
def enumerate (d : Disk) (root : String) : Except SystemError (List Address) := do
  let place ← d.locate root
  let buses ← d.list place
  let functions ← buses.mapM fun (name, busPlace) => enumerateBus d name busPlace
  pure (Address.sort functions.flatten)

end Pci

namespace Msr

/-- The device node of the MSRs of a CPU. -/
def node (root : String) (cpu : Nat) : String :=
  joinNames root ("dev/cpu/" ++ toString cpu ++ "/msr")

def openNode (node : String) (d : Disk) : Except Fault Location :=
  SystemError.orFault (d.openFile node) (.openFailed node)

/-- Reads an MSR through an open node. -/
def readAt (node : String) (place : Location) (d : Disk) (msr : Nat) : Except Fault Value :=
  SystemError.orFault (d.readNumber place msr .w64) (.readFailed node (BitVec.ofNat 128 msr) .w64)

def writeAt (node : String) (place : Location) (d : Disk) (msr : Nat) (v : Value) :
    Except Fault Disk :=
  SystemError.orFault (d.writeNumber place msr .w64 v)
    (.writeFailed node (BitVec.ofNat 128 msr) .w64)

/-- The number of the MSR at an address. MSRs are accessed with 64 bits only. -/
def number (device : String) (address : Value) (width : Width) : Except Fault Nat :=
  if width ≠ .w64 then .error (.unsupportedWidth device width)
  else if address.toNat < wordCount 64 then .ok address.toNat
  else .error (.outOfRange device address)

def read (cpu : Nat) (node : String) (d : Disk) (address : Value) (width : Width) :
    Except Fault Value := do
  let msr ← number (Space.msr cpu node).describe address width
  readAt node (← openNode node d) d msr

def write (cpu : Nat) (node : String) (d : Disk) (address : Value) (width : Width) (v : Value) :
    Except Fault Disk := do
  let msr ← number (Space.msr cpu node).describe address width
  writeAt node (← openNode node d) d msr v

end Msr

namespace Port

/-- The port of an access. Ports have at most 32 bits. -/
def number (w : Window) (address : Value) (width : Width) : Except Fault Nat :=
  if width = .w64 ∨ width = .w128 then .error (.unsupportedWidth w.device width)
  else match w.place? address width with
    | some port => .ok port.toNat
    | none => .error (.outOfRange w.device address)

def openWindow (w : Window) (d : Disk) : Except Fault Location :=
  SystemError.orFault (d.openFile w.file) (.openFailed w.device)

def read (w : Window) (d : Disk) (address : Value) (width : Width) : Except Fault Value := do
  let port ← number w address width
  let place ← openWindow w d
  SystemError.orFault (d.readNumber place port width) (.readFailed w.device address width)

def write (w : Window) (d : Disk) (address : Value) (width : Width) (v : Value) :
    Except Fault Disk := do
  let port ← number w address width
  let place ← openWindow w d
  SystemError.orFault (d.writeNumber place port width v) (.writeFailed w.device address width)

end Port

namespace Memory

/-- The usual size of a page. -/
def pageSize : UInt64 := 4096

/-- The bytes of a file that are mapped for a window. -/
structure Mapping where
  /-- The place in the file at which the mapping starts. -/
  start : UInt64
  length : UInt64
  /-- The distance of the window from the start. -/
  skew : UInt64
deriving DecidableEq, Repr

/-- The mapping of a window starts on a page. The window has to end within 64 bits, and so has the
mapping; the offset at which it starts is signed. -/
def mapping? (page : UInt64) (w : Window) : Option Mapping := do
  let start := w.base &&& ~~~(page - 1)
  let skew := w.base - start
  let _ ← addWords? w.base w.size
  let length ← addWords? w.size skew
  if start.toNat < offsetLimit then some { start, length, skew } else none

/-- The place in the file that is found in the mapping of a window at an offset into the window. -/
def Mapping.place (mapping : Mapping) (offset : UInt64) : Except Fault Nat :=
  match addWords? mapping.skew offset with
  | some inside => .ok (mapping.start.toNat + inside.toNat)
  | none => .error .overflow

/-- Opens the file of a window and maps the window. -/
def mapWindow (w : Window) (d : Disk) : Except Fault (Location × Mapping) := do
  if w.size = 0 then .error (.trouble w.device .emptyWindow)
  else match mapping? pageSize w with
    | none => .error (.outOfRange w.device (BitVec.ofNat 128 w.base.toNat))
    | some mapping => do
        let place ← SystemError.orFault (d.openFile w.file) (.openFailed w.device)
        match d.mapRefusal mapping.start mapping.length with
        | some e => .error (.openFailed w.device e)
        | none => pure (place, mapping)

def openWindow (w : Window) (d : Disk) : Except Fault Location :=
  (mapWindow w d).map Prod.fst

/-- The offset of an access into a window. The place that it stands for is aligned to its width. -/
def offset (w : Window) (address : Value) (width : Width) : Except Fault UInt64 :=
  if width = .w128 then .error (.unsupportedWidth w.device width)
  else match offsetWithin? w.size address width with
    | none => .error (.outOfRange w.device address)
    | some offset =>
        match addWords? w.base offset with
        | none => .error (.outOfRange w.device address)
        | some place =>
            if place % width.bytes.toUInt64 = 0 then .ok offset
            else .error (.trouble w.device (.unaligned width offset.toNat))

/-- Reads where an access lies in the mapping of its window. -/
def read (w : Window) (d : Disk) (address : Value) (width : Width) : Except Fault Value := do
  let offset ← offset w address width
  let (place, mapping) ← mapWindow w d
  let start ← mapping.place offset
  SystemError.orFault (d.readNumber place start width) (.readFailed w.device address width)

def write (w : Window) (d : Disk) (address : Value) (width : Width) (v : Value) :
    Except Fault Disk := do
  let offset ← offset w address width
  let (place, mapping) ← mapWindow w d
  let start ← mapping.place offset
  SystemError.orFault (d.writeNumber place start width v) (.writeFailed w.device address width)

end Memory

end RegisterAtlas
