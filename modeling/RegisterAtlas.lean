import RegisterAtlas.CommandLine
import RegisterAtlas.Main
import RegisterAtlas.Proofs.Text.Decimal
import RegisterAtlas.Proofs.Text.Hexadecimal
import RegisterAtlas.Proofs.Bits.Flatten
import RegisterAtlas.Proofs.Machine.PlainBank
import RegisterAtlas.Proofs.Bits.Overlay
import RegisterAtlas.Proofs.Machine.Recorded
import RegisterAtlas.Proofs.Bits.Accesses
import RegisterAtlas.Proofs.Path.PlainName
import RegisterAtlas.Proofs.Path.RoundTrip
import RegisterAtlas.Proofs.Tree.Entries
import RegisterAtlas.Proofs.Tree.Reachable
import RegisterAtlas.Proofs.Tree.Shape
import RegisterAtlas.Proofs.Tree.Attached
import RegisterAtlas.Proofs.Resolve.AliasChains
import RegisterAtlas.Proofs.Resolve.Canonical
import RegisterAtlas.Proofs.Resolve.Append
import RegisterAtlas.Proofs.Resolve.PathOf
import RegisterAtlas.Proofs.Path.Grammar
import RegisterAtlas.Proofs.Tree.Addition
import RegisterAtlas.Proofs.Tree.InPlace
import RegisterAtlas.Proofs.Draft.InPlace
import RegisterAtlas.Proofs.Resolve.Growth
import RegisterAtlas.Proofs.Tree.Leaves
import RegisterAtlas.Proofs.Tree.Evolution
import RegisterAtlas.Proofs.Tree.Replacement
import RegisterAtlas.Proofs.Dump.Run
import RegisterAtlas.Proofs.Dump.Accesses
import RegisterAtlas.Proofs.Dump.DepthFirst
import RegisterAtlas.Proofs.Resolve.Attached
import RegisterAtlas.Proofs.Draft.Current
import RegisterAtlas.Proofs.Table.Indexed
import RegisterAtlas.Proofs.Datatype.Accepted
import RegisterAtlas.Proofs.Bits.Fields
import RegisterAtlas.Proofs.Describe.Gains
import RegisterAtlas.Proofs.Describe.Ensures
import RegisterAtlas.Proofs.Describe.Filling
import RegisterAtlas.Proofs.Describe.Steps
import RegisterAtlas.Proofs.Describe.Elements
import RegisterAtlas.Proofs.Describe.Devices
import RegisterAtlas.Proofs.Describe.Paths
import RegisterAtlas.Proofs.Describe.Vendors
import RegisterAtlas.Proofs.Discovery.InCharge
import RegisterAtlas.Proofs.Discovery.Visits
import RegisterAtlas.Proofs.Storage.Numbers
import RegisterAtlas.Proofs.Storage.Files
import RegisterAtlas.Proofs.Storage.Windows
import RegisterAtlas.Proofs.Storage.Views
import RegisterAtlas.Proofs.Storage.Checks
import RegisterAtlas.Proofs.Storage.PortWindows
import RegisterAtlas.Proofs.Storage.Directories
import RegisterAtlas.Proofs.Pci.Names
import RegisterAtlas.Proofs.Pci.Enumeration
import RegisterAtlas.Proofs.Pci.Spellings
import RegisterAtlas.Proofs.Storage.LastWritten
import RegisterAtlas.Proofs.Config.CpuList
import RegisterAtlas.Proofs.Describe.Discovery
import RegisterAtlas.Proofs.Describe.System
import RegisterAtlas.Proofs.Resolve.Normalized
import RegisterAtlas.Proofs.Resolve.Following
import RegisterAtlas.Proofs.Resolve.Absolute
import RegisterAtlas.Proofs.Access.Bound
import RegisterAtlas.Proofs.Access.Circles
import RegisterAtlas.Proofs.Datatype.Enumeration
import RegisterAtlas.Proofs.Datatype.Numbers
import RegisterAtlas.Proofs.Tree.Appends
import RegisterAtlas.Proofs.Resolve.Appends
import RegisterAtlas.Proofs.Access.Direct
import RegisterAtlas.Proofs.Datatype.Units
import RegisterAtlas.Proofs.Access.Indirect
import RegisterAtlas.Proofs.Resolve.Scoping
import RegisterAtlas.Proofs.Access.Polling
import RegisterAtlas.Proofs.Tree.Nearest
import RegisterAtlas.Proofs.Config.Parts
import RegisterAtlas.Proofs.Config.Ranges
import RegisterAtlas.Proofs.Text.Utf8
import RegisterAtlas.Proofs.Describe.Identities
import RegisterAtlas.Proofs.Cpuid.Spelling
import RegisterAtlas.Proofs.Describe.Repetition
import RegisterAtlas.Proofs.Datatype.TypedNumbers
import RegisterAtlas.Proofs.Bits.Checked
import RegisterAtlas.Proofs.Dump.Listing
