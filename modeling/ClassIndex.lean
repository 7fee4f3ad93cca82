import ClassIndex.Discovery
import ClassIndex.Lookup
import ClassIndex.Settings.Load
import ClassIndex.Proofs.Name.Separators
import ClassIndex.Proofs.JvmType.Writable
import ClassIndex.Proofs.Index.Registrations
import ClassIndex.Proofs.Discovery.ClassPath
import ClassIndex.Proofs.Discovery.Places
import ClassIndex.Proofs.ByteReader.Inversion
import ClassIndex.Proofs.JvmType.Grammar
import ClassIndex.Proofs.ClassFormat.ClassFile
import ClassIndex.Proofs.ClassFormat.Meaning
import ClassIndex.Proofs.ClassFormat.Decoding
import ClassIndex.Proofs.ClassFormat.RoundTrip
import ClassIndex.Proofs.ByteReader.Steady
import ClassIndex.Proofs.ClassFormat.Truncation
import ClassIndex.Proofs.ClassFormat.MemberRefs
import ClassIndex.Proofs.ClassFormat.DebugNames
import ClassIndex.Proofs.ClassInfo.Slots
import ClassIndex.Proofs.Lookup.Function
import ClassIndex.Proofs.FileTree.Visit
import ClassIndex.Proofs.Path.Below
import ClassIndex.Proofs.Layout.Below
import ClassIndex.Proofs.FileTree.Following
import ClassIndex.Proofs.Discovery.Traversal
import ClassIndex.Proofs.Discovery.Agreement
import ClassIndex.Proofs.Text.ModifiedUtf8
import ClassIndex.Proofs.Lookup.Views
import ClassIndex.Proofs.Layout.Conventional
import ClassIndex.Proofs.FileTree.Reordered
import ClassIndex.Proofs.Discovery.ListingOrder
import ClassIndex.Proofs.ClassFormat.EarliestScope
import ClassIndex.Proofs.Path.Entries
import ClassIndex.Proofs.Layout.Packages
import ClassIndex.Proofs.Discovery.Runs
import ClassIndex.Proofs.Discovery.LayoutFaults
import ClassIndex.Proofs.Discovery.ClassPathPackages
import ClassIndex.Proofs.Text.ByteOrder
import ClassIndex.Proofs.Discovery.ArchiveContents
import ClassIndex.Proofs.Lookup.Outcomes
import ClassIndex.Proofs.Lookup.ParameterNames
import ClassIndex.Proofs.JvmType.Derivations
import ClassIndex.Proofs.ByteReader.Confined
import ClassIndex.Proofs.ClassFormat.Numbering
import ClassIndex.Proofs.ClassFormat.DescriptorFaults
import ClassIndex.Proofs.JvmType.WrittenBack
import ClassIndex.Proofs.Text.Units
import ClassIndex.Proofs.Discovery.Rescan
import ClassIndex.Proofs.Layout.Functions
import ClassIndex.Proofs.Discovery.FunctionFaults
import ClassIndex.Proofs.Lookup.ParameterSlots
