import JavaMachine.Archive.Bits
import JavaMachine.Archive.Bzip2.Scramble
import JavaMachine.Archive.Bzip2.Stream
import JavaMachine.Archive.Bzip2.Transform
import JavaMachine.Archive.Crc32
import JavaMachine.Archive.Deflate
import JavaMachine.Archive.EndRecord
import JavaMachine.Archive.Entry
import JavaMachine.Archive.Huffman
import JavaMachine.Archive.XxHash64
import JavaMachine.Archive.Zip
import JavaMachine.Archive.Zstandard.Entropy
import JavaMachine.Archive.Zstandard.Frame
import JavaMachine.Archive.Zstandard.Literals
import JavaMachine.Archive.Zstandard.Sequences
import JavaMachine.Class.Basic
import JavaMachine.Class.Bootstrap
import JavaMachine.Class.Table
import JavaMachine.ClassFile.Basic
import JavaMachine.ClassFile.Parser
import JavaMachine.ClassFile.Reader
import JavaMachine.ClassPath.Basic
import JavaMachine.ClassPath.Directory
import JavaMachine.Descriptor
import JavaMachine.Handle
import JavaMachine.Heap
import JavaMachine.Library
import JavaMachine.Machine.ArrayAccess
import JavaMachine.Machine.Basic
import JavaMachine.Machine.FieldAccess
import JavaMachine.Machine.Linking
import JavaMachine.Machine.Reflection
import JavaMachine.Machine.Threads
import JavaMachine.Monitor
import JavaMachine.Native.Access
import JavaMachine.Native.Arguments
import JavaMachine.Native.Basic
import JavaMachine.Native.Calls
import JavaMachine.Native.Loading
import JavaMachine.Native.Objects
import JavaMachine.Native.Registry
import JavaMachine.Native.Threads
import JavaMachine.Number.Binary
import JavaMachine.Platform
import JavaMachine.Proofs.Access
import JavaMachine.Proofs.ArrayClasses
import JavaMachine.Proofs.ArraySafety
import JavaMachine.Proofs.Circularity
import JavaMachine.Proofs.ClassFileSpelling
import JavaMachine.Proofs.ClassFiles
import JavaMachine.Proofs.ClassGrowth
import JavaMachine.Proofs.ClassTable
import JavaMachine.Proofs.Codec
import JavaMachine.Proofs.Definable
import JavaMachine.Proofs.Delimiting
import JavaMachine.Proofs.Effects
import JavaMachine.Proofs.EngineRuns
import JavaMachine.Proofs.FieldFrame
import JavaMachine.Proofs.FieldLayout
import JavaMachine.Proofs.FieldSafety
import JavaMachine.Proofs.HeapAccounts
import JavaMachine.Proofs.HeapChanges
import JavaMachine.Proofs.HeapRuns
import JavaMachine.Proofs.Initialization
import JavaMachine.Proofs.InitializerAccount
import JavaMachine.Proofs.InitializerOrder
import JavaMachine.Proofs.Linking
import JavaMachine.Proofs.Making
import JavaMachine.Proofs.ModifiedText
import JavaMachine.Proofs.NativeRuns
import JavaMachine.Proofs.Objects
import JavaMachine.Proofs.Operations
import JavaMachine.Proofs.Readers
import JavaMachine.Proofs.Resolution
import JavaMachine.Proofs.ResolutionSteps
import JavaMachine.Proofs.Steps
import JavaMachine.Proofs.Subtyping
import JavaMachine.Proofs.Supertypes
import JavaMachine.Proofs.WrittenObjects
import JavaMachine.Resource
import JavaMachine.Symbol
import JavaMachine.Table
import JavaMachine.Tag
import JavaMachine.Text.Lossy
import JavaMachine.Text.Modified
import JavaMachine.Text.Utf16
import JavaMachine.Thread
import JavaMachine.Throwable
import JavaMachine.Value
import JavaMachine.Value.Codec
import JavaMachine.Value.Slot
import JavaMachine.Proofs.ArrayElements
import JavaMachine.Proofs.ClassOrder
import JavaMachine.Proofs.AddedClasses
import JavaMachine.Proofs.DefinitionOutcomes
import JavaMachine.Proofs.Interning
import JavaMachine.Proofs.MonitorRuns
import JavaMachine.Proofs.MonitorOwnership
import JavaMachine.Proofs.MonitorSignals
import JavaMachine.Proofs.Symbols
import JavaMachine.Proofs.ArrayCopies
import JavaMachine.Proofs.FailingNatives
import JavaMachine.Proofs.Conversions
import JavaMachine.Proofs.ReflectiveCalls
import JavaMachine.Proofs.ThreadRuns
import JavaMachine.Proofs.ThreadTables
import JavaMachine.Proofs.ThreadContexts
import JavaMachine.Proofs.SurrogatePairs
import JavaMachine.Proofs.InstanceLayout
import JavaMachine.Proofs.ArrayStores
import JavaMachine.Proofs.NestedNatives
import JavaMachine.Proofs.SymbolSpelling
import JavaMachine.Proofs.TraceStarts
import JavaMachine.Proofs.ResourceReads
import JavaMachine.Proofs.DefinedClasses
import JavaMachine.Proofs.Descriptors
import JavaMachine.Proofs.ArgumentTexts
import JavaMachine.Proofs.Utf8Text
import JavaMachine.Proofs.DescriptorScan
import JavaMachine.Proofs.MemberDescriptors
import JavaMachine.Proofs.PoolPlaces
import JavaMachine.Proofs.LineNumbers
import JavaMachine.Proofs.ResourceHandles
import JavaMachine.Proofs.ResourceLookups
import JavaMachine.Proofs.MonitorUses
import JavaMachine.Proofs.NativeEffects
import JavaMachine.Proofs.ObjectMonitors
import JavaMachine.Proofs.IdentityHashes
import JavaMachine.Proofs.PrefixCodes
import JavaMachine.Proofs.Inflating
import JavaMachine.Proofs.BlockLayers
import JavaMachine.Proofs.EntropyCodes
import JavaMachine.Proofs.Archives
