import Equilibrium.Strings.FloatRoundTrip
import Equilibrium.Threading.SpinningMutex
import Equilibrium.Containers.MPSCQueueConsumer
import Equilibrium.Containers.EpochReclamation
import Equilibrium.Containers.LockFreeHashMapAbsent
import Equilibrium.Containers.LockFreeHashMapIteration
import Equilibrium.Containers.LockFreeOrderedMapChurn
import Equilibrium.Containers.LockFreeOrderedMapIteration
import Equilibrium.Containers.LockFreeOrderedMapBalance
import Equilibrium.Threading.ConditionVariable
import Equilibrium.Memory.HeapAllocatorPages
import Equilibrium.Strings.FixedStringRuns
import Equilibrium.Containers.ConcurrentOrderedMapRuns
import Equilibrium.Text.CodeConvertLengths
import Equilibrium.Text.CodePointValidation
import Equilibrium.Containers.IdSet
import Equilibrium.Containers.BetterBitSetRuns
import Equilibrium.Containers.DynamicBitSetRuns
import Equilibrium.Containers.BitSet
import Equilibrium.Containers.VectorRuns
import Equilibrium.Threading.ThreadPool
import Equilibrium.Options.OptionFileRuns
import Equilibrium.Memory.SharedPointer
import Equilibrium.Filesystem.File
import Equilibrium.Akibase.HashmapRuns
import Equilibrium.Functional.FunctionRuns
import Equilibrium.Containers.StableMapAddresses
import Equilibrium.Strings.FormatWide
import Equilibrium.Strings.DecimalPoint
import Equilibrium.Strings.FloatFormatCapacity
import Equilibrium.Memory.MemoryRouterReAllocate
import Equilibrium.Memory.MemoryCoordinator
import Equilibrium.Containers.OrderedSet
import Equilibrium.Containers.ChainedHashMapRefinement
import Equilibrium.Hashing.Crc
import Equilibrium.Strings.StringCompare
import Equilibrium.Strings.StringSearch
import Equilibrium.Strings.SmallString
import Equilibrium.Strings.SmallStringAliases
import Equilibrium.Containers.UnorderedMapAliases
import Equilibrium.Hashing.Sha256
import Equilibrium.Algorithm.Sort
import Equilibrium.Akibase.Algorithm
import Equilibrium.Hashing.StringHashes
import Equilibrium.Options.OptionFile
import Equilibrium.CommandLine.Pieces
import Equilibrium.Filesystem.FileChecks
import Equilibrium.Filesystem.Path
import Equilibrium.Containers.ChainedHashMapRuns
import Equilibrium.Containers.SimpleDequeStorage
import Equilibrium.Strings.DecimalBignumValues
