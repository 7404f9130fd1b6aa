import PdkHeaders.Library.Execution
import PdkHeaders.Library.Hoare
import PdkHeaders.Library.Transcript
import PdkHeaders.Library.Sessions
import PdkHeaders.Library.Stores
import PdkHeaders.Library.Paths
import PdkHeaders.Library.Integers
import PdkHeaders.Library.Writes
import PdkHeaders.Library.Tracing
import PdkHeaders.SyscallsCommon
import PdkHeaders.VmVector
import PdkHeaders.MetaSyscalls
import PdkHeaders.MetaSyscallsDispatch
import PdkHeaders.SyscallTrace
import PdkHeaders.PdkIsolation
import PdkHeaders.ValueHeap
import PdkHeaders.HeapOwnership
import PdkHeaders.TypeSafeDispatch
import PdkHeaders.SyscallAccesses
import PdkHeaders.AccessRanges
import PdkHeaders.ReferenceDispatcher
import PdkHeaders.ShareVecBits
import PdkHeaders.IteratorChain
import PdkHeaders.ChainSpecs
import PdkHeaders.ChainAccounting
import PdkHeaders.ChainExceptions
import PdkHeaders.ChainCopies
import PdkHeaders.ChainPushes
import PdkHeaders.ChainedIterators
import PdkHeaders.ChainTraversal
import PdkHeaders.ChainPositions
import PdkHeaders.ChainIndices
import PdkHeaders.ShareIterators
import PdkHeaders.ChainCursors
import PdkHeaders.ChainGrowth
import PdkHeaders.ChainValues
import PdkHeaders.Library.Blocks
import PdkHeaders.ShareVectors
import PdkHeaders.BitArrays
import PdkHeaders.Library.Conversations
import PdkHeaders.SyscallConversations
import PdkHeaders.Library.ByteMemory
import PdkHeaders.VmViews
import PdkHeaders.Library.Refinement
import PdkHeaders.Library.Clients
import PdkHeaders.ProcessLifetimes
import PdkHeaders.SyscallRefinement
import PdkHeaders.TypedStore
