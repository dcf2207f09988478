import BfTree.AbortedMerge
import BfTree.CacheOnlySplit
import BfTree.CircularBuffer.Safety
import BfTree.FreshPages
import BfTree.FullPageCycle
import BfTree.HighFence
import BfTree.MiniPageGrowth
import BfTree.Nodes.PrefixCompression
import BfTree.RootSplit
import BfTree.ScanBuffer
import BfTree.ScanContract
import BfTree.Snapshot.PhaseWaitSpec
import BfTree.Snapshot.RecoverySpec
import BfTree.SplitArithmetic
import BfTree.Traverse.ScanLocks
import BfTree.Utils.RwLockSafety
import BfTree.Wal.Clients
import BfTree.Wal.RoundTrip
