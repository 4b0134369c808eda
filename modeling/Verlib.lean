import Verlib.Interleaving.System
import Verlib.Timestamps.Contract
import Verlib.Timestamps.ReadWrite
import Verlib.Epoch.Core
import Verlib.Epoch.DoneStamp
import Verlib.Epoch.Reclaim
import Verlib.Flock.Lock
import Verlib.Flock.LockWord
import Verlib.Flock.Idempotence
import Verlib.Flock.LogAgreement
import Verlib.Flock.LogRun
import Verlib.Flock.Nested
import Verlib.Flock.NestedLog
import Verlib.Flock.NestedRetire
import Verlib.Flock.Reuse
import Verlib.Flock.ReuseIdentity
import Verlib.Hybrid.Builds
import Verlib.Hybrid.Cas
import Verlib.Hybrid.CasLinear
import Verlib.Hybrid.CasThread
import Verlib.Hybrid.Snapshot
import Verlib.Hybrid.Speculative
import Verlib.Indirect.Chain
import Verlib.Indirect.Lazy
import Verlib.Indirect.LazyHistory
import Verlib.Indirect.LazyRuns
import Verlib.Sequential.Calls
import Verlib.Sequential.Equivalence
import Verlib.SortedList.Content
import Verlib.SortedList.Runs
import Verlib.Timestamps.FetchAdd
import Verlib.Timestamps.TL2
import Verlib.Art.Children
import Verlib.Art.Leaf
import Verlib.Art.Lookup
import Verlib.HashBlock.Contention
import Verlib.HashBlock.Find
import Verlib.Hybrid.Retire
import Verlib.Hybrid.RetireOnce
import Verlib.Flock.TaggedCell
import Verlib.Flock.Codec
import Verlib.Flock.SpinLock
import Verlib.Epoch.NestedEpochs
import Verlib.RecordedOnce.Snapshot
import Verlib.Art.Range
import Verlib.BTree.Range
import Verlib.BTree.Runs
import Verlib.BlockLeafTree.Runs
import Verlib.LeafTree.Upsert
import Verlib.LeafTree.Linear
import Verlib.BTree.Termination
import Verlib.SortedList.Range
import Verlib.Structures.Ranges
import Verlib.DList.Mirror
import Verlib.BTree.NoLostUpdate
import Verlib.BTree.Linear
import Verlib.SnapshotList.Queries
import Verlib.LeafTree.Queries
import Verlib.SortedList.Queries
import Verlib.Counters.Collect
import Verlib.HashBlock.Owners
import Verlib.Timestamps.Multiple
import Verlib.SortedList.Check
import Verlib.LeafTree.Check
import Verlib.BTree.Check
