import ManagedHeap.Session.Run
import ManagedHeap.Proofs.FullCollection
import ManagedHeap.Proofs.RecordReadiness
import ManagedHeap.Proofs.CopyIsolation
import ManagedHeap.Proofs.PermanentObjects
import ManagedHeap.Proofs.StringCacheStates
import ManagedHeap.Proofs.OutOfMemoryRecords
import ManagedHeap.Proofs.StringUniqueness
import ManagedHeap.Proofs.ObjectLifetimes
import ManagedHeap.Proofs.ExactCounters
import ManagedHeap.Proofs.DanglingHandles
import ManagedHeap.Proofs.TasksAcrossCollections
import ManagedHeap.Proofs.SessionMemoryLimits
import ManagedHeap.Proofs.ExitFinalizers
import ManagedHeap.Proofs.ControlStacks
import ManagedHeap.Proofs.Environments
import ManagedHeap.Proofs.OutOfMemory
import ManagedHeap.Proofs.BindingBesideFinalizers
import ManagedHeap.Proofs.LookupCaches
import ManagedHeap.Proofs.ForgottenLookups
import ManagedHeap.Proofs.ObjectAges
import ManagedHeap.Proofs.FailedCalls
import ManagedHeap.Proofs.CopyWaits
import ManagedHeap.Proofs.CollectionPolicy
import ManagedHeap.Proofs.ProtectionStack
import ManagedHeap.Proofs.TaskRegistry
import ManagedHeap.Proofs.CollectionCountdown
import ManagedHeap.Proofs.CellRecycling
import ManagedHeap.Proofs.WeakFixpoint
import ManagedHeap.Proofs.SharedObjects
