import ManagedHeap.Proofs.HoareTriples
import ManagedHeap.Proofs.CollectionPhases

/-!
# Computations that only look

Every question that can be asked about a heap or one of its objects leaves the heap as it
is.
-/

namespace ManagedHeap

namespace HeapM.Reads

variable {h : Handle}

theorem pairFields : Reads (pairFields h) := by
  refine bind payload fun p => ?_
  cases p
  all_goals first | exact pure | exact wrongKind

theorem car : Reads (car h) := bind pairFields fun _ => pure

theorem cdr : Reads (cdr h) := bind pairFields fun _ => pure

theorem tag : Reads (tag h) := bind pairFields fun _ => pure

theorem countPairs (fuel : Nat) (cursor : Handle) : Reads (countPairs cursor fuel) := by
  induction fuel generalizing cursor with
  | zero => exact throw
  | succ fuel ih =>
    refine bind kind fun k => ?_
    split
    · exact bind cdr fun next => bind (ih next) fun _ => pure
    · exact pure

theorem listLength : Reads (listLength h) := bind walkBound fun fuel => countPairs fuel h

theorem vectorElt {i : Nat} : Reads (vectorElt h i) := by
  refine bind payload fun p => ?_
  cases p
  case handles elements => cases hi : elements[i]? <;> simp only [hi] <;> exact pure
  all_goals exact wrongKind

theorem charBytes : Reads (charBytes h) := by
  refine bind payload fun p => ?_
  cases p
  all_goals first | exact pure | exact wrongKind

theorem encoding : Reads (encoding h) := by
  refine bind payload fun p => ?_
  cases p
  all_goals first | exact pure | exact wrongKind

theorem realData : Reads (realData h) := by
  refine bind payload fun p => ?_
  cases p
  all_goals first | exact pure | exact wrongKind

theorem integerData : Reads (integerData h) := by
  refine bind payload fun p => ?_
  cases p
  all_goals first | exact pure | exact wrongKind

theorem rawData : Reads (rawData h) := by
  refine bind payload fun p => ?_
  cases p
  all_goals first | exact pure | exact wrongKind

theorem closureParts : Reads (closureParts h) := by
  refine bind payload fun p => ?_
  cases p
  all_goals first | exact pure | exact wrongKind

theorem envEnclos : Reads (envEnclos h) := by
  refine bind payload fun p => ?_
  cases p
  all_goals first | exact pure | exact wrongKind

theorem promiseValue : Reads (promiseValue h) := by
  refine bind payload fun p => ?_
  cases p
  all_goals first | exact pure | exact wrongKind

theorem externalAddress : Reads (externalAddress h) := by
  refine bind payload fun p => ?_
  cases p
  all_goals first | exact pure | exact wrongKind

theorem generation : Reads (generation h) := bind cell fun _ => pure

theorem attrib : Reads (attrib h) := bind cell fun _ => pure

theorem refCount : Reads (refCount h) := bind cell fun _ => pure

theorem sharing : Reads (sharing h) := bind refCount fun _ => bind get fun _ => pure

theorem mayMutate : Reads (mayMutate h) := bind sharing fun _ => pure

theorem protectDepth : Reads protectDepth := bind get fun _ => pure

theorem enterRecovery : Reads enterRecovery := bind get fun _ => pure

theorem symbolName : Reads (symbolName h) := by
  refine bind payload fun p => ?_
  cases p
  all_goals first | exact pure | exact wrongKind

theorem symbolValue : Reads (symbolValue h) := by
  refine bind payload fun p => ?_
  cases p
  all_goals first | exact pure | exact wrongKind

theorem symbolLookupCache : Reads (symbolLookupCache h) := by
  refine bind payload fun p => ?_
  cases p
  all_goals first | exact pure | exact wrongKind

theorem envFrame : Reads (envFrame h) := by
  refine bind payload fun p => ?_
  cases p
  all_goals first | exact pure | exact wrongKind

theorem searchFrame {sym : Handle} (fuel : Nat) (cursor : Handle) :
    Reads (searchFrame sym cursor fuel) := by
  induction fuel generalizing cursor with
  | zero => exact throw
  | succ fuel ih =>
    unfold HeapM.searchFrame
    split
    · exact pure
    · refine bind tag fun t => ?_
      split
      · exact pure
      · exact bind cdr fun next => ih next

theorem frameBinding {env sym : Handle} : Reads (frameBinding env sym) :=
  bind envFrame fun frame => bind walkBound fun fuel => searchFrame fuel frame

theorem findVarInFrame {env sym : Handle} : Reads (findVarInFrame env sym) := by
  refine bind frameBinding fun found => ?_
  cases found with
  | none => exact pure
  | some c => exact bind car fun _ => pure

theorem isCachedString : Reads (isCachedString h) := by
  refine bind kind fun k => ?_
  split
  · exact bind flags fun _ => pure
  · exact pure

theorem searchChain {bytes : Bytes} {e : Encoding} {hash : UInt32} (fuel : Nat)
    (cursor : Handle) : Reads (searchChain bytes e hash cursor fuel) := by
  induction fuel generalizing cursor with
  | zero => exact throw
  | succ fuel ih =>
    unfold HeapM.searchChain
    split
    · exact pure
    · refine bind cell fun c => ?_
      split
      · split
        · exact pure
        · exact ih c.attrib
      · exact ih c.attrib

theorem findCached {bytes : Bytes} {e : Encoding} {hash : UInt32} :
    Reads (findCached bytes e hash) :=
  bind get fun _ => bind walkBound fun fuel => searchChain fuel _

theorem weakFields : Reads (weakFields h) := by
  refine bind payload fun p => ?_
  cases p
  all_goals exact pure

theorem weakRefKey : Reads (weakRefKey h) := bind weakFields fun _ => pure

theorem weakRefValue : Reads (weakRefValue h) := bind weakFields fun _ => pure

theorem chainFields : Reads (chainFields h) := bind get fun _ => lift

theorem weakRecords : Reads weakRecords := bind get fun _ => lift

theorem chainAfter : Reads (chainAfter h) := by
  unfold HeapM.chainAfter
  split
  · exact bind get fun _ => pure
  · exact bind chainFields fun _ => pure

theorem searchPredecessor {record : Handle} (fuel : Nat) (previous cursor : Handle) :
    Reads (searchPredecessor record previous cursor fuel) := by
  induction fuel generalizing previous cursor with
  | zero => exact throw
  | succ fuel ih =>
    unfold HeapM.searchPredecessor
    split
    · exact pure
    · split
      · exact throw
      · exact bind chainFields fun fields => ih cursor fields.next

theorem predecessor {record hint : Handle} : Reads (predecessor record hint) := by
  refine bind chainAfter fun next => ?_
  split
  · exact pure
  · exact bind get fun heap => bind walkBound fun fuel => searchPredecessor fuel _ _

theorem pendingFinalizerCount : Reads pendingFinalizerCount :=
  fun _ _ _ hrun => (run_pendingFinalizerCount hrun).symm

theorem stats : Reads stats := fun _ _ _ hrun => (run_stats hrun).symm

theorem collectionDue {k : Kind} {length : Nat} : Reads (collectionDue k length) := by
  refine bind get fun heap => ?_
  split
  · exact pure
  · exact pure

theorem ask {q : Session.Query} : Reads (Session.ask q h) := by
  cases q
  case isLive => exact bind isLive fun _ => pure
  case kind => exact bind kind fun _ => pure
  case generation => exact bind generation fun _ => pure
  case flags => exact bind flags fun _ => pure
  case attrib => exact bind attrib fun _ => pure
  case length => exact bind length fun _ => pure
  case car => exact bind car fun _ => pure
  case cdr => exact bind cdr fun _ => pure
  case tag => exact bind tag fun _ => pure
  case listLength => exact bind listLength fun _ => pure
  case charBytes => exact bind charBytes fun _ => pure
  case encoding => exact bind encoding fun _ => pure
  case isCachedString => exact bind isCachedString fun _ => pure
  case realData => exact bind realData fun _ => pure
  case integerData => exact bind integerData fun _ => pure
  case rawData => exact bind rawData fun _ => pure
  case closureParts => exact bind closureParts fun _ => pure
  case envEnclos => exact bind envEnclos fun _ => pure
  case promiseValue => exact bind promiseValue fun _ => pure
  case externalAddress => exact bind externalAddress fun _ => pure
  case inspect => exact bind cell fun _ => pure
  case refCount => exact bind refCount fun _ => pure
  case sharing => exact bind sharing fun _ => pure
  case mayMutate => exact bind mayMutate fun _ => pure
  case symbolName => exact bind symbolName fun _ => pure
  case symbolValue => exact bind symbolValue fun _ => pure
  case symbolLookupCache => exact bind symbolLookupCache fun _ => pure
  case weakRefKey => exact bind weakRefKey fun _ => pure
  case weakRefValue => exact bind weakRefValue fun _ => pure
  case heldByTask => exact bind get fun _ => pure

theorem report {r : Session.Report} : Reads (Session.report r) := by
  refine bind get fun heap => ?_
  cases r
  case stats => exact bind stats fun _ => pure
  case hasPendingFinalizers => exact bind pendingFinalizerCount fun _ => pure
  case pendingFinalizerCount => exact bind pendingFinalizerCount fun _ => pure
  case lastCollection => cases heap.counters.last <;> exact pure
  all_goals exact pure

end HeapM.Reads

end ManagedHeap
