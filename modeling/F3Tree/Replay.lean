import Mathlib.Data.List.Sort
import F3Tree.Ptfo

/-!
# Replaying chains into the global tree

The three replay algorithms of `src/f3tree.cpp` and the helpers they share.
Producer ids are natural numbers, so the source's `producer < 0` tests have no
counterpart.
-/

namespace F3Tree

/-- `PTFOThreadState`. -/
structure PTFOThreadState : Type where
  nodeCount : Nat := 0
  entryCount : Nat := 0
  homeNode : Nat := 0
deriving DecidableEq, Repr

/-- `ptfo_threads`: one state per configured producer. -/
structure PTFOThreads : Type where
  size : Nat
  get : Nat → PTFOThreadState

/-- The test that the replay loops make before they touch a producer. -/
def PTFOThreads.skips (threads : PTFOThreads) (producer : Nat) : Bool :=
  decide (producer ≥ threads.size ∨ (threads.get producer).entryCount = 0)

/-- `std::sort` by a strict comparison. -/
def stdSort {α : Type} (lt : α → α → Bool) (l : List α) : List α :=
  l.insertionSort fun a b => lt b a = false

structure ReplayStats : Type where
  appliedOps : Nat := 0
  replayedNodes : Nat := 0
deriving DecidableEq, Repr

namespace Btree

variable {τ : Type}

/-- `clear_ptfo_threads_for_producers`. -/
def clearPtfoThreadsForProducers (b : Btree τ) (threads : PTFOThreads)
    (producerIds : List Nat) : Btree τ :=
  producerIds.foldl
    (fun b producer => if threads.skips producer then b else b.futureClearThread producer)
    b

/-! ## The snapshot filter -/

/-- `is_latest_buffered_op`: the first entry of the operation's key decides. -/
def isLatestBufferedOp (op : FutureBufferedOp)
    (latestEntries : List FutureLookupEntry) : Bool :=
  match latestEntries.find? fun e => e.key = op.key with
  | none => false
  | some e => e.sequence = op.sequence && e.state = stateOf op.isDelete

/-- The comparison in `collect_latest_lookup_entries`. -/
def lookupEntryLt (lhs rhs : FutureLookupEntry) : Bool :=
  if lhs.key ≠ rhs.key then lhs.key < rhs.key else lhs.sequence < rhs.sequence

/-- One turn of the deduplication loop in `collect_latest_lookup_entries`. -/
def pushLatest (latest : List FutureLookupEntry) (e : FutureLookupEntry) :
    List FutureLookupEntry :=
  match latest.getLast? with
  | none => latest ++ [e]
  | some back => if back.key ≠ e.key then latest ++ [e] else latest.dropLast ++ [e]

/-- `collect_latest_lookup_entries`. -/
def collectLatestLookupEntries (b : Btree τ) : List FutureLookupEntry :=
  (stdSort lookupEntryLt b.futureCollectLookupEntries).foldl pushLatest []

/-! ## Collecting from several producers -/

/-- The collection loop of `apply_key_ordered_ptfo_replay`. -/
def collectPendingOps (b : Btree τ) (threads : PTFOThreads) (producerIds : List Nat) :
    List FutureBufferedOp :=
  producerIds.flatMap fun producer =>
    if threads.skips producer then [] else b.futureCollectOps producer

/-- The collection loop of `apply_node_ordered_ptfo_replay`. -/
def collectPendingNodes (b : Btree τ) (threads : PTFOThreads)
    (producerIds : List Nat) : List FutureBufferedNode :=
  producerIds.flatMap fun producer =>
    if threads.skips producer then [] else b.futureCollectNodes producer

def opLt (lhs rhs : FutureBufferedOp) : Bool :=
  if lhs.sequence ≠ rhs.sequence then lhs.sequence < rhs.sequence
  else lhs.producerId < rhs.producerId

def nodeLt (lhs rhs : FutureBufferedNode) : Bool :=
  if lhs.firstSequence ≠ rhs.firstSequence then lhs.firstSequence < rhs.firstSequence
  else lhs.producerId < rhs.producerId

variable [GlobalTree τ]

/-- `apply_buffered_op`. -/
def applyBufferedOp (tree : τ) (op : FutureBufferedOp) : τ :=
  applyOp tree op.key op.isDelete

/-! ## The replays -/

/-- `apply_key_ordered_ptfo_replay`. -/
def applyKeyOrderedPtfoReplay (b : Btree τ) (threads : PTFOThreads)
    (producerIds : List Nat) : Btree τ × ReplayStats :=
  let ops := stdSort opLt (b.collectPendingOps threads producerIds)
  let (tree, stats) := ops.foldl
    (fun (acc : τ × ReplayStats) op =>
      (applyBufferedOp acc.1 op, { acc.2 with appliedOps := acc.2.appliedOps + 1 }))
    (b.tree, {})
  (clearPtfoThreadsForProducers { b with tree := tree } threads producerIds, stats)

/-- The inner loop of `apply_node_ordered_ptfo_replay`. -/
def replayNode (latestEntries : List FutureLookupEntry) (acc : τ × ReplayStats)
    (node : FutureBufferedNode) : τ × ReplayStats :=
  node.ops.foldl
    (fun (acc : τ × ReplayStats) op =>
      if isLatestBufferedOp op latestEntries then
        (applyBufferedOp acc.1 op, { acc.2 with appliedOps := acc.2.appliedOps + 1 })
      else acc)
    (acc.1, { acc.2 with replayedNodes := acc.2.replayedNodes + 1 })

/-- `apply_node_ordered_ptfo_replay`. -/
def applyNodeOrderedPtfoReplay (b : Btree τ) (threads : PTFOThreads)
    (producerIds : List Nat) : Btree τ × ReplayStats :=
  let latestEntries := b.collectLatestLookupEntries
  let nodes := stdSort nodeLt (b.collectPendingNodes threads producerIds)
  let (tree, stats) := nodes.foldl (replayNode latestEntries) (b.tree, {})
  (clearPtfoThreadsForProducers { b with tree := tree } threads producerIds, stats)

/-- The slot of the producer at index `i` of `producer_ids`. -/
def slotOf (nProducers evaluatorSlots i : Nat) : Nat :=
  let chunk :=
    if nProducers > 0 then (nProducers + evaluatorSlots - 1) / evaluatorSlots else 1
  if i / chunk ≥ evaluatorSlots then evaluatorSlots - 1 else i / chunk

/-- The producers of one slot, in the order they were pushed. -/
def slotProducers (producerIds : List Nat) (evaluatorSlots slot : Nat) : List Nat :=
  (producerIds.zipIdx.filter fun p =>
    slotOf producerIds.length evaluatorSlots p.2 = slot).map Prod.fst

/-- The loop body of `apply_key_partitioned_ptfo_replay` at one producer. -/
def drainProducer (threads : PTFOThreads) (acc : Btree τ × ReplayStats)
    (producer : Nat) : Btree τ × ReplayStats :=
  if threads.skips producer then acc
  else
    let (b, applied) := acc.1.futureDrainThreadFromTail producer
    (b, { acc.2 with appliedOps := acc.2.appliedOps + applied })

/-- `apply_key_partitioned_ptfo_replay`. -/
def applyKeyPartitionedPtfoReplay (b : Btree τ) (threads : PTFOThreads)
    (producerIds : List Nat) (evaluatorSlots : Nat) : Btree τ × ReplayStats :=
  let evaluatorSlots := if evaluatorSlots = 0 then 1 else evaluatorSlots
  (List.range evaluatorSlots).foldl
    (fun acc slot =>
      (slotProducers producerIds evaluatorSlots slot).foldl (drainProducer threads) acc)
    (b, {})

end Btree

end F3Tree
