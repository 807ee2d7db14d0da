import Mathlib.Data.Prod.Lex
import F3Tree.Lib.LockOrder
import F3Tree.FutureBTree

/-!
# The locks of the wrapper

The operations of `FutureBTree` as programs that take and release `mu`, `tree_mu`, and
the `ptfo_mu[tid]` and `lookup_dir_mu[tid]` of the producers.  What they do to the wrapper
between two locks is what the functions of `Impl` do.

A wait on the condition variable releases `mu` and takes it again, at any time.  What the
system answers (the NUMA node of the thread, whether a binding succeeded, a timeout) is
any value.
-/

namespace F3Tree

open LockOrder

inductive Lock : Type
  | mu
  | treeMu
  | ptfoMu (tid : Nat)
  | lookupDirMu (tid : Nat)
deriving DecidableEq, Repr

/-- The place of a lock: its family, and the producer. -/
def Lock.place : Lock → Nat ×ₗ Nat
  | .mu => toLex (0, 0)
  | .treeMu => toLex (1, 0)
  | .ptfoMu tid => toLex (2, tid)
  | .lookupDirMu tid => toLex (3, tid)

instance : Preorder Lock := Preorder.lift Lock.place

inductive PlacementPolicy : Type
  | kDefault
  | kBindEvaluatorsByNode
  | kBindEvaluatorsAndProducersByNode
  | kHardNumaBind
deriving DecidableEq, Repr

/-- `evaluator_binding_enabled` -/
def evaluatorBindingEnabled : PlacementPolicy → Bool
  | .kBindEvaluatorsByNode | .kBindEvaluatorsAndProducersByNode | .kHardNumaBind => true
  | .kDefault => false

/-- `producer_binding_enabled` -/
def producerBindingEnabled : PlacementPolicy → Bool
  | .kBindEvaluatorsAndProducersByNode | .kHardNumaBind => true
  | .kDefault | .kBindEvaluatorsByNode => false

/-- `hard_numa_bind_enabled` -/
def hardNumaBindEnabled : PlacementPolicy → Bool
  | .kHardNumaBind => true
  | .kDefault | .kBindEvaluatorsByNode | .kBindEvaluatorsAndProducersByNode => false

/-- The wrapper with what its threads share besides the fields of `Impl`.
`topologyNodes` is `topology.node_cpus.size()`. -/
structure Shared (τ : Type) : Type where
  impl : Impl τ
  placementPolicy : PlacementPolicy
  topologyNodes : Nat
  producerBound : Nat → Bool
  stopRequested : Bool
  boundEvaluatorThreads : Nat
  boundProducerThreads : Nat
  hardNumaMemoryBound : Nat

/-- A piece of an operation. -/
abbrev Code (τ α : Type) : Type 1 := Prog Lock (Shared τ) α

namespace Code

open Prog

variable {τ : Type}

/-- A change of the wrapper. -/
def onImpl (f : Impl τ → Impl τ) : Code τ Unit :=
  modify fun s => { s with impl := f s.impl }

/-- A change of the tree and the buffers. -/
def onTree (f : Btree τ → Btree τ) : Code τ Unit :=
  onImpl fun s => { s with tree := f s.tree }

/-- `if (test) body` -/
def onlyIf (test : Bool) (body : Code τ Unit) : Code τ Unit := if test then body else pure ()

/-! ## Producer calls -/

/-- The chain branches of `future_insert`, and the hashtable. -/
def chainInsert (b : Btree τ) (key : Int) (tid : Nat) (isDone : Bool) (sequence : Nat) : Btree τ :=
  { b with
    localFut := Function.update b.localFut tid
      ((b.localFut tid).insert ⟨key, isDone, sequence⟩)
    hash := Function.update b.hash tid ((b.hash tid).insert key tid) }

/-- The last section of `future_insert`. -/
def recordInDirectory (b : Btree τ) (key : Int) (tid : Nat) (isDone : Bool) (sequence : Nat) :
    Btree τ :=
  { b with
    futureLookupDirectory := Function.update b.futureLookupDirectory tid
      ((b.futureLookupDirectory tid).record key tid isDone sequence) }

/-- `future_insert` -/
def futureInsert (key : Int) (tid : Nat) (isDone : Bool) (sequence : Nat) : Code τ Unit :=
  guarded (.ptfoMu tid) do
    onTree fun b => chainInsert b key tid isDone sequence
    guarded (.lookupDirMu tid) (onTree fun b => recordInDirectory b key tid isDone sequence)

/-- The binding of a producer's thread, on its first call. -/
def bindProducer (producerId : Nat) : Code τ Unit := do
  let doBind ← guarded .mu (access fun s =>
    (!s.producerBound producerId,
      { s with producerBound := Function.update s.producerBound producerId true }))
  onlyIf doBind do
    let bound ← ask Bool
    onlyIf bound (guarded .mu (modify fun s =>
      { s with boundProducerThreads := s.boundProducerThreads + 1 }))
    let s ← get
    let memoryBound ← ask Bool
    onlyIf (hardNumaBindEnabled s.placementPolicy && memoryBound) (guarded .mu (modify fun s =>
      { s with hardNumaMemoryBound := s.hardNumaMemoryBound + 1 }))

/-- The body that `buffered_insert` and `erase_buffered` share. -/
def enqueue (key : Int) (producerId : Nat) (isDone : Bool) : Code τ Unit := do
  let s ← get
  onlyIf (producerId < s.impl.ptfoThreads.size) do
    onlyIf (producerBindingEnabled s.placementPolicy && !s.producerBound producerId)
      (bindProducer producerId)
    let sequence ← access fun s =>
      (s.impl.takeSequence.1, { s with impl := s.impl.takeSequence.2 })
    futureInsert key producerId isDone sequence
    let numa ← ask Int
    guarded .mu (onImpl fun s => s.account producerId numa)

/-- `buffered_insert` -/
def bufferedInsert (key : Int) (producerId : Nat) : Code τ Unit := enqueue key producerId false

/-- `erase_buffered` -/
def eraseBuffered (key : Int) (producerId : Nat) : Code τ Unit := enqueue key producerId true

/-! ## Readers -/

/-- The loop of `future_hash_directed_state_via_ptfo` and of
`future_hash_directed_owner_via_ptfo`. -/
def viaPtfo (key : Int) (best : Btree.Best) : List Nat → Code τ Btree.Best
  | [] => return best
  | tid :: tids => do
      let s ← get
      if (s.impl.tree.hash tid).searchKey key = -1 then viaPtfo key best tids
      else do
        let best ← guarded (.ptfoMu tid) do
          let s ← get
          return s.impl.tree.viaPtfoWalk key best tid
        viaPtfo key best tids

section Tree

variable [GlobalTree τ]

/-- `global_contains` -/
def globalContains (key : Int) : Code τ Bool :=
  guarded .treeMu do
    let s ← get
    return s.impl.globalContains key

/-- `contains` -/
def contains (key : Int) : Code τ Bool := do
  let s ← get
  let best ← viaPtfo key {} (List.range s.impl.tree.nThreads)
  match best.state with
  | .present => return true
  | .tombstone => return false
  | .absent => globalContains key

/-- `warmup_insert` -/
def warmupInsert (key : Int) : Code τ Unit :=
  guarded .treeMu (onTree fun b => { b with tree := btreeInsert b.tree key })

end Tree

/-- `buffered_owner` -/
def bufferedOwner (key : Int) : Code τ Int := do
  let s ← get
  let best ← viaPtfo key {} (List.range s.impl.tree.nThreads)
  return best.owner

/-- `pending_future_nodes`, `none` when it throws. -/
def pendingFutureNodes (producerId : Nat) : Code τ (Option Nat) :=
  guarded .mu do
    let s ← get
    return if producerId ≥ s.impl.ptfoThreads.size then none
      else some (s.impl.ptfoThreads.get producerId).nodeCount

/-- `stats` -/
def stats : Code τ FutureBTreeStats :=
  guarded .mu do
    let s ← get
    return s.impl.stats

/-! ## Drains -/

/-- `acquire_ptfo_locks`, and the locks' release at the end of the scope. -/
def withPtfoLocks {α : Type} (producerIds : List Nat) (body : Code τ α) : Code τ α := do
  let sortedPids := stdSort (fun a b => decide (a < b)) producerIds
  forEach (fun pid => take (.ptfoMu pid)) sortedPids
  let a ← body
  forEach (fun pid => release (.ptfoMu pid)) sortedPids
  return a

/-- `future_collect_lookup_entries` -/
def collectLookupEntries : List Nat → Code τ (List FutureLookupEntry)
  | [] => return []
  | tid :: tids => do
      let entries ← guarded (.lookupDirMu tid) do
        let s ← get
        return (s.impl.tree.futureLookupDirectory tid).collect
      let rest ← collectLookupEntries tids
      return entries ++ rest

/-- `future_clear_lookup_directory` -/
def futureClearLookupDirectory : Code τ Unit := do
  let s ← get
  forEach (fun tid => guarded (.lookupDirMu tid) (onTree fun b => b.clearDirectory tid))
    (List.range s.impl.tree.nThreads)

/-- `future_clear_lookup_entries_for_producers` -/
def futureClearLookupEntriesForProducers (producerIds : List Nat) : Code τ Unit := do
  let s ← get
  forEach (fun tid => onlyIf (tid < s.impl.tree.nThreads)
    (guarded (.lookupDirMu tid) (onTree fun b => b.clearDirectory tid))) producerIds

section Tree

variable [GlobalTree τ]

/-- `apply_node_ordered_ptfo_replay` past its snapshot of the directories. -/
def replayNodes (b : Btree τ) (entries : List FutureLookupEntry) (threads : PTFOThreads)
    (producerIds : List Nat) : Btree τ × ReplayStats :=
  let latestEntries := (stdSort Btree.lookupEntryLt entries).foldl Btree.pushLatest []
  let nodes := stdSort Btree.nodeLt (b.collectPendingNodes threads producerIds)
  let (tree, stats) := nodes.foldl (Btree.replayNode latestEntries) (b.tree, {})
  (Btree.clearPtfoThreadsForProducers { b with tree := tree } threads producerIds, stats)

/-- A replay, which answers its counts. -/
def replayBy (f : Impl τ → Btree τ × ReplayStats) : Code τ ReplayStats :=
  access fun s => ((f s.impl).2, { s with impl := { s.impl with tree := (f s.impl).1 } })

/-- The `switch` on the evaluator policy. -/
def replay (producerIds : List Nat) (evaluatorSlots : Nat) : Code τ ReplayStats := do
  let s ← get
  match s.impl.config.evaluatorPolicy with
  | .kF3K | .kLegacyKeyPartitioned => replayBy fun s =>
      s.tree.applyKeyPartitionedPtfoReplay s.ptfoThreads producerIds evaluatorSlots
  | .kF3N | .kLegacyNodePartitioned => do
      let entries ← collectLookupEntries (List.range s.impl.tree.nThreads)
      replayBy fun s => replayNodes s.tree entries s.ptfoThreads producerIds
  | .kDeterministicReplay => replayBy fun s =>
      s.tree.applyKeyOrderedPtfoReplay s.ptfoThreads producerIds

/-- `drain_locked` -/
def drainLocked : Code τ Unit := do
  let s ← get
  onlyIf (s.impl.pendingOperationCount ≠ 0) do
    let producerIds := s.impl.pendingProducers
    let numa ← ask Int
    onImpl fun s => s.recordCheckpointLocalityLocked producerIds numa
    let replayStats ← guarded .treeMu
      (withPtfoLocks (List.range s.impl.ptfoThreads.size) do
        let replayStats ← replay producerIds s.impl.config.evaluatorThreads
        futureClearLookupDirectory
        return replayStats)
    onImpl fun s => s.zeroCounts.addReplayStats replayStats false

/-- What `drain_locked_for_nodes` and `drain_locked_for_producers` do once they
have picked their producers. -/
def drainSlice (producerIds : List Nat) (evaluatorSlots : Nat) : Code τ Unit :=
  onlyIf (producerIds ≠ []) do
    let numa ← ask Int
    onImpl fun s => s.recordCheckpointLocalityLocked producerIds numa
    let replayStats ← guarded .treeMu
      (withPtfoLocks producerIds do
        let replayStats ← replay producerIds evaluatorSlots
        futureClearLookupEntriesForProducers producerIds
        return replayStats)
    onImpl fun s => (s.subtractPendingCountsLocked producerIds).addReplayStats replayStats true

/-- `drain_locked_for_nodes` -/
def drainLockedForNodes (nodeIds : List Nat) : Code τ Unit := do
  let s ← get
  drainSlice (s.impl.collectProducersForNodes nodeIds) s.impl.config.evaluatorThreads

/-- `drain_locked_for_producers` -/
def drainLockedForProducers (producerIds : List Nat) : Code τ Unit := do
  let s ← get
  drainSlice (s.impl.activeProducers producerIds) 1

/-! ## Evaluators -/

/-- `async_checkpoint_enabled` -/
def asyncCheckpointEnabled (s : Impl τ) : Bool :=
  decide (s.config.checkpointThresholdOps > 0 ∨ s.config.checkpointIntervalUs > 0)

/-- `should_checkpoint_for_producers_locked` -/
def shouldCheckpointForProducersLocked (s : Impl τ) (producerIds : List Nat) : Bool :=
  let producerPending := ((producerIds.filter fun pid => pid < s.ptfoThreads.size).map
    fun pid => (s.ptfoThreads.get pid).entryCount).sum
  decide (producerPending ≠ 0 ∧ s.config.checkpointThresholdOps > 0 ∧
    producerPending ≥ s.config.checkpointThresholdOps)

/-- `should_checkpoint_for_nodes_locked` -/
def shouldCheckpointForNodesLocked (s : Impl τ) (nodeIds : List Nat) : Bool :=
  let nodePending := ((nodeIds.filter fun node => node < s.nodeCount).map
    s.pendingOperationCountByNode).sum
  decide (nodePending ≠ 0 ∧ s.config.checkpointThresholdOps > 0 ∧
    nodePending ≥ s.config.checkpointThresholdOps)

/-- `nodes_for_worker` -/
def nodesForWorker (workerId workerCount nodeCount : Nat) : List Nat :=
  if workerCount = 0 then []
  else (List.range nodeCount).filter fun node => node % workerCount = workerId

/-- `cv.wait(lock, test)` -/
def waitUntil (test : Shared τ → Bool) : Code τ Unit :=
  repeatWhile do
    let s ← get
    if test s then return false
    else do
      release .mu
      take .mu
      return true

/-- `cv.wait_for(lock, interval, test)` -/
def waitFor (test : Shared τ → Bool) : Code τ Unit :=
  repeatWhile do
    let s ← get
    if test s then return false
    else do
      release .mu
      take .mu
      let timeout ← ask Bool
      return !timeout

/-- What both waits of an evaluator look for. -/
def wakes (ownedNodes ownedProducers : List Nat) (s : Shared τ) : Bool :=
  s.stopRequested ||
    (!ownedNodes.isEmpty && shouldCheckpointForNodesLocked s.impl ownedNodes) ||
    (ownedNodes.isEmpty && shouldCheckpointForProducersLocked s.impl ownedProducers)

/-- The body of the loop of `evaluator_loop`, entered with `s`. -/
def evaluatorTurn (ownedNodes ownedProducers : List Nat) (s : Shared τ) : Code τ Unit :=
  if !asyncCheckpointEnabled s.impl then waitUntil fun s => s.stopRequested
  else if !ownedNodes.isEmpty && shouldCheckpointForNodesLocked s.impl ownedNodes then
    drainLockedForNodes ownedNodes
  else if ownedNodes.isEmpty && shouldCheckpointForProducersLocked s.impl ownedProducers then
    drainLockedForProducers ownedProducers
  else if s.impl.config.checkpointIntervalUs > 0 && s.impl.pendingOperationCount > 0 then do
    waitFor (wakes ownedNodes ownedProducers)
    let s ← get
    -- The `break` is the end of a turn after which the loop finds `stop_requested`.
    onlyIf (!s.stopRequested)
      (if !ownedNodes.isEmpty then drainLockedForNodes ownedNodes
      else drainLockedForProducers ownedProducers)
  else waitUntil fun s => wakes ownedNodes ownedProducers s ||
    (asyncCheckpointEnabled s.impl && s.impl.config.checkpointIntervalUs > 0 &&
      s.impl.pendingOperationCount > 0)

/-- `evaluator_loop` -/
def evaluatorLoop (workerId workerCount : Nat) : Code τ Unit :=
  guarded .mu do
    let s ← get
    let ownedNodes :=
      if evaluatorBindingEnabled s.placementPolicy && s.topologyNodes > 0 then
        nodesForWorker workerId workerCount s.topologyNodes
      else []
    let ownedProducers := Impl.producersForEvaluator workerId workerCount s.impl.ptfoThreads.size
    repeatWhile do
      let s ← get
      if s.stopRequested then return false
      else do
        evaluatorTurn ownedNodes ownedProducers s
        return true

/-- The body of an evaluator's thread. -/
def evaluatorWorker (i workerCount : Nat) : Code τ Unit := do
  let s ← get
  let ownedNodes :=
    if evaluatorBindingEnabled s.placementPolicy && s.topologyNodes > 0 then
      nodesForWorker i (min s.impl.config.evaluatorThreads s.topologyNodes) s.topologyNodes
    else []
  let bound ← ask Bool
  onlyIf (!ownedNodes.isEmpty && bound) (guarded .mu (modify fun s =>
    { s with boundEvaluatorThreads := s.boundEvaluatorThreads + 1 }))
  evaluatorLoop i workerCount

/-! ## Calls that drain -/

/-- `drain_pending` -/
def drainPending : Code τ Unit := guarded .mu drainLocked

/-- `scan_range`.  The search in the tree takes none of these locks. -/
def scanRange : Code τ Unit := guarded .mu drainLocked

/-- The destructor, up to the joins. -/
def destructor : Code τ Unit :=
  guarded .mu do
    let s ← get
    onlyIf (s.impl.pendingOperationCount > 0) drainLocked
    modify fun s => { s with stopRequested := true }

end Tree

end Code

/-- What a thread may run. -/
inductive ThreadCall : Type
  | bufferedInsert (key : Int) (producerId : Nat)
  | eraseBuffered (key : Int) (producerId : Nat)
  | contains (key : Int)
  | bufferedOwner (key : Int)
  | globalContains (key : Int)
  | warmupInsert (key : Int)
  | pendingFutureNodes (producerId : Nat)
  | drainPending
  | scanRange
  | stats
  | evaluatorWorker (i workerCount : Nat)
  | destructor
deriving DecidableEq, Repr

/-- Its program.  What it answers is not needed. -/
def ThreadCall.prog {τ : Type} [GlobalTree τ] : ThreadCall → Code τ Unit
  | .bufferedInsert key p => Code.bufferedInsert key p
  | .eraseBuffered key p => Code.eraseBuffered key p
  | .contains key => do let _ ← Code.contains key
  | .bufferedOwner key => do let _ ← Code.bufferedOwner key
  | .globalContains key => do let _ ← Code.globalContains key
  | .warmupInsert key => Code.warmupInsert key
  | .pendingFutureNodes p => do let _ ← Code.pendingFutureNodes p
  | .drainPending => Code.drainPending
  | .scanRange => Code.scanRange
  | .stats => do let _ ← Code.stats
  | .evaluatorWorker i n => Code.evaluatorWorker i n
  | .destructor => Code.destructor

/-- A thread may run any of the calls. -/
def ThreadCall.allowed {τ ι : Type} [GlobalTree τ] (_ : ι) (p : Code τ Unit) : Prop :=
  ∃ call : ThreadCall, p = call.prog

end F3Tree
