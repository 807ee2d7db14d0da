import F3Tree.Replay

/-!
# The wrapper `FutureBTree`

`FutureBTree::Impl` of `src/f3tree.cpp` as a record, and its operations as
functions on it.  A producer call is split at its three critical sections
(`takeSequence`, `ptfoInsert`, `account`); a drain is one function, as it runs
under `mu` from end to end.

The NUMA node of the calling thread (`current_thread_numa_node`) enters as an
argument `numa`, `-1` when it is unknown.  Wall-clock measurements, thread
binding and the condition variable are left out.
-/

namespace F3Tree

inductive EvaluatorPolicy : Type
  | kF3K
  | kF3N
  | kDeterministicReplay
  | kLegacyKeyPartitioned
  | kLegacyNodePartitioned
deriving DecidableEq, Repr

structure RuntimeConfig : Type where
  producerThreads : Nat := 1
  evaluatorThreads : Nat := 1
  hashCapacity : Nat := 1024
  checkpointThresholdOps : Nat := 0
  checkpointIntervalUs : Nat := 0
  evaluatorPolicy : EvaluatorPolicy := .kF3N
deriving DecidableEq, Repr

/-- `validate_runtime_config` past the platform test. -/
def validateRuntimeConfig (config : RuntimeConfig) : Except String Unit :=
  if config.producerThreads = 0 then
    .error "producer_threads must be greater than zero"
  else if config.evaluatorThreads = 0 then
    .error "evaluator_threads must be greater than zero"
  else if config.hashCapacity = 0 then
    .error "hash_capacity must be greater than zero"
  else .ok ()

/-- `static_cast<int>` of a `std::size_t`. -/
def castInt (n : Nat) : Int :=
  if n % 2 ^ 32 < 2 ^ 31 then (n % 2 ^ 32 : Nat) else (n % 2 ^ 32 : Nat) - 2 ^ 32

/-- The capacity of the hashtables and directories that the tree's constructor
builds from `hash_capacity`, which reaches it as an `int`. -/
def RuntimeConfig.dirCap (config : RuntimeConfig) : Nat :=
  if castInt config.hashCapacity > 0 then (castInt config.hashCapacity).toNat else 1

theorem RuntimeConfig.dirCap_pos (config : RuntimeConfig) : 0 < config.dirCap := by
  unfold dirCap
  split
  · omega
  · exact Nat.one_pos

structure FutureBTreeStats : Type where
  checkpointCount : Nat := 0
  asyncCheckpointCount : Nat := 0
  replayedOps : Nat := 0
  replayedNodes : Nat := 0
  producerEnqueueLocalOps : Nat := 0
  producerEnqueueRemoteOps : Nat := 0
  producerEnqueueUnknownOps : Nat := 0
  checkpointSourceLocalOps : Nat := 0
  checkpointSourceRemoteOps : Nat := 0
  checkpointSourceUnknownOps : Nat := 0
deriving DecidableEq, Repr

/-- `kFutureNodeCapacity`. -/
def kFutureNodeCapacity : Nat := 30

/-- One more accounted operation of a producer. -/
def PTFOThreadState.bump (thread : PTFOThreadState) : PTFOThreadState :=
  { thread with
    nodeCount :=
      if thread.entryCount = 0 ∨ thread.entryCount % kFutureNodeCapacity = 0 then
        thread.nodeCount + 1
      else thread.nodeCount
    entryCount := thread.entryCount + 1 }

/-- `PTFOThreadState` with both counts reset. -/
def PTFOThreadState.reset (thread : PTFOThreadState) : PTFOThreadState :=
  { thread with nodeCount := 0, entryCount := 0 }

/-- The enqueue counters after one call from a thread on node `numa`. -/
def FutureBTreeStats.enqueue (stats : FutureBTreeStats) (homeNode : Nat) (numa : Int) :
    FutureBTreeStats :=
  if numa < 0 then
    { stats with producerEnqueueUnknownOps := stats.producerEnqueueUnknownOps + 1 }
  else if (homeNode : Int) = numa then
    { stats with producerEnqueueLocalOps := stats.producerEnqueueLocalOps + 1 }
  else
    { stats with producerEnqueueRemoteOps := stats.producerEnqueueRemoteOps + 1 }

/-- `FutureBTree::Impl`.  `nodeCount` is the size of
`pending_operation_count_by_node`.  `next_ptfo_sequence` is an atomic `uint64_t`: as a number
it is meant for processes of fewer than `2 ^ 64` calls, those of the pool's earlier processes
included. -/
structure Impl (τ : Type) : Type where
  config : RuntimeConfig
  tree : Btree τ
  ptfoThreads : PTFOThreads
  nextPtfoSequence : Nat
  pendingOperationCount : Nat
  nodeCount : Nat
  pendingOperationCountByNode : Nat → Nat
  stats : FutureBTreeStats

/-- Subtraction of `std::size_t`. -/
def sizeSub (a b : Nat) : Nat := if b ≤ a then a - b else a + 2 ^ 64 - b

namespace Impl

variable {τ : Type}

/-- The constructor: a tree, the sequence counter it resumes from, and the number
of NUMA nodes (`0` when the topology is unknown). -/
def init (config : RuntimeConfig) (tree : τ) (seqCounterResume topologyNodes : Nat) :
    Impl τ where
  config := config
  tree := .mk' config.producerThreads (castInt config.hashCapacity) tree
  ptfoThreads :=
    { size := config.producerThreads
      get := fun producer =>
        { homeNode := producer % if topologyNodes > 0 then topologyNodes else 1 } }
  nextPtfoSequence := max 1 (seqCounterResume + 1)
  pendingOperationCount := 0
  nodeCount := if topologyNodes > 0 then topologyNodes else 1
  pendingOperationCountByNode := fun _ => 0
  stats := {}

/-- `seq_counter_resume()` of a tree without a pool. -/
def dramSeqCounterResume : Nat := 1

/-! ## Producer calls -/

/-- `next_ptfo_sequence.fetch_add(1)`. -/
def takeSequence (s : Impl τ) : Nat × Impl τ :=
  (s.nextPtfoSequence, { s with nextPtfoSequence := s.nextPtfoSequence + 1 })

/-- The `future_insert` of a producer call. -/
def ptfoInsert (s : Impl τ) (key : Int) (producerId : Nat) (isDone : Bool)
    (sequence : Nat) : Impl τ :=
  { s with tree := s.tree.futureInsert key producerId isDone sequence }

/-- The accounting section of a producer call, under `mu`. -/
def account (s : Impl τ) (producerId : Nat) (numa : Int) : Impl τ :=
  let thread := s.ptfoThreads.get producerId
  { s with
    ptfoThreads :=
      { s.ptfoThreads with
        get := Function.update s.ptfoThreads.get producerId thread.bump }
    pendingOperationCount := s.pendingOperationCount + 1
    pendingOperationCountByNode :=
      Function.update s.pendingOperationCountByNode thread.homeNode
        (s.pendingOperationCountByNode thread.homeNode + 1)
    stats := s.stats.enqueue thread.homeNode numa }

/-- The body that `buffered_insert` and `erase_buffered` share. -/
def enqueue (s : Impl τ) (key : Int) (producerId : Nat) (isDone : Bool)
    (numa : Int) : Except String (Impl τ) :=
  if producerId ≥ s.ptfoThreads.size then
    .error "producer_id exceeds configured producer_threads"
  else
    let (sequence, s) := s.takeSequence
    .ok ((s.ptfoInsert key producerId isDone sequence).account producerId numa)

/-- `buffered_insert`. -/
def bufferedInsert (s : Impl τ) (key : Int) (producerId : Nat) (numa : Int) :
    Except String (Impl τ) :=
  s.enqueue key producerId false numa

/-- `erase_buffered`. -/
def eraseBuffered (s : Impl τ) (key : Int) (producerId : Nat) (numa : Int) :
    Except String (Impl τ) :=
  s.enqueue key producerId true numa

/-! ## Checkpoint accounting -/

/-- `record_checkpoint_locality_locked`. -/
def recordCheckpointLocalityLocked (s : Impl τ) (producerIds : List Nat) (numa : Int) :
    Impl τ :=
  { s with
    stats := producerIds.foldl
      (fun stats producer =>
        let thread := s.ptfoThreads.get producer
        if producer ≥ s.ptfoThreads.size ∨ thread.entryCount = 0 then stats
        else if numa < 0 then
          { stats with
            checkpointSourceUnknownOps :=
              stats.checkpointSourceUnknownOps + thread.entryCount }
        else if (thread.homeNode : Int) = numa then
          { stats with
            checkpointSourceLocalOps :=
              stats.checkpointSourceLocalOps + thread.entryCount }
        else
          { stats with
            checkpointSourceRemoteOps :=
              stats.checkpointSourceRemoteOps + thread.entryCount })
      s.stats }

/-- The body of `subtract_pending_counts_locked` at one producer. -/
def subtractPendingCount (s : Impl τ) (producer : Nat) : Impl τ :=
  if producer ≥ s.ptfoThreads.size then s
  else
    let thread := s.ptfoThreads.get producer
    { s with
      pendingOperationCountByNode :=
        if thread.homeNode < s.nodeCount then
          Function.update s.pendingOperationCountByNode thread.homeNode
            (sizeSub (s.pendingOperationCountByNode thread.homeNode) thread.entryCount)
        else s.pendingOperationCountByNode
      pendingOperationCount := sizeSub s.pendingOperationCount thread.entryCount
      ptfoThreads :=
        { s.ptfoThreads with
          get := Function.update s.ptfoThreads.get producer thread.reset } }

/-- `subtract_pending_counts_locked`. -/
def subtractPendingCountsLocked (s : Impl τ) (producerIds : List Nat) : Impl τ :=
  producerIds.foldl subtractPendingCount s

/-- The counters that every drain advances after its replay. -/
def addReplayStats (s : Impl τ) (replay : ReplayStats) (async : Bool) : Impl τ :=
  { s with
    stats :=
      { s.stats with
        checkpointCount := s.stats.checkpointCount + 1
        asyncCheckpointCount :=
          if async then s.stats.asyncCheckpointCount + 1
          else s.stats.asyncCheckpointCount
        replayedOps := s.stats.replayedOps + replay.appliedOps
        replayedNodes := s.stats.replayedNodes + replay.replayedNodes } }

/-! ## Drains -/

section Drain

variable [GlobalTree τ]

/-- The `switch` on the evaluator policy.  `evaluatorSlots` is used by F3-K
only. -/
def replay (s : Impl τ) (producerIds : List Nat) (evaluatorSlots : Nat) :
    Btree τ × ReplayStats :=
  match s.config.evaluatorPolicy with
  | .kF3K | .kLegacyKeyPartitioned =>
      s.tree.applyKeyPartitionedPtfoReplay s.ptfoThreads producerIds evaluatorSlots
  | .kF3N | .kLegacyNodePartitioned =>
      s.tree.applyNodeOrderedPtfoReplay s.ptfoThreads producerIds
  | .kDeterministicReplay =>
      s.tree.applyKeyOrderedPtfoReplay s.ptfoThreads producerIds

/-- The producers whose accounted entry count is not zero. -/
def pendingProducers (s : Impl τ) : List Nat :=
  (List.range s.ptfoThreads.size).filter fun p => (s.ptfoThreads.get p).entryCount > 0

/-- The counters as `drain_locked` leaves them. -/
def zeroCounts (s : Impl τ) : Impl τ :=
  { s with
    pendingOperationCountByNode := fun _ => 0
    ptfoThreads :=
      { s.ptfoThreads with get := fun p => (s.ptfoThreads.get p).reset }
    pendingOperationCount := 0 }

/-- `drain_locked`. -/
def drainLocked (s : Impl τ) (numa : Int) : Impl τ :=
  if s.pendingOperationCount = 0 then s
  else
    let producerIds := s.pendingProducers
    let s := s.recordCheckpointLocalityLocked producerIds numa
    let (tree, replayStats) := s.replay producerIds s.config.evaluatorThreads
    let s := { s with tree := tree.futureClearLookupDirectory }
    s.zeroCounts.addReplayStats replayStats false

/-- What `drain_locked_for_nodes` and `drain_locked_for_producers` do once they
have picked their producers. -/
def drainSlice (s : Impl τ) (producerIds : List Nat) (evaluatorSlots : Nat)
    (numa : Int) : Impl τ :=
  if producerIds = [] then s
  else
    let s := s.recordCheckpointLocalityLocked producerIds numa
    let (tree, replayStats) := s.replay producerIds evaluatorSlots
    let s := { s with tree := tree.futureClearLookupEntriesForProducers producerIds }
    (s.subtractPendingCountsLocked producerIds).addReplayStats replayStats true

/-- `collect_producers_for_nodes`. -/
def collectProducersForNodes (s : Impl τ) (nodeIds : List Nat) : List Nat :=
  (List.range s.ptfoThreads.size).filter fun p =>
    (s.ptfoThreads.get p).entryCount ≠ 0 ∧ (s.ptfoThreads.get p).homeNode ∈ nodeIds

/-- `drain_locked_for_nodes`. -/
def drainLockedForNodes (s : Impl τ) (nodeIds : List Nat) (numa : Int) : Impl τ :=
  s.drainSlice (s.collectProducersForNodes nodeIds) s.config.evaluatorThreads numa

/-- The filter at the head of `drain_locked_for_producers`. -/
def activeProducers (s : Impl τ) (producerIds : List Nat) : List Nat :=
  producerIds.filter fun p =>
    p < s.ptfoThreads.size ∧ (s.ptfoThreads.get p).entryCount > 0

/-- `drain_locked_for_producers`. -/
def drainLockedForProducers (s : Impl τ) (producerIds : List Nat) (numa : Int) :
    Impl τ :=
  s.drainSlice (s.activeProducers producerIds) 1 numa

/-- `drain_pending`. -/
def drainPending (s : Impl τ) (numa : Int) : Impl τ := s.drainLocked numa

/-! ## Lookups -/

/-- `global_contains`. -/
def globalContains (s : Impl τ) (key : Int) : Bool := btreeSearch s.tree.tree key

/-- `contains`. -/
def contains (s : Impl τ) (key : Int) : Bool :=
  match (s.tree.futureHashDirectedStateViaPtfo key).state with
  | .present => true
  | .tombstone => false
  | .absent => btreeSearch s.tree.tree key

end Drain

/-- The slice of producers that `producers_for_evaluator` gives a worker. -/
def producersForEvaluator (workerId workerCount totalProducers : Nat) : List Nat :=
  if workerCount = 0 ∨ totalProducers = 0 then []
  else
    let chunk := totalProducers / workerCount
    let start := workerId * chunk
    let stop := if workerId + 1 = workerCount then totalProducers else start + chunk
    (List.range stop).drop start

end Impl

end F3Tree
