import F3Tree.Locks
import F3Tree.NodeCounts

/-!
# The workers and their producers

The constructor of `FutureBTree` starts a number of workers, and each of them drains the
producers of its NUMA nodes, or a slice of all producers when it is not bound to nodes.
Either way a producer has one owner among the workers (`Shared.mem_drainedBy`): with bound
workers that of its home node, else that of its slice, where the last worker has what the
division leaves over.
-/

namespace F3Tree

/-! ## Slices and nodes -/

namespace Impl

/-- The worker whose slice a producer is in. -/
def sliceOwner (workerCount totalProducers p : Nat) : Nat :=
  if totalProducers / workerCount = 0 then workerCount - 1
  else min (p / (totalProducers / workerCount)) (workerCount - 1)

theorem sliceOwner_lt {workerCount : Nat} (some : 0 < workerCount) (totalProducers p : Nat) :
    sliceOwner workerCount totalProducers p < workerCount := by
  have last : workerCount - 1 < workerCount := Nat.sub_lt some Nat.one_pos
  rw [sliceOwner]
  split
  · exact last
  · exact (Nat.min_le_right ..).trans_lt last

theorem mem_range_drop {start stop p : Nat} :
    p ∈ (List.range stop).drop start ↔ start ≤ p ∧ p < stop := by
  rw [List.range_eq_range', List.drop_range', List.mem_range'_1]
  omega

theorem mem_producersForEvaluator {workerId workerCount totalProducers p : Nat}
    (hid : workerId < workerCount) :
    p ∈ producersForEvaluator workerId workerCount totalProducers ↔
      p < totalProducers ∧ sliceOwner workerCount totalProducers p = workerId := by
  have some : 0 < workerCount := Nat.zero_lt_of_lt hid
  unfold producersForEvaluator sliceOwner
  generalize hchunk : totalProducers / workerCount = chunk
  have fits : workerCount * chunk ≤ totalProducers := hchunk ▸ Nat.mul_div_le ..
  split
  · rename_i none
    have none := none.resolve_left some.ne'
    simp [none]
  · rw [mem_range_drop]
    rcases Nat.eq_zero_or_pos chunk with rfl | pos
    · -- More workers than producers: the last one has them all.
      rw [if_pos rfl]
      split
      · omega
      · omega
    · rw [if_neg pos.ne']
      have lower : workerId * chunk ≤ p ↔ workerId ≤ p / chunk := (Nat.le_div_iff_mul_le pos).symm
      rw [lower]
      split
      · omega
      · rename_i notLast
        have upper : p < workerId * chunk + chunk ↔ p / chunk < workerId + 1 := by
          rw [Nat.div_lt_iff_lt_mul pos, Nat.succ_mul]
        have inside : (workerId + 1) * chunk ≤ workerCount * chunk :=
          Nat.mul_le_mul_right _ hid
        rw [Nat.succ_mul] at inside
        rw [upper]
        have most : p / chunk < workerId + 1 → p < totalProducers := fun h =>
          lt_of_lt_of_le (upper.mpr h) (inside.trans fits)
        omega

end Impl

theorem Code.mem_nodesForWorker {workerId workerCount nodeCount node : Nat}
    (some : 0 < workerCount) :
    node ∈ nodesForWorker workerId workerCount nodeCount ↔
      node < nodeCount ∧ node % workerCount = workerId := by
  rw [nodesForWorker, if_neg some.ne', List.mem_filter, List.mem_range, decide_eq_true_eq]

theorem evaluatorThreads_pos {config : RuntimeConfig}
    (valid : validateRuntimeConfig config = .ok ()) : 0 < config.evaluatorThreads := by
  refine Nat.pos_of_ne_zero fun none => ?_
  unfold validateRuntimeConfig at valid
  rw [if_pos none] at valid
  split at valid
  · cases valid
  · cases valid

/-! ## The workers -/

namespace Shared

variable {τ : Type}

/-- The wrapper as its constructor leaves it, before it starts the workers. -/
def init (config : RuntimeConfig) (policy : PlacementPolicy) (tree : τ)
    (seqCounterResume topologyNodes : Nat) : Shared τ where
  impl := Impl.init config tree seqCounterResume topologyNodes
  placementPolicy := policy
  topologyNodes := topologyNodes
  producerBound := fun _ => false
  stopRequested := false
  boundEvaluatorThreads := 0
  boundProducerThreads := 0
  hardNumaMemoryBound := 0

/-- Whether the workers are bound to nodes. -/
def binds (s : Shared τ) : Bool :=
  evaluatorBindingEnabled s.placementPolicy && s.topologyNodes > 0

/-- `worker_count` of the constructor. -/
def workerCount (s : Shared τ) : Nat :=
  let availableNodes := if s.topologyNodes > 0 then s.topologyNodes else 1
  if s.binds then min s.impl.config.evaluatorThreads availableNodes
  else s.impl.config.evaluatorThreads

/-- `owned_nodes` of `evaluator_loop`. -/
def ownedNodes (s : Shared τ) (workerId : Nat) : List Nat :=
  if s.binds then Code.nodesForWorker workerId s.workerCount s.topologyNodes else []

/-- `owned_producers` of `evaluator_loop`. -/
def ownedProducers (s : Shared τ) (workerId : Nat) : List Nat :=
  Impl.producersForEvaluator workerId s.workerCount s.impl.ptfoThreads.size

/-- The producers that a worker drains: `evaluator_loop` calls `drain_locked_for_nodes` if it
has nodes, else `drain_locked_for_producers`. -/
def drainedBy (s : Shared τ) (workerId : Nat) : List Nat :=
  if !(s.ownedNodes workerId).isEmpty then
    s.impl.collectProducersForNodes (s.ownedNodes workerId)
  else s.impl.activeProducers (s.ownedProducers workerId)

/-- The one worker that drains a producer. -/
def owner (s : Shared τ) (p : Nat) : Nat :=
  if s.binds then (s.impl.ptfoThreads.get p).homeNode % s.workerCount
  else Impl.sliceOwner s.workerCount s.impl.ptfoThreads.size p

theorem workerCount_pos {s : Shared τ} (some : 0 < s.impl.config.evaluatorThreads) :
    0 < s.workerCount := by
  rw [workerCount]
  split
  · exact Nat.lt_min.mpr ⟨some, by split <;> omega⟩
  · exact some

theorem owner_lt {s : Shared τ} (some : 0 < s.impl.config.evaluatorThreads) (p : Nat) :
    s.owner p < s.workerCount := by
  have some := workerCount_pos some
  rw [owner]
  split
  · exact Nat.mod_lt _ some
  · exact Impl.sliceOwner_lt some _ p

/-- There are no more bound workers than nodes, so each has a node. -/
theorem ownedNodes_ne_nil {s : Shared τ} (bound : s.binds = true) {workerId : Nat}
    (hid : workerId < s.workerCount) : s.ownedNodes workerId ≠ [] := by
  have nodes : 0 < s.topologyNodes := by
    rw [binds, Bool.and_eq_true, decide_eq_true_eq] at bound
    exact bound.2
  have fewer : s.workerCount ≤ s.topologyNodes := by
    rw [workerCount, if_pos bound, if_pos nodes]
    exact Nat.min_le_right ..
  have mem : workerId ∈ s.ownedNodes workerId := by
    rw [ownedNodes, if_pos bound, Code.mem_nodesForWorker (Nat.zero_lt_of_lt hid)]
    exact ⟨hid.trans_le fewer, Nat.mod_eq_of_lt hid⟩
  exact List.ne_nil_of_mem mem

/-- A worker drains the pending producers that it owns. -/
theorem mem_drainedBy {s : Shared τ} {workerId p : Nat} (hid : workerId < s.workerCount)
    (homes : s.binds = true → (s.impl.ptfoThreads.get p).homeNode < s.topologyNodes) :
    p ∈ s.drainedBy workerId ↔
      p < s.impl.ptfoThreads.size ∧ (s.impl.ptfoThreads.get p).entryCount ≠ 0 ∧
        s.owner p = workerId := by
  cases bound : s.binds with
  | true =>
      have some := ownedNodes_ne_nil bound hid
      have nonempty : (!(s.ownedNodes workerId).isEmpty) = true := by simpa using some
      rw [drainedBy, if_pos nonempty, Impl.collectProducersForNodes, List.mem_filter,
        List.mem_range, decide_eq_true_eq, ownedNodes, if_pos bound,
        Code.mem_nodesForWorker (Nat.zero_lt_of_lt hid), owner, if_pos bound]
      have home := homes bound
      tauto
  | false =>
      have unbound : ¬ s.binds = true := by simp [bound]
      have none : s.ownedNodes workerId = [] := if_neg unbound
      rw [drainedBy, none, if_neg (by simp), Impl.activeProducers, List.mem_filter,
        decide_eq_true_eq, ownedProducers, Impl.mem_producersForEvaluator hid, owner,
        if_neg unbound]
      omega

/-! ## In every run -/

section Run

variable [GlobalTree τ] {config : RuntimeConfig}

theorem config_eventRun (valid : validateRuntimeConfig config = .ok ()) (tree : τ)
    (resume topologyNodes : Nat) (events : List Event) :
    ((Impl.init config tree resume topologyNodes).eventRun events).config = config := by
  induction events using List.reverseRecOn with
  | nil => rfl
  | append_singleton events e ih =>
      have charted := Impl.charted_run valid tree resume topologyNodes events
      rw [Impl.eventRun_concat]
      rcases Impl.event_cases charted.accounted.threads e with
        ⟨op, numa, -, -, hevent⟩ | ⟨ids, cleared, drains, -⟩ | hevent
      · rw [hevent]
        exact ih
      · exact drains.config.trans ih
      · rw [hevent]
        exact ih

/-- When every producer has pending operations, what the workers drain are pairwise disjoint
sets of producers, and together all of them. -/
theorem drained_once (valid : validateRuntimeConfig config = .ok ()) (policy : PlacementPolicy)
    (tree : τ) (resume topologyNodes : Nat) (events : List Event) :
    let s : Shared τ := { init config policy tree resume topologyNodes with
      impl := (Impl.init config tree resume topologyNodes).eventRun events }
    (∀ p < config.producerThreads, (s.impl.ptfoThreads.get p).entryCount ≠ 0) →
      (∀ i j, i < s.workerCount → j < s.workerCount → i ≠ j →
        (s.drainedBy i).Disjoint (s.drainedBy j)) ∧
      ∀ p, (∃ i < s.workerCount, p ∈ s.drainedBy i) ↔ p < config.producerThreads := by
  intro s pending
  have charted := Impl.charted_run valid tree resume topologyNodes events
  have size : s.impl.ptfoThreads.size = config.producerThreads :=
    charted.accounted.threads.trans charted.nThreads
  have workers : 0 < s.impl.config.evaluatorThreads := by
    rw [config_eventRun valid tree resume topologyNodes events]
    exact evaluatorThreads_pos valid
  have homes : ∀ p, s.binds = true →
      (s.impl.ptfoThreads.get p).homeNode < s.topologyNodes := fun p bound => by
    rw [binds, Bool.and_eq_true, decide_eq_true_eq] at bound
    have nodes : Impl.homeNodes topologyNodes = topologyNodes := if_pos bound.2
    have home : (s.impl.ptfoThreads.get p).homeNode = p % topologyNodes :=
      nodes ▸ charted.home p
    exact home ▸ Nat.mod_lt _ bound.2
  constructor
  · intro i j hi hj ne p mem mem'
    obtain ⟨-, -, mine⟩ := (mem_drainedBy hi (homes p)).mp mem
    obtain ⟨-, -, yours⟩ := (mem_drainedBy hj (homes p)).mp mem'
    exact ne (mine.symm.trans yours)
  · intro p
    constructor
    · rintro ⟨i, hi, mem⟩
      exact size ▸ ((mem_drainedBy hi (homes p)).mp mem).1
    · intro hp
      exact ⟨s.owner p, owner_lt workers p,
        (mem_drainedBy (owner_lt workers p) (homes p)).mpr ⟨size.symm ▸ hp, pending p hp, rfl⟩⟩

/-- Three producers on two nodes, and a worker too many. -/
theorem drained_once_three :
    let config : RuntimeConfig :=
      { producerThreads := 3, evaluatorThreads := 3, hashCapacity := 4 }
    let events : List Event := [.call (.bufferedInsert 1 0 0), .call (.bufferedInsert 2 1 0),
      .call (.eraseBuffered 1 2 0)]
    let s : Shared (Finset Int) := { init config .kBindEvaluatorsByNode (∅ : Finset Int) 1 2 with
      impl := (Impl.init config (∅ : Finset Int) 1 2).eventRun events }
    (s.drainedBy 0, s.drainedBy 1, s.workerCount) = ([0, 2], [1], 2) ∧
      (∀ i j, i < s.workerCount → j < s.workerCount → i ≠ j →
        (s.drainedBy i).Disjoint (s.drainedBy j)) ∧
      ∀ p, (∃ i < s.workerCount, p ∈ s.drainedBy i) ↔ p < config.producerThreads :=
  ⟨by decide, drained_once rfl _ _ _ _ _ (by decide)⟩

end Run

end Shared

end F3Tree
