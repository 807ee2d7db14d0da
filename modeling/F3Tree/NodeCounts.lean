import F3Tree.Checkpoint
import F3Tree.ChainOrder

/-!
# Node counts

The wrapper predicts the number of nodes on a chain from its own entry count, with
`kFutureNodeCapacity` entries a node; the chain takes `cardinality` entries a node.  With
calls issued one at a time the entry count is that of the chain, so the prediction is
right exactly as long as both capacities need the same number of nodes
(`pendingFutureNodes_run_iff`).
-/

namespace F3Tree

open LastWriter

/-! ## What replays leave of the chains -/

namespace Btree

variable {τ : Type} {b b' b'' : Btree τ}

/-- Every chain has been left alone or emptied. -/
def KeepsOrEmpties (b b' : Btree τ) : Prop :=
  ∀ p, b'.localFut p = b.localFut p ∨ b'.localFut p = (b.localFut p).cleared

theorem KeepsOrEmpties.refl (b : Btree τ) : b.KeepsOrEmpties b := fun _ => Or.inl rfl

theorem KeepsOrEmpties.trans (h : b.KeepsOrEmpties b') (h' : b'.KeepsOrEmpties b'') :
    b.KeepsOrEmpties b'' := by
  intro p
  rcases h p with same | emptied
  · rw [← same]
    exact h' p
  · rcases h' p with same' | emptied'
    · exact Or.inr (same'.trans emptied)
    · refine Or.inr (emptied'.trans ?_)
      rw [emptied]
      rfl

theorem KeepsOrEmpties.packed (h : b.KeepsOrEmpties b') {p : Nat}
    (packed : (b.localFut p).Packed) : (b'.localFut p).Packed := by
  rcases h p with same | emptied
  · exact same ▸ packed
  · exact emptied ▸ LocalFut.packed_cleared _

theorem keepsOrEmpties_update (b : Btree τ) (tree : τ) (tid : Nat) :
    b.KeepsOrEmpties { b with
      tree := tree
      localFut := Function.update b.localFut tid (b.localFut tid).cleared } := by
  intro p
  dsimp only
  by_cases hp : p = tid
  · rw [hp, Function.update_self]
    exact Or.inr rfl
  · rw [Function.update_of_ne hp]
    exact Or.inl rfl

theorem keepsOrEmpties_clear (threads : PTFOThreads) (ids : List Nat) (b : Btree τ) :
    b.KeepsOrEmpties (b.clearPtfoThreadsForProducers threads ids) := by
  unfold clearPtfoThreadsForProducers
  induction ids generalizing b with
  | nil => exact .refl b
  | cons p ids ih =>
      rw [List.foldl_cons]
      refine .trans ?_ (ih _)
      split
      · exact .refl b
      · unfold futureClearThread
        split
        · exact .refl b
        · exact b.keepsOrEmpties_update b.tree p

theorem localFut_futureClearLookupEntriesForProducers (ids : List Nat) (b : Btree τ) :
    (b.futureClearLookupEntriesForProducers ids).localFut = b.localFut := by
  unfold futureClearLookupEntriesForProducers
  induction ids generalizing b with
  | nil => rfl
  | cons p ids ih =>
      rw [List.foldl_cons, ih]
      split
      · rfl
      · rfl

variable [GlobalTree τ]

theorem keepsOrEmpties_drainProducers (threads : PTFOThreads) (ids : List Nat)
    (acc : Btree τ × ReplayStats) :
    acc.1.KeepsOrEmpties (ids.foldl (drainProducer threads) acc).1 := by
  induction ids generalizing acc with
  | nil => exact .refl acc.1
  | cons p ids ih =>
      rw [List.foldl_cons]
      refine .trans ?_ (ih _)
      unfold drainProducer
      split
      · exact .refl acc.1
      · dsimp only
        unfold futureDrainThreadFromTail
        split
        · exact .refl acc.1
        · exact acc.1.keepsOrEmpties_update _ p

end Btree

namespace Impl

variable {τ : Type} {s s' : Impl τ}

/-- `pending_future_nodes` -/
def pendingFutureNodes (s : Impl τ) (producerId : Nat) : Except String Nat :=
  if producerId ≥ s.ptfoThreads.size then
    .error "producer_id exceeds configured producer_threads"
  else .ok (s.ptfoThreads.get producerId).nodeCount

/-- Every chain has been left alone or emptied, and so has every thread state. -/
structure KeepsOrEmpties (s s' : Impl τ) : Prop where
  chains : s.tree.KeepsOrEmpties s'.tree
  threads : ∀ p, s'.ptfoThreads.get p = s.ptfoThreads.get p ∨
    s'.ptfoThreads.get p = (s.ptfoThreads.get p).reset

/-- The wrapper's prediction, from the entry count. -/
def Predicted (s : Impl τ) : Prop :=
  ∀ p, (s.ptfoThreads.get p).nodeCount =
    ((s.ptfoThreads.get p).entryCount + (kFutureNodeCapacity - 1)) / kFutureNodeCapacity

theorem predicted_bump (thread : PTFOThreadState)
    (h : thread.nodeCount =
      (thread.entryCount + (kFutureNodeCapacity - 1)) / kFutureNodeCapacity) :
    thread.bump.nodeCount =
      (thread.bump.entryCount + (kFutureNodeCapacity - 1)) / kFutureNodeCapacity := by
  unfold PTFOThreadState.bump
  dsimp only
  rw [h]
  unfold kFutureNodeCapacity
  split
  · omega
  · omega

theorem Predicted.keepsOrEmpties (predicted : s.Predicted) (h : s.KeepsOrEmpties s') :
    s'.Predicted := by
  intro p
  rcases h.threads p with same | reset
  · rw [same]
    exact predicted p
  · have zero : (s.ptfoThreads.get p).reset.entryCount = 0 := rfl
    rw [reset, zero]
    rfl

theorem threads_subtractPendingCountsLocked (ids : List Nat) (s : Impl τ) (p : Nat) :
    (s.subtractPendingCountsLocked ids).ptfoThreads.get p = s.ptfoThreads.get p ∨
      (s.subtractPendingCountsLocked ids).ptfoThreads.get p = (s.ptfoThreads.get p).reset := by
  unfold subtractPendingCountsLocked
  induction ids generalizing s with
  | nil => exact Or.inl rfl
  | cons q ids ih =>
      rw [List.foldl_cons]
      have one : (s.subtractPendingCount q).ptfoThreads.get p = s.ptfoThreads.get p ∨
          (s.subtractPendingCount q).ptfoThreads.get p = (s.ptfoThreads.get p).reset := by
        unfold subtractPendingCount
        split
        · exact Or.inl rfl
        · dsimp only
          by_cases hp : p = q
          · rw [hp, Function.update_self]
            exact Or.inr rfl
          · rw [Function.update_of_ne hp]
            exact Or.inl rfl
      rcases one with same | reset
      · rw [← same]
        exact ih _
      · rcases ih (s.subtractPendingCount q) with same' | reset'
        · exact Or.inr (same'.trans reset)
        · refine Or.inr (reset'.trans ?_)
          rw [reset]
          rfl

section Drain

variable [GlobalTree τ]

theorem keepsOrEmpties_replay (s : Impl τ) (ids : List Nat) (slots : Nat) :
    s.tree.KeepsOrEmpties (s.replay ids slots).1 := by
  have partitioned : s.tree.KeepsOrEmpties
      (s.tree.applyKeyPartitionedPtfoReplay s.ptfoThreads ids slots).1 := by
    obtain ⟨order, -, same⟩ := s.tree.applyKeyPartitioned_eq s.ptfoThreads ids slots
    rw [same]
    exact Btree.keepsOrEmpties_drainProducers s.ptfoThreads order (s.tree, {})
  have cleared : ∀ tree : τ, s.tree.KeepsOrEmpties
      (Btree.clearPtfoThreadsForProducers { s.tree with tree := tree } s.ptfoThreads ids) :=
    fun tree => Btree.keepsOrEmpties_clear s.ptfoThreads ids { s.tree with tree := tree }
  unfold replay
  cases s.config.evaluatorPolicy with
  | kF3K => exact partitioned
  | kF3N => exact cleared _
  | kDeterministicReplay => exact cleared _
  | kLegacyKeyPartitioned => exact partitioned
  | kLegacyNodePartitioned => exact cleared _

theorem keepsOrEmpties_drainSlice (s : Impl τ) (ids : List Nat) (slots : Nat) (numa : Int) :
    s.KeepsOrEmpties (s.drainSlice ids slots numa) := by
  rw [drainSlice]
  split
  · exact ⟨.refl s.tree, fun _ => Or.inl rfl⟩
  · dsimp only
    refine ⟨?_, threads_subtractPendingCountsLocked ids _⟩
    have same := (subtracted_locked ids { s.recordCheckpointLocalityLocked ids numa with
      tree := (s.replay ids slots).1.futureClearLookupEntriesForProducers ids }).tree
    refine (s.keepsOrEmpties_replay ids slots).trans fun p => Or.inl ?_
    refine (congrFun (congrArg Btree.localFut same) p).trans ?_
    exact congrFun (Btree.localFut_futureClearLookupEntriesForProducers ids _) p

theorem keepsOrEmpties_drainLocked (s : Impl τ) (numa : Int) :
    s.KeepsOrEmpties (s.drainLocked numa) := by
  rw [drainLocked]
  split
  · exact ⟨.refl s.tree, fun _ => Or.inl rfl⟩
  · refine ⟨(s.keepsOrEmpties_replay s.pendingProducers s.config.evaluatorThreads).trans
      fun p => Or.inl ?_, fun p => Or.inr rfl⟩
    exact congrFun (Btree.dirsCleared_foldl _ _).localFut p

/-! ## Runs -/

/-- The number of NUMA nodes that producers are spread over. -/
def homeNodes (topologyNodes : Nat) : Nat := if topologyNodes > 0 then topologyNodes else 1

/-- The operations that producer `p` buffers after its last drain. -/
def bufferedSince (topologyNodes p : Nat) (events : List Event) : Nat :=
  events.foldl (fun count e =>
    match e with
    | .call (.bufferedInsert _ q _) | .call (.eraseBuffered _ q _) =>
        if q = p then count + 1 else count
    | .call (.drainPending _) => 0
    | .checkpointProducers producerIds _ => if p ∈ producerIds then 0 else count
    | .checkpointNodes nodeIds _ => if p % homeNodes topologyNodes ∈ nodeIds then 0 else count) 0

/-- A state between events: `count p` operations are on the chain of `p`, in packed nodes, and
the wrapper has predicted the number of nodes. -/
structure Charted (config : RuntimeConfig) (topologyNodes : Nat) (count : Nat → Nat)
    (s : Impl τ) : Prop where
  accounted : s.Accounted
  nThreads : s.tree.nThreads = config.producerThreads
  home : ∀ p, (s.ptfoThreads.get p).homeNode = p % homeNodes topologyNodes
  packed : ∀ p, (s.tree.localFut p).Packed
  predicted : s.Predicted
  buffered : ∀ p < config.producerThreads, (s.tree.pending p).length = count p

section Step

variable {config : RuntimeConfig} {topologyNodes : Nat} {count count' : Nat → Nat}

omit [GlobalTree τ] in
/-- A producer call lengthens its chain by one. -/
theorem Charted.enqueued (charted : s.Charted config topologyNodes count) {p : Nat}
    (hp : p < config.producerThreads) (key : Int) (isDone : Bool) (numa : Int) :
    (s.enqueued key p isDone numa).Charted config topologyNodes
      fun q => if p = q then count q + 1 else count q := by
  have threads : (s.enqueued key p isDone numa).ptfoThreads.get =
    Function.update s.ptfoThreads.get p (s.ptfoThreads.get p).bump := rfl
  have chains : (s.enqueued key p isDone numa).tree.localFut =
    Function.update s.tree.localFut p
      ((s.tree.localFut p).insert ⟨key, isDone, s.nextPtfoSequence⟩) := rfl
  refine ⟨charted.accounted.enqueued (charted.nThreads.symm ▸ hp), charted.nThreads,
    fun q => ?_, fun q => ?_, fun q => ?_, fun q hq => ?_⟩
  · rw [threads]
    by_cases hqp : q = p
    · rw [hqp, Function.update_self]
      exact charted.home p
    · rw [Function.update_of_ne hqp]
      exact charted.home q
  · rw [chains]
    by_cases hqp : q = p
    · rw [hqp, Function.update_self]
      exact (charted.packed p).insert _
    · rw [Function.update_of_ne hqp]
      exact charted.packed q
  · rw [threads]
    by_cases hqp : q = p
    · rw [hqp, Function.update_self]
      exact predicted_bump _ (charted.predicted p)
    · rw [Function.update_of_ne hqp]
      exact charted.predicted q
  · rw [pending_enqueued]
    by_cases hqp : q = p
    · subst hqp
      rw [Function.update_self, List.length_append, List.length_singleton, if_pos rfl,
        charted.buffered q hq]
    · rw [Function.update_of_ne hqp, if_neg (Ne.symm hqp), charted.buffered q hq]

omit [GlobalTree τ] in
/-- A call by an unconfigured producer throws. -/
theorem Charted.enqueue (charted : s.Charted config topologyNodes count) (key : Int) (q : Nat)
    (isDone : Bool) (numa : Int) :
    Charted config topologyNodes (fun p => if q = p then count p + 1 else count p)
      (match s.enqueue key q isDone numa with
      | .ok s' => s'
      | .error _ => s) := by
  have size : s.ptfoThreads.size = config.producerThreads :=
    charted.accounted.threads.trans charted.nThreads
  rcases Nat.lt_or_ge q s.ptfoThreads.size with hq | hq
  · rw [enqueue_of_lt hq]
    exact charted.enqueued (size ▸ hq) key isDone numa
  · rw [enqueue_of_ge hq]
    refine ⟨charted.accounted, charted.nThreads, charted.home, charted.packed,
      charted.predicted, fun p hp => ?_⟩
    have hqp : q ≠ p := by omega
    rw [if_neg hqp]
    exact charted.buffered p hp

/-- A drain empties the chains of its producers. -/
theorem Charted.drains (charted : s.Charted config topologyNodes count) {ids cleared : List Nat}
    (drains : s.Drains s' ids cleared) (keeps : s.KeepsOrEmpties s')
    (same : ∀ p < config.producerThreads, p ∉ ids → count' p = count p)
    (emptied : ∀ p < config.producerThreads, p ∈ ids → count' p = 0) :
    s'.Charted config topologyNodes count' := by
  refine ⟨charted.accounted.drains drains, drains.nThreads.trans charted.nThreads,
    fun p => ?_, fun p => keeps.chains.packed (charted.packed p),
    charted.predicted.keepsOrEmpties keeps, fun p hp => ?_⟩
  · rcases keeps.threads p with same | reset
    · rw [same]
      exact charted.home p
    · rw [reset]
      exact charted.home p
  · rw [drains.pending]
    split
    · rename_i mem
      exact (emptied p hp mem).symm
    · rename_i notMem
      exact (charted.buffered p hp).trans (same p hp notMem).symm

omit [GlobalTree τ] in
/-- A producer without accounted operations has an empty chain. -/
theorem Charted.count_eq_zero (charted : s.Charted config topologyNodes count) {p : Nat}
    (hp : p < config.producerThreads) (none : (s.ptfoThreads.get p).entryCount = 0) :
    count p = 0 := by
  rw [← charted.buffered p hp, ← none]
  exact (charted.accounted.entryCount p (charted.nThreads.symm ▸ hp)).symm

/-- A drain of the producers that `picked` names and that have something accounted. -/
theorem Charted.slice (charted : s.Charted config topologyNodes count) (picked : Nat → Prop)
    [DecidablePred picked] {ids : List Nat} (active : s.Active ids)
    (mem : ∀ p < config.producerThreads,
      p ∈ ids ↔ picked p ∧ (s.ptfoThreads.get p).entryCount ≠ 0)
    (slots : Nat) (numa : Int) :
    (s.drainSlice ids slots numa).Charted config topologyNodes
      fun p => if picked p then 0 else count p := by
  refine charted.drains (drains_drainSlice active slots numa)
    (s.keepsOrEmpties_drainSlice ids slots numa) (fun p hp notMem => ?_) (fun p hp here => ?_)
  · split
    · rename_i hpicked
      have none : (s.ptfoThreads.get p).entryCount = 0 := by
        by_contra some
        exact notMem ((mem p hp).mpr ⟨hpicked, some⟩)
      exact (charted.count_eq_zero hp none).symm
    · rfl
  · exact if_pos ((mem p hp).mp here).1

/-- Every event keeps the chart. -/
theorem Charted.event {events : List Event}
    (charted : s.Charted config topologyNodes fun p => bufferedSince topologyNodes p events)
    (e : Event) :
    (s.event e).Charted config topologyNodes
      fun p => bufferedSince topologyNodes p (events ++ [e]) := by
  have size : s.ptfoThreads.size = config.producerThreads :=
    charted.accounted.threads.trans charted.nThreads
  have threads := charted.accounted.threads
  simp only [bufferedSince, List.foldl_concat]
  simp only [bufferedSince] at charted
  cases e with
  | call c =>
      cases c with
      | bufferedInsert key q numa =>
          exact charted.enqueue key q false numa
      | eraseBuffered key q numa =>
          exact charted.enqueue key q true numa
      | drainPending numa =>
          obtain ⟨cleared, drains, -⟩ := charted.accounted.drains_drainPending numa
          refine charted.drains drains (s.keepsOrEmpties_drainLocked numa)
            (fun p hp notMem => ?_) fun _ _ _ => rfl
          have hp' : p < s.tree.nThreads := charted.nThreads.symm ▸ hp
          have none := charted.accounted.mem_pendingProducers hp' notMem
          have count := charted.buffered p hp
          rw [none] at count
          exact count
  | checkpointProducers producerIds numa =>
      refine charted.slice (fun p => p ∈ producerIds)
        (active_activeProducers threads producerIds) (fun p hp => ?_) 1 numa
      unfold activeProducers
      rw [List.mem_filter, decide_eq_true_eq]
      have hp' : p < s.ptfoThreads.size := size.symm ▸ hp
      constructor
      · exact fun h => ⟨h.1, Nat.ne_of_gt h.2.2⟩
      · exact fun h => ⟨h.1, hp', Nat.pos_of_ne_zero h.2⟩
  | checkpointNodes nodeIds numa =>
      refine charted.slice (fun p => p % homeNodes topologyNodes ∈ nodeIds)
        (active_collectProducersForNodes threads nodeIds) (fun p hp => ?_) _ numa
      unfold collectProducersForNodes
      rw [List.mem_filter, decide_eq_true_eq, List.mem_range, charted.home p]
      have hp' : p < s.ptfoThreads.size := size.symm ▸ hp
      constructor
      · exact fun h => ⟨h.2.2, h.2.1⟩
      · exact fun h => ⟨hp', h.2, h.1⟩

end Step

theorem charted_run {config : RuntimeConfig} (valid : validateRuntimeConfig config = .ok ())
    (tree : τ) (resume topologyNodes : Nat) (events : List Event) :
    ((init config tree resume topologyNodes).eventRun events).Charted config topologyNodes
      fun p => bufferedSince topologyNodes p events := by
  induction events using List.reverseRecOn with
  | nil =>
      refine ⟨accounted_init valid tree resume topologyNodes, nThreads_init valid ..,
        fun p => rfl, fun p => LocalFut.packed_fresh, fun p => ?_, fun p _ => ?_⟩
      · have zero : (((init config tree resume topologyNodes).eventRun []).ptfoThreads.get
          p).entryCount = 0 := rfl
        rw [zero]
        rfl
      · exact congrArg List.length (pending_init config tree resume topologyNodes p)
  | append_singleton events e ih =>
      rw [eventRun, List.foldl_concat, ← eventRun]
      exact ih.event e

/-- What the wrapper predicts, and what there is. -/
theorem nodes_run {config : RuntimeConfig} (valid : validateRuntimeConfig config = .ok ())
    (tree : τ) (resume topologyNodes : Nat) (events : List Event) {p : Nat}
    (hp : p < config.producerThreads) :
    let s := (init config tree resume topologyNodes).eventRun events
    let n := bufferedSince topologyNodes p events
    s.pendingFutureNodes p =
        .ok ((n + (kFutureNodeCapacity - 1)) / kFutureNodeCapacity) ∧
      (s.tree.localFut p).next.length = (n + (cardinality - 1)) / cardinality := by
  intro s n
  have charted : s.Charted config topologyNodes fun p => bufferedSince topologyNodes p events :=
    charted_run valid tree resume topologyNodes events
  have buffered : (s.tree.pending p).length = n := charted.buffered p hp
  have hp' : p < s.tree.nThreads := charted.nThreads.symm ▸ hp
  have hsize : ¬ p ≥ s.ptfoThreads.size := by
    rw [charted.accounted.threads]
    omega
  constructor
  · rw [pendingFutureNodes, if_neg hsize, charted.predicted p, charted.accounted.entryCount p hp',
      buffered]
  · rw [(charted.packed p).length_next]
    have log : (s.tree.localFut p).log.length = n := (List.length_map _).symm.trans buffered
    rw [log]

/-- With `n` operations buffered since the last drain, the wrapper's number of nodes is that
of the chain exactly if `n` entries need as many nodes of either capacity. -/
theorem pendingFutureNodes_run_iff {config : RuntimeConfig}
    (valid : validateRuntimeConfig config = .ok ()) (tree : τ) (resume topologyNodes : Nat)
    (events : List Event) {p : Nat} (hp : p < config.producerThreads) :
    let s := (init config tree resume topologyNodes).eventRun events
    let n := bufferedSince topologyNodes p events
    s.pendingFutureNodes p = .ok (s.tree.localFut p).next.length ↔
      n = 0 ∨ ∃ k, kFutureNodeCapacity * k < n ∧ n ≤ cardinality * (k + 1) := by
  intro s n
  obtain ⟨predicted, nodes⟩ := nodes_run valid tree resume topologyNodes events hp
  change s.pendingFutureNodes p =
    .ok ((n + (kFutureNodeCapacity - 1)) / kFutureNodeCapacity) at predicted
  change (s.tree.localFut p).next.length = (n + (cardinality - 1)) / cardinality at nodes
  rw [predicted, nodes, Except.ok.injEq, cardinality_eq, kFutureNodeCapacity]
  constructor
  · intro same
    rcases Nat.eq_zero_or_pos n with none | some
    · exact Or.inl none
    · exact Or.inr ⟨(n - 1) / 30, by omega, by omega⟩
  · intro fits
    rcases fits with none | ⟨k, above, below⟩
    · rw [none]
    · omega

/-- Two operations after a drain are on one node. -/
theorem pendingFutureNodes_run_two :
    let config : RuntimeConfig := { producerThreads := 2, hashCapacity := 4 }
    let events : List Event := [.call (.bufferedInsert 1 0 0), .checkpointProducers [0] 0,
      .call (.bufferedInsert 2 0 0), .call (.eraseBuffered 1 0 0)]
    ((init config (∅ : Finset Int) 1 1).eventRun events).pendingFutureNodes 0 =
      .ok (((init config (∅ : Finset Int) 1 1).eventRun events).tree.localFut 0).next.length := by
  intro config events
  have valid : validateRuntimeConfig config = .ok () := rfl
  have hp : 0 < config.producerThreads := by decide
  have two : bufferedSince 1 0 events = 2 := rfl
  refine (pendingFutureNodes_run_iff valid (∅ : Finset Int) 1 1 events hp).mpr (Or.inr ⟨0, ?_⟩)
  rw [two]
  decide

/-- The 29th operation starts a second node, and the wrapper still counts one. -/
theorem pendingFutureNodes_short :
    ¬ ∀ (config : RuntimeConfig) (events : List Event) (p : Nat),
      validateRuntimeConfig config = .ok () → p < config.producerThreads →
      let s := (init config (∅ : Finset Int) 1 1).eventRun events
      s.pendingFutureNodes p = .ok (s.tree.localFut p).next.length := by
  intro same
  have valid : validateRuntimeConfig { hashCapacity := 4 } = .ok () := rfl
  have here := same { hashCapacity := 4 } (List.replicate 29 (.call (.bufferedInsert 1 0 0))) 0
    valid (by decide)
  obtain ⟨predicted, nodes⟩ := nodes_run valid (∅ : Finset Int) 1 1
    (List.replicate 29 (.call (.bufferedInsert 1 0 0))) (by decide : 0 < 1)
  dsimp only at here
  rw [predicted, nodes, Except.ok.injEq] at here
  revert here
  decide

end Drain

end Impl

end F3Tree
