import F3Tree.Interleaving

/-!
# The tallies of buffered operations

The wrapper counts the operations that have been accounted for and not been drained four
times over: for each producer, in total, for each NUMA node, and as the difference of
the enqueue counters and the checkpoint counters.  Producer calls add one to each tally;
a full drain resets three of them and books the total on the fourth; a partial drain
moves producer by producer.  The tallies agree whenever no section runs under `mu`
(`tallies_run`), so no subtraction ever takes more than there is.
-/

namespace F3Tree

open Runs

/-- A sum after the change of one summand. -/
theorem sum_range_change {f g : Nat → Nat} {n p : Nat} (hp : p < n) (same : ∀ q ≠ p, g q = f q) :
    (∑ q ∈ Finset.range n, g q) + f p = (∑ q ∈ Finset.range n, f q) + g p := by
  have mem : p ∈ Finset.range n := Finset.mem_range.mpr hp
  have rest : ∑ q ∈ (Finset.range n).erase p, g q = ∑ q ∈ (Finset.range n).erase p, f q :=
    Finset.sum_congr rfl fun q hq => same q (Finset.ne_of_mem_erase hq)
  rw [← Finset.sum_erase_add _ _ mem, ← Finset.sum_erase_add _ f mem, rest]
  omega

namespace FutureBTreeStats

/-- The three `producer_enqueue_*` counters. -/
def enqueued (stats : FutureBTreeStats) : Nat :=
  stats.producerEnqueueLocalOps + stats.producerEnqueueRemoteOps +
    stats.producerEnqueueUnknownOps

/-- The three `checkpoint_source_*_ops` counters. -/
def drained (stats : FutureBTreeStats) : Nat :=
  stats.checkpointSourceLocalOps + stats.checkpointSourceRemoteOps +
    stats.checkpointSourceUnknownOps

theorem enqueued_enqueue (stats : FutureBTreeStats) (homeNode : Nat) (numa : Int) :
    (stats.enqueue homeNode numa).enqueued = stats.enqueued + 1 ∧
      (stats.enqueue homeNode numa).drained = stats.drained := by
  unfold enqueue enqueued drained
  split
  · exact ⟨by dsimp only; omega, rfl⟩
  · split
    · exact ⟨by dsimp only; omega, rfl⟩
    · exact ⟨by dsimp only; omega, rfl⟩

end FutureBTreeStats

namespace Impl

variable {τ : Type} {s s' : Impl τ} {p : Nat} {numa : Int} {ids : List Nat}

/-- The accounted operations of the producers with home node `node`. -/
def entryTotalAt (s : Impl τ) (node : Nat) : Nat :=
  ∑ p ∈ Finset.range s.ptfoThreads.size,
    if (s.ptfoThreads.get p).homeNode = node then (s.ptfoThreads.get p).entryCount else 0

/-- The three tallies of what is pending agree. -/
structure Counted (s : Impl τ) : Prop where
  home : ∀ p < s.ptfoThreads.size, (s.ptfoThreads.get p).homeNode < s.nodeCount
  total : s.pendingOperationCount = s.entryTotal
  byNode : ∀ node < s.nodeCount, s.pendingOperationCountByNode node = s.entryTotalAt node

/-- All four tallies agree. -/
structure Tallied (s : Impl τ) : Prop extends Counted s where
  stats : s.stats.enqueued = s.pendingOperationCount + s.stats.drained

/-- What the producer `p` takes off the tallies does not exceed them. -/
def Covered (s : Impl τ) (p : Nat) : Prop :=
  (s.ptfoThreads.get p).entryCount ≤ s.pendingOperationCount ∧
    (s.ptfoThreads.get p).entryCount ≤
      s.pendingOperationCountByNode (s.ptfoThreads.get p).homeNode

/-- No subtraction that `subtract_pending_counts_locked` makes for `ids` wraps. -/
def NeverWraps (s : Impl τ) (ids : List Nat) : Prop :=
  ∀ before p after, ids = before ++ p :: after →
    (s.subtractPendingCountsLocked before).Covered p

/-- The state in which a partial drain subtracts its producers. -/
def replayed [GlobalTree τ] (s : Impl τ) (ids : List Nat) (evaluatorSlots : Nat) (numa : Int) :
    Impl τ :=
  { s.recordCheckpointLocalityLocked ids numa with
    tree := (s.replay ids evaluatorSlots).1.futureClearLookupEntriesForProducers ids }

theorem drainSlice_eq [GlobalTree τ] (s : Impl τ) (ids : List Nat) (evaluatorSlots : Nat)
    (numa : Int) :
    s.drainSlice ids evaluatorSlots numa = if ids = [] then s else
      ((s.replayed ids evaluatorSlots numa).subtractPendingCountsLocked ids).addReplayStats
        (s.replay ids evaluatorSlots).2 true := rfl

/-! ## One producer -/

theorem entryTotalAt_le (s : Impl τ) (hp : p < s.ptfoThreads.size) :
    (s.ptfoThreads.get p).entryCount ≤ s.entryTotalAt (s.ptfoThreads.get p).homeNode := by
  have mem : p ∈ Finset.range s.ptfoThreads.size := Finset.mem_range.mpr hp
  have le := Finset.single_le_sum (f := fun q =>
    if (s.ptfoThreads.get q).homeNode = (s.ptfoThreads.get p).homeNode then
      (s.ptfoThreads.get q).entryCount else 0) (fun _ _ => Nat.zero_le _) mem
  rwa [if_pos rfl] at le

theorem entryTotal_le (s : Impl τ) (hp : p < s.ptfoThreads.size) :
    (s.ptfoThreads.get p).entryCount ≤ s.entryTotal :=
  Finset.single_le_sum (f := fun q => (s.ptfoThreads.get q).entryCount)
    (fun _ _ => Nat.zero_le _) (Finset.mem_range.mpr hp)

/-- While the tallies agree, they cover every producer. -/
theorem Counted.covered (counted : s.Counted) (hp : p < s.ptfoThreads.size) : s.Covered p := by
  refine ⟨counted.total ▸ s.entryTotal_le hp, ?_⟩
  rw [counted.byNode _ (counted.home p hp)]
  exact s.entryTotalAt_le hp

/-- Only the counts of the producer `p` differ between the two states. -/
structure ChangedAt (s s' : Impl τ) (p : Nat) : Prop where
  size : s'.ptfoThreads.size = s.ptfoThreads.size
  nodes : s'.nodeCount = s.nodeCount
  same : ∀ q ≠ p, s'.ptfoThreads.get q = s.ptfoThreads.get q
  home : (s'.ptfoThreads.get p).homeNode = (s.ptfoThreads.get p).homeNode

theorem ChangedAt.homeNode (changed : s.ChangedAt s' p) (q : Nat) :
    (s'.ptfoThreads.get q).homeNode = (s.ptfoThreads.get q).homeNode := by
  by_cases hqp : q = p
  · exact hqp ▸ changed.home
  · rw [changed.same q hqp]

theorem ChangedAt.homes (changed : s.ChangedAt s' p)
    (homes : ∀ q < s.ptfoThreads.size, (s.ptfoThreads.get q).homeNode < s.nodeCount) :
    ∀ q < s'.ptfoThreads.size, (s'.ptfoThreads.get q).homeNode < s'.nodeCount := by
  intro q hq
  rw [changed.homeNode, changed.nodes]
  exact homes q (changed.size ▸ hq)

theorem ChangedAt.entryTotal (changed : s.ChangedAt s' p) (hp : p < s.ptfoThreads.size) :
    s'.entryTotal + (s.ptfoThreads.get p).entryCount =
      s.entryTotal + (s'.ptfoThreads.get p).entryCount := by
  rw [Impl.entryTotal, changed.size]
  exact sum_range_change hp (f := fun q => (s.ptfoThreads.get q).entryCount)
    (g := fun q => (s'.ptfoThreads.get q).entryCount) fun q hq => by rw [changed.same q hq]

theorem ChangedAt.entryTotalAt (changed : s.ChangedAt s' p) (hp : p < s.ptfoThreads.size)
    (node : Nat) :
    s'.entryTotalAt node + (if (s.ptfoThreads.get p).homeNode = node then
        (s.ptfoThreads.get p).entryCount else 0) =
      s.entryTotalAt node + if (s.ptfoThreads.get p).homeNode = node then
        (s'.ptfoThreads.get p).entryCount else 0 := by
  have change := sum_range_change hp
    (f := fun q => if (s.ptfoThreads.get q).homeNode = node then
      (s.ptfoThreads.get q).entryCount else 0)
    (g := fun q => if (s'.ptfoThreads.get q).homeNode = node then
      (s'.ptfoThreads.get q).entryCount else 0)
    fun q hq => by rw [changed.same q hq]
  rw [changed.home] at change
  rw [Impl.entryTotalAt, changed.size]
  exact change

/-- A producer call adds one to every tally. -/
theorem Tallied.account (tallied : s.Tallied) (hp : p < s.ptfoThreads.size) (numa : Int) :
    (s.account p numa).Tallied := by
  have here : (s.account p numa).ptfoThreads.get p = (s.ptfoThreads.get p).bump :=
    Function.update_self ..
  have entry : ((s.account p numa).ptfoThreads.get p).entryCount =
      (s.ptfoThreads.get p).entryCount + 1 := by
    rw [here]
    rfl
  have changed : s.ChangedAt (s.account p numa) p :=
    ⟨rfl, rfl, fun q hq => Function.update_of_ne hq .., by rw [here]; rfl⟩
  obtain ⟨enqueued, drained⟩ :=
    s.stats.enqueued_enqueue (s.ptfoThreads.get p).homeNode numa
  refine ⟨⟨changed.homes tallied.home, ?_, fun node hnode => ?_⟩, ?_⟩
  · rw [entryTotal_account hp numa, ← tallied.total]
    rfl
  · have total := changed.entryTotalAt hp node
    have before := tallied.byNode node hnode
    have tally : (s.account p numa).pendingOperationCountByNode =
        Function.update s.pendingOperationCountByNode (s.ptfoThreads.get p).homeNode
          (s.pendingOperationCountByNode (s.ptfoThreads.get p).homeNode + 1) := rfl
    rw [tally]
    by_cases hhome : (s.ptfoThreads.get p).homeNode = node
    · rw [if_pos hhome, if_pos hhome] at total
      rw [hhome, Function.update_self]
      omega
    · rw [if_neg hhome, if_neg hhome] at total
      rw [Function.update_of_ne (Ne.symm hhome)]
      omega
  · have before := tallied.stats
    have stats : (s.account p numa).stats =
      s.stats.enqueue (s.ptfoThreads.get p).homeNode numa := rfl
    have pending : (s.account p numa).pendingOperationCount =
      s.pendingOperationCount + 1 := rfl
    rw [stats, pending]
    omega

/-! ## Partial drains -/

/-- What the producer `p` has accounted for. -/
def entries (s : Impl τ) (p : Nat) : Nat := (s.ptfoThreads.get p).entryCount

/-- One producer's subtraction keeps the tallies and takes off exactly its count. -/
theorem Counted.subtractPendingCount (counted : s.Counted) (hp : p < s.ptfoThreads.size) :
    (s.subtractPendingCount p).Counted ∧ (s.subtractPendingCount p).ChangedAt s p ∧
      (s.subtractPendingCount p).pendingOperationCount + s.entries p =
        s.pendingOperationCount ∧
      (s.subtractPendingCount p).stats = s.stats := by
  obtain ⟨pending, byNode⟩ := counted.covered hp
  have unfolded : s.subtractPendingCount p = _ := if_neg (Nat.not_le.mpr hp)
  have here : (s.subtractPendingCount p).ptfoThreads.get p = (s.ptfoThreads.get p).reset := by
    rw [unfolded]
    exact Function.update_self ..
  have changed : s.ChangedAt (s.subtractPendingCount p) p := by
    refine ⟨by rw [unfolded], by rw [unfolded], fun q hq => ?_, by rw [here]; rfl⟩
    rw [unfolded]
    exact Function.update_of_ne hq ..
  have entry : ((s.subtractPendingCount p).ptfoThreads.get p).entryCount = 0 := by
    rw [here]
    rfl
  have less : (s.subtractPendingCount p).pendingOperationCount =
      s.pendingOperationCount - s.entries p := by
    rw [unfolded]
    exact if_pos pending
  have tally : (s.subtractPendingCount p).pendingOperationCountByNode =
      Function.update s.pendingOperationCountByNode (s.ptfoThreads.get p).homeNode
        (s.pendingOperationCountByNode (s.ptfoThreads.get p).homeNode - s.entries p) := by
    rw [unfolded]
    dsimp only
    rw [if_pos (counted.home p hp), sizeSub, if_pos byNode]
    rfl
  have change := changed.entryTotal hp
  rw [entry] at change
  have total := counted.total
  refine ⟨⟨changed.homes counted.home, ?_, fun node hnode => ?_⟩, ?_, ?_, by rw [unfolded]⟩
  · rw [less, entries]
    omega
  · have here := changed.entryTotalAt hp node
    have before := counted.byNode node (changed.nodes ▸ hnode)
    rw [entry] at here
    rw [tally]
    by_cases hhome : (s.ptfoThreads.get p).homeNode = node
    · rw [if_pos hhome, if_pos hhome] at here
      rw [hhome, Function.update_self, entries]
      omega
    · rw [if_neg hhome, if_neg hhome] at here
      rw [Function.update_of_ne (Ne.symm hhome)]
      omega
  · exact ⟨changed.size.symm, changed.nodes.symm, fun q hq => (changed.same q hq).symm,
      changed.home.symm⟩
  · rw [less, entries]
    rw [entries] at less
    omega

/-- The subtraction of different producers keeps the tallies and takes off what they have
accounted for. -/
theorem Counted.subtractPendingCountsLocked (ids : List Nat) {s : Impl τ} (counted : s.Counted)
    (within : ∀ p ∈ ids, p < s.ptfoThreads.size) (nodup : ids.Nodup) :
    (s.subtractPendingCountsLocked ids).Counted ∧
      (s.subtractPendingCountsLocked ids).pendingOperationCount + (ids.map s.entries).sum =
        s.pendingOperationCount ∧
      (s.subtractPendingCountsLocked ids).stats = s.stats ∧
      (s.subtractPendingCountsLocked ids).ptfoThreads.size = s.ptfoThreads.size := by
  induction ids generalizing s with
  | nil => exact ⟨counted, rfl, rfl, rfl⟩
  | cons p ids ih =>
      obtain ⟨fresh, nodup⟩ := List.nodup_cons.mp nodup
      obtain ⟨counted', changed, taken, stats⟩ :=
        counted.subtractPendingCount (within p List.mem_cons_self)
      obtain ⟨last, rest, stats', size⟩ := ih counted'
        (fun q mem => changed.size ▸ within q (List.mem_cons_of_mem _ mem)) nodup
      have others : ids.map (s.subtractPendingCount p).entries = ids.map s.entries := by
        refine List.map_congr_left fun q mem => ?_
        have hqp : q ≠ p := fun h => fresh (h ▸ mem)
        exact congrArg PTFOThreadState.entryCount (changed.same q hqp).symm
      rw [others] at rest
      refine ⟨last, ?_, stats'.trans stats, size.trans changed.size.symm⟩
      rw [List.map_cons, List.sum_cons, ← taken, ← rest, Nat.add_assoc,
        Nat.add_comm (ids.map s.entries).sum]
      rfl

/-- So none of the subtractions wraps. -/
theorem Counted.neverWraps (counted : s.Counted) (within : ∀ p ∈ ids, p < s.ptfoThreads.size)
    (nodup : ids.Nodup) : s.NeverWraps ids := by
  intro before p after here
  have mem : ∀ q ∈ before, q ∈ ids := fun q mem => here ▸ List.mem_append_left _ mem
  have mem' : p ∈ ids := here ▸ List.mem_append_right _ List.mem_cons_self
  have nodup' : before.Nodup := (here ▸ nodup).of_append_left
  obtain ⟨counted', -, -, size⟩ := counted.subtractPendingCountsLocked before
    (fun q hq => within q (mem q hq)) nodup'
  exact counted'.covered (size ▸ within p mem')

/-- Booking the sources of a checkpoint. -/
theorem drained_record (s : Impl τ) (numa : Int) (ids : List Nat)
    (within : ∀ p ∈ ids, p < s.ptfoThreads.size) :
    (s.recordCheckpointLocalityLocked ids numa).stats.enqueued = s.stats.enqueued ∧
      (s.recordCheckpointLocalityLocked ids numa).stats.drained =
        s.stats.drained + (ids.map s.entries).sum := by
  unfold recordCheckpointLocalityLocked
  dsimp only
  generalize s.stats = stats
  induction ids generalizing stats with
  | nil => exact ⟨rfl, rfl⟩
  | cons p ids ih =>
      have hp : ¬ p ≥ s.ptfoThreads.size := Nat.not_le.mpr (within p List.mem_cons_self)
      have rest := fun stats => ih (fun q mem => within q (List.mem_cons_of_mem _ mem)) stats
      rw [List.foldl_cons, List.map_cons, List.sum_cons]
      by_cases none : (s.ptfoThreads.get p).entryCount = 0
      · obtain ⟨enqueued, drained⟩ := rest stats
        have zero : s.entries p = 0 := none
        rw [if_pos (Or.inr none), zero, Nat.zero_add]
        exact ⟨enqueued, drained⟩
      · rw [if_neg (not_or.mpr ⟨hp, none⟩)]
        obtain ⟨enqueued, drained⟩ := rest (if numa < 0 then
            { stats with
              checkpointSourceUnknownOps := stats.checkpointSourceUnknownOps + s.entries p }
          else if ((s.ptfoThreads.get p).homeNode : Int) = numa then
            { stats with
              checkpointSourceLocalOps := stats.checkpointSourceLocalOps + s.entries p }
          else
            { stats with
              checkpointSourceRemoteOps := stats.checkpointSourceRemoteOps + s.entries p })
        refine ⟨enqueued.trans ?_, drained.trans ?_⟩
        · split
          · rfl
          · split <;> rfl
        · rw [← Nat.add_assoc]
          congr 1
          unfold FutureBTreeStats.drained
          split
          · dsimp only
            omega
          · split
            · dsimp only
              omega
            · dsimp only
              omega

section Drain

variable [GlobalTree τ]

/-- What a partial drain books is what it takes off. -/
theorem Tallied.drainSlice (tallied : s.Tallied) (within : ∀ p ∈ ids, p < s.ptfoThreads.size)
    (nodup : ids.Nodup) (evaluatorSlots : Nat) (numa : Int) :
    (s.drainSlice ids evaluatorSlots numa).Tallied := by
  rw [drainSlice_eq]
  by_cases empty : ids = []
  · rw [if_pos empty]
    exact tallied
  · rw [if_neg empty]
    have counted : (s.replayed ids evaluatorSlots numa).Counted :=
      ⟨tallied.home, tallied.total, tallied.byNode⟩
    obtain ⟨counted', pending, stats, -⟩ :=
      counted.subtractPendingCountsLocked ids within nodup
    obtain ⟨enqueued, drained⟩ := s.drained_record numa ids within
    have before := tallied.stats
    refine ⟨⟨counted'.home, counted'.total, counted'.byNode⟩, ?_⟩
    have booked : (((s.replayed ids evaluatorSlots numa).subtractPendingCountsLocked
        ids).addReplayStats (s.replay ids evaluatorSlots).2 true).stats.drained =
          s.stats.drained + (ids.map s.entries).sum :=
      (congrArg FutureBTreeStats.drained stats).trans drained
    have accepted : (((s.replayed ids evaluatorSlots numa).subtractPendingCountsLocked
        ids).addReplayStats (s.replay ids evaluatorSlots).2 true).stats.enqueued =
          s.stats.enqueued :=
      (congrArg FutureBTreeStats.enqueued stats).trans enqueued
    have less : (((s.replayed ids evaluatorSlots numa).subtractPendingCountsLocked
        ids).addReplayStats (s.replay ids evaluatorSlots).2 true).pendingOperationCount +
          (ids.map s.entries).sum = s.pendingOperationCount := pending
    omega

theorem size_drainSlice (s : Impl τ) (ids : List Nat) (evaluatorSlots : Nat) (numa : Int) :
    (s.drainSlice ids evaluatorSlots numa).ptfoThreads.size = s.ptfoThreads.size := by
  rw [drainSlice_eq]
  split
  · rfl
  · exact (subtracted_locked ids (s.replayed ids evaluatorSlots numa)).size

/-! ## Full drains -/

omit [GlobalTree τ] in
/-- The producers that a full drain replays have accounted for everything. -/
theorem sum_pendingProducers (s : Impl τ) :
    (s.pendingProducers.map s.entries).sum = s.entryTotal := by
  have keep : ∀ ids : List Nat,
      ((ids.filter fun p => (s.ptfoThreads.get p).entryCount > 0).map s.entries).sum =
        (ids.map s.entries).sum := by
    intro ids
    induction ids with
    | nil => rfl
    | cons p ids ih =>
        by_cases some : (s.ptfoThreads.get p).entryCount > 0
        · rw [List.filter_cons_of_pos (by simpa using some), List.map_cons, List.map_cons,
            List.sum_cons, List.sum_cons, ih]
        · have zero : s.entries p = 0 := Nat.eq_zero_of_not_pos some
          rw [List.filter_cons_of_neg (by simpa using some), ih, List.map_cons, List.sum_cons,
            zero, Nat.zero_add]
  rw [pendingProducers, keep]
  rfl

/-- A full drain books everything and leaves zeros. -/
theorem Tallied.drainLocked (tallied : s.Tallied) (numa : Int) : (s.drainLocked numa).Tallied := by
  unfold Impl.drainLocked
  by_cases empty : s.pendingOperationCount = 0
  · rw [if_pos empty]
    exact tallied
  · rw [if_neg empty]
    have within : ∀ p ∈ s.pendingProducers, p < s.ptfoThreads.size := fun p mem =>
      List.mem_range.mp (List.mem_of_mem_filter mem)
    obtain ⟨enqueued, drained⟩ := s.drained_record numa s.pendingProducers within
    rw [sum_pendingProducers] at drained
    have before := tallied.stats
    have total := tallied.total
    refine ⟨⟨tallied.home, ?_, fun node _ => ?_⟩, ?_⟩
    · exact (Finset.sum_eq_zero fun p _ => rfl).symm
    · refine (Finset.sum_eq_zero fun p _ => ?_).symm
      exact ite_self 0
    · refine enqueued.trans ?_
      rw [before, total, ← Nat.add_comm]
      exact drained.symm.trans (Nat.zero_add _).symm

end Drain

/-- The slice of a worker names no producer twice. -/
theorem nodup_producersForEvaluator (workerId workerCount totalProducers : Nat) :
    (producersForEvaluator workerId workerCount totalProducers).Nodup := by
  unfold producersForEvaluator
  split
  · exact List.nodup_nil
  · exact List.nodup_range.sublist (List.drop_sublist ..)

/-- The producers a worker drains are configured and come once each. -/
theorem activeProducers_once (s : Impl τ) {ids : List Nat} (nodup : ids.Nodup) :
    (∀ p ∈ s.activeProducers ids, p < s.ptfoThreads.size) ∧ (s.activeProducers ids).Nodup := by
  refine ⟨fun p mem => ?_, nodup.sublist List.filter_sublist⟩
  have h := (List.mem_filter.mp mem).2
  simp only [gt_iff_lt, decide_eq_true_eq] at h
  exact h.1

theorem collectProducersForNodes_once (s : Impl τ) (nodeIds : List Nat) :
    (∀ p ∈ s.collectProducersForNodes nodeIds, p < s.ptfoThreads.size) ∧
      (s.collectProducersForNodes nodeIds).Nodup :=
  ⟨fun _ mem => List.mem_range.mp (List.mem_of_mem_filter mem),
    List.nodup_range.sublist List.filter_sublist⟩

theorem tallied_init (config : RuntimeConfig) (tree : τ) (resume nodes : Nat) :
    (init config tree resume nodes).Tallied := by
  refine ⟨⟨fun p _ => ?_, (Finset.sum_eq_zero fun p _ => rfl).symm, fun node _ => ?_⟩, rfl⟩
  · refine Nat.mod_lt p ?_
    split
    · assumption
    · exact Nat.one_pos
  · exact (Finset.sum_eq_zero fun p _ => ite_self 0).symm

end Impl

namespace Machine

variable {τ : Type} [GlobalTree τ] {m : Machine τ} {a : Action}

/-- No subtraction that an action makes wraps. -/
def NeverWraps (m : Machine τ) : Action → Prop
  | .drainForProducers producerIds numa =>
      (m.impl.replayed (m.impl.activeProducers producerIds) 1 numa).NeverWraps
        (m.impl.activeProducers producerIds)
  | .drainForNodes nodeIds numa =>
      (m.impl.replayed (m.impl.collectProducersForNodes nodeIds)
        m.impl.config.evaluatorThreads numa).NeverWraps (m.impl.collectProducersForNodes nodeIds)
  | .takeSequence _ _ _ | .ptfoInsert _ | .account _ _ | .drainPending _ => True

/-- The tallies agree, and a thread inside a call is a configured one. -/
structure Booked (m : Machine τ) : Prop where
  tallied : m.impl.Tallied
  configured : ∀ p, m.phase p ≠ .idle → p < m.impl.ptfoThreads.size

/-- In a booked state no action wraps. -/
theorem Booked.neverWraps (booked : m.Booked)
    (slice : ∀ ids numa, a = .drainForProducers ids numa → ids.Nodup) : m.NeverWraps a := by
  have counted : ∀ ids slots numa, (m.impl.replayed ids slots numa).Counted := fun _ _ _ =>
    ⟨booked.tallied.home, booked.tallied.total, booked.tallied.byNode⟩
  cases a with
  | drainForProducers ids numa =>
      obtain ⟨within, nodup⟩ := m.impl.activeProducers_once (slice ids numa rfl)
      exact (counted _ _ numa).neverWraps within nodup
  | drainForNodes nodeIds numa =>
      obtain ⟨within, nodup⟩ := m.impl.collectProducersForNodes_once nodeIds
      exact (counted _ _ numa).neverWraps within nodup
  | _ => trivial

/-- Every action keeps the books. -/
theorem Booked.step (booked : m.Booked)
    (slice : ∀ ids numa, a = .drainForProducers ids numa → ids.Nodup) : (m.step a).Booked := by
  cases a with
  | takeSequence key p isDone =>
      rw [Machine.step]
      split
      · rename_i ready
        refine ⟨⟨⟨booked.tallied.home, booked.tallied.total, booked.tallied.byNode⟩,
          booked.tallied.stats⟩, fun q busy => ?_⟩
        by_cases hqp : q = p
        · exact hqp ▸ ready.1
        · dsimp only at busy
          rw [Function.update_of_ne hqp] at busy
          exact booked.configured q busy
      · exact booked
  | ptfoInsert p =>
      rw [Machine.step]
      split
      · rename_i key isDone sequence ready
        refine ⟨⟨⟨booked.tallied.home, booked.tallied.total, booked.tallied.byNode⟩,
          booked.tallied.stats⟩, fun q busy => ?_⟩
        by_cases hqp : q = p
        · refine hqp ▸ booked.configured p ?_
          rw [ready]
          exact Phase.noConfusion
        · dsimp only at busy
          rw [Function.update_of_ne hqp] at busy
          exact booked.configured q busy
      · exact booked
      · exact booked
  | account p numa =>
      rw [Machine.step]
      split
      · rename_i key isDone ready
        have hp : p < m.impl.ptfoThreads.size := by
          refine booked.configured p ?_
          rw [ready]
          exact Phase.noConfusion
        refine ⟨booked.tallied.account hp numa, fun q busy => ?_⟩
        by_cases hqp : q = p
        · exact hqp ▸ hp
        · dsimp only at busy
          rw [Function.update_of_ne hqp] at busy
          exact booked.configured q busy
      · exact booked
      · exact booked
  | drainPending numa =>
      refine ⟨booked.tallied.drainLocked numa, fun q busy => ?_⟩
      have size : (m.impl.drainLocked numa).ptfoThreads.size = m.impl.ptfoThreads.size := by
        unfold Impl.drainLocked
        split <;> rfl
      exact size ▸ booked.configured q busy
  | drainForProducers ids numa =>
      obtain ⟨within, nodup⟩ := m.impl.activeProducers_once (slice ids numa rfl)
      refine ⟨booked.tallied.drainSlice within nodup 1 numa, fun q busy => ?_⟩
      exact (m.impl.size_drainSlice _ _ numa).symm ▸ booked.configured q busy
  | drainForNodes nodeIds numa =>
      obtain ⟨within, nodup⟩ := m.impl.collectProducersForNodes_once nodeIds
      refine ⟨booked.tallied.drainSlice within nodup _ numa, fun q busy => ?_⟩
      exact (m.impl.size_drainSlice _ _ numa).symm ▸ booked.configured q busy

/-- At every point of every interleaving the four tallies agree, and no action wraps a
counter. -/
theorem tallies_run (config : RuntimeConfig) (tree : τ) (resume nodes : Nat)
    (actions : List Action)
    (slices : ∀ ids numa, .drainForProducers ids numa ∈ actions → ids.Nodup) :
    ((init config tree resume nodes).run actions).impl.Tallied ∧
      ∀ before a, before ++ [a] <+: actions →
        ((init config tree resume nodes).run before).NeverWraps a := by
  have booked : ∀ before, before <+: actions →
      ((init config tree resume nodes).run before).Booked := by
    intro before point
    induction before using List.reverseRecOn with
    | nil => exact ⟨Impl.tallied_init config tree resume nodes, fun p busy => absurd rfl busy⟩
    | append_singleton before a ih =>
        rw [run_concat]
        refine (ih ((List.prefix_append _ _).trans point)).step fun ids numa here => ?_
        exact slices ids numa (here ▸ point.subset (by simp))
  refine ⟨(booked actions (List.prefix_refl _)).tallied, fun before a point => ?_⟩
  refine (booked before ((List.prefix_append _ _).trans point)).neverWraps
    fun ids numa here => ?_
  exact slices ids numa (here ▸ point.subset (by simp))

/-- Two producers on two nodes, a worker's drain between their calls. -/
theorem tallies_run_slice :
    let config : RuntimeConfig := { producerThreads := 2, hashCapacity := 4 }
    let m := (init config (∅ : Finset Int) 1 2).run
      [.takeSequence 1 0 false, .takeSequence 2 1 false, .ptfoInsert 1, .account 1 0,
        .ptfoInsert 0, .drainForProducers (Impl.producersForEvaluator 0 1 2) 1, .account 0 0]
    m.impl.Tallied := by
  intro config
  refine (tallies_run config (∅ : Finset Int) 1 2 _ fun ids numa mem => ?_).1
  have here : ids = Impl.producersForEvaluator 0 1 2 := by
    simp only [List.mem_cons, reduceCtorEq, Action.drainForProducers.injEq, List.not_mem_nil,
      false_or, or_false] at mem
    exact mem.1
  exact here ▸ Impl.nodup_producersForEvaluator 0 1 2

end Machine

end F3Tree
