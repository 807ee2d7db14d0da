import Mathlib.Algebra.BigOperators.Group.Finset.Basic
import Mathlib.Algebra.Order.BigOperators.Group.Finset
import F3Tree.FutureBTree
import F3Tree.Resolution

/-!
# What a drain does to the wrapper's state

`Drains s s' ids cleared` lists everything a drain of the producers `ids` changes:
their chains and counters are emptied, the directories of `cleared` are cleared,
and the tree is what the policy's replay makes of it.  `drain_locked` clears every
directory (`drains_drainLocked`), the two partial drains only those of the
producers they replay (`drains_drainSlice`).
-/

namespace F3Tree

open LastWriter

namespace Btree

variable {τ : Type}

/-- The directories of `cleared` have been cleared, and nothing else changed. -/
structure DirsCleared (b b' : Btree τ) (cleared : List Nat) : Prop where
  nThreads : b'.nThreads = b.nThreads
  tree : b'.tree = b.tree
  localFut : b'.localFut = b.localFut
  hash : b'.hash = b.hash
  dir : ∀ p, b'.futureLookupDirectory p =
    if p ∈ cleared then (b.futureLookupDirectory p).clear else b.futureLookupDirectory p

theorem dirsCleared_foldl (cleared : List Nat) (b : Btree τ) :
    b.DirsCleared (cleared.foldl clearDirectory b) cleared := by
  induction cleared generalizing b with
  | nil => exact ⟨rfl, rfl, rfl, rfl, by simp⟩
  | cons q cleared ih =>
      have h := ih (b.clearDirectory q)
      refine ⟨h.nThreads, h.tree, h.localFut, h.hash, fun p => ?_⟩
      rw [List.foldl_cons, h.dir]
      by_cases hpq : p = q
      · subst hpq
        simp [clearDirectory, LookupDirectory.clear]
      · simp [clearDirectory, hpq]

theorem dirsCleared_forProducers {b : Btree τ} {ids : List Nat}
    (within : ∀ p ∈ ids, p < b.nThreads) :
    b.DirsCleared (b.futureClearLookupEntriesForProducers ids) ids := by
  have same : ∀ (ids : List Nat) (b' : Btree τ), (∀ p ∈ ids, p < b'.nThreads) →
      b'.futureClearLookupEntriesForProducers ids = ids.foldl clearDirectory b' := by
    intro ids
    induction ids with
    | nil => exact fun _ _ => rfl
    | cons p ids ih =>
        intro b' hlt
        have hp : ¬ p ≥ b'.nThreads := Nat.not_le.mpr (hlt p List.mem_cons_self)
        rw [futureClearLookupEntriesForProducers, List.foldl_cons, if_neg hp, List.foldl_cons]
        exact ih _ fun q mem => hlt q (List.mem_cons_of_mem _ mem)
  rw [same ids b within]
  exact dirsCleared_foldl ids b

end Btree

namespace Impl

variable {τ : Type}

/-- The accounted operations of all producers. -/
def entryTotal (s : Impl τ) : Nat :=
  ∑ p ∈ Finset.range s.ptfoThreads.size, (s.ptfoThreads.get p).entryCount

/-! ## Counters -/

/-- One summand of the total set to zero. -/
theorem entryTotal_update {s : Impl τ} {p : Nat} (hp : p < s.ptfoThreads.size)
    {thread : PTFOThreadState} (hzero : thread.entryCount = 0) :
    (∑ q ∈ Finset.range s.ptfoThreads.size,
        (Function.update s.ptfoThreads.get p thread q).entryCount) +
      (s.ptfoThreads.get p).entryCount = s.entryTotal := by
  have mem : p ∈ Finset.range s.ptfoThreads.size := Finset.mem_range.mpr hp
  rw [entryTotal, ← Finset.sum_erase_add _ _ mem, ← Finset.sum_erase_add _ _ mem,
    Function.update_self, hzero, Nat.add_zero]
  congr 1
  refine Finset.sum_congr rfl fun q hq => ?_
  rw [Function.update_of_ne (Finset.ne_of_mem_erase hq)]

/-- What `subtract_pending_counts_locked` changes. -/
structure Subtracted (s s' : Impl τ) (ids : List Nat) : Prop where
  config : s'.config = s.config
  size : s'.ptfoThreads.size = s.ptfoThreads.size
  next : s'.nextPtfoSequence = s.nextPtfoSequence
  tree : s'.tree = s.tree
  entryCount : ∀ p < s.ptfoThreads.size, (s'.ptfoThreads.get p).entryCount =
    if p ∈ ids then 0 else (s.ptfoThreads.get p).entryCount
  total : s.pendingOperationCount = s.entryTotal →
    s'.pendingOperationCount = s'.entryTotal

theorem subtracted_one (s : Impl τ) (p : Nat) :
    s.Subtracted (s.subtractPendingCount p) [p] := by
  by_cases hp : p ≥ s.ptfoThreads.size
  · rw [subtractPendingCount, if_pos hp]
    refine ⟨rfl, rfl, rfl, rfl, fun q hq => ?_, fun h => h⟩
    rw [if_neg]
    intro mem
    have := List.mem_singleton.mp mem
    omega
  · rw [subtractPendingCount, if_neg hp]
    refine ⟨rfl, rfl, rfl, rfl, fun q _ => ?_, fun h => ?_⟩
    · by_cases hq : q = p
      · subst hq
        simp [PTFOThreadState.reset]
      · simp [hq]
    · have hreset : (s.ptfoThreads.get p).reset.entryCount = 0 := rfl
      have sum := s.entryTotal_update (Nat.not_le.mp hp) hreset
      simp only [sizeSub, h]
      rw [if_pos (by omega)]
      exact (Nat.eq_sub_of_add_eq sum).symm

theorem subtracted_locked (ids : List Nat) (s : Impl τ) :
    s.Subtracted (s.subtractPendingCountsLocked ids) ids := by
  induction ids generalizing s with
  | nil => exact ⟨rfl, rfl, rfl, rfl, by simp [subtractPendingCountsLocked], fun h => h⟩
  | cons p ids ih =>
      have one := s.subtracted_one p
      have rest := ih (s.subtractPendingCount p)
      refine ⟨rest.config.trans one.config, rest.size.trans one.size,
        rest.next.trans one.next, rest.tree.trans one.tree, fun q hq => ?_,
        fun h => rest.total (one.total h)⟩
      refine (rest.entryCount q (one.size ▸ hq)).trans ?_
      rw [one.entryCount q hq]
      by_cases hmem : q ∈ ids <;> simp [hmem]

/-! ## The producers a drain picks -/

/-- Producers that a replay would visit, by the wrapper's counters. -/
def Active (s : Impl τ) (ids : List Nat) : Prop :=
  ∀ p ∈ ids, p < s.tree.nThreads ∧ s.ptfoThreads.skips p = false

theorem active_pendingProducers {s : Impl τ}
    (threads : s.ptfoThreads.size = s.tree.nThreads) : s.Active s.pendingProducers := by
  intro p mem
  rw [pendingProducers, List.mem_filter, List.mem_range] at mem
  obtain ⟨hp, hcount⟩ := mem
  refine ⟨threads ▸ hp, ?_⟩
  simp only [PTFOThreads.skips, decide_eq_false_iff_not]
  simp only [gt_iff_lt, decide_eq_true_eq] at hcount
  omega

theorem active_activeProducers {s : Impl τ}
    (threads : s.ptfoThreads.size = s.tree.nThreads) (ids : List Nat) :
    s.Active (s.activeProducers ids) := by
  intro p mem
  rw [activeProducers, List.mem_filter] at mem
  obtain ⟨-, hp⟩ := mem
  simp only [gt_iff_lt, decide_eq_true_eq] at hp
  refine ⟨threads ▸ hp.1, ?_⟩
  simp only [PTFOThreads.skips, decide_eq_false_iff_not]
  omega

theorem active_collectProducersForNodes {s : Impl τ}
    (threads : s.ptfoThreads.size = s.tree.nThreads) (nodeIds : List Nat) :
    s.Active (s.collectProducersForNodes nodeIds) := by
  intro p mem
  rw [collectProducersForNodes, List.mem_filter, List.mem_range] at mem
  obtain ⟨hp, hcount⟩ := mem
  simp only [ne_eq, decide_eq_true_eq] at hcount
  refine ⟨threads ▸ hp, ?_⟩
  simp only [PTFOThreads.skips, decide_eq_false_iff_not]
  omega

/-! ## Drains -/

section Drain

variable [GlobalTree τ]

/-- The state `s'` after a drain of the producers `ids` in state `s`. -/
structure Drains (s s' : Impl τ) (ids cleared : List Nat) : Prop where
  config : s'.config = s.config
  size : s'.ptfoThreads.size = s.ptfoThreads.size
  next : s'.nextPtfoSequence = s.nextPtfoSequence
  nThreads : s'.tree.nThreads = s.tree.nThreads
  hash : s'.tree.hash = s.tree.hash
  pending : ∀ p, s'.tree.pending p = if p ∈ ids then [] else s.tree.pending p
  dir : ∀ p, s'.tree.futureLookupDirectory p =
    if p ∈ cleared then (s.tree.futureLookupDirectory p).clear
    else s.tree.futureLookupDirectory p
  entryCount : ∀ p < s.ptfoThreads.size, (s'.ptfoThreads.get p).entryCount =
    if p ∈ ids then 0 else (s.ptfoThreads.get p).entryCount
  total : s.pendingOperationCount = s.entryTotal →
    s'.pendingOperationCount = s'.entryTotal
  tree : ∃ slots, s'.tree.tree = (s.replay ids slots).1.tree

theorem replayed_replay {s : Impl τ} {ids : List Nat} (active : s.Active ids)
    (slots : Nat) :
    s.tree.Replayed (s.replay ids slots).1 ids := by
  have clear : ∀ tree : τ, s.tree.Replayed
      (Btree.clearPtfoThreadsForProducers { s.tree with tree := tree } s.ptfoThreads ids)
      ids := fun tree =>
    { Btree.replayed_clear s.ptfoThreads ids { s.tree with tree := tree } active with }
  rw [replay]
  cases s.config.evaluatorPolicy
  · exact Btree.replayed_applyKeyPartitioned active slots
  · simp only [Btree.tree_applyNodeOrdered]
    exact clear _
  · simp only [Btree.tree_applyKeyOrdered]
    exact clear _
  · exact Btree.replayed_applyKeyPartitioned active slots
  · simp only [Btree.tree_applyNodeOrdered]
    exact clear _

/-- A full drain with something accounted clears every directory. -/
theorem drains_drainLocked {s : Impl τ} (threads : s.ptfoThreads.size = s.tree.nThreads)
    (pending : s.pendingOperationCount ≠ 0) (numa : Int) :
    s.Drains (s.drainLocked numa) s.pendingProducers (List.range s.tree.nThreads) := by
  have active := active_pendingProducers threads
  have replayed := replayed_replay active s.config.evaluatorThreads
  have cleared : (s.replay s.pendingProducers s.config.evaluatorThreads).1.DirsCleared
      (s.replay s.pendingProducers s.config.evaluatorThreads).1.futureClearLookupDirectory
      (List.range s.tree.nThreads) := by
    rw [← replayed.nThreads]
    exact Btree.dirsCleared_foldl _ _
  rw [drainLocked, if_neg pending]
  refine ⟨rfl, rfl, rfl, cleared.nThreads.trans replayed.nThreads,
    cleared.hash.trans replayed.hash, fun p => ?_, fun p => ?_, fun p hp => ?_, fun _ => ?_,
    ⟨_, cleared.tree⟩⟩
  · rw [← replayed.pending p]
    exact Btree.pending_of_localFut (congrFun cleared.localFut p)
  · rw [← replayed.dir]
    exact cleared.dir p
  · by_cases mem : p ∈ s.pendingProducers
    · rw [if_pos mem]
      rfl
    · rw [if_neg mem]
      rw [pendingProducers, List.mem_filter, List.mem_range, not_and] at mem
      have hcount := mem hp
      simp only [gt_iff_lt, decide_eq_true_eq] at hcount
      exact (Nat.eq_zero_of_not_pos hcount).symm
  · exact (Finset.sum_eq_zero fun p _ => rfl).symm

/-- A replay of nobody leaves the tree alone. -/
theorem tree_replay_nil (s : Impl τ) (slots : Nat) :
    (s.replay [] slots).1.tree = s.tree.tree := by
  have partitioned : ∀ b : Btree τ,
      (b.applyKeyPartitionedPtfoReplay s.ptfoThreads [] slots).1.tree = b.tree := by
    intro b
    obtain ⟨order, perm, hreplay⟩ := b.applyKeyPartitioned_eq s.ptfoThreads [] slots
    rw [hreplay, perm.eq_nil]
    rfl
  rw [replay]
  cases s.config.evaluatorPolicy
  · exact partitioned _
  · rfl
  · rfl
  · exact partitioned _
  · rfl

/-- A partial drain clears the directories of the producers it replays. -/
theorem drains_drainSlice {s : Impl τ} {ids : List Nat} (active : s.Active ids)
    (evaluatorSlots : Nat) (numa : Int) :
    s.Drains (s.drainSlice ids evaluatorSlots numa) ids ids := by
  by_cases empty : ids = []
  · subst empty
    rw [drainSlice, if_pos rfl]
    exact ⟨rfl, rfl, rfl, rfl, rfl, by simp, by simp, by simp, fun h => h,
      0, (s.tree_replay_nil 0).symm⟩
  · have replayed := replayed_replay active evaluatorSlots
    have cleared : (s.replay ids evaluatorSlots).1.DirsCleared
        ((s.replay ids evaluatorSlots).1.futureClearLookupEntriesForProducers ids) ids :=
      Btree.dirsCleared_forProducers fun p mem => replayed.nThreads ▸ (active p mem).1
    rw [drainSlice, if_neg empty]
    have subtracted := subtracted_locked ids
      { s.recordCheckpointLocalityLocked ids numa with
        tree := (s.replay ids evaluatorSlots).1.futureClearLookupEntriesForProducers ids }
    refine ⟨subtracted.config, subtracted.size, subtracted.next, ?_, ?_, fun p => ?_,
      fun p => ?_, subtracted.entryCount, subtracted.total, evaluatorSlots, ?_⟩
    · exact (congrArg Btree.nThreads subtracted.tree).trans
        (cleared.nThreads.trans replayed.nThreads)
    · exact (congrArg Btree.hash subtracted.tree).trans (cleared.hash.trans replayed.hash)
    · refine (congrFun (congrArg Btree.pending subtracted.tree) p).trans ?_
      rw [← replayed.pending p]
      exact Btree.pending_of_localFut (congrFun cleared.localFut p)
    · refine (congrFun (congrArg Btree.futureLookupDirectory subtracted.tree) p).trans ?_
      rw [← replayed.dir]
      exact cleared.dir p
    · exact (congrArg Btree.tree subtracted.tree).trans cleared.tree

end Drain

end Impl

end F3Tree
