import Mathlib.Algebra.BigOperators.Group.Finset.Piecewise
import F3Tree.Conservation
import F3Tree.Workers

/-!
# Waking the workers

The workers of `evaluator_loop` sleep on one condition variable, each with a test of its
own, and a producer's call ends with `notify_one`.  Here the sections under `mu` are taken
one by one, and a worker that has `mu` goes through its loop turn by turn until it sleeps.

A worker that sleeps while its test is met has missed its wake-up.  With one worker this never
happens.  With more of them the call may wake one that has nothing to do, and the owner of the
work sleeps on (`misses_iff`).
-/

namespace F3Tree

/-- What a worker sleeps for: the end, when there are no asynchronous checkpoints; the next
checkpoint or the end of an interval; or something to do. -/
inductive Wait : Type
  | stop
  | timed
  | work
deriving DecidableEq, Repr

/-- Where a worker's thread stands in `evaluator_loop`.  It has `mu` while it is looping. -/
inductive WorkerPhase : Type
  | entering
  | looping
  | asleep (wait : Wait)
  | awake (wait : Wait) (timeout : Bool)
  | exited
deriving DecidableEq, Repr

/-- What a worker does in one turn of its loop. -/
inductive Turn : Type
  | leave
  | drain
  | sleep (wait : Wait)
deriving DecidableEq, Repr

namespace Code

variable {τ : Type}

/-- A checkpoint is due for a worker. -/
def due (ownedNodes ownedProducers : List Nat) (s : Impl τ) : Bool :=
  (!ownedNodes.isEmpty && shouldCheckpointForNodesLocked s ownedNodes) ||
    (ownedNodes.isEmpty && shouldCheckpointForProducersLocked s ownedProducers)

/-- The third argument of `cv.wait_for` and the second of `cv.wait`. -/
def test (ownedNodes ownedProducers : List Nat) (s : Shared τ) : Wait → Bool
  | .stop => s.stopRequested
  | .timed => wakes ownedNodes ownedProducers s
  | .work => wakes ownedNodes ownedProducers s ||
      (asyncCheckpointEnabled s.impl && s.impl.config.checkpointIntervalUs > 0 &&
        s.impl.pendingOperationCount > 0)

/-- The head of the loop of `evaluator_loop`, and the branch it takes. -/
def turn (ownedNodes ownedProducers : List Nat) (s : Shared τ) : Turn :=
  if s.stopRequested then .leave
  else if !asyncCheckpointEnabled s.impl then .sleep .stop
  else if due ownedNodes ownedProducers s.impl then .drain
  else if s.impl.config.checkpointIntervalUs > 0 && s.impl.pendingOperationCount > 0 then
    .sleep .timed
  else .sleep .work

theorem wakes_eq (ownedNodes ownedProducers : List Nat) (s : Shared τ) :
    wakes ownedNodes ownedProducers s =
      (s.stopRequested || due ownedNodes ownedProducers s.impl) := Bool.or_assoc ..

variable [GlobalTree τ]

/-- `drain_locked_for_nodes` if the worker has nodes, else `drain_locked_for_producers`. -/
def drainOwned (ownedNodes ownedProducers : List Nat) : Code τ Unit :=
  if !ownedNodes.isEmpty then drainLockedForNodes ownedNodes
  else drainLockedForProducers ownedProducers

/-- The body of the loop does what the turn says. -/
theorem evaluatorTurn_eq (ownedNodes ownedProducers : List Nat) {s : Shared τ}
    (running : s.stopRequested = false) :
    evaluatorTurn ownedNodes ownedProducers s =
      match turn ownedNodes ownedProducers s with
      | .leave => pure ()
      | .drain => drainOwned ownedNodes ownedProducers
      | .sleep .timed => do
          waitFor (test ownedNodes ownedProducers · .timed)
          let s ← LockOrder.Prog.get
          onlyIf (!s.stopRequested) (drainOwned ownedNodes ownedProducers)
      | .sleep wait => waitUntil (test ownedNodes ownedProducers · wait) := by
  unfold evaluatorTurn turn due drainOwned
  rw [running]
  cases asyncCheckpointEnabled s.impl with
  | false => rfl
  | true =>
      cases ownedNodes.isEmpty with
      | true =>
          cases shouldCheckpointForProducersLocked s.impl ownedProducers with
          | true => rfl
          | false =>
              simp only [Bool.not_true, Bool.false_and, Bool.and_false, Bool.or_false,
                Bool.false_eq_true, if_false]
              split <;> rfl
      | false =>
          cases shouldCheckpointForNodesLocked s.impl ownedNodes with
          | true => rfl
          | false =>
              simp only [Bool.not_true, Bool.false_and, Bool.and_false, Bool.or_false,
                Bool.false_eq_true, if_false]
              split <;> rfl

end Code

/-! ## Counts that do not grow -/

namespace Impl

variable {τ : Type} {s s' s'' : Impl τ}

/-- The two states are those of one wrapper. -/
structure SameShape (s s' : Impl τ) : Prop where
  config : s'.config = s.config
  size : s'.ptfoThreads.size = s.ptfoThreads.size
  nodeCount : s'.nodeCount = s.nodeCount
  home : ∀ p, (s'.ptfoThreads.get p).homeNode = (s.ptfoThreads.get p).homeNode

theorem SameShape.refl (s : Impl τ) : s.SameShape s := ⟨rfl, rfl, rfl, fun _ => rfl⟩

theorem SameShape.trans (h : s.SameShape s') (h' : s'.SameShape s'') : s.SameShape s'' :=
  ⟨h'.config.trans h.config, h'.size.trans h.size, h'.nodeCount.trans h.nodeCount,
    fun p => (h'.home p).trans (h.home p)⟩

/-- No producer has more accounted operations than before. -/
structure Quieter (s s' : Impl τ) : Prop extends SameShape s s' where
  fewer : ∀ p, s'.entries p ≤ s.entries p

theorem Quieter.refl (s : Impl τ) : s.Quieter s := ⟨.refl s, fun _ => le_rfl⟩

/-- Thread states that are left alone or reset. -/
theorem quieter_of_threads (config : s'.config = s.config)
    (size : s'.ptfoThreads.size = s.ptfoThreads.size) (nodeCount : s'.nodeCount = s.nodeCount)
    (threads : ∀ p, s'.ptfoThreads.get p = s.ptfoThreads.get p ∨
      s'.ptfoThreads.get p = (s.ptfoThreads.get p).reset) : s.Quieter s' := by
  refine ⟨⟨config, size, nodeCount, fun p => ?_⟩, fun p => ?_⟩
  · rcases threads p with same | reset
    · rw [same]
    · rw [reset]
      rfl
  · unfold entries
    rcases threads p with same | reset
    · rw [same]
    · rw [reset]
      exact Nat.zero_le _

theorem nodeCount_subtractPendingCountsLocked (ids : List Nat) (s : Impl τ) :
    (s.subtractPendingCountsLocked ids).nodeCount = s.nodeCount := by
  unfold subtractPendingCountsLocked
  induction ids generalizing s with
  | nil => rfl
  | cons p ids ih =>
      rw [List.foldl_cons, ih]
      unfold subtractPendingCount
      split <;> rfl

theorem sameShape_account (s : Impl τ) (p : Nat) (numa : Int) : s.SameShape (s.account p numa) := by
  refine ⟨rfl, rfl, rfl, fun q => ?_⟩
  have threads : (s.account p numa).ptfoThreads.get =
    Function.update s.ptfoThreads.get p (s.ptfoThreads.get p).bump := rfl
  rw [threads]
  by_cases hqp : q = p
  · rw [hqp, Function.update_self]
    rfl
  · rw [Function.update_of_ne hqp]

variable [GlobalTree τ]

theorem quieter_drainLocked (s : Impl τ) (numa : Int) : s.Quieter (s.drainLocked numa) := by
  have threads := (s.keepsOrEmpties_drainLocked numa).threads
  unfold drainLocked at threads ⊢
  split
  · exact .refl s
  · rename_i pending
    rw [if_neg pending] at threads
    exact quieter_of_threads rfl rfl rfl threads

theorem quieter_drainSlice (s : Impl τ) (ids : List Nat) (slots : Nat) (numa : Int) :
    s.Quieter (s.drainSlice ids slots numa) := by
  have threads := (s.keepsOrEmpties_drainSlice ids slots numa).threads
  have size := s.size_drainSlice ids slots numa
  rw [drainSlice_eq] at threads size ⊢
  split
  · exact .refl s
  · rename_i some
    rw [if_neg some] at threads size
    refine quieter_of_threads ?_ size ?_ threads
    · exact (subtracted_locked ids (s.replayed ids slots numa)).config
    · exact nodeCount_subtractPendingCountsLocked ids (s.replayed ids slots numa)

end Impl

namespace Machine

variable {τ : Type} [GlobalTree τ]

/-- Only the accounting section of a call adds to a count. -/
theorem quieter_step (m : Machine τ) {a : Action} (other : ∀ p numa, a ≠ .account p numa) :
    m.impl.Quieter (m.step a).impl := by
  cases a with
  | takeSequence key p isDone =>
      rw [step]
      split
      · exact ⟨⟨rfl, rfl, rfl, fun _ => rfl⟩, fun _ => le_rfl⟩
      · exact .refl _
  | ptfoInsert p =>
      rw [step]
      split
      · exact ⟨⟨rfl, rfl, rfl, fun _ => rfl⟩, fun _ => le_rfl⟩
      · exact .refl _
      · exact .refl _
  | account p numa => exact absurd rfl (other p numa)
  | drainPending numa => exact m.impl.quieter_drainLocked numa
  | drainForProducers ids numa => exact m.impl.quieter_drainSlice _ _ numa
  | drainForNodes ids numa => exact m.impl.quieter_drainSlice _ _ numa

theorem sameShape_step (m : Machine τ) (a : Action) : m.impl.SameShape (m.step a).impl := by
  cases a with
  | account p numa =>
      rw [step]
      split
      · exact m.impl.sameShape_account p numa
      · exact .refl _
      · exact .refl _
  | _ => exact (m.quieter_step (by simp)).toSameShape

end Machine

/-! ## Work that is due -/

namespace Code

variable {τ : Type} {s s' : Impl τ} {ownedNodes ownedProducers : List Nat}

/-- The operations that a worker has to drain, as its test counts them. -/
def ownedPending (ownedNodes ownedProducers : List Nat) (s : Impl τ) : Nat :=
  if !ownedNodes.isEmpty then
    ((ownedNodes.filter fun node => node < s.nodeCount).map s.pendingOperationCountByNode).sum
  else ((ownedProducers.filter fun pid => pid < s.ptfoThreads.size).map s.entries).sum

theorem due_iff : due ownedNodes ownedProducers s = true ↔
    ownedPending ownedNodes ownedProducers s ≠ 0 ∧ 0 < s.config.checkpointThresholdOps ∧
      s.config.checkpointThresholdOps ≤ ownedPending ownedNodes ownedProducers s := by
  unfold due ownedPending
  cases ownedNodes.isEmpty with
  | true =>
      simp only [Bool.not_true, Bool.false_and, Bool.false_or, Bool.true_and]
      exact decide_eq_true_iff
  | false =>
      simp only [Bool.not_false, Bool.true_and, Bool.false_and, Bool.or_false, if_true]
      exact decide_eq_true_iff

theorem ownedPending_mono (quieter : s.Quieter s') (counted : s.Counted) (counted' : s'.Counted) :
    ownedPending ownedNodes ownedProducers s' ≤ ownedPending ownedNodes ownedProducers s := by
  unfold ownedPending
  rw [quieter.size, quieter.nodeCount]
  split
  · refine List.sum_le_sum fun node mem => ?_
    have hnode : node < s.nodeCount := of_decide_eq_true (List.mem_filter.mp mem).2
    rw [counted.byNode node hnode, counted'.byNode node (quieter.nodeCount.symm ▸ hnode),
      Impl.entryTotalAt, quieter.size]
    refine Finset.sum_le_sum fun p _ => ?_
    rw [quieter.home]
    split
    · exact quieter.fewer p
    · exact le_rfl
  · exact List.sum_le_sum fun p _ => quieter.fewer p

/-- Work that is due was due before, when only drains have come between. -/
theorem due_of_quieter (quieter : s.Quieter s') (counted : s.Counted) (counted' : s'.Counted)
    (h : due ownedNodes ownedProducers s' = true) : due ownedNodes ownedProducers s = true := by
  rw [due_iff] at h ⊢
  rw [quieter.config] at h
  have le : ownedPending ownedNodes ownedProducers s' ≤ ownedPending ownedNodes ownedProducers s :=
    ownedPending_mono quieter counted counted'
  omega

/-- What one worker has to drain is part of what is pending. -/
theorem ownedPending_le (counted : s.Counted) (nodes : ownedNodes.Nodup)
    (producers : ownedProducers.Nodup) :
    ownedPending ownedNodes ownedProducers s ≤ s.pendingOperationCount := by
  rw [counted.total, Impl.entryTotal]
  unfold ownedPending
  split
  · have once := nodes.filter fun node => decide (node < s.nodeCount)
    rw [← List.sum_toFinset _ once]
    have spread : ∀ node ∈ (ownedNodes.filter fun node => decide (node < s.nodeCount)).toFinset,
        s.pendingOperationCountByNode node = s.entryTotalAt node := by
      intro node mem
      have mem := List.mem_filter.mp (List.mem_toFinset.mp mem)
      exact counted.byNode node (of_decide_eq_true mem.2)
    rw [Finset.sum_congr rfl spread]
    unfold Impl.entryTotalAt
    rw [Finset.sum_comm]
    refine Finset.sum_le_sum fun p _ => ?_
    rw [Finset.sum_ite_eq]
    split
    · exact le_rfl
    · exact Nat.zero_le _
  · have once := producers.filter fun pid => decide (pid < s.ptfoThreads.size)
    rw [← List.sum_toFinset _ once]
    refine Finset.sum_le_sum_of_subset fun p mem => Finset.mem_range.mpr ?_
    exact of_decide_eq_true (List.mem_filter.mp (List.mem_toFinset.mp mem)).2

/-! ### Tests -/

theorem asyncCheckpointEnabled_eq_false : asyncCheckpointEnabled s = false ↔
    s.config.checkpointThresholdOps = 0 ∧ s.config.checkpointIntervalUs = 0 := by
  rw [asyncCheckpointEnabled, decide_eq_false_iff_not]
  omega

/-- Without asynchronous checkpoints a worker waits for the end. -/
theorem test_of_sync {s : Shared τ} (sync : asyncCheckpointEnabled s.impl = false) (wait : Wait) :
    test ownedNodes ownedProducers s wait = s.stopRequested := by
  have idle : due ownedNodes ownedProducers s.impl = false := by
    rw [← Bool.not_eq_true, due_iff, (asyncCheckpointEnabled_eq_false.mp sync).1]
    exact fun h => absurd h.2.1 (lt_irrefl 0)
  cases wait with
  | stop => rfl
  | timed => rw [test, wakes_eq, idle, Bool.or_false]
  | work => rw [test, wakes_eq, idle, sync, Bool.or_false, Bool.false_and, Bool.false_and,
      Bool.or_false]

/-- A worker that takes the way to a wait finds its test unmet, and sleeps. -/
theorem test_of_sleep {s : Shared τ} {wait : Wait}
    (sleep : turn ownedNodes ownedProducers s = .sleep wait) :
    test ownedNodes ownedProducers s wait = false := by
  unfold turn at sleep
  split at sleep
  · cases sleep
  rename_i running
  rw [Bool.not_eq_true] at running
  split at sleep
  · obtain rfl := Turn.sleep.inj sleep
    exact running
  split at sleep
  · cases sleep
  rename_i idle
  rw [Bool.not_eq_true] at idle
  split at sleep
  · obtain rfl := Turn.sleep.inj sleep
    rw [test, wakes_eq, running, idle]
    rfl
  · rename_i empty
    obtain rfl := Turn.sleep.inj sleep
    rw [Bool.not_eq_true] at empty
    rw [test, wakes_eq, running, idle, Bool.and_assoc, empty, Bool.and_false]
    rfl

/-- A test that is met after drains was met before. -/
theorem test_of_quieter {s s' : Shared τ} {wait : Wait} (quieter : s.impl.Quieter s'.impl)
    (counted : s.impl.Counted) (counted' : s'.impl.Counted)
    (running : s'.stopRequested = s.stopRequested)
    (h : test ownedNodes ownedProducers s' wait = true) :
    test ownedNodes ownedProducers s wait = true := by
  have before : wakes ownedNodes ownedProducers s' = true →
      wakes ownedNodes ownedProducers s = true := by
    rw [wakes_eq, wakes_eq, running, Bool.or_eq_true, Bool.or_eq_true]
    exact Or.imp_right (due_of_quieter quieter counted counted')
  cases wait with
  | stop => exact running.symm.trans h
  | timed => exact before h
  | work =>
      have fewer : s'.impl.pendingOperationCount ≤ s.impl.pendingOperationCount := by
        rw [counted.total, counted'.total, Impl.entryTotal, Impl.entryTotal, quieter.size]
        exact Finset.sum_le_sum fun p _ => quieter.fewer p
      simp only [test, Bool.or_eq_true, Bool.and_eq_true, asyncCheckpointEnabled,
        decide_eq_true_eq, quieter.config] at h ⊢
      exact h.imp before (And.imp_right fun pending => Nat.lt_of_lt_of_le pending fewer)

end Code

/-- What a producer has accounted for is due for its owner to drain. -/
theorem Shared.entries_le_ownedPending {τ : Type} {s : Shared τ} {p : Nat}
    (counted : s.impl.Counted) (hp : p < s.impl.ptfoThreads.size)
    (workers : 0 < s.impl.config.evaluatorThreads)
    (home : s.binds = true → (s.impl.ptfoThreads.get p).homeNode < s.topologyNodes) :
    s.impl.entries p ≤
      Code.ownedPending (s.ownedNodes (s.owner p)) (s.ownedProducers (s.owner p)) s.impl := by
  have hid := Shared.owner_lt workers p
  unfold Code.ownedPending
  cases bound : s.binds with
  | true =>
      have nonempty : (!(s.ownedNodes (s.owner p)).isEmpty) = true := by
        simpa using Shared.ownedNodes_ne_nil bound hid
      rw [if_pos nonempty]
      have counts := counted.home p hp
      have mem : (s.impl.ptfoThreads.get p).homeNode ∈
          (s.ownedNodes (s.owner p)).filter fun node => decide (node < s.impl.nodeCount) := by
        rw [List.mem_filter, Shared.ownedNodes, if_pos bound,
          Code.mem_nodesForWorker (Nat.zero_lt_of_lt hid), Shared.owner, if_pos bound]
        exact ⟨⟨home bound, rfl⟩, decide_eq_true counts⟩
      have here : s.impl.entries p ≤
          s.impl.pendingOperationCountByNode (s.impl.ptfoThreads.get p).homeNode := by
        rw [counted.byNode _ counts]
        exact s.impl.entryTotalAt_le hp
      exact here.trans (List.single_le_sum (fun _ _ => Nat.zero_le _) _ (List.mem_map_of_mem mem))
  | false =>
      have unbound : ¬ s.binds = true := by simp [bound]
      have none : s.ownedNodes (s.owner p) = [] := if_neg unbound
      rw [none, if_neg (by simp)]
      have mem : p ∈ (s.ownedProducers (s.owner p)).filter
          fun pid => decide (pid < s.impl.ptfoThreads.size) := by
        rw [List.mem_filter, Shared.ownedProducers, Impl.mem_producersForEvaluator hid,
          Shared.owner, if_neg unbound]
        exact ⟨⟨hp, rfl⟩, decide_eq_true hp⟩
      exact List.single_le_sum (fun _ _ => Nat.zero_le _) _ (List.mem_map_of_mem mem)

/-- A sleeping worker is woken. -/
def WorkerPhase.woken : WorkerPhase → WorkerPhase
  | .asleep wait => .awake wait false
  | phase => phase

def WorkerPhase.sleeps : WorkerPhase → Bool
  | .asleep _ => true
  | _ => false

/-! ## The machine -/

/-- The wrapper, its producers' threads inside their calls, and its workers.  `notified` says
whether the destructor has come to its `notify_all`. -/
structure EvaluatorMachine (τ : Type) : Type where
  shared : Shared τ
  phase : Nat → Phase
  issued : List Issue
  returned : List Issue
  worker : Nat → WorkerPhase
  notified : Bool

namespace EvaluatorMachine

/-- A section of a producer's call, `drain_pending`, the two parts of the destructor, or
something that happens to a worker.  `chosen` is the worker that `notify_one` wakes. -/
inductive Move : Type
  | takeSequence (key : Int) (producerId : Nat) (isDone : Bool)
  | ptfoInsert (producerId : Nat)
  | account (producerId : Nat) (numa : Int) (chosen : Option Nat)
  | drainPending (numa : Int)
  | destroy (numa : Int)
  | notifyAll
  | wake (i : Nat)
  | timeout (i : Nat)
  | enter (i : Nat)
  | resume (i : Nat) (numa : Int)
  | turn (i : Nat) (numa : Int)
deriving DecidableEq, Repr

section Moves

variable {τ : Type} [GlobalTree τ]

def init (config : RuntimeConfig) (policy : PlacementPolicy) (tree : τ)
    (seqCounterResume topologyNodes : Nat) : EvaluatorMachine τ where
  shared := .init config policy tree seqCounterResume topologyNodes
  phase := fun _ => .idle
  issued := []
  returned := []
  worker := fun _ => .entering
  notified := false

omit [GlobalTree τ] in
/-- The wrapper and its producers. -/
def calls (m : EvaluatorMachine τ) : Machine τ := ⟨m.shared.impl, m.phase, m.issued, m.returned⟩

def act (m : EvaluatorMachine τ) (a : Action) : EvaluatorMachine τ :=
  let calls := m.calls.step a
  { m with
    shared := { m.shared with impl := calls.impl }
    phase := calls.phase
    issued := calls.issued
    returned := calls.returned }

/-- Worker `i` comes to `phase`. -/
def put (m : EvaluatorMachine τ) (i : Nat) (phase : WorkerPhase) : EvaluatorMachine τ :=
  { m with worker := Function.update m.worker i phase }

/-- No worker has `mu`. -/
def Free (m : EvaluatorMachine τ) : Prop := ∀ i < m.shared.workerCount, m.worker i ≠ .looping

instance (m : EvaluatorMachine τ) : Decidable m.Free := inferInstanceAs (Decidable (∀ _ < _, _))

/-- `cv.notify_one()`, which wakes one of those that sleep. -/
def notifyOne (m : EvaluatorMachine τ) : Option Nat → Option (EvaluatorMachine τ)
  | some i =>
      if i < m.shared.workerCount ∧ (m.worker i).sleeps then some (m.put i (m.worker i).woken)
      else none
  | none => if ∀ i < m.shared.workerCount, ¬ (m.worker i).sleeps then some m else none

/-- `cv.notify_all()` -/
def wakeAll (m : EvaluatorMachine τ) : EvaluatorMachine τ :=
  { m with worker := fun i => (m.worker i).woken }

def test (m : EvaluatorMachine τ) (i : Nat) (wait : Wait) : Bool :=
  Code.test (m.shared.ownedNodes i) (m.shared.ownedProducers i) m.shared wait

/-- The drain of worker `i`. -/
def drainOwned (m : EvaluatorMachine τ) (i : Nat) (numa : Int) : EvaluatorMachine τ :=
  m.act (if !(m.shared.ownedNodes i).isEmpty then .drainForNodes (m.shared.ownedNodes i) numa
    else .drainForProducers (m.shared.ownedProducers i) numa)

/-- Worker `i` is back from `cv` and has `mu`. -/
def resume (m : EvaluatorMachine τ) (i : Nat) (wait : Wait) (timeout : Bool) (numa : Int) :
    EvaluatorMachine τ :=
  if m.test i wait || timeout then
    match wait with
    | .timed =>
        if m.shared.stopRequested then m.put i .exited else (m.drainOwned i numa).put i .looping
    | .stop | .work => m.put i .looping
  else m.put i (.asleep wait)

/-- A turn of the loop of worker `i`. -/
def turn (m : EvaluatorMachine τ) (i : Nat) (numa : Int) : EvaluatorMachine τ :=
  match Code.turn (m.shared.ownedNodes i) (m.shared.ownedProducers i) m.shared with
  | .leave => m.put i .exited
  | .drain => m.drainOwned i numa
  | .sleep wait => m.put i (.asleep wait)

def move (m : EvaluatorMachine τ) : Move → Option (EvaluatorMachine τ)
  | .takeSequence key p isDone => some (m.act (.takeSequence key p isDone))
  | .ptfoInsert p => some (m.act (.ptfoInsert p))
  | .account p numa chosen =>
      match m.phase p with
      | .buffered _ _ => if m.Free then (m.act (.account p numa)).notifyOne chosen else none
      | .idle | .sequenced _ _ _ => none
  | .drainPending numa => if m.Free then some (m.act (.drainPending numa)).wakeAll else none
  | .destroy numa =>
      if m.Free then
        let m := m.act (.drainPending numa)
        some { m with shared := { m.shared with stopRequested := true } }
      else none
  | .notifyAll =>
      if m.shared.stopRequested then some { m.wakeAll with notified := true } else none
  -- A wake-up that nobody has asked for.
  | .wake i =>
      if i < m.shared.workerCount ∧ (m.worker i).sleeps then some (m.put i (m.worker i).woken)
      else none
  | .timeout i =>
      if i < m.shared.workerCount ∧ m.worker i = .asleep .timed then
        some (m.put i (.awake .timed true))
      else none
  | .enter i =>
      if i < m.shared.workerCount ∧ m.worker i = .entering ∧ m.Free then some (m.put i .looping)
      else none
  | .resume i numa =>
      match m.worker i with
      | .awake wait timeout =>
          if i < m.shared.workerCount ∧ m.Free then some (m.resume i wait timeout numa) else none
      | .entering | .looping | .asleep _ | .exited => none
  | .turn i numa =>
      if i < m.shared.workerCount ∧ m.worker i = .looping then some (m.turn i numa) else none

def run (m : EvaluatorMachine τ) : List Move → Option (EvaluatorMachine τ)
  | [] => some m
  | e :: moves => do
      let m ← m.move e
      m.run moves

end Moves

/-! ## What a move can do -/

section Steps

variable {τ : Type} [GlobalTree τ] {m m' : EvaluatorMachine τ} {e : Move}

/-- The moves of a machine, by what they do to the wrapper and to its workers. -/
inductive Step (m : EvaluatorMachine τ) : Move → EvaluatorMachine τ → Prop
  | takeSequence (key : Int) (p : Nat) (isDone : Bool) :
      Step m (.takeSequence key p isDone) (m.act (.takeSequence key p isDone))
  | ptfoInsert (p : Nat) : Step m (.ptfoInsert p) (m.act (.ptfoInsert p))
  | account {key : Int} {isDone : Bool} (p : Nat) (numa : Int) (free : m.Free)
      (ready : m.phase p = .buffered key isDone)
      (alone : ∀ i < m.shared.workerCount, ¬ (m.worker i).sleeps) :
      Step m (.account p numa none) (m.act (.account p numa))
  | accountWakes {key : Int} {isDone : Bool} {wait : Wait} (p : Nat) (numa : Int) (i : Nat)
      (free : m.Free) (ready : m.phase p = .buffered key isDone)
      (hi : i < m.shared.workerCount) (asleep : m.worker i = .asleep wait) :
      Step m (.account p numa (some i)) ((m.act (.account p numa)).put i (.awake wait false))
  | drainPending (numa : Int) (free : m.Free) :
      Step m (.drainPending numa) (m.act (.drainPending numa)).wakeAll
  | destroy (numa : Int) (free : m.Free) :
      Step m (.destroy numa)
        { m.act (.drainPending numa) with
          shared := { (m.act (.drainPending numa)).shared with stopRequested := true } }
  | notifyAll (stopped : m.shared.stopRequested = true) :
      Step m .notifyAll { m.wakeAll with notified := true }
  | wake {wait : Wait} (i : Nat) (hi : i < m.shared.workerCount)
      (asleep : m.worker i = .asleep wait) : Step m (.wake i) (m.put i (.awake wait false))
  | timeout (i : Nat) (hi : i < m.shared.workerCount) (asleep : m.worker i = .asleep .timed) :
      Step m (.timeout i) (m.put i (.awake .timed true))
  | enter (i : Nat) (hi : i < m.shared.workerCount) (free : m.Free)
      (entering : m.worker i = .entering) : Step m (.enter i) (m.put i .looping)
  | resume {wait : Wait} {timeout : Bool} (i : Nat) (numa : Int) (hi : i < m.shared.workerCount)
      (free : m.Free) (awake : m.worker i = .awake wait timeout) :
      Step m (.resume i numa) (m.resume i wait timeout numa)
  | turn (i : Nat) (numa : Int) (hi : i < m.shared.workerCount)
      (looping : m.worker i = .looping) : Step m (.turn i numa) (m.turn i numa)

theorem sameShape_act (m : EvaluatorMachine τ) (a : Action) :
    m.shared.impl.SameShape (m.act a).shared.impl := m.calls.sameShape_step a

theorem workerCount_act (m : EvaluatorMachine τ) (a : Action) :
    (m.act a).shared.workerCount = m.shared.workerCount := by
  have config := (m.sameShape_act a).config
  unfold Shared.workerCount Shared.binds
  rw [config]
  rfl

theorem ownedNodes_act (m : EvaluatorMachine τ) (a : Action) (i : Nat) :
    (m.act a).shared.ownedNodes i = m.shared.ownedNodes i := by
  unfold Shared.ownedNodes
  rw [workerCount_act]
  rfl

theorem ownedProducers_act (m : EvaluatorMachine τ) (a : Action) (i : Nat) :
    (m.act a).shared.ownedProducers i = m.shared.ownedProducers i := by
  unfold Shared.ownedProducers
  rw [workerCount_act, (m.sameShape_act a).size]

omit [GlobalTree τ] in
theorem asleep_of_sleeps {phase : WorkerPhase} (sleeps : phase.sleeps = true) :
    ∃ wait, phase = .asleep wait ∧ phase.woken = .awake wait false := by
  cases phase with
  | asleep wait => exact ⟨wait, rfl, rfl⟩
  | _ => cases sleeps

omit [GlobalTree τ] in
/-- A guard that has let a move pass. -/
theorem of_guard {p : Prop} [Decidable p] {a b : EvaluatorMachine τ}
    (h : (if p then some a else none) = some b) : p ∧ a = b := by
  split at h
  · rename_i hp
    exact ⟨hp, Option.some.inj h⟩
  · cases h

theorem move_step (h : m.move e = some m') : m.Step e m' := by
  cases e with
  | takeSequence key p isDone => exact Option.some.inj h ▸ .takeSequence key p isDone
  | ptfoInsert p => exact Option.some.inj h ▸ .ptfoInsert p
  | account p numa chosen =>
      rw [move] at h
      split at h
      · rename_i key isDone ready
        split at h
        · rename_i free
          cases chosen with
          | none =>
              obtain ⟨alone, rfl⟩ := of_guard h
              rw [workerCount_act] at alone
              exact .account p numa free ready alone
          | some i =>
              obtain ⟨⟨hi, sleeps⟩, rfl⟩ := of_guard h
              obtain ⟨wait, asleep, woken⟩ := asleep_of_sleeps sleeps
              rw [workerCount_act] at hi
              rw [woken]
              exact .accountWakes p numa i free ready hi asleep
        · cases h
      · cases h
      · cases h
  | drainPending numa =>
      obtain ⟨free, rfl⟩ := of_guard h
      exact .drainPending numa free
  | destroy numa =>
      obtain ⟨free, rfl⟩ := of_guard h
      exact .destroy numa free
  | notifyAll =>
      obtain ⟨stopped, rfl⟩ := of_guard h
      exact .notifyAll stopped
  | wake i =>
      obtain ⟨⟨hi, sleeps⟩, rfl⟩ := of_guard h
      obtain ⟨wait, asleep, woken⟩ := asleep_of_sleeps sleeps
      rw [woken]
      exact .wake i hi asleep
  | timeout i =>
      obtain ⟨⟨hi, asleep⟩, rfl⟩ := of_guard h
      exact .timeout i hi asleep
  | enter i =>
      obtain ⟨⟨hi, entering, free⟩, rfl⟩ := of_guard h
      exact .enter i hi free entering
  | resume i numa =>
      rw [move] at h
      split at h
      · rename_i wait timeout awake
        obtain ⟨⟨hi, free⟩, rfl⟩ := of_guard h
        exact .resume i numa hi free awake
      · cases h
      · cases h
      · cases h
      · cases h
  | turn i numa =>
      obtain ⟨⟨hi, looping⟩, rfl⟩ := of_guard h
      exact .turn i numa hi looping

/-- The ways a worker goes on after `cv`. -/
theorem resume_cases (m : EvaluatorMachine τ) (i : Nat) (wait : Wait) (timeout : Bool)
    (numa : Int) :
    (m.test i wait = false ∧ timeout = false ∧
      m.resume i wait timeout numa = m.put i (.asleep wait)) ∨
    ((m.test i wait = true ∨ timeout = true) ∧
      ((wait = .timed ∧ m.shared.stopRequested = true ∧
          m.resume i wait timeout numa = m.put i .exited) ∨
        (wait = .timed ∧ m.shared.stopRequested = false ∧
          m.resume i wait timeout numa = (m.drainOwned i numa).put i .looping) ∨
        (wait ≠ .timed ∧ m.resume i wait timeout numa = m.put i .looping))) := by
  by_cases goes : (m.test i wait || timeout) = true
  · refine Or.inr ⟨Bool.or_eq_true_iff.mp goes, ?_⟩
    unfold EvaluatorMachine.resume
    rw [if_pos goes]
    cases wait with
    | timed =>
        by_cases stopped : m.shared.stopRequested = true
        · exact Or.inl ⟨rfl, stopped, if_pos stopped⟩
        · exact Or.inr (Or.inl ⟨rfl, Bool.eq_false_iff.mpr stopped, if_neg stopped⟩)
    | stop => exact Or.inr (Or.inr ⟨by simp, rfl⟩)
    | work => exact Or.inr (Or.inr ⟨by simp, rfl⟩)
  · obtain ⟨unmet, early⟩ := Bool.or_eq_false_iff.mp (Bool.eq_false_iff.mpr goes)
    exact Or.inl ⟨unmet, early, if_neg goes⟩

/-- The action of a worker's drain. -/
theorem drainOwned_eq (m : EvaluatorMachine τ) (i : Nat) (numa : Int) :
    ∃ a, m.drainOwned i numa = m.act a ∧
      (∀ ids numa', a = .drainForProducers ids numa' → ids.Nodup) ∧
      (∀ numa', a ≠ .drainPending numa') ∧ ∀ p numa', a ≠ .account p numa' := by
  refine ⟨_, rfl, ?_⟩
  split
  · exact ⟨by simp, by simp, by simp⟩
  · refine ⟨fun ids numa' h => ?_, by simp, by simp⟩
    obtain ⟨rfl, -⟩ := Action.drainForProducers.inj h
    exact Impl.nodup_producersForEvaluator ..

/-- A move takes at most one action on the wrapper, and a full drain is asked for. -/
theorem Step.calls_eq (step : m.Step e m') : m'.calls = m.calls ∨
    ∃ a, m'.calls = m.calls.step a ∧ (∀ ids numa, a = .drainForProducers ids numa → ids.Nodup) ∧
      ∀ numa, a = .drainPending numa → e = .drainPending numa ∨ e = .destroy numa := by
  have owned : ∀ i numa, ∃ a, (m.drainOwned i numa).calls = m.calls.step a ∧
      (∀ ids numa, a = .drainForProducers ids numa → ids.Nodup) ∧
        ∀ numa, a = .drainPending numa → e = .drainPending numa ∨ e = .destroy numa := by
    intro i numa
    obtain ⟨a, same, slice, other, -⟩ := m.drainOwned_eq i numa
    exact ⟨a, congrArg calls same, slice, fun numa' h => absurd h (other numa')⟩
  cases step with
  | takeSequence key p isDone =>
      exact Or.inr ⟨.takeSequence key p isDone, rfl, by simp, by simp⟩
  | ptfoInsert p => exact Or.inr ⟨.ptfoInsert p, rfl, by simp, by simp⟩
  | account p numa => exact Or.inr ⟨.account p numa, rfl, by simp, by simp⟩
  | accountWakes p numa i => exact Or.inr ⟨.account p numa, rfl, by simp, by simp⟩
  | drainPending numa =>
      refine Or.inr ⟨.drainPending numa, rfl, by simp, fun numa' h => Or.inl ?_⟩
      rw [Action.drainPending.inj h]
  | destroy numa =>
      refine Or.inr ⟨.drainPending numa, rfl, by simp, fun numa' h => Or.inr ?_⟩
      rw [Action.drainPending.inj h]
  | notifyAll => exact Or.inl rfl
  | wake i => exact Or.inl rfl
  | timeout i => exact Or.inl rfl
  | enter i => exact Or.inl rfl
  | @resume wait timeout i numa =>
      rcases m.resume_cases i wait timeout numa with
        ⟨-, -, same⟩ | ⟨-, ⟨-, -, same⟩ | ⟨-, -, same⟩ | ⟨-, same⟩⟩
      · exact Or.inl (by rw [same]; rfl)
      · exact Or.inl (by rw [same]; rfl)
      · exact Or.inr (by rw [same]; exact owned i numa)
      · exact Or.inl (by rw [same]; rfl)
  | turn i numa =>
      unfold EvaluatorMachine.turn
      split
      · exact Or.inl rfl
      · exact Or.inr (owned i numa)
      · exact Or.inl rfl

theorem Step.kept (step : m.Step e m') :
    m'.shared.placementPolicy = m.shared.placementPolicy ∧
      m'.shared.topologyNodes = m.shared.topologyNodes := by
  cases step with
  | @resume wait timeout i numa =>
      rcases m.resume_cases i wait timeout numa with
        ⟨-, -, same⟩ | ⟨-, ⟨-, -, same⟩ | ⟨-, -, same⟩ | ⟨-, same⟩⟩
      · rw [same]; exact ⟨rfl, rfl⟩
      · rw [same]; exact ⟨rfl, rfl⟩
      · rw [same]; exact ⟨rfl, rfl⟩
      · rw [same]; exact ⟨rfl, rfl⟩
  | turn i numa =>
      unfold EvaluatorMachine.turn
      split <;> exact ⟨rfl, rfl⟩
  | _ => exact ⟨rfl, rfl⟩

/-- What a run of `m₀` keeps: the configuration, and the books. -/
structure Sound (m₀ m : EvaluatorMachine τ) : Prop where
  shape : m₀.shared.impl.SameShape m.shared.impl
  policy : m.shared.placementPolicy = m₀.shared.placementPolicy
  nodes : m.shared.topologyNodes = m₀.shared.topologyNodes
  booked : m.calls.Booked

theorem Step.sound {m₀ : EvaluatorMachine τ} (sound : Sound m₀ m) (step : m.Step e m') :
    Sound m₀ m' := by
  obtain ⟨policy, nodes⟩ := step.kept
  rcases step.calls_eq with same | ⟨a, acts, slice, -⟩
  · refine ⟨?_, policy.trans sound.policy, nodes.trans sound.nodes, same ▸ sound.booked⟩
    have impl : m'.shared.impl = m.shared.impl := congrArg Machine.impl same
    exact impl ▸ sound.shape
  · refine ⟨?_, policy.trans sound.policy, nodes.trans sound.nodes, acts ▸ sound.booked.step slice⟩
    have impl : m'.shared.impl = (m.calls.step a).impl := congrArg Machine.impl acts
    exact sound.shape.trans (impl ▸ m.calls.sameShape_step a)

omit [GlobalTree τ] in
theorem Sound.workerCount {m₀ : EvaluatorMachine τ} (sound : Sound m₀ m) :
    m.shared.workerCount = m₀.shared.workerCount := by
  unfold Shared.workerCount Shared.binds
  rw [sound.shape.config, sound.policy, sound.nodes]

theorem run_cons {moves : List Move} (h : m.run (e :: moves) = some m') :
    ∃ m₁, m.Step e m₁ ∧ m₁.run moves = some m' := by
  obtain ⟨m₁, first, rest⟩ := Option.bind_eq_some_iff.mp h
  exact ⟨m₁, move_step first, rest⟩

omit [GlobalTree τ] in
theorem Sound.owner {m₀ : EvaluatorMachine τ} (sound : Sound m₀ m) (p : Nat) :
    m.shared.owner p = m₀.shared.owner p := by
  unfold Shared.owner
  rw [sound.workerCount, sound.shape.home, sound.shape.size]
  unfold Shared.binds
  rw [sound.policy, sound.nodes]

theorem run_one (h : m.move e = some m') : m.run [e] = some m' := by
  rw [run, h]
  rfl

theorem run_append {m'' : EvaluatorMachine τ} {moves moves' : List Move}
    (h : m.run moves = some m') (h' : m'.run moves' = some m'') :
    m.run (moves ++ moves') = some m'' := by
  induction moves generalizing m with
  | nil => exact Option.some.inj h ▸ h'
  | cons e moves ih =>
      obtain ⟨m₁, first, rest⟩ := Option.bind_eq_some_iff.mp h
      exact Option.bind_eq_some_iff.mpr ⟨m₁, first, ih rest⟩

/-- What every step keeps holds at the end of a run. -/
theorem run_keeps {P : EvaluatorMachine τ → Prop} {moves : List Move}
    (step : ∀ {m e m'}, P m → Step m e m' → P m') (start : P m)
    (h : m.run moves = some m') : P m' := by
  induction moves generalizing m with
  | nil => exact Option.some.inj h ▸ start
  | cons e moves ih =>
      obtain ⟨m₁, first, rest⟩ := run_cons h
      exact ih (step start first) rest

omit [GlobalTree τ] in
theorem sound_init (config : RuntimeConfig) (policy : PlacementPolicy) (tree : τ)
    (resume nodes : Nat) :
    Sound (init config policy tree resume nodes) (init config policy tree resume nodes) :=
  ⟨.refl _, rfl, rfl, Impl.tallied_init config tree resume nodes, fun _ busy => absurd rfl busy⟩

/-! ## Wake-ups that are missed -/

/-- Worker `i` sleeps though its test is met. -/
def Missed (m : EvaluatorMachine τ) (i : Nat) : Prop :=
  m.shared.stopRequested = false ∧ ∃ wait, m.worker i = .asleep wait ∧ m.test i wait = true

/-- Drains meet no test. -/
theorem test_act {a : Action} (other : ∀ p numa, a ≠ .account p numa) (booked : m.calls.Booked)
    (booked' : (m.act a).calls.Booked) {i : Nat} {wait : Wait}
    (met : (m.act a).test i wait = true) : m.test i wait = true := by
  have quieter : m.shared.impl.Quieter (m.act a).shared.impl := m.calls.quieter_step other
  rw [test, ownedNodes_act, ownedProducers_act] at met
  exact Code.test_of_quieter quieter booked.tallied.toCounted booked'.tallied.toCounted rfl met

theorem Missed.of_act {a : Action} (other : ∀ p numa, a ≠ .account p numa)
    (booked : m.calls.Booked) (booked' : (m.act a).calls.Booked) {i : Nat}
    (missed : (m.act a).Missed i) : m.Missed i := by
  obtain ⟨running, wait, asleep, met⟩ := missed
  exact ⟨running, wait, asleep, test_act other booked booked' met⟩

omit [GlobalTree τ] in
theorem not_missed_put {i : Nat} {phase : WorkerPhase} (awake : ∀ wait, phase ≠ .asleep wait) :
    ¬ (m.put i phase).Missed i := by
  rintro ⟨-, wait, asleep, -⟩
  have here : (m.put i phase).worker i = phase := Function.update_self ..
  exact awake wait (here.symm.trans asleep)

omit [GlobalTree τ] in
theorem not_missed_asleep {i : Nat} {wait : Wait} (unmet : m.test i wait = false) :
    ¬ (m.put i (.asleep wait)).Missed i := by
  rintro ⟨-, wait', asleep, met⟩
  have here : (m.put i (.asleep wait)).worker i = .asleep wait := Function.update_self ..
  obtain rfl := WorkerPhase.asleep.inj (here.symm.trans asleep)
  have same : m.test i wait = true := met
  rw [unmet] at same
  cases same

omit [GlobalTree τ] in
theorem not_missed_wakeAll (m : EvaluatorMachine τ) (i : Nat) : ¬ m.wakeAll.Missed i := by
  rintro ⟨-, wait, asleep, -⟩
  have here : m.wakeAll.worker i = (m.worker i).woken := rfl
  rw [here] at asleep
  cases phase : m.worker i with
  | asleep wait' =>
      rw [phase] at asleep
      cases asleep
  | _ =>
      rw [phase] at asleep
      cases asleep

/-- A worker that is alone is the one that is woken. -/
theorem Step.not_missed (one : m.shared.workerCount = 1) (booked : m.calls.Booked)
    (booked' : m'.calls.Booked) (step : m.Step e m') (attentive : ¬ m.Missed 0) :
    ¬ m'.Missed 0 := by
  have only : ∀ {i}, i < m.shared.workerCount → i = 0 := fun hi => by omega
  cases step with
  | takeSequence key p isDone => exact fun h => attentive (h.of_act (by simp) booked booked')
  | ptfoInsert p => exact fun h => attentive (h.of_act (by simp) booked booked')
  | account p numa free ready alone =>
      rintro ⟨-, wait, asleep, -⟩
      have asleep : m.worker 0 = .asleep wait := asleep
      exact alone 0 (by omega) (by rw [asleep]; rfl)
  | accountWakes p numa i free ready hi asleep =>
      obtain rfl := only hi
      exact not_missed_put (by simp)
  | drainPending numa => exact not_missed_wakeAll _ 0
  | destroy numa => exact fun h => Bool.noConfusion h.1
  | notifyAll => exact not_missed_wakeAll m 0
  | wake i hi =>
      obtain rfl := only hi
      exact not_missed_put (by simp)
  | timeout i hi =>
      obtain rfl := only hi
      exact not_missed_put (by simp)
  | enter i hi =>
      obtain rfl := only hi
      exact not_missed_put (by simp)
  | @resume wait timeout i numa hi =>
      obtain rfl := only hi
      rcases m.resume_cases 0 wait timeout numa with
        ⟨unmet, -, same⟩ | ⟨-, ⟨-, -, same⟩ | ⟨-, -, same⟩ | ⟨-, same⟩⟩
      · rw [same]
        exact not_missed_asleep unmet
      · rw [same]
        exact not_missed_put (by simp)
      · rw [same]
        exact not_missed_put (by simp)
      · rw [same]
        exact not_missed_put (by simp)
  | turn i numa hi looping =>
      obtain rfl := only hi
      unfold EvaluatorMachine.turn
      split
      · exact not_missed_put (by simp)
      · rintro ⟨-, wait, asleep, -⟩
        have here : (m.drainOwned 0 numa).worker 0 = m.worker 0 := rfl
        rw [here, looping] at asleep
        cases asleep
      · rename_i wait sleep
        exact not_missed_asleep (Code.test_of_sleep sleep)

/-! ### A run to a missed wake-up -/

/-- Producer 0 has accounted for `k` calls since `m₀`, and nobody for anything else. -/
structure Fed (m₀ : EvaluatorMachine τ) (k : Nat) (m : EvaluatorMachine τ) : Prop where
  sound : Sound m₀ m
  idle : m.phase 0 = .idle
  running : m.shared.stopRequested = false
  entries : m.shared.impl.entries 0 = k
  pending : m.shared.impl.pendingOperationCount = k

theorem Sound.act {m₀ : EvaluatorMachine τ} {a : Action} (sound : Sound m₀ m)
    (slice : ∀ ids numa, a = .drainForProducers ids numa → ids.Nodup) : Sound m₀ (m.act a) :=
  ⟨sound.shape.trans (m.sameShape_act a), sound.policy, sound.nodes, sound.booked.step slice⟩

omit [GlobalTree τ] in
theorem Fed.put {m₀ : EvaluatorMachine τ} {k : Nat} (fed : Fed m₀ k m) (i : Nat)
    (phase : WorkerPhase) : Fed m₀ k (m.put i phase) :=
  ⟨⟨fed.sound.shape, fed.sound.policy, fed.sound.nodes, fed.sound.booked⟩, fed.idle, fed.running,
    fed.entries, fed.pending⟩

/-- One call of producer 0 up to its accounting section. -/
theorem Fed.call {m₀ : EvaluatorMachine τ} {k : Nat} (fed : Fed m₀ k m)
    (size : 0 < m.shared.impl.ptfoThreads.size) :
    ∃ m₁, m.run [.takeSequence 0 0 false, .ptfoInsert 0] = some m₁ ∧
      m₁.phase 0 = .buffered 0 false ∧ m₁.worker = m.worker ∧ m₁.shared.stopRequested = false ∧
      Sound m₀ m₁ ∧ Fed m₀ (k + 1) (m₁.act (.account 0 0)) := by
  have first : m.calls.step (.takeSequence 0 0 false) = _ := if_pos ⟨size, fed.idle⟩
  have second : ((m.act (.takeSequence 0 0 false)).act (.ptfoInsert 0)).calls =
      ⟨m.shared.impl.takeSequence.2.ptfoInsert 0 0 false m.shared.impl.nextPtfoSequence,
        Function.update m.phase 0 (.buffered 0 false), m.issued ++ [⟨0, 0, false⟩],
        m.returned⟩ := by
    change (m.calls.step (.takeSequence 0 0 false)).step (.ptfoInsert 0) = _
    rw [first, Machine.step]
    simp [calls]
  have third : (((m.act (.takeSequence 0 0 false)).act (.ptfoInsert 0)).act (.account 0 0)).calls =
      ⟨(m.shared.impl.takeSequence.2.ptfoInsert 0 0 false
          m.shared.impl.nextPtfoSequence).account 0 0,
        Function.update (Function.update m.phase 0 (.buffered 0 false)) 0 .idle,
        m.issued ++ [⟨0, 0, false⟩], m.returned ++ [⟨0, 0, false⟩]⟩ := by
    change (((m.act (.takeSequence 0 0 false)).act (.ptfoInsert 0)).calls).step (.account 0 0) = _
    rw [second, Machine.step]
    simp
  have sound := (fed.sound.act (a := .takeSequence 0 0 false) (by simp)).act (a := .ptfoInsert 0)
    (by simp)
  refine ⟨_, rfl, ?_, rfl, fed.running, sound, sound.act (by simp), ?_, fed.running, ?_, ?_⟩
  · refine (congrFun (congrArg Machine.phase second) 0).trans ?_
    exact Function.update_self 0 (Phase.buffered 0 false) m.phase
  · refine (congrFun (congrArg Machine.phase third) 0).trans ?_
    exact Function.update_self 0 Phase.idle (Function.update m.phase 0 (.buffered 0 false))
  · refine (congrArg (fun calls => calls.impl.entries 0) third).trans ?_
    rw [← fed.entries]
    simp [Impl.entries, Impl.account, PTFOThreadState.bump, Impl.ptfoInsert, Impl.takeSequence]
  · refine (congrArg (fun calls => calls.impl.pendingOperationCount) third).trans ?_
    rw [← fed.pending]
    rfl

/-- Calls of producer 0 before any worker has come to its loop. -/
theorem run_calls {m₀ : EvaluatorMachine τ} {k : Nat} (fed : Fed m₀ 0 m₀)
    (entering : ∀ i, m₀.worker i = .entering) (size : 0 < m₀.shared.impl.ptfoThreads.size) :
    ∃ moves m, m₀.run moves = some m ∧ Fed m₀ k m ∧ m.worker = m₀.worker := by
  induction k with
  | zero => exact ⟨[], m₀, rfl, fed, rfl⟩
  | succ k ih =>
      obtain ⟨moves, m, run, fed, worker⟩ := ih
      obtain ⟨m₁, call, ready, worker₁, running, sound, fed'⟩ :=
        fed.call (fed.sound.shape.size ▸ size)
      have free : m₁.Free := fun i _ => by simp [worker₁, worker, entering]
      have alone : ∀ i < (m₁.act (.account 0 0)).shared.workerCount,
          ¬ ((m₁.act (.account 0 0)).worker i).sleeps := by
        intro i _
        change ¬ (m₁.worker i).sleeps
        simp [worker₁, worker, entering, WorkerPhase.sleeps]
      have last : m₁.move (.account 0 0 none) = some (m₁.act (.account 0 0)) := by
        rw [move, ready]
        dsimp only
        rw [if_pos free, notifyOne, if_pos alone]
      refine ⟨moves ++ ([.takeSequence 0 0 false, .ptfoInsert 0] ++ [.account 0 0 none]), _,
        run_append run (run_append call (run_one last)), fed', worker₁.trans worker⟩

/-- A worker that comes to its loop and finds nothing to do sleeps. -/
theorem run_sleeps {i : Nat} {wait : Wait} (hi : i < m.shared.workerCount) (free : m.Free)
    (entering : m.worker i = .entering)
    (sleep : Code.turn (m.shared.ownedNodes i) (m.shared.ownedProducers i) m.shared =
      .sleep wait) : m.run [.enter i, .turn i 0] = some (m.put i (.asleep wait)) := by
  have first : m.move (.enter i) = some (m.put i .looping) := if_pos ⟨hi, entering, free⟩
  have looping : (m.put i .looping).worker i = .looping := Function.update_self ..
  have second : (m.put i .looping).move (.turn i 0) = some (m.put i (.asleep wait)) := by
    rw [move, if_pos ⟨hi, looping⟩, EvaluatorMachine.turn]
    change some (match Code.turn (m.shared.ownedNodes i) (m.shared.ownedProducers i) m.shared with
      | .leave => _
      | .drain => _
      | .sleep wait => _) = _
    rw [sleep]
    dsimp only
    rw [put, put, put, Function.update_idem]
  rw [run, first]
  exact run_one second

omit [GlobalTree τ] in
/-- Too little has been accounted for to be drained. -/
theorem Fed.turn {m₀ : EvaluatorMachine τ} {k : Nat} (fed : Fed m₀ k m)
    (enabled : Code.asyncCheckpointEnabled m₀.shared.impl = true)
    (few : 0 < m₀.shared.impl.config.checkpointThresholdOps →
      k < m₀.shared.impl.config.checkpointThresholdOps)
    (empty : 0 < m₀.shared.impl.config.checkpointIntervalUs → k = 0) (i : Nat) :
    Code.turn (m.shared.ownedNodes i) (m.shared.ownedProducers i) m.shared = .sleep .work := by
  have config : m.shared.impl.config = m₀.shared.impl.config := fed.sound.shape.config
  have enabled : Code.asyncCheckpointEnabled m.shared.impl = true := by
    rw [Code.asyncCheckpointEnabled, config]
    exact enabled
  have nodes : (m.shared.ownedNodes i).Nodup := by
    unfold Shared.ownedNodes Code.nodesForWorker
    split
    · split
      · exact List.nodup_nil
      · exact List.nodup_range.sublist List.filter_sublist
    · exact List.nodup_nil
  have idle :
      Code.due (m.shared.ownedNodes i) (m.shared.ownedProducers i) m.shared.impl = false := by
    rw [← Bool.not_eq_true, Code.due_iff, config]
    rintro ⟨-, some, le⟩
    have le' := Code.ownedPending_le fed.sound.booked.tallied.toCounted nodes
      (Impl.nodup_producersForEvaluator i m.shared.workerCount m.shared.impl.ptfoThreads.size)
    have less := few some
    have total : m.calls.impl.pendingOperationCount = k := fed.pending
    rw [total] at le'
    exact absurd (le.trans le') (Nat.not_le.mpr less)
  have nothing : (decide (m.shared.impl.config.checkpointIntervalUs > 0) &&
      decide (m.shared.impl.pendingOperationCount > 0)) = false := by
    rw [Bool.and_eq_false_iff, decide_eq_false_iff_not, decide_eq_false_iff_not, config,
      fed.pending]
    by_cases interval : 0 < m₀.shared.impl.config.checkpointIntervalUs
    · exact Or.inr (by rw [empty interval]; exact lt_irrefl 0)
    · exact Or.inl interval
  rw [Code.turn, fed.running, enabled, idle, nothing]
  rfl

omit [GlobalTree τ] in
/-- The last call makes the work of the owner due. -/
theorem Fed.met {m₀ : EvaluatorMachine τ} {k : Nat} (fed : Fed m₀ k m)
    (enabled : Code.asyncCheckpointEnabled m₀.shared.impl = true)
    (many : m₀.shared.impl.config.checkpointIntervalUs = 0 →
      m₀.shared.impl.config.checkpointThresholdOps = k) (some : 0 < k)
    (size : 0 < m₀.shared.impl.ptfoThreads.size)
    (workers : 0 < m₀.shared.impl.config.evaluatorThreads)
    (home : (m₀.shared.impl.ptfoThreads.get 0).homeNode = 0) :
    m.test (m.shared.owner 0) .work = true := by
  have config : m.shared.impl.config = m₀.shared.impl.config := fed.sound.shape.config
  have enabled : Code.asyncCheckpointEnabled m.shared.impl = true := by
    rw [Code.asyncCheckpointEnabled, config]
    exact enabled
  rw [test, Code.test, Code.wakes_eq, fed.running, enabled, Bool.false_or, Bool.true_and,
    Bool.or_eq_true]
  rcases Nat.eq_zero_or_pos m₀.shared.impl.config.checkpointIntervalUs with never | interval
  · left
    have threshold := many never
    have owns := Shared.entries_le_ownedPending fed.sound.booked.tallied.toCounted
      (fed.sound.shape.size ▸ size) (config ▸ workers) fun bound => by
        rw [Shared.binds, Bool.and_eq_true, decide_eq_true_eq] at bound
        have same := (fed.sound.shape.home 0).trans home
        rw [same]
        exact bound.2
    have entries : m.calls.impl.entries 0 = k := fed.entries
    rw [Code.due_iff, config, threshold]
    have owns : k ≤ Code.ownedPending (m.shared.ownedNodes (m.shared.owner 0))
      (m.shared.ownedProducers (m.shared.owner 0)) m.shared.impl := entries ▸ owns
    omega
  · right
    rw [Bool.and_eq_true, decide_eq_true_eq, decide_eq_true_eq, config, fed.pending]
    exact ⟨interval, some⟩

/-- With two workers and something to do, one of them is woken and the other is not. -/
theorem run_misses {m₀ : EvaluatorMachine τ} (fed : Fed m₀ 0 m₀)
    (entering : ∀ i, m₀.worker i = .entering) (size : 0 < m₀.shared.impl.ptfoThreads.size)
    (workers : 0 < m₀.shared.impl.config.evaluatorThreads)
    (home : (m₀.shared.impl.ptfoThreads.get 0).homeNode = 0)
    (enabled : Code.asyncCheckpointEnabled m₀.shared.impl = true)
    (two : 1 < m₀.shared.workerCount) :
    ∃ moves m, m₀.run moves = some m ∧ ∃ i < m.shared.workerCount, m.Missed i := by
  obtain ⟨k, few, empty, many⟩ : ∃ k,
      (0 < m₀.shared.impl.config.checkpointThresholdOps →
        k < m₀.shared.impl.config.checkpointThresholdOps) ∧
      (0 < m₀.shared.impl.config.checkpointIntervalUs → k = 0) ∧
      (m₀.shared.impl.config.checkpointIntervalUs = 0 →
        m₀.shared.impl.config.checkpointThresholdOps = k + 1) := by
    rcases Nat.eq_zero_or_pos m₀.shared.impl.config.checkpointIntervalUs with never | interval
    · have threshold : 0 < m₀.shared.impl.config.checkpointThresholdOps :=
        (of_decide_eq_true enabled).resolve_right (by omega)
      exact ⟨m₀.shared.impl.config.checkpointThresholdOps - 1, fun _ => by omega,
        fun h => by omega, fun _ => by omega⟩
    · exact ⟨0, id, fun _ => rfl, fun h => by omega⟩
  obtain ⟨moves, m₁, run₁, fed₁, worker₁⟩ := run_calls (k := k) fed entering size
  generalize owner : m₀.shared.owner 0 = i
  have hi : i < m₀.shared.workerCount := owner ▸ Shared.owner_lt workers 0
  obtain ⟨j, hj, ne⟩ : ∃ j < m₀.shared.workerCount, i ≠ j := by
    by_cases zero : i = 0
    · exact ⟨1, two, by omega⟩
    · exact ⟨0, by omega, zero⟩
  -- The owner comes to its loop and sleeps, then another worker.
  have entering₁ : ∀ i, m₁.worker i = .entering := fun i => worker₁ ▸ entering i
  have sleeps₂ := run_sleeps (fed₁.sound.workerCount ▸ hi) (fun i _ => by simp [entering₁])
    (entering₁ i) (fed₁.turn enabled few empty i)
  have fed₂ := fed₁.put i (.asleep .work)
  have elsewhere : ∀ i', i' ≠ i → (m₁.put i (.asleep .work)).worker i' = .entering := fun i' h =>
    (Function.update_of_ne h ..).trans (entering₁ i')
  have asleep₂ : (m₁.put i (.asleep .work)).worker i = .asleep .work := Function.update_self ..
  have sleeps₃ := run_sleeps (i := j) (fed₂.sound.workerCount ▸ hj)
    (fun i' _ => by
      by_cases h : i' = i
      · rw [h, asleep₂]
        simp
      · rw [elsewhere i' h]
        simp)
    (elsewhere j ne.symm) (fed₂.turn enabled few empty j)
  have fed₃ := fed₂.put j (.asleep .work)
  -- The call that makes the owner's work due wakes the other one.
  obtain ⟨m₄, call, ready, worker₄, running, sound₄, fed₅⟩ :=
    fed₃.call (fed₃.sound.shape.size ▸ size)
  have asleep_j : m₄.worker j = .asleep .work := by
    rw [worker₄]
    exact Function.update_self ..
  have asleep_i : m₄.worker i = .asleep .work := by
    rw [worker₄]
    exact (Function.update_of_ne ne ..).trans asleep₂
  have free : m₄.Free := by
    intro i' _
    by_cases h : i' = i
    · rw [h, asleep_i]
      simp
    by_cases h' : i' = j
    · rw [h', asleep_j]
      simp
    · rw [worker₄]
      have here : ((m₁.put i (.asleep .work)).put j (.asleep .work)).worker i' = .entering :=
        (Function.update_of_ne h' ..).trans (elsewhere i' h)
      rw [here]
      simp
  have last : m₄.move (.account 0 0 (some j)) =
      some ((m₄.act (.account 0 0)).put j (.awake .work false)) := by
    have worker : (m₄.act (.account 0 0)).worker j = .asleep .work := asleep_j
    have count : j < (m₄.act (.account 0 0)).shared.workerCount := fed₅.sound.workerCount ▸ hj
    rw [move, ready]
    dsimp only
    rw [if_pos free, notifyOne, worker, if_pos ⟨count, rfl⟩]
    rfl
  refine ⟨_, _, run_append run₁ (run_append sleeps₂ (run_append sleeps₃ (run_append call
    (run_one last)))), i, ?_, fed₅.running, .work, ?_, ?_⟩
  · exact lt_of_lt_of_eq hi fed₅.sound.workerCount.symm
  · exact (Function.update_of_ne ne ..).trans asleep_i
  · have met := fed₅.met enabled (fun never => many never) (Nat.succ_pos k) size workers home
    rw [fed₅.sound.owner, owner] at met
    exact met

/-- Some run comes to a worker that sleeps though it has work, or though the interval of its
checkpoints should run, exactly if there are asynchronous checkpoints and two workers. -/
theorem misses_iff {config : RuntimeConfig} (valid : validateRuntimeConfig config = .ok ())
    (policy : PlacementPolicy) (tree : τ) (resume nodes : Nat) :
    (∃ moves m, (init config policy tree resume nodes).run moves = some m ∧
      ∃ i < m.shared.workerCount, m.Missed i) ↔
    (0 < config.checkpointThresholdOps ∨ 0 < config.checkpointIntervalUs) ∧
      1 < (Shared.init config policy tree resume nodes).workerCount := by
  generalize start : init config policy tree resume nodes = m₀
  have shared : m₀.shared = .init config policy tree resume nodes := start ▸ rfl
  have config_eq : m₀.shared.impl.config = config := by
    rw [shared]
    rfl
  have sound : Sound m₀ m₀ := start ▸ sound_init config policy tree resume nodes
  have workers := evaluatorThreads_pos valid
  rw [← shared]
  constructor
  · rintro ⟨moves, m, run, i, hi, missed⟩
    by_contra none
    rw [not_and_or] at none
    rcases none with sync | one
    · have sound := run_keeps (fun sound step => step.sound sound) sound run
      obtain ⟨running, wait, -, met⟩ := missed
      have sync : Code.asyncCheckpointEnabled m.shared.impl = false := by
        rw [Code.asyncCheckpointEnabled_eq_false, sound.shape.config, config_eq]
        omega
      rw [test, Code.test_of_sync sync, running] at met
      cases met
    · have pos : 0 < m₀.shared.workerCount := by
        refine Shared.workerCount_pos ?_
        rw [config_eq]
        exact workers
      obtain ⟨sound, attentive⟩ := run_keeps
        (P := fun m => Sound m₀ m ∧ ¬ m.Missed 0)
        (fun ⟨sound, attentive⟩ step => ⟨step.sound sound, step.not_missed
          (by rw [sound.workerCount]; omega) sound.booked (step.sound sound).booked attentive⟩)
        ⟨sound, by rintro ⟨-, wait, asleep, -⟩; rw [← start] at asleep; cases asleep⟩ run
      rw [sound.workerCount] at hi
      obtain rfl : i = 0 := by omega
      exact attentive missed
  · rintro ⟨enabled, two⟩
    have producers : 0 < config.producerThreads := by
      refine Nat.pos_of_ne_zero fun none => ?_
      rw [validateRuntimeConfig, if_pos none] at valid
      cases valid
    refine run_misses ⟨sound, ?_, ?_, ?_, ?_⟩ (fun i => ?_) ?_ ?_ ?_ ?_ two
    · exact start ▸ rfl
    · exact start ▸ rfl
    · exact start ▸ rfl
    · exact start ▸ rfl
    · exact start ▸ rfl
    · rw [shared]
      exact producers
    · rw [config_eq]
      exact workers
    · rw [shared]
      exact Nat.zero_mod _
    · rw [Code.asyncCheckpointEnabled, config_eq]
      exact decide_eq_true enabled

/-- Two workers, and checkpoints after every operation. -/
theorem misses_two :
    ∃ moves m, (init { evaluatorThreads := 2, checkpointThresholdOps := 1 } .kDefault
        (∅ : Finset Int) 1 0).run moves = some m ∧ ∃ i < m.shared.workerCount, m.Missed i :=
  (misses_iff rfl .kDefault (∅ : Finset Int) 1 0).mpr ⟨Or.inl (by decide), by decide⟩

end Steps

end EvaluatorMachine

end F3Tree
