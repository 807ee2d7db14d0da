import F3Tree.Lib.Runs
import F3Tree.Calls

/-!
# Background checkpoints between calls

Between two calls an evaluator may drain some of the producers.  Such a drain
forgets the newest operation on a key once it is in the tree, while an older
operation on the key may stay behind in the chain of a producer that was not
drained, and be the newest one from then on.  The wrapper keeps to the last
operation on every key exactly as long as what stays behind has the kind of what
was drained (`checkpoints_run_iff`).
-/

namespace F3Tree

open LastWriter Runs

/-- What happens between two states of a sequential run with evaluators. -/
inductive Event : Type
  | call (c : Call)
  | checkpointProducers (producerIds : List Nat) (numa : Int)
  | checkpointNodes (nodeIds : List Nat) (numa : Int)
deriving DecidableEq, Repr

def Event.call? : Event → Option Call
  | .call c => some c
  | .checkpointProducers _ _ | .checkpointNodes _ _ => none

/-- The calls of a run with evaluators. -/
def callsOf (events : List Event) : List Call := events.filterMap Event.call?

namespace Impl

variable {τ : Type} [GlobalTree τ]

def event (s : Impl τ) : Event → Impl τ
  | .call c => s.call c
  | .checkpointProducers producerIds numa => s.drainLockedForProducers producerIds numa
  | .checkpointNodes nodeIds numa => s.drainLockedForNodes nodeIds numa

def eventRun (s : Impl τ) (events : List Event) : Impl τ := events.foldl event s

/-- The operations on all chains but those of `ids`. -/
def leftBehind (s : Impl τ) (ids : List Nat) : List FutureBufferedOp :=
  s.tree.allPending.filter fun op => op.producerId ∉ ids

/-- Draining `ids` leaves no operation behind that undoes the newest one. -/
def UndoesNothing (s : Impl τ) (ids : List Nat) : Prop :=
  ∀ key op rest, newest s.tree.allPending key = some op → op.producerId ∈ ids →
    newest (s.leftBehind ids) key = some rest → rest.isDelete = op.isDelete

/-- The condition on one event: a partial drain leaves no operation behind that
undoes a drained one. -/
def EventKeeps (s : Impl τ) : Event → Prop
  | .call _ => True
  | .checkpointProducers producerIds _ => s.UndoesNothing (s.activeProducers producerIds)
  | .checkpointNodes nodeIds _ => s.UndoesNothing (s.collectProducersForNodes nodeIds)

/-! ## One partial drain -/

variable [LawfulTree τ]

section Slice

variable {s s' : Impl τ} {config : RuntimeConfig} {keys : Nat → Finset Int}
  {members : Int → Bool} {ids : List Nat}

omit [LawfulTree τ] in
/-- The wrapper represents the set it is read as. -/
theorem Represents.viewed (rep : s.Represents config keys members) :
    s.Represents config keys s.view :=
  ⟨rep.config_eq, rep.nThreads_eq, rep.accounted, rep.informed, rfl⟩

omit [LawfulTree τ] in
/-- A partial drain keeps everything but the set of keys. -/
theorem Represents.drains (rep : s.Represents config keys members)
    (drains : s.Drains s' ids ids) : s'.Represents config keys s'.view :=
  ⟨drains.config.trans rep.config_eq, drains.nThreads.trans rep.nThreads_eq,
    rep.accounted.drains drains,
    rep.informed.drains drains (fun _ mem => mem) fun _ _ mem notMem => absurd mem notMem, rfl⟩

/-- A partial drain keeps the set of keys exactly when it undoes nothing. -/
theorem Represents.view_drains_iff (rep : s.Represents config keys members)
    (resolves : config.evaluatorPolicy.resolvesConflicts = true)
    (drains : s.Drains s' ids ids) (active : s.Active ids) :
    s'.view = members ↔ s.UndoesNothing ids := by
  have resolves' : s.config.evaluatorPolicy.resolvesConflicts = true :=
    rep.config_eq.symm ▸ resolves
  have distinct := rep.accounted.distinct
  have snap : ∀ key, s.tree.Snapshot key := fun key =>
    .of_agrees (fun p hp => rep.informed.agrees p hp key) distinct
  have step := fun key => view_drains drains resolves' active distinct (snap key)
  have remaining : ∀ key,
      newest s'.tree.allPending key = newest (s.leftBehind ids) key := fun key => by
    refine newest_congr (((rep.accounted.drains drains).distinct).at key) fun op _ => ?_
    rw [drains.mem_allPending, leftBehind, List.mem_filter, decide_eq_true_eq]
  rw [← rep.view_eq]
  constructor
  · intro same key op rest top mem topRest
    have hkey := step key
    rw [same, top] at hkey
    simp only [if_pos mem, remaining, topRest, resolve_some] at hkey
    rw [view, top] at hkey
    simpa using hkey.symm
  · intro undoes
    funext key
    rw [step key]
    rcases top : newest s.tree.allPending key with _ | op
    · rfl
    · simp only
      split
      · rename_i mem
        rw [remaining, view, top, resolve_some]
        rcases topRest : newest (s.leftBehind ids) key with _ | rest
        · rfl
        · simp [undoes key op rest top mem topRest]
      · rfl

end Slice

omit [LawfulTree τ] in
theorem drains_checkpointProducers {s : Impl τ} (threads : s.ptfoThreads.size = s.tree.nThreads)
    (producerIds : List Nat) (numa : Int) :
    s.Drains (s.drainLockedForProducers producerIds numa) (s.activeProducers producerIds)
      (s.activeProducers producerIds) :=
  drains_drainSlice (active_activeProducers threads producerIds) 1 numa

omit [LawfulTree τ] in
theorem drains_checkpointNodes {s : Impl τ} (threads : s.ptfoThreads.size = s.tree.nThreads)
    (nodeIds : List Nat) (numa : Int) :
    s.Drains (s.drainLockedForNodes nodeIds numa) (s.collectProducersForNodes nodeIds)
      (s.collectProducersForNodes nodeIds) :=
  drains_drainSlice (active_collectProducersForNodes threads nodeIds) _ numa

omit [LawfulTree τ] in
/-- What an event is: an accepted operation, a drain, or nothing. -/
theorem event_cases {s : Impl τ} (threads : s.ptfoThreads.size = s.tree.nThreads) (e : Event) :
    (∃ op numa, op ∈ issues s.ptfoThreads.size (callsOf [e]) ∧
      op.producerId < s.ptfoThreads.size ∧
      s.event e = s.enqueued op.key op.producerId op.isDone numa) ∨
    (∃ ids cleared, s.Drains (s.event e) ids cleared ∧ ∀ p ∈ ids, p ∈ cleared) ∨
    s.event e = s := by
  have full : ∀ numa, (∃ ids cleared, s.Drains (s.drainPending numa) ids cleared ∧
      ∀ p ∈ ids, p ∈ cleared) ∨ s.drainPending numa = s := by
    intro numa
    by_cases none : s.pendingOperationCount = 0
    · exact Or.inr (if_pos none)
    · refine Or.inl ⟨_, _, drains_drainLocked threads none numa, fun p mem => ?_⟩
      exact List.mem_range.mpr (active_pendingProducers threads p mem).1
  cases e with
  | call c =>
      rcases call_cases s c with ⟨op, numa, hissue, hp, hcall⟩ | ⟨numa, rfl, -⟩ | ⟨-, hcall⟩
      · refine Or.inl ⟨op, numa, ?_, hp, hcall⟩
        exact List.mem_filterMap.mpr ⟨c, List.mem_singleton.mpr rfl, hissue⟩
      · exact Or.inr (full numa)
      · exact Or.inr (Or.inr hcall)
  | checkpointProducers producerIds numa =>
      exact Or.inr (Or.inl ⟨_, _, drains_checkpointProducers threads producerIds numa,
        fun _ mem => mem⟩)
  | checkpointNodes nodeIds numa =>
      exact Or.inr (Or.inl ⟨_, _, drains_checkpointNodes threads nodeIds numa,
        fun _ mem => mem⟩)

/-! ## Runs with evaluators -/

omit [LawfulTree τ] in
theorem eventRun_concat (s : Impl τ) (events : List Event) (e : Event) :
    s.eventRun (events ++ [e]) = (s.eventRun events).event e :=
  List.foldl_append

section Run

variable {s : Impl τ} {config : RuntimeConfig} {keys : Nat → Finset Int}
  {members : Int → Bool}

/-- What an event does to the set of keys when it keeps to the last operations. -/
def performEvent (config : RuntimeConfig) (members : Int → Bool) : Event → Int → Bool
  | .call c => perform members (c.issue config.producerThreads)
  | .checkpointProducers _ _ | .checkpointNodes _ _ => members

/-- An event keeps to the last operations exactly when it meets the condition. -/
theorem Represents.event_iff (rep : s.Represents config keys members)
    (resolves : config.evaluatorPolicy.resolvesConflicts = true) (e : Event)
    (within : ∀ c, e = .call c → ∀ op, c.issue config.producerThreads = some op →
      op.key ∈ keys op.producerId) :
    (s.event e).Represents config keys (s.event e).view ∧
      ((s.event e).view = performEvent config members e ↔ s.EventKeeps e) := by
  have threads := rep.accounted.threads
  cases e with
  | call c =>
      have next := rep.call resolves c (within c rfl)
      exact ⟨next.viewed, iff_of_true next.view_eq trivial⟩
  | checkpointProducers producerIds numa =>
      have drains := drains_checkpointProducers threads producerIds numa
      exact ⟨rep.drains drains,
        rep.view_drains_iff resolves drains (active_activeProducers threads producerIds)⟩
  | checkpointNodes nodeIds numa =>
      have drains := drains_checkpointNodes threads nodeIds numa
      exact ⟨rep.drains drains,
        rep.view_drains_iff resolves drains (active_collectProducersForNodes threads nodeIds)⟩

/-- The set of keys by the last operations of a run with evaluators. -/
def lastKinds (config : RuntimeConfig) (tree : τ) (events : List Event) (key : Int) : Bool :=
  lastKind (btreeSearch tree key) (issues config.producerThreads (callsOf events)) key

omit [LawfulTree τ] in
theorem lastKinds_concat (config : RuntimeConfig) (tree : τ) (events : List Event)
    (e : Event) :
    lastKinds config tree (events ++ [e]) =
      performEvent config (lastKinds config tree events) e := by
  cases e with
  | call c =>
      have hcalls : callsOf (events ++ [.call c]) = callsOf events ++ [c] := by
        simp [callsOf, Event.call?]
      have := lastKind_concat config.producerThreads (btreeSearch tree) (callsOf events) c
      rw [← hcalls] at this
      exact this
  | checkpointProducers producerIds numa | checkpointNodes nodeIds numa =>
      have hcalls : ∀ e : Event, e.call? = none → callsOf (events ++ [e]) = callsOf events :=
        fun e he => by simp [callsOf, he]
      funext key
      rw [lastKinds, hcalls _ rfl]
      rfl

/-- The operations of the calls of a run stay within the keys of the whole run. -/
theorem within_of_prefix {n : Nat} {events before : List Event} {e : Event}
    (point : before ++ [e] <+: events) {c : Call} (hc : e = .call c) {op : Issue}
    (hissue : c.issue n = some op) :
    op.key ∈ keysOf (issues n (callsOf events)) op.producerId := by
  obtain ⟨after, rfl⟩ := point
  subst hc
  refine mem_keysOf ?_
  simp only [issues, callsOf, List.filterMap_append, List.mem_append]
  exact Or.inl (Or.inr (by simp [Event.call?, hissue]))

end Run

/-- The wrapper's answers, now and after one more full drain, are those of the set
`members`. -/
def Answers (s : Impl τ) (members : Int → Bool) : Prop :=
  ∀ key, s.contains key = members key ∧
    ∀ numa, (s.drainPending numa).globalContains key = members key

theorem Represents.answers_iff {s : Impl τ} {config : RuntimeConfig}
    {keys : Nat → Finset Int} (rep : s.Represents config keys s.view)
    (resolves : config.evaluatorPolicy.resolvesConflicts = true) (members : Int → Bool) :
    s.Answers members ↔ s.view = members := by
  constructor
  · intro answers
    funext key
    rw [← rep.contains_eq, (answers key).1]
  · rintro rfl key
    refine ⟨rep.contains_eq key, fun numa => ?_⟩
    obtain ⟨drained, empty⟩ := rep.drainPending resolves numa
    exact drained.globalContains_eq empty key

/-- With evaluators at work between the calls, the wrapper answers by the last
operations at every point of a run exactly when no partial drain of the run leaves
behind an operation that undoes a drained one. -/
theorem checkpoints_run_iff {config : RuntimeConfig}
    (valid : validateRuntimeConfig config = .ok ())
    (resolves : config.evaluatorPolicy.resolvesConflicts = true) (tree : τ)
    (resume nodes : Nat) (events : List Event)
    (ample : ∀ p < config.producerThreads,
      (keysOf (issues config.producerThreads (callsOf events)) p).card ≤ config.dirCap) :
    AtPoints (fun before => ((init config tree resume nodes).eventRun before).Answers
        (lastKinds config tree before)) events ↔
      StepsMeet (fun before e =>
        ((init config tree resume nodes).eventRun before).EventKeeps e) events := by
  set s := init config tree resume nodes with hs
  set keys := keysOf (issues config.producerThreads (callsOf events)) with hkeys
  have start : s.Represents config keys (lastKinds config tree []) :=
    represents_init valid ample tree resume nodes
  -- As long as every event met the condition, the set is that of the last operations.
  have upTo : ∀ before, before <+: events →
      StepsMeet (fun before e => (s.eventRun before).EventKeeps e) before →
      (s.eventRun before).Represents config keys (lastKinds config tree before) := by
    intro before point meet
    refine points_of_steps (fun before =>
      (s.eventRun before).Represents config keys (lastKinds config tree before)) start
      (fun before' e point' rep keeps => ?_) meet
    obtain ⟨next, same⟩ := rep.event_iff resolves e fun c hc op hissue =>
      within_of_prefix (point'.trans point) hc hissue
    rw [eventRun_concat, lastKinds_concat, ← same.mpr keeps]
    exact next
  refine points_iff_steps ?_ fun before e point meet => ?_
  · exact (start.viewed.answers_iff resolves _).mpr start.view_eq
  · obtain ⟨next, same⟩ := (upTo before ((List.prefix_append _ _).trans point) meet).event_iff
      resolves e fun c hc op hissue => within_of_prefix point hc hissue
    rw [eventRun_concat, next.answers_iff resolves, lastKinds_concat]
    exact same

/-- Draining the older of two conflicting operations is harmless. -/
theorem checkpoint_older_first :
    let config : RuntimeConfig :=
      { producerThreads := 2, evaluatorThreads := 2, hashCapacity := 4 }
    AtPoints (fun before => ((init config (∅ : Finset Int) 1 1).eventRun before).Answers
        (lastKinds config (∅ : Finset Int) before))
      [.call (.bufferedInsert 7 0 0), .call (.eraseBuffered 7 1 0),
        .checkpointProducers (producersForEvaluator 0 2 2) 0] := by
  intro config
  have valid : validateRuntimeConfig config = .ok () := rfl
  refine (checkpoints_run_iff valid rfl (∅ : Finset Int) 1 1 _
    (by decide)).mpr ?_
  refine (stepsMeet_concat [_, _] _).mpr
    ⟨(stepsMeet_concat [_] _).mpr
      ⟨(stepsMeet_concat [] _).mpr ⟨stepsMeet_nil, trivial⟩, trivial⟩, ?_⟩
  intro key op rest top mem _
  set s := (init config (∅ : Finset Int) 1 1).eventRun
    [.call (.bufferedInsert 7 0 0), .call (.eraseBuffered 7 1 0)] with hs
  have hkey : op.key = key := key_of_newest top
  have hop : op ∈ s.tree.allPending := mem_of_newest top
  have all : s.tree.allPending = [⟨7, false, 2, 0⟩, ⟨7, true, 3, 1⟩] := by decide
  have newest7 : newest s.tree.allPending 7 = some ⟨7, true, 3, 1⟩ := by decide
  rw [all, List.mem_cons, List.mem_singleton] at hop
  rcases hop with rfl | rfl
  · rw [← hkey, newest7] at top
    cases top
  · exact absurd mem (by decide)

/-- Draining the newer of two conflicting operations brings the older one back. -/
theorem checkpoint_newer_first :
    let config : RuntimeConfig :=
      { producerThreads := 2, evaluatorThreads := 2, hashCapacity := 4 }
    ¬ AtPoints (fun before => ((init config (∅ : Finset Int) 1 1).eventRun before).Answers
        (lastKinds config (∅ : Finset Int) before))
      [.call (.bufferedInsert 7 0 0), .call (.eraseBuffered 7 1 0),
        .checkpointProducers (producersForEvaluator 1 2 2) 0] := by
  intro config answers
  have revived := (answers.self 7).1
  revert revived
  decide

end Impl

end F3Tree
