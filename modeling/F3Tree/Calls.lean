import F3Tree.Sequential

/-!
# Calls issued one at a time

A run is a list of calls.  A call by an unconfigured producer throws and leaves the
state as it was; every other producer call issues an operation.  What the run
should amount to is a set of keys: each key is in or out by the last operation
issued on it (`lastKind`).

Under a policy that resolves conflicts, with tables that never fill, the wrapper
is that set at every point of every run (`contains_run`).
-/

namespace F3Tree

open LastWriter

inductive Call : Type
  | bufferedInsert (key : Int) (producerId : Nat) (numa : Int)
  | eraseBuffered (key : Int) (producerId : Nat) (numa : Int)
  | drainPending (numa : Int)
deriving DecidableEq, Repr

/-- An operation as its producer issues it. -/
structure Issue : Type where
  key : Int
  producerId : Nat
  isDone : Bool
deriving DecidableEq, Repr

/-- The operation that a call issues when `n` producers are configured. -/
def Call.issue (n : Nat) : Call → Option Issue
  | .bufferedInsert key p _ => if p < n then some ⟨key, p, false⟩ else none
  | .eraseBuffered key p _ => if p < n then some ⟨key, p, true⟩ else none
  | .drainPending _ => none

/-- The operations that a run issues, in order. -/
def issues (n : Nat) (calls : List Call) : List Issue :=
  calls.filterMap (Call.issue n)

/-- Membership of `key` by the last operation issued on it, `initial` if there is
none. -/
def lastKind (initial : Bool) (ops : List Issue) (key : Int) : Bool :=
  match (ops.filter fun op => op.key = key).getLast? with
  | none => initial
  | some op => !op.isDone

/-- The distinct keys that producer `p` buffers. -/
def keysOf (ops : List Issue) (p : Nat) : Finset Int :=
  ((ops.filter fun op => op.producerId = p).map Issue.key).toFinset

/-- The set of keys after at most one more operation. -/
def perform (members : Int → Bool) : Option Issue → Int → Bool
  | none => members
  | some op => Function.update members op.key (!op.isDone)

theorem lastKind_concat (n : Nat) (initial : Int → Bool) (calls : List Call) (c : Call) :
    (fun key => lastKind (initial key) (issues n (calls ++ [c])) key) =
      perform (fun key => lastKind (initial key) (issues n calls) key) (c.issue n) := by
  rw [issues, List.filterMap_append, ← issues]
  rcases hissue : c.issue n with _ | op
  · simp [hissue, perform]
  · funext key
    have hlast : [c].filterMap (Call.issue n) = [op] := by simp [hissue]
    rw [hlast, lastKind, List.filter_append, perform]
    by_cases hk : key = op.key
    · subst hk
      rw [List.filter_cons_of_pos (by simp), List.filter_nil, List.getLast?_concat,
        Function.update_self]
    · rw [List.filter_cons_of_neg (by simpa using Ne.symm hk), List.filter_nil,
        List.append_nil, Function.update_of_ne hk]
      rfl

theorem mem_keysOf {ops : List Issue} {op : Issue} (mem : op ∈ ops) :
    op.key ∈ keysOf ops op.producerId := by
  rw [keysOf, List.mem_toFinset]
  exact List.mem_map_of_mem (List.mem_filter.mpr ⟨mem, by simp⟩)

namespace Impl

variable {τ : Type} [GlobalTree τ]

/-- One call.  A throwing call leaves the state as it was. -/
def call (s : Impl τ) : Call → Impl τ
  | .bufferedInsert key p numa =>
      match s.bufferedInsert key p numa with
      | .ok s' => s'
      | .error _ => s
  | .eraseBuffered key p numa =>
      match s.eraseBuffered key p numa with
      | .ok s' => s'
      | .error _ => s
  | .drainPending numa => s.drainPending numa

def run (s : Impl τ) (calls : List Call) : Impl τ :=
  calls.foldl call s

/-- What a call is: an accepted operation, a drain, or nothing. -/
theorem call_cases (s : Impl τ) (c : Call) :
    (∃ op numa, c.issue s.ptfoThreads.size = some op ∧
      op.producerId < s.ptfoThreads.size ∧
      s.call c = s.enqueued op.key op.producerId op.isDone numa) ∨
    (∃ numa, c = .drainPending numa ∧ s.call c = s.drainPending numa) ∨
    (c.issue s.ptfoThreads.size = none ∧ s.call c = s) := by
  have producer : ∀ key p isDone numa,
      (p < s.ptfoThreads.size ∧
        s.enqueue key p isDone numa = .ok (s.enqueued key p isDone numa)) ∨
      (¬ p < s.ptfoThreads.size ∧ ∃ msg, s.enqueue key p isDone numa = .error msg) := by
    intro key p isDone numa
    rcases Nat.lt_or_ge p s.ptfoThreads.size with hp | hp
    · exact Or.inl ⟨hp, enqueue_of_lt hp ..⟩
    · exact Or.inr ⟨Nat.not_lt.mpr hp, _, enqueue_of_ge hp ..⟩
  cases c with
  | bufferedInsert key p numa =>
      rcases producer key p false numa with ⟨hp, heq⟩ | ⟨hp, msg, heq⟩
      · exact Or.inl ⟨⟨key, p, false⟩, numa, if_pos hp, hp, by simp [call, bufferedInsert, heq]⟩
      · exact Or.inr (Or.inr ⟨if_neg hp, by simp [call, bufferedInsert, heq]⟩)
  | eraseBuffered key p numa =>
      rcases producer key p true numa with ⟨hp, heq⟩ | ⟨hp, msg, heq⟩
      · exact Or.inl ⟨⟨key, p, true⟩, numa, if_pos hp, hp, by simp [call, eraseBuffered, heq]⟩
      · exact Or.inr (Or.inr ⟨if_neg hp, by simp [call, eraseBuffered, heq]⟩)
  | drainPending numa => exact Or.inr (Or.inl ⟨numa, rfl, rfl⟩)

/-! ## A full drain in an accounted state -/

omit [GlobalTree τ] in
/-- With nothing accounted, nothing is buffered. -/
theorem Accounted.pending_eq_nil {s : Impl τ} (acc : s.Accounted)
    (hzero : s.pendingOperationCount = 0) {p : Nat} (hp : p < s.tree.nThreads) :
    s.tree.pending p = [] := by
  have total := acc.total
  rw [hzero, entryTotal] at total
  have hcount := (Finset.sum_eq_zero_iff.mp total.symm) p
    (Finset.mem_range.mpr (acc.threads ▸ hp))
  rw [acc.entryCount p hp] at hcount
  exact List.length_eq_zero_iff.mp hcount

omit [GlobalTree τ] in
theorem Accounted.mem_pendingProducers {s : Impl τ} (acc : s.Accounted) {p : Nat}
    (hp : p < s.tree.nThreads) :
    p ∉ s.pendingProducers → s.tree.pending p = [] := by
  intro notMem
  rw [pendingProducers, List.mem_filter, List.mem_range, not_and] at notMem
  have hcount := notMem (acc.threads ▸ hp)
  rw [acc.entryCount p hp, decide_eq_true_eq, gt_iff_lt, Nat.not_lt,
    Nat.le_zero] at hcount
  exact List.length_eq_zero_iff.mp hcount

/-- After a drain nothing is accounted, so the next one returns at once. -/
theorem drainPending_drainPending (s : Impl τ) (numa numa' : Int) :
    (s.drainPending numa).drainPending numa' = s.drainPending numa := by
  have hzero : (s.drainPending numa).pendingOperationCount = 0 := by
    rw [drainPending, drainLocked]
    split
    · assumption
    · rfl
  exact if_pos hzero

/-- In an accounted state every drain replays the producers with buffered
operations. -/
theorem Accounted.drains_drainPending {s : Impl τ} (acc : s.Accounted) (numa : Int) :
    ∃ cleared, s.Drains (s.drainPending numa) s.pendingProducers cleared ∧
      ∀ p ∈ s.pendingProducers, p ∈ cleared := by
  by_cases hzero : s.pendingOperationCount = 0
  · have none : s.pendingProducers = [] := by
      rw [List.eq_nil_iff_forall_not_mem]
      intro p mem
      have hp := (active_pendingProducers acc.threads p mem).1
      rw [pendingProducers, List.mem_filter, acc.entryCount p hp,
        acc.pending_eq_nil hzero hp] at mem
      simp at mem
    have same : s.drainPending numa = s := if_pos hzero
    refine ⟨[], ?_, by simp [none]⟩
    rw [same, none]
    exact ⟨rfl, rfl, rfl, rfl, rfl, by simp, by simp, by simp, fun h => h,
      0, (s.tree_replay_nil 0).symm⟩
  · refine ⟨_, drains_drainLocked acc.threads hzero numa, fun p mem => ?_⟩
    exact List.mem_range.mpr (active_pendingProducers acc.threads p mem).1

variable [LawfulTree τ]

/-- The wrapper holds the set `members`, in a state between calls. -/
structure Represents (s : Impl τ) (config : RuntimeConfig) (keys : Nat → Finset Int)
    (members : Int → Bool) : Prop where
  config_eq : s.config = config
  nThreads_eq : s.tree.nThreads = config.producerThreads
  accounted : s.Accounted
  informed : s.Informed keys
  view_eq : s.view = members

section Represents

variable {s : Impl τ} {config : RuntimeConfig} {keys : Nat → Finset Int}
  {members : Int → Bool}

omit [LawfulTree τ] in
theorem Represents.contains_eq (rep : s.Represents config keys members) (key : Int) :
    s.contains key = members key := by
  rw [rep.informed.contains_eq rep.accounted, rep.view_eq]

omit [LawfulTree τ] in
theorem Represents.enqueued (rep : s.Represents config keys members) {key : Int} {p : Nat}
    (hp : p < config.producerThreads) (hkey : key ∈ keys p) (isDone : Bool) (numa : Int) :
    (s.enqueued key p isDone numa).Represents config keys
      (Function.update members key (!isDone)) := by
  have hp' : p < s.tree.nThreads := rep.nThreads_eq.symm ▸ hp
  refine ⟨rep.config_eq, rep.nThreads_eq, rep.accounted.enqueued hp',
    rep.informed.enqueued rep.accounted.toNumbered hp' hkey, ?_⟩
  rw [view_enqueued rep.accounted hp', rep.view_eq]

/-- A full drain puts the whole set into the tree. -/
theorem Represents.drainPending (rep : s.Represents config keys members)
    (resolves : config.evaluatorPolicy.resolvesConflicts = true) (numa : Int) :
    (s.drainPending numa).Represents config keys members ∧
      (s.drainPending numa).tree.allPending = [] := by
  obtain ⟨cleared, drains, clears⟩ := rep.accounted.drains_drainPending numa
  have active := active_pendingProducers rep.accounted.threads
  have all : ∀ p < s.tree.nThreads, p ∉ s.pendingProducers → s.tree.pending p = [] :=
    fun p hp => rep.accounted.mem_pendingProducers hp
  have resolves' : s.config.evaluatorPolicy.resolvesConflicts = true :=
    rep.config_eq.symm ▸ resolves
  have drained : ∀ key, (s.drainPending numa).tree.allPending = [] ∧
      (s.drainPending numa).view key = s.view key := fun key =>
    view_drains_all drains resolves' active rep.accounted.distinct
      (.of_agrees (fun p hp => rep.informed.agrees p hp key) rep.accounted.distinct) all
  refine ⟨⟨drains.config.trans rep.config_eq, drains.nThreads.trans rep.nThreads_eq,
    rep.accounted.drains drains,
    rep.informed.drains drains clears fun p hp _ notMem => all p hp notMem, ?_⟩,
    (drained 0).1⟩
  funext key
  rw [(drained key).2, rep.view_eq]

omit [LawfulTree τ] in
/-- With empty chains the tree alone answers. -/
theorem Represents.globalContains_eq (rep : s.Represents config keys members)
    (empty : s.tree.allPending = []) (key : Int) : s.globalContains key = members key := by
  rw [← rep.view_eq, view, empty]
  rfl

omit [GlobalTree τ] [LawfulTree τ] in
theorem next_eq_nil {s : Impl τ} (empty : s.tree.allPending = []) {p : Nat}
    (hp : p < s.tree.nThreads) : (s.tree.localFut p).next = [] := by
  rw [← LocalFut.log_eq_nil_iff, ← List.map_eq_nil_iff, List.eq_nil_iff_forall_not_mem]
  intro op mem
  have mem' : op ∈ s.tree.pending p := mem
  have : op ∈ s.tree.allPending :=
    Btree.mem_allPending.mpr (Btree.producerId_of_mem mem' ▸ ⟨hp, mem'⟩)
  rw [empty] at this
  exact List.not_mem_nil this

omit [LawfulTree τ] in
theorem represents_init (valid : validateRuntimeConfig config = .ok ())
    (room : ∀ p < config.producerThreads, (keys p).card ≤ config.dirCap) (tree : τ)
    (resume nodes : Nat) :
    (init config tree resume nodes).Represents config keys (btreeSearch tree) := by
  refine ⟨rfl, nThreads_init valid .., accounted_init valid .., informed_init valid room ..,
    ?_⟩
  funext key
  rw [view, allPending_init]
  rfl

/-- A call over the given keys performs its operation on the set. -/
theorem Represents.call (rep : s.Represents config keys members)
    (resolves : config.evaluatorPolicy.resolvesConflicts = true) (c : Call)
    (within : ∀ op, c.issue config.producerThreads = some op → op.key ∈ keys op.producerId) :
    (s.call c).Represents config keys
      (perform members (c.issue config.producerThreads)) := by
  have hsize : s.ptfoThreads.size = config.producerThreads :=
    rep.accounted.threads.trans rep.nThreads_eq
  rcases call_cases s c with ⟨op, numa, hissue, hp, hcall⟩ | ⟨numa, rfl, hcall⟩ |
    ⟨hissue, hcall⟩
  · rw [hsize] at hissue hp
    rw [hcall, hissue]
    exact rep.enqueued hp (within op hissue) _ _
  · rw [hcall]
    exact (rep.drainPending resolves numa).1
  · rw [hsize] at hissue
    rw [hcall, hissue]
    exact rep

/-- A run of calls over the given keys performs its operations on the set. -/
theorem represents_run (valid : validateRuntimeConfig config = .ok ())
    (resolves : config.evaluatorPolicy.resolvesConflicts = true)
    (room : ∀ p < config.producerThreads, (keys p).card ≤ config.dirCap) (tree : τ)
    (resume nodes : Nat) (calls : List Call)
    (within : ∀ op ∈ issues config.producerThreads calls, op.key ∈ keys op.producerId) :
    ((init config tree resume nodes).run calls).Represents config keys fun key =>
      lastKind (btreeSearch tree key) (issues config.producerThreads calls) key := by
  induction calls using List.reverseRecOn with
  | nil => exact represents_init valid room tree resume nodes
  | append_singleton calls c ih =>
      rw [lastKind_concat, run, List.foldl_append, List.foldl_cons, List.foldl_nil, ← run]
      rw [issues, List.filterMap_append, ← issues] at within
      refine (ih fun op mem => within op (List.mem_append_left _ mem)).call resolves c
        fun op hissue => within op (List.mem_append_right _ ?_)
      simp [hissue]

end Represents

/-- Each point of each run is the set of keys that the issued operations leave; a drain moves
that set into the tree, empties the chains, and leaves nothing to a second drain.  The policy
resolves conflicts, and every producer's tables, as large as the capacity is after its narrowing
to `int`, hold all keys that the run has of the producer. -/
theorem contains_run {config : RuntimeConfig} (valid : validateRuntimeConfig config = .ok ())
    (resolves : config.evaluatorPolicy.resolvesConflicts = true) (tree : τ)
    (resume nodes : Nat) (calls : List Call)
    (ample : ∀ p < config.producerThreads,
      (keysOf (issues config.producerThreads calls) p).card ≤ config.dirCap)
    {before : List Call} (point : before <+: calls) :
    let s := (init config tree resume nodes).run before
    (∀ key, s.contains key =
      lastKind (btreeSearch tree key) (issues config.producerThreads before) key) ∧
    ∀ numa, let drained := s.drainPending numa
      (∀ key, drained.contains key = s.contains key) ∧
      (∀ key, drained.globalContains key = drained.contains key) ∧
      (∀ p < config.producerThreads, (drained.tree.localFut p).next = []) ∧
      ∀ numa', drained.drainPending numa' = drained := by
  intro s
  have rep : s.Represents config (keysOf (issues config.producerThreads calls)) fun key =>
      lastKind (btreeSearch tree key) (issues config.producerThreads before) key := by
    refine represents_run valid resolves ample tree resume nodes before fun op mem => ?_
    obtain ⟨after, rfl⟩ := point
    rw [issues, List.filterMap_append]
    exact mem_keysOf (List.mem_append_left _ mem)
  refine ⟨rep.contains_eq, fun numa => ?_⟩
  obtain ⟨rep', empty⟩ := rep.drainPending resolves numa
  refine ⟨fun key => ?_, fun key => ?_, fun p hp => ?_, drainPending_drainPending s numa⟩
  · rw [rep'.contains_eq, rep.contains_eq]
  · rw [rep'.contains_eq, rep'.globalContains_eq empty]
  · exact next_eq_nil empty (rep'.nThreads_eq.symm ▸ hp)

/-- Two producers in conflict on one key. -/
theorem contains_run_conflict :
    let config : RuntimeConfig := { producerThreads := 2, hashCapacity := 4 }
    let calls := [Call.bufferedInsert 7 0 0, .bufferedInsert 8 1 0, .eraseBuffered 7 1 0]
    let s := (init config ({7} : Finset Int) 1 1).run calls
    s.contains 7 = false ∧ s.contains 8 = true ∧
      (s.drainPending 0).globalContains 7 = false := by
  intro config calls s
  have valid : validateRuntimeConfig config = .ok () := rfl
  obtain ⟨reads, drains⟩ := contains_run valid rfl ({7} : Finset Int) 1 1 calls (by decide)
    (List.prefix_refl calls)
  obtain ⟨kept, moved, -⟩ := drains 0
  have h7 : s.contains 7 = false := (reads 7).trans (by decide)
  exact ⟨h7, (reads 8).trans (by decide), (moved 7).trans ((kept 7).trans h7)⟩

/-- A capacity of 2 ^ 32 passes the validation and is narrowed to 0, which gives tables of one
slot: a producer with two keys is within the capacity, and loses its first one. -/
theorem contains_run_narrowed :
    let config : RuntimeConfig := { hashCapacity := 2 ^ 32 }
    let calls := [Call.bufferedInsert 1 0 0, .bufferedInsert 2 0 0]
    validateRuntimeConfig config = .ok () ∧ config.evaluatorPolicy.resolvesConflicts = true ∧
      (∀ p < config.producerThreads,
        (keysOf (issues config.producerThreads calls) p).card ≤ config.hashCapacity) ∧
      lastKind (btreeSearch (∅ : Finset Int) 1) (issues config.producerThreads calls) 1 = true ∧
      ((init config (∅ : Finset Int) 0 1).run calls).contains 1 = false := by
  intro config calls
  exact ⟨rfl, rfl, by decide, by decide, by decide⟩

end Impl

end F3Tree
