import F3Tree.Checkpoint
import F3Tree.Recovery

/-!
# Runs on a reopened pool

After a reopen the chains hold the recovered operations, but the wrapper's counters
are zero: a drain visits only the producers that have issued an operation since the
drain before it.  So the drains split a run into windows, and a producer's recovered
operations are replayed by the drain of the first window it takes part in
(`Windows`).

A recovered operation on a key that later calls leave alone reaches the tree under
F3-N only with the very first window, whose drain clears every directory; the other
policies settle the key anew with each window that brings in a producer with
operations on it, whatever their sequence numbers (`reopened_run_iff`).
-/

namespace F3Tree

open LastWriter

/-- The producers of each stretch of a run that a drain has ended, and those of the
stretch in progress. -/
structure Windows : Type where
  closed : List (List Nat) := []
  current : List Nat := []
deriving DecidableEq, Repr

/-- A drain with nothing issued since the last one ends no window. -/
def Windows.next (n : Nat) (w : Windows) (c : Call) : Windows :=
  match c.issue n with
  | some op => { w with current := op.producerId :: w.current }
  | none =>
      match c with
      | .drainPending _ => if w.current = [] then w else ⟨w.closed ++ [w.current], []⟩
      | .bufferedInsert _ _ _ | .eraseBuffered _ _ _ => w

def windows (n : Nat) (calls : List Call) : Windows :=
  calls.foldl (Windows.next n) {}

/-- The operation on `key` that is performed last when each window replays the
operations of its producers that no earlier window has: the newest of the last
window that has one. -/
def settled (key : Int) : List FutureBufferedOp → List (List Nat) → Option FutureBufferedOp
  | _, [] => none
  | ops, window :: later =>
      (settled key (ops.filter fun op => op.producerId ∉ window) later).or
        (newest (ops.filter fun op => op.producerId ∈ window) key)

theorem settled_concat (key : Int) (window : List Nat) :
    ∀ (closed : List (List Nat)) (ops : List FutureBufferedOp),
      settled key ops (closed ++ [window]) =
        (newest (ops.filter fun op => op.producerId ∉ closed.flatten ∧ op.producerId ∈ window)
          key).or (settled key ops closed)
  | [], ops => by simp [settled]
  | first :: closed, ops => by
      rw [List.cons_append, settled, settled_concat key window closed, settled, List.filter_filter,
        Option.or_assoc]
      congr 3
      funext op
      rw [List.flatten_cons, Bool.eq_iff_iff]
      simp only [List.mem_append, Bool.and_eq_true, decide_eq_true_eq, not_or]
      tauto

namespace Pool

variable {τ : Type} [GlobalTree τ]

/-- The condition under which the run with the closed windows `closed` leaves the
kind of the recovered operation `op` in the tree. -/
def Reflects (pool : Pool τ) (policy : EvaluatorPolicy) (closed : List (List Nat))
    (op : FutureBufferedOp) : Prop :=
  match policy with
  | .kF3N | .kLegacyNodePartitioned =>
      op.producerId ∈ closed.headD [] ∨ btreeSearch pool.tree op.key = !op.isDelete
  | .kF3K | .kLegacyKeyPartitioned | .kDeterministicReplay =>
      match settled op.key pool.allRecovered closed with
      | some last => last.isDelete = op.isDelete
      | none => btreeSearch pool.tree op.key = !op.isDelete

/-- The answer of the tree after the closed windows. -/
def outcome (pool : Pool τ) (policy : EvaluatorPolicy) (closed : List (List Nat))
    (op : FutureBufferedOp) : Bool :=
  match policy with
  | .kF3N | .kLegacyNodePartitioned =>
      if op.producerId ∈ closed.headD [] then !op.isDelete else btreeSearch pool.tree op.key
  | .kF3K | .kLegacyKeyPartitioned | .kDeterministicReplay =>
      resolve (btreeSearch pool.tree op.key) (settled op.key pool.allRecovered closed)

theorem outcome_eq_iff (pool : Pool τ) (policy : EvaluatorPolicy) (closed : List (List Nat))
    (op : FutureBufferedOp) :
    pool.outcome policy closed op = (!op.isDelete) ↔ pool.Reflects policy closed op := by
  have head : (if op.producerId ∈ closed.headD [] then !op.isDelete
      else btreeSearch pool.tree op.key) = (!op.isDelete) ↔
      op.producerId ∈ closed.headD [] ∨ btreeSearch pool.tree op.key = !op.isDelete := by
    split <;> simp_all
  have last : resolve (btreeSearch pool.tree op.key) (settled op.key pool.allRecovered closed) =
      (!op.isDelete) ↔
      match settled op.key pool.allRecovered closed with
      | some last => last.isDelete = op.isDelete
      | none => btreeSearch pool.tree op.key = !op.isDelete := by
    cases settled op.key pool.allRecovered closed <;> simp
  cases policy
  · exact last
  · exact head
  · exact last
  · exact last
  · exact head

end Pool

namespace Impl

variable {τ : Type} [GlobalTree τ]

/-- A state after a reopen, at the key of the recovered operation `op`: the chains
hold the recovered operations on the key of the producers that no window has
brought in, and the first drain has cleared what the directories knew of it. -/
structure Resumed (s : Impl τ) (pool : Pool τ) (config : RuntimeConfig)
    (keys : Nat → Finset Int) (op : FutureBufferedOp) (w : Windows) : Prop where
  config_eq : s.config = config
  nThreads_eq : s.tree.nThreads = config.producerThreads
  numbered : s.Numbered
  roomy : ∀ p < s.tree.nThreads, s.tree.Roomy (keys p) p
  current : ∀ p, p ∈ w.current ↔
    p < s.tree.nThreads ∧ 0 < (s.ptfoThreads.get p).entryCount
  left : ∀ p < s.tree.nThreads, ∀ o, o.key = op.key →
    (o ∈ s.tree.pending p ↔ o ∈ pool.recovered p ∧ p ∉ w.closed.flatten)
  known : w.closed = [] → ∀ p < s.tree.nThreads, s.tree.AgreesAt p op.key
  forgotten : w.closed ≠ [] → ∀ p < s.tree.nThreads,
    ∀ e ∈ (s.tree.futureLookupDirectory p).collect, e.key ≠ op.key
  answer : btreeSearch s.tree.tree op.key = pool.outcome config.evaluatorPolicy w.closed op

section Resumed

variable {s : Impl τ} {pool : Pool τ} {config : RuntimeConfig} {keys : Nat → Finset Int}
  {op : FutureBufferedOp} {w : Windows}

omit [GlobalTree τ] in
theorem eq_reopened {nodes : Nat} (opened : pool.reopen config nodes = .ok s) :
    pool.nThreads = config.producerThreads ∧
      s = { init config pool.tree pool.resumeSeq nodes with
            tree := pool.recover (castInt config.hashCapacity) } := by
  rw [Pool.reopen] at opened
  split at opened
  · cases opened
  · exact ⟨not_not.mp (by assumption), (Except.ok.inj opened).symm⟩

theorem resumed_reopen (op : FutureBufferedOp) {nodes : Nat}
    (opened : pool.reopen config nodes = .ok s) (sound : pool.Sound)
    (room : ∀ p < config.producerThreads, (keys p).card ≤ config.dirCap)
    (within : ∀ o ∈ pool.allRecovered, o.key ∈ keys o.producerId) :
    s.Resumed pool config keys op {} := by
  obtain ⟨hn, rfl⟩ := eq_reopened opened
  have spec : ∀ p < pool.nThreads, _ := fun p hp =>
    Pool.recover_spec sound hp (room p (hn ▸ hp)) fun o mem => by
      have := within o (Pool.mem_allRecovered.mpr (Pool.producerId_of_mem mem ▸ ⟨hp, mem⟩))
      rwa [Pool.producerId_of_mem mem] at this
  refine ⟨rfl, hn, ⟨hn.symm, ?_, sound.increasing, sound.distinct, fun o mem => ?_⟩,
    fun p hp => (spec p hp).1, fun p => ?_, fun p hp o hk => ?_, fun _ p hp => (spec p hp).2 _,
    fun h => absurd rfl h, ?_⟩
  · exact (Finset.sum_eq_zero fun _ _ => rfl).symm
  · have := Pool.lt_resumeSeq mem
    simp only [init]
    omega
  · simp [init]
  · simp [Pool.pending_recover]
  · cases hpolicy : config.evaluatorPolicy <;> simp [Pool.outcome, settled, Pool.recover]

omit [GlobalTree τ] in
/-- Recording an operation adds no entry on another key. -/
theorem forgotten_record {dir : LookupDirectory} {ks : Finset Int} (serves : dir.Serves ks)
    {key key' : Int} (hkey : key ∈ ks) (hne : key ≠ key') (p : Nat) (isDone : Bool)
    (sequence : Nat) (none : ∀ e ∈ dir.collect, e.key ≠ key') :
    ∀ e ∈ (dir.record key p isDone sequence).collect, e.key ≠ key' := by
  intro e mem
  rw [LookupDirectory.mem_collect_record serves.wf (serves.find_ne_none hkey)] at mem
  rcases mem with rfl | ⟨mem, -⟩
  · exact hne
  · exact none e mem

/-- A producer call on another key joins its producer to the current window. -/
theorem Resumed.enqueued (res : s.Resumed pool config keys op w) {key : Int} {p : Nat}
    (hp : p < s.tree.nThreads) (hkey : key ∈ keys p) (hne : key ≠ op.key) (isDone : Bool)
    (numa : Int) :
    (s.enqueued key p isDone numa).Resumed pool config keys op
      { w with current := p :: w.current } := by
  refine ⟨res.config_eq, res.nThreads_eq, res.numbered.enqueued hp,
    Btree.Roomy.futureInsert res.roomy hkey _ _, fun q => ?_, fun q hq o hk => ?_,
    fun first q hq => ?_, fun later q hq => ?_, res.answer⟩
  · rw [List.mem_cons, res.current, entryCount_enqueued]
    by_cases hqp : q = p
    · subst hqp
      exact iff_of_true (Or.inl rfl) ⟨hp, by simp⟩
    · rw [if_neg hqp, Nat.add_zero, or_iff_right hqp]
      exact Iff.rfl
  · rw [← res.left q hq o hk, pending_enqueued]
    by_cases hqp : q = p
    · subst hqp
      rw [Function.update_self, List.mem_append, List.mem_singleton, or_iff_left]
      rintro rfl
      exact hne hk
    · rw [Function.update_of_ne hqp]
  · exact (res.known first q hq).futureInsert_of_ne (res.roomy p hp).dir.wf
      fun _ => Ne.symm hne
  · have old := res.forgotten later q hq
    by_cases hqp : q = p
    · subst hqp
      have hdir : (s.enqueued key q isDone numa).tree.futureLookupDirectory q =
          (s.tree.futureLookupDirectory q).record key q isDone s.nextPtfoSequence := by
        simp [Impl.enqueued, account, ptfoInsert, takeSequence, Btree.futureInsert]
      rw [hdir]
      exact forgotten_record (res.roomy q hq).dir hkey hne q isDone _ old
    · have hdir : (s.enqueued key p isDone numa).tree.futureLookupDirectory q =
          s.tree.futureLookupDirectory q := by
        simp [Impl.enqueued, account, ptfoInsert, takeSequence, Btree.futureInsert, hqp]
      rw [hdir]
      exact old

/-- The pending count is zero exactly when no window is in progress. -/
theorem Resumed.pending_eq_zero_iff (res : s.Resumed pool config keys op w) :
    s.pendingOperationCount = 0 ↔ w.current = [] := by
  rw [res.numbered.total, entryTotal, Finset.sum_eq_zero_iff, List.eq_nil_iff_forall_not_mem]
  constructor
  · intro zero p mem
    obtain ⟨hp, hcount⟩ := (res.current p).mp mem
    exact hcount.ne' (zero p (Finset.mem_range.mpr (res.numbered.threads ▸ hp)))
  · intro none p mem
    refine Nat.eq_zero_of_not_pos fun hcount => none p ((res.current p).mpr ⟨?_, hcount⟩)
    exact res.numbered.threads ▸ Finset.mem_range.mp mem

theorem Resumed.mem_pendingProducers (res : s.Resumed pool config keys op w) {p : Nat} :
    p ∈ s.pendingProducers ↔ p ∈ w.current := by
  rw [res.current, pendingProducers, List.mem_filter, List.mem_range, decide_eq_true_eq,
    res.numbered.threads]

omit [GlobalTree τ] in
theorem nodup_pendingProducers (s : Impl τ) : s.pendingProducers.Nodup :=
  List.nodup_range.filter _

/-! ### The drain that ends a window -/

/-- The policies that perform the logs of the chains one after another. -/
def SingleWriter (policy : EvaluatorPolicy) (pool : Pool τ) (op : FutureBufferedOp) : Prop :=
  policy.resolvesConflicts = false →
    ∀ o ∈ pool.allRecovered, o.key = op.key → o.producerId = op.producerId

variable [LawfulTree τ]

omit [LawfulTree τ] in
/-- The chains of the window's producers hold, on the key, the operations that the
window brings in. -/
theorem Resumed.mem_window (res : s.Resumed pool config keys op w)
    (hn : pool.nThreads = config.producerThreads) {o : FutureBufferedOp} (hk : o.key = op.key) :
    o ∈ s.pendingProducers.flatMap s.tree.pending ↔
      o ∈ pool.allRecovered.filter fun o =>
        o.producerId ∉ w.closed.flatten ∧ o.producerId ∈ w.current := by
  rw [List.mem_flatMap, List.mem_filter, decide_eq_true_eq, Pool.mem_allRecovered]
  constructor
  · rintro ⟨p, mem, ho⟩
    rw [res.mem_pendingProducers] at mem
    have hp := ((res.current p).mp mem).1
    obtain ⟨own, notMem⟩ := (res.left p hp o hk).mp ho
    have hpid := Pool.producerId_of_mem own
    subst hpid
    exact ⟨⟨hn ▸ res.nThreads_eq ▸ hp, own⟩, notMem, mem⟩
  · rintro ⟨⟨-, own⟩, notMem, mem⟩
    have hp := ((res.current _).mp mem).1
    exact ⟨_, res.mem_pendingProducers.mpr mem, (res.left _ hp o hk).mpr ⟨own, notMem⟩⟩

/-- Under F3-N only the first drain finds the key in the directories. -/
theorem Resumed.nodeOrdered (res : s.Resumed pool config keys op w) (sound : pool.Sound)
    (hn : pool.nThreads = config.producerThreads)
    (top : newest pool.allRecovered op.key = some op) :
    btreeSearch (s.tree.applyNodeOrderedPtfoReplay s.ptfoThreads s.pendingProducers).1.tree
        op.key =
      if w.closed = [] ∧ op.producerId ∈ w.current then !op.isDelete
      else btreeSearch s.tree.tree op.key := by
  have active := active_pendingProducers res.numbered.threads
  by_cases first : w.closed = []
  · have snap : s.tree.Snapshot op.key := .of_agrees (res.known first) res.numbered.distinct
    have same : newest s.tree.allPending op.key = some op := by
      rw [← top]
      refine (newest_congr (sound.distinct.at op.key) fun o hk => ?_).symm
      rw [Btree.mem_allPending, Pool.mem_allRecovered, hn, res.nThreads_eq]
      refine and_congr_right fun hp => ?_
      rw [res.left _ (res.nThreads_eq.symm ▸ hp) o hk, first]
      simp
    rw [Btree.btreeSearch_applyNodeOrdered active snap res.numbered.distinct, same]
    simp only [res.mem_pendingProducers, first, true_and]
  · rw [if_neg fun h => first h.1, Btree.search_applyNodeOrdered]
    refine applyAll_of_forall_ne fun o mem (hk : o.key = op.key) => ?_
    have ho := Btree.nodeOrderedOps_sub active mem
    -- No directory has an entry that could pass the operation.
    have entry := Btree.mem_collect_of_isLatest
      (fun p hp e he hke => absurd (hke.trans hk) (res.forgotten first p hp e he))
      res.numbered.distinct ho (List.mem_filter.mp mem).2
    exact res.forgotten first _ (Btree.mem_allPending.mp ho).1 _ entry hk

/-- The answer of the tree after the drain that ends a window. -/
theorem Resumed.answer_drain (res : s.Resumed pool config keys op w) (sound : pool.Sound)
    (hn : pool.nThreads = config.producerThreads)
    (top : newest pool.allRecovered op.key = some op)
    (single : SingleWriter config.evaluatorPolicy pool op) (slots : Nat) :
    btreeSearch (s.replay s.pendingProducers slots).1.tree op.key =
      pool.outcome config.evaluatorPolicy (w.closed ++ [w.current]) op := by
  have active := active_pendingProducers res.numbered.threads
  have window : newest (s.pendingProducers.flatMap s.tree.pending) op.key =
      newest (pool.allRecovered.filter fun o =>
        o.producerId ∉ w.closed.flatten ∧ o.producerId ∈ w.current) op.key := by
    refine (newest_congr ((sound.distinct.at op.key).mono fun o mem =>
      (List.mem_filter.mp mem).1) fun o hk => (res.mem_window hn hk).symm).symm
  have byWindow : ∀ policy : EvaluatorPolicy, config.evaluatorPolicy = policy →
      (pool.outcome policy w.closed op =
        resolve (btreeSearch pool.tree op.key) (settled op.key pool.allRecovered w.closed)) →
      resolve (btreeSearch s.tree.tree op.key)
          (newest (s.pendingProducers.flatMap s.tree.pending) op.key) =
        resolve (btreeSearch pool.tree op.key)
          (settled op.key pool.allRecovered (w.closed ++ [w.current])) := by
    intro policy hpolicy houtcome
    rw [res.answer, hpolicy, houtcome, resolve_resolve, window, settled_concat]
  have partitioned : config.evaluatorPolicy.resolvesConflicts = false →
      btreeSearch (s.tree.applyKeyPartitionedPtfoReplay s.ptfoThreads s.pendingProducers
        slots).1.tree op.key =
      resolve (btreeSearch s.tree.tree op.key)
        (newest (s.pendingProducers.flatMap s.tree.pending) op.key) := by
    intro conflicts
    refine Btree.btreeSearch_applyKeyPartitioned active (nodup_pendingProducers s) slots ?_
      fun p mem => res.numbered.increasing p (active p mem).1
    have owner : ∀ p ∈ s.pendingProducers, (∃ o ∈ s.tree.pending p, o.key = op.key) →
        p = op.producerId := by
      rintro p mem ⟨o, ho, hk⟩
      have hmem := (res.mem_window hn hk).mp (List.mem_flatMap.mpr ⟨p, mem, ho⟩)
      rw [← single conflicts o (List.mem_filter.mp hmem).1 hk, Btree.producerId_of_mem ho]
    exact fun p mem q mem' has has' => (owner p mem has).trans (owner q mem' has').symm
  have head : w.closed ≠ [] → (w.closed ++ [w.current]).headD [] = w.closed.headD [] := by
    intro later
    obtain ⟨first, rest, hclosed⟩ := List.exists_cons_of_ne_nil later
    simp [hclosed]
  have nodeOrdered : ∀ policy : EvaluatorPolicy, config.evaluatorPolicy = policy →
      (∀ closed, pool.outcome policy closed op =
        if op.producerId ∈ closed.headD [] then !op.isDelete
        else btreeSearch pool.tree op.key) →
      btreeSearch (s.tree.applyNodeOrderedPtfoReplay s.ptfoThreads s.pendingProducers).1.tree
        op.key = pool.outcome policy (w.closed ++ [w.current]) op := by
    intro policy hpolicy houtcome
    rw [res.nodeOrdered sound hn top, res.answer, hpolicy, houtcome, houtcome]
    by_cases first : w.closed = []
    · simp [first]
    · rw [head first, if_neg fun h => first h.1]
  rw [replay, res.config_eq]
  cases hpolicy : config.evaluatorPolicy
  · exact (partitioned (by rw [hpolicy]; rfl)).trans (byWindow _ hpolicy rfl)
  · exact nodeOrdered _ hpolicy fun _ => rfl
  · exact (Btree.btreeSearch_applyKeyOrdered active res.numbered.distinct _).trans
      (byWindow _ hpolicy rfl)
  · exact (partitioned (by rw [hpolicy]; rfl)).trans (byWindow _ hpolicy rfl)
  · exact nodeOrdered _ hpolicy fun _ => rfl

/-- A drain ends the window in progress. -/
theorem Resumed.drainPending (res : s.Resumed pool config keys op w) (sound : pool.Sound)
    (hn : pool.nThreads = config.producerThreads)
    (top : newest pool.allRecovered op.key = some op)
    (single : SingleWriter config.evaluatorPolicy pool op) (numa : Int) :
    (s.drainPending numa).Resumed pool config keys op
      (if w.current = [] then w else ⟨w.closed ++ [w.current], []⟩) := by
  by_cases hzero : s.pendingOperationCount = 0
  · have same : s.drainPending numa = s := if_pos hzero
    rw [if_pos (res.pending_eq_zero_iff.mp hzero), same]
    exact res
  · rw [if_neg fun h => hzero (res.pending_eq_zero_iff.mpr h)]
    have drains := drains_drainLocked res.numbered.threads hzero numa
    have cleared : ∀ p < s.tree.nThreads,
        (s.drainPending numa).tree.futureLookupDirectory p =
          (s.tree.futureLookupDirectory p).clear := fun p hp => by
      rw [Impl.drainPending, drains.dir, if_pos (List.mem_range.mpr hp)]
    have hthreads : (s.drainPending numa).tree.nThreads = s.tree.nThreads := drains.nThreads
    refine ⟨drains.config.trans res.config_eq, hthreads.trans res.nThreads_eq,
      res.numbered.drains drains, fun p hp => ?_, fun p => ?_, fun p hp o hk => ?_,
      fun first => absurd first (by simp), fun _ p hp e mem => ?_, ?_⟩
    · rw [hthreads] at hp
      refine (res.roomy p hp).congr (congrFun drains.hash p) (fun o mem => ?_)
        (Or.inr (cleared p hp))
      have mem' : o ∈ if p ∈ s.pendingProducers then [] else s.tree.pending p :=
        drains.pending p ▸ mem
      split at mem'
      · exact absurd mem' List.not_mem_nil
      · exact mem'
    · refine iff_of_false List.not_mem_nil fun h => ?_
      obtain ⟨hp, hcount⟩ := h
      rw [hthreads] at hp
      have zero := drains.entryCount p (res.numbered.threads ▸ hp)
      have hcount' : 0 < ((s.drainLocked numa).ptfoThreads.get p).entryCount := hcount
      split at zero
      · omega
      · rename_i notMem
        exact notMem (res.mem_pendingProducers.mpr ((res.current p).mpr ⟨hp, by omega⟩))
    · rw [hthreads] at hp
      have hpending : (s.drainPending numa).tree.pending p =
          if p ∈ s.pendingProducers then [] else s.tree.pending p := drains.pending p
      rw [hpending, List.flatten_append, List.mem_append, List.flatten_singleton,
        not_or, ← and_assoc, ← res.left p hp o hk, ← res.mem_pendingProducers]
      split <;> simp [*]
    · rw [hthreads] at hp
      rw [cleared p hp, LookupDirectory.collect_clear] at mem
      exact absurd mem List.not_mem_nil
    · obtain ⟨slots, htree⟩ := drains.tree
      exact (congrArg (btreeSearch · op.key) htree).trans
        (res.answer_drain sound hn top single slots)

/-- A call that leaves the key alone. -/
theorem Resumed.call (res : s.Resumed pool config keys op w) (sound : pool.Sound)
    (hn : pool.nThreads = config.producerThreads)
    (top : newest pool.allRecovered op.key = some op)
    (single : SingleWriter config.evaluatorPolicy pool op) (c : Call)
    (within : ∀ i, c.issue config.producerThreads = some i → i.key ∈ keys i.producerId)
    (spares : ∀ i, c.issue config.producerThreads = some i → i.key ≠ op.key) :
    (s.call c).Resumed pool config keys op (w.next config.producerThreads c) := by
  have hsize : s.ptfoThreads.size = config.producerThreads :=
    res.numbered.threads.trans res.nThreads_eq
  rcases call_cases s c with ⟨i, numa, hissue, hp, hcall⟩ | ⟨numa, rfl, hcall⟩ |
    ⟨hissue, hcall⟩
  · rw [hsize] at hissue
    have hnext : w.next config.producerThreads c =
        { w with current := i.producerId :: w.current } := by
      simp only [Windows.next, hissue]
    rw [hcall, hnext]
    exact res.enqueued (res.numbered.threads ▸ hp) (within i hissue) (spares i hissue) _ _
  · exact res.drainPending sound hn top single numa
  · rw [hsize] at hissue
    cases c with
    | drainPending numa => exact res.drainPending sound hn top single numa
    | bufferedInsert key p numa | eraseBuffered key p numa =>
        simp only [Windows.next, hissue]
        rw [hcall]
        exact res

/-- A run of calls that leave the key alone. -/
theorem Resumed.run (res : s.Resumed pool config keys op {}) (sound : pool.Sound)
    (hn : pool.nThreads = config.producerThreads)
    (top : newest pool.allRecovered op.key = some op)
    (single : SingleWriter config.evaluatorPolicy pool op) (calls : List Call)
    (within : ∀ i ∈ issues config.producerThreads calls, i.key ∈ keys i.producerId)
    (spares : ∀ i ∈ issues config.producerThreads calls, i.key ≠ op.key) :
    (s.run calls).Resumed pool config keys op (windows config.producerThreads calls) := by
  induction calls using List.reverseRecOn with
  | nil => exact res
  | append_singleton calls c ih =>
      rw [issues, List.filterMap_append, ← issues] at within spares
      have last : ∀ i, c.issue config.producerThreads = some i →
          i ∈ [c].filterMap (Call.issue config.producerThreads) := fun i hissue => by
        simp [hissue]
      have before := ih (fun i mem => within i (List.mem_append_left _ mem))
        fun i mem => spares i (List.mem_append_left _ mem)
      rw [windows, List.foldl_append, Impl.run, List.foldl_append]
      exact before.call sound hn top single c
        (fun i hissue => within i (List.mem_append_right _ (last i hissue)))
        fun i hissue => spares i (List.mem_append_right _ (last i hissue))

end Resumed

/-! ## The pools that processes leave behind -/

section Left

omit [GlobalTree τ] in
theorem numbered_reopen {pool : Pool τ} (sound : pool.Sound) {config : RuntimeConfig}
    {nodes : Nat} {s : Impl τ} (opened : pool.reopen config nodes = .ok s) : s.Numbered := by
  obtain ⟨hn, rfl⟩ := eq_reopened opened
  refine ⟨hn.symm, (Finset.sum_eq_zero fun _ _ => rfl).symm, sound.increasing, sound.distinct,
    fun o mem => ?_⟩
  have := Pool.lt_resumeSeq mem
  simp only [init]
  omega

theorem Numbered.event {s : Impl τ} (num : s.Numbered) (e : Event) :
    (s.event e).Numbered ∧ (s.event e).tree.nThreads = s.tree.nThreads := by
  rcases event_cases num.threads e with ⟨op, numa, -, hp, hevent⟩ | ⟨ids, cleared, drains, -⟩ |
    hevent
  · rw [hevent]
    exact ⟨num.enqueued (num.threads ▸ hp), rfl⟩
  · exact ⟨num.drains drains, drains.nThreads⟩
  · rw [hevent]
    exact ⟨num, rfl⟩

theorem Numbered.eventRun {s : Impl τ} (num : s.Numbered) (events : List Event) :
    (s.eventRun events).Numbered ∧ (s.eventRun events).tree.nThreads = s.tree.nThreads := by
  induction events using List.reverseRecOn with
  | nil => exact ⟨num, rfl⟩
  | append_singleton events e ih =>
      rw [eventRun_concat]
      obtain ⟨num', hn⟩ := ih.1.event e
      exact ⟨num', hn.trans ih.2⟩

end Left

end Impl

namespace Pool

variable {τ : Type} [GlobalTree τ]

/-- The pools that processes with one configuration leave behind: the first creates
the pool, each later one reopens it. -/
inductive Left (config : RuntimeConfig) : Pool τ → Prop
  | created (tree : τ) (nodes : Nat) (events : List Event) :
      Left config (ofImpl ((Impl.init config tree 0 nodes).eventRun events) 0)
  | reopened {pool : Pool τ} {s : Impl τ} {nodes : Nat} (left : Left config pool)
      (opened : pool.reopen config nodes = .ok s) (events : List Event) :
      Left config (ofImpl (s.eventRun events) pool.resumeSeq)

theorem Left.sound {config : RuntimeConfig} (valid : validateRuntimeConfig config = .ok ())
    {pool : Pool τ} (left : pool.Left config) :
    pool.Sound ∧ pool.nThreads = config.producerThreads := by
  have leaves : ∀ {s : Impl τ}, s.Numbered → s.tree.nThreads = config.producerThreads →
      ∀ (events : List Event) (seqCounter : Nat),
        (ofImpl (s.eventRun events) seqCounter).Sound ∧
          (ofImpl (s.eventRun events) seqCounter).nThreads = config.producerThreads := by
    intro s num hn events seqCounter
    obtain ⟨num', hn'⟩ := num.eventRun events
    exact ⟨⟨num'.increasing, num'.distinct⟩, hn'.trans hn⟩
  induction left with
  | created tree nodes events =>
      exact leaves (Impl.accounted_init valid tree 0 nodes).toNumbered
        (Impl.nThreads_init valid ..) events 0
  | reopened left opened events ih =>
      have hn := (Impl.eq_reopened opened).1
      refine leaves (Impl.numbered_reopen ih.1 opened) ?_ events _
      obtain ⟨-, rfl⟩ := Impl.eq_reopened opened
      exact hn

/-- The distinct keys that producer `p` has recovered. -/
def recoveredKeys (pool : Pool τ) (p : Nat) : Finset Int :=
  ((pool.recovered p).map FutureBufferedOp.key).toFinset

omit [GlobalTree τ] in
theorem mem_recoveredKeys {pool : Pool τ} {o : FutureBufferedOp}
    (mem : o ∈ pool.allRecovered) : o.key ∈ pool.recoveredKeys o.producerId := by
  rw [recoveredKeys, List.mem_toFinset]
  exact List.mem_map_of_mem (mem_allRecovered.mp mem).2

/-- A recovered operation that no later one overrides is in the tree at the end of a
run exactly when the run's windows reflect it.  Every producer's tables hold the keys of its
recovered chain together with those of the run; under a policy that resolves no conflicts one
producer alone has the key. -/
theorem reopened_run_iff [LawfulTree τ] {config : RuntimeConfig}
    (valid : validateRuntimeConfig config = .ok ()) {pool : Pool τ} (left : pool.Left config)
    (nodes : Nat) (calls : List Call) (numa : Int)
    (ample : ∀ p < config.producerThreads,
      (pool.recoveredKeys p ∪ keysOf (issues config.producerThreads calls) p).card ≤
        config.dirCap)
    {op : FutureBufferedOp} (top : newest pool.allRecovered op.key = some op)
    (last : ∀ i ∈ issues config.producerThreads calls, i.key ≠ op.key)
    (single : Impl.SingleWriter config.evaluatorPolicy pool op) :
    ∃ s, pool.reopen config nodes = .ok s ∧
      ((s.run (calls ++ [.drainPending numa])).globalContains op.key = (!op.isDelete) ↔
        pool.Reflects config.evaluatorPolicy
          (windows config.producerThreads (calls ++ [.drainPending numa])).closed op) := by
  obtain ⟨sound, hn⟩ := left.sound valid
  have opened : pool.reopen config nodes = .ok _ := if_neg (not_not.mpr hn)
  refine ⟨_, opened, ?_⟩
  have start := Impl.resumed_reopen op opened sound ample fun o mem =>
    Finset.mem_union_left _ (mem_recoveredKeys mem)
  have same : issues config.producerThreads (calls ++ [.drainPending numa]) =
      issues config.producerThreads calls := by
    simp [issues, Call.issue]
  have finish := start.run sound hn top single (calls ++ [.drainPending numa])
    (fun i mem => Finset.mem_union_right _ (mem_keysOf (same ▸ mem)))
    fun i mem => last i (same ▸ mem)
  rw [← outcome_eq_iff, ← finish.answer]
  rfl

/-- What the producer has recovered goes in with its next operation. -/
theorem reopened_run_next_operation :
    let config : RuntimeConfig := { producerThreads := 2, hashCapacity := 4 }
    let pool := ofImpl ((Impl.init config (∅ : Finset Int) 0 1).eventRun
      [.call (.bufferedInsert 7 0 0), .call (.eraseBuffered 8 1 0)]) 0
    ∃ s, pool.reopen config 1 = .ok s ∧
      (s.run [.bufferedInsert 9 0 0, .drainPending 0]).globalContains 7 = true := by
  intro config pool
  have valid : validateRuntimeConfig config = .ok () := rfl
  have left : pool.Left config := .created _ _ _
  let op : FutureBufferedOp := ⟨7, false, 1, 0⟩
  have top : newest pool.allRecovered op.key = some op := by decide
  obtain ⟨s, opened, reflects⟩ := reopened_run_iff valid left 1 [.bufferedInsert 9 0 0] 0
    (by decide) top (by decide) fun h => absurd h (by decide)
  exact ⟨s, opened, reflects.mpr (Or.inl (by decide : 0 ∈ [[0]].headD []))⟩

/-- A drain alone replays nothing after a reopen. -/
theorem reopened_run_drain_alone :
    let config : RuntimeConfig := { producerThreads := 2, hashCapacity := 4 }
    let pool := ofImpl ((Impl.init config (∅ : Finset Int) 0 1).eventRun
      [.call (.bufferedInsert 7 0 0)]) 0
    pool.Left config ∧ newest pool.allRecovered 7 = some ⟨7, false, 1, 0⟩ ∧
      ∃ s, pool.reopen config 1 = .ok s ∧
        (s.run [.drainPending 0]).globalContains 7 = false :=
  ⟨.created _ _ _, by decide, _, rfl, by decide⟩

end Pool

end F3Tree
