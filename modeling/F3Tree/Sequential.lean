import F3Tree.Drain

/-!
# The wrapper between calls

While calls are issued one at a time, every state between two calls is
`Accounted`: the counters are those of the chains, and sequence numbers are
distinct and below the next one.  If moreover the tables never fill, the state is
`Informed`: the directories say what the chains say.

The state is then read as one set of keys, `view`: the value of the newest
buffered operation on a key, and the tree's answer when there is none.  `contains`
computes it (`contains_eq_view`), a producer call writes one key of it
(`view_enqueued`), and a drain keeps it when it replays all chains
(`view_of_drains_all`).
-/

namespace F3Tree

open LastWriter

/-- The policies whose replay resolves conflicts between producers. -/
def EvaluatorPolicy.resolvesConflicts : EvaluatorPolicy → Bool
  | .kF3N | .kLegacyNodePartitioned | .kDeterministicReplay => true
  | .kF3K | .kLegacyKeyPartitioned => false

namespace Impl

variable {τ : Type}

/-- Sequence numbers are used once, in order, and below the next one. -/
structure Numbered (s : Impl τ) : Prop where
  threads : s.ptfoThreads.size = s.tree.nThreads
  total : s.pendingOperationCount = s.entryTotal
  increasing : ∀ p < s.tree.nThreads,
    (s.tree.pending p).Pairwise fun op op' => op.sequence < op'.sequence
  distinct : DistinctStamps s.tree.allPending
  fresh : ∀ op ∈ s.tree.allPending, op.sequence < s.nextPtfoSequence

/-- Moreover the wrapper's counters are those of the chains. -/
structure Accounted (s : Impl τ) : Prop extends Numbered s where
  entryCount : ∀ p < s.tree.nThreads,
    (s.ptfoThreads.get p).entryCount = (s.tree.pending p).length

/-- Producer `p` buffers keys of `keys p` only, its tables have room for them, and
its directory says what its chain says. -/
structure Informed (keys : Nat → Finset Int) (s : Impl τ) : Prop where
  roomy : ∀ p < s.tree.nThreads, s.tree.Roomy (keys p) p
  agrees : ∀ p < s.tree.nThreads, ∀ key, s.tree.AgreesAt p key

/-! ## A fresh wrapper -/

theorem pending_init (config : RuntimeConfig) (tree : τ) (resume nodes p : Nat) :
    (init config tree resume nodes).tree.pending p = [] := by
  simp [init, Btree.mk', Btree.pending, LocalFut.log]

theorem allPending_init (config : RuntimeConfig) (tree : τ) (resume nodes : Nat) :
    (init config tree resume nodes).tree.allPending = [] := by
  simp [Btree.allPending, pending_init]

theorem producerThreads_pos {config : RuntimeConfig}
    (valid : validateRuntimeConfig config = .ok ()) : 0 < config.producerThreads := by
  rw [validateRuntimeConfig] at valid
  split at valid
  · cases valid
  · omega

theorem accounted_init {config : RuntimeConfig}
    (valid : validateRuntimeConfig config = .ok ()) (tree : τ) (resume nodes : Nat) :
    (init config tree resume nodes).Accounted where
  threads := (if_pos (producerThreads_pos valid)).symm
  entryCount p _ := by
    rw [pending_init]
    rfl
  total := (Finset.sum_eq_zero fun _ _ => rfl).symm
  increasing p _ := by
    rw [pending_init]
    exact .nil
  distinct := by
    rw [allPending_init]
    exact fun op mem => absurd mem List.not_mem_nil
  fresh := by
    rw [allPending_init]
    exact fun op mem => absurd mem List.not_mem_nil

@[simp]
theorem nThreads_init {config : RuntimeConfig}
    (valid : validateRuntimeConfig config = .ok ()) (tree : τ) (resume nodes : Nat) :
    (init config tree resume nodes).tree.nThreads = config.producerThreads :=
  if_pos (producerThreads_pos valid)

theorem informed_init {config : RuntimeConfig}
    (valid : validateRuntimeConfig config = .ok ()) {keys : Nat → Finset Int}
    (room : ∀ p < config.producerThreads, (keys p).card ≤ config.dirCap) (tree : τ)
    (resume nodes : Nat) : (init config tree resume nodes).Informed keys where
  roomy p hp := Btree.roomy_mk' _ _ tree (room p (nThreads_init valid .. ▸ hp)) p
  agrees p _ key e := by
    rw [pending_init]
    simp [init, Btree.mk', LookupDirectory.collect_empty]

/-! ## Producer calls -/

/-- The state after an accepted producer call. -/
def enqueued (s : Impl τ) (key : Int) (p : Nat) (isDone : Bool) (numa : Int) :
    Impl τ :=
  (s.takeSequence.2.ptfoInsert key p isDone s.nextPtfoSequence).account p numa

theorem enqueue_of_lt {s : Impl τ} {p : Nat} (hp : p < s.ptfoThreads.size) (key : Int)
    (isDone : Bool) (numa : Int) :
    s.enqueue key p isDone numa = .ok (s.enqueued key p isDone numa) := by
  rw [enqueue, if_neg (Nat.not_le.mpr hp)]
  rfl

theorem enqueue_of_ge {s : Impl τ} {p : Nat} (hp : s.ptfoThreads.size ≤ p) (key : Int)
    (isDone : Bool) (numa : Int) :
    s.enqueue key p isDone numa =
      .error "producer_id exceeds configured producer_threads" := by
  rw [enqueue, if_pos hp]

/-- Accounting for one operation raises one summand of the total. -/
theorem entryTotal_account {s : Impl τ} {p : Nat} (hp : p < s.ptfoThreads.size)
    (numa : Int) : (s.account p numa).entryTotal = s.entryTotal + 1 := by
  have hsize : p ∈ Finset.range s.ptfoThreads.size := Finset.mem_range.mpr hp
  rw [entryTotal, entryTotal, ← Finset.sum_erase_add _ _ hsize]
  refine (Finset.sum_erase_add _ _ hsize).symm.trans ?_
  rw [Nat.add_assoc]
  congr 1
  · refine Finset.sum_congr rfl fun q hq => ?_
    simp [account, Finset.ne_of_mem_erase hq]
  · simp [account, PTFOThreadState.bump]

/-- The operation that a producer call buffers. -/
def nextOp (s : Impl τ) (key : Int) (p : Nat) (isDone : Bool) : FutureBufferedOp :=
  ⟨key, isDone, s.nextPtfoSequence, p⟩

section

variable {s : Impl τ} {key : Int} {p : Nat} {isDone : Bool} {numa : Int}

theorem pending_enqueued :
    (s.enqueued key p isDone numa).tree.pending =
      Function.update s.tree.pending p (s.tree.pending p ++ [s.nextOp key p isDone]) :=
  Btree.pending_futureInsert ..

theorem mem_allPending_enqueued (hp : p < s.tree.nThreads) {op : FutureBufferedOp} :
    op ∈ (s.enqueued key p isDone numa).tree.allPending ↔
      op ∈ s.tree.allPending ++ [s.nextOp key p isDone] := by
  rw [List.mem_append, List.mem_singleton]
  exact Btree.mem_allPending_futureInsert hp

theorem Numbered.enqueued (num : s.Numbered) (hp : p < s.tree.nThreads) :
    (s.enqueued key p isDone numa).Numbered := by
  have own : ∀ op ∈ s.tree.pending p, op.sequence < s.nextPtfoSequence := fun op mem =>
    num.fresh op (Btree.mem_allPending.mpr (Btree.producerId_of_mem mem ▸ ⟨hp, mem⟩))
  have below : ∀ op ∈ (s.enqueued key p isDone numa).tree.allPending,
      op ∈ s.tree.allPending ∧ op.sequence < s.nextPtfoSequence ∨
        op = s.nextOp key p isDone := by
    intro op mem
    rw [mem_allPending_enqueued hp, List.mem_append, List.mem_singleton] at mem
    exact mem.imp_left fun mem => ⟨mem, num.fresh op mem⟩
  refine ⟨num.threads, ?_, fun q hq => ?_, ?_, ?_⟩
  · have hcount : s.pendingOperationCount + 1 = s.entryTotal + 1 :=
      congrArg (· + 1) num.total
    exact hcount.trans (entryTotal_account (num.threads ▸ hp : p < s.ptfoThreads.size) numa).symm
  · rw [pending_enqueued]
    by_cases hqp : q = p
    · subst hqp
      rw [Function.update_self, List.pairwise_append]
      refine ⟨num.increasing q hq, by simp, fun op mem op' mem' => ?_⟩
      rw [List.mem_singleton.mp mem']
      exact own op mem
    · rw [Function.update_of_ne hqp]
      exact num.increasing q hq
  · intro op mem op' mem' hstamp
    have hseq : op.sequence = op'.sequence := hstamp
    rcases below op mem with ⟨mem, hlt⟩ | rfl <;> rcases below op' mem' with ⟨mem', hlt'⟩ | rfl
    · exact num.distinct op mem op' mem' hstamp
    · exact absurd hseq hlt.ne
    · exact absurd hseq hlt'.ne'
    · rfl
  · intro op mem
    rcases below op mem with ⟨-, hlt⟩ | rfl
    · exact Nat.lt_succ_of_lt hlt
    · exact Nat.lt_succ_self _

theorem entryCount_enqueued (q : Nat) :
    ((s.enqueued key p isDone numa).ptfoThreads.get q).entryCount =
      (s.ptfoThreads.get q).entryCount + if q = p then 1 else 0 := by
  by_cases hqp : q = p
  · subst hqp
    simp [Impl.enqueued, account, ptfoInsert, takeSequence, PTFOThreadState.bump]
  · simp [Impl.enqueued, account, ptfoInsert, takeSequence, hqp]

theorem Accounted.enqueued (acc : s.Accounted) (hp : p < s.tree.nThreads) :
    (s.enqueued key p isDone numa).Accounted := by
  refine ⟨acc.toNumbered.enqueued hp, fun q hq => ?_⟩
  rw [entryCount_enqueued, acc.entryCount q hq, pending_enqueued]
  by_cases hqp : q = p
  · subst hqp
    rw [if_pos rfl, Function.update_self, List.length_append, List.length_singleton]
  · rw [if_neg hqp, Function.update_of_ne hqp, Nat.add_zero]

theorem Informed.enqueued {keys : Nat → Finset Int} (inf : s.Informed keys)
    (num : s.Numbered) (hp : p < s.tree.nThreads) (hkey : key ∈ keys p) :
    (s.enqueued key p isDone numa).Informed keys := by
  have newer : ∀ op ∈ s.tree.pending p, op.sequence < s.nextPtfoSequence := fun op mem =>
    num.fresh op (Btree.mem_allPending.mpr (Btree.producerId_of_mem mem ▸ ⟨hp, mem⟩))
  refine ⟨Btree.Roomy.futureInsert inf.roomy hkey _ _, fun q hq key' => ?_⟩
  by_cases same : q = p ∧ key' = key
  · obtain ⟨rfl, rfl⟩ := same
    exact .futureInsert_self (inf.roomy q hq).dir.wf ((inf.roomy q hq).dir.find_ne_none hkey) newer
  · exact (inf.agrees q hq key').futureInsert_of_ne (inf.roomy p hp).dir.wf
      fun hqp hk => same ⟨hqp, hk⟩

end

/-! ## The wrapper as a set of keys -/

section View

variable [GlobalTree τ]

/-- Membership of a key: its newest buffered operation decides, or the tree. -/
def view (s : Impl τ) (key : Int) : Bool :=
  resolve (btreeSearch s.tree.tree key) (newest s.tree.allPending key)

theorem contains_eq_view {s : Impl τ} (distinct : DistinctStamps s.tree.allPending)
    {key : Int} (shown : s.tree.HidesNothing key) : s.contains key = s.view key := by
  rw [contains, view, Btree.viaPtfo_eq_of_distinct shown distinct]
  rcases newest s.tree.allPending key with _ | op
  · rfl
  · cases hdel : op.isDelete <;> simp [Btree.Best.ofNewest, stateOf, hdel]

theorem Informed.contains_eq {s : Impl τ} {keys : Nat → Finset Int}
    (inf : s.Informed keys) (acc : s.Accounted) (key : Int) :
    s.contains key = s.view key :=
  contains_eq_view acc.distinct (Btree.hidesNothing_of_roomy inf.roomy key)

theorem view_enqueued {s : Impl τ} (acc : s.Accounted) {p : Nat}
    (hp : p < s.tree.nThreads) (key : Int) (isDone : Bool) (numa : Int) :
    (s.enqueued key p isDone numa).view = Function.update s.view key (!isDone) := by
  funext key'
  have hnewest : newest (s.enqueued key p isDone numa).tree.allPending key' =
      newest (s.tree.allPending ++ [s.nextOp key p isDone]) key' :=
    newest_congr ((acc.enqueued hp).distinct.at key') fun op _ =>
      mem_allPending_enqueued hp
  have above : ∀ op ∈ s.tree.allPending,
      Write.stamp op < Write.stamp (s.nextOp key p isDone) := acc.fresh
  have hkey : Write.key (s.nextOp key p isDone) = key := rfl
  rw [view, hnewest, newest_concat above, hkey]
  by_cases hk : key' = key
  · subst hk
    rw [if_pos rfl, Function.update_self]
    rfl
  · rw [if_neg (Ne.symm hk), Function.update_of_ne hk]
    rfl

/-! ## Drains -/

section Drains

variable {s s' : Impl τ} {ids cleared : List Nat}

theorem Drains.mem_allPending (drains : s.Drains s' ids cleared) {op : FutureBufferedOp} :
    op ∈ s'.tree.allPending ↔ op ∈ s.tree.allPending ∧ op.producerId ∉ ids := by
  rw [Btree.mem_allPending, Btree.mem_allPending, drains.nThreads, drains.pending]
  by_cases hop : op.producerId ∈ ids <;> simp [hop]

theorem Numbered.drains (num : s.Numbered) (drains : s.Drains s' ids cleared) :
    s'.Numbered := by
  have kept : ∀ op ∈ s'.tree.allPending, op ∈ s.tree.allPending := fun op mem =>
    (drains.mem_allPending.mp mem).1
  refine ⟨?_, drains.total num.total, fun p hp => ?_, num.distinct.mono kept, fun op mem => ?_⟩
  · rw [drains.size, drains.nThreads, num.threads]
  · rw [drains.nThreads] at hp
    rw [drains.pending]
    split
    · exact .nil
    · exact num.increasing p hp
  · rw [drains.next]
    exact num.fresh op (kept op mem)

theorem Accounted.drains (acc : s.Accounted) (drains : s.Drains s' ids cleared) :
    s'.Accounted := by
  refine ⟨acc.toNumbered.drains drains, fun p hp => ?_⟩
  rw [drains.nThreads] at hp
  rw [drains.entryCount p (acc.threads ▸ hp), drains.pending, acc.entryCount p hp]
  split <;> rfl

/-- A drain that clears the directories of the producers it replays, and of no
other producer with buffered operations, keeps directories and chains in step. -/
theorem Informed.drains {keys : Nat → Finset Int} (inf : s.Informed keys)
    (drains : s.Drains s' ids cleared) (clears : ∀ p ∈ ids, p ∈ cleared)
    (spares : ∀ p < s.tree.nThreads, p ∈ cleared → p ∉ ids → s.tree.pending p = []) :
    s'.Informed keys := by
  refine ⟨fun p hp => ?_, fun p hp key e => ?_⟩
  · rw [drains.nThreads] at hp
    refine (inf.roomy p hp).congr (congrFun drains.hash p) (fun op mem => ?_) ?_
    · rw [drains.pending] at mem
      split at mem
      · exact absurd mem List.not_mem_nil
      · exact mem
    · rw [drains.dir]
      split
      · exact Or.inr rfl
      · exact Or.inl rfl
  · rw [drains.nThreads] at hp
    rw [drains.pending, drains.dir]
    by_cases hc : p ∈ cleared
    · have empty : (if p ∈ ids then [] else s.tree.pending p) = [] := by
        split
        · rfl
        · rename_i notMem
          exact spares p hp hc notMem
      rw [empty, if_pos hc, LookupDirectory.collect_clear]
      simp
    · have notMem : p ∉ ids := fun mem => hc (clears p mem)
      rw [if_neg hc, if_neg notMem]
      exact inf.agrees p hp key e

variable [LawfulTree τ]

/-- A replay that visits the producer of a key's newest operation performs that
operation last. -/
theorem Drains.btreeSearch_of_mem (drains : s.Drains s' ids cleared)
    (resolves : s.config.evaluatorPolicy.resolvesConflicts = true)
    (active : s.Active ids) (distinct : DistinctStamps s.tree.allPending) {key : Int}
    (snap : s.tree.Snapshot key) {op : FutureBufferedOp}
    (top : newest s.tree.allPending key = some op) (mem : op.producerId ∈ ids) :
    btreeSearch s'.tree.tree key = !op.isDelete := by
  obtain ⟨slots, htree⟩ := drains.tree
  have own := (Btree.mem_allPending.mp (mem_of_newest top)).2
  have within : ∀ op ∈ ids.flatMap s.tree.pending, op ∈ s.tree.allPending := fun op hop => by
    obtain ⟨p, hp, hop⟩ := List.mem_flatMap.mp hop
    rw [Btree.mem_allPending, Btree.producerId_of_mem hop]
    exact ⟨(active p hp).1, hop⟩
  have nodeOrdered : btreeSearch
      (s.tree.applyNodeOrderedPtfoReplay s.ptfoThreads ids).1.tree key = !op.isDelete := by
    rw [Btree.btreeSearch_applyNodeOrdered active snap distinct, top]
    exact if_pos mem
  have keyOrdered : btreeSearch
      (s.tree.applyKeyOrderedPtfoReplay s.ptfoThreads ids).1.tree key = !op.isDelete := by
    have top' : newest (ids.flatMap s.tree.pending) key = some op :=
      (newest_eq_some_iff ((distinct.at key).mono within)).mpr
        ⟨List.mem_flatMap.mpr ⟨_, mem, own⟩, key_of_newest top, fun op' hop' hk =>
          stamp_le_of_newest top (within op' hop') hk⟩
    rw [Btree.btreeSearch_applyKeyOrdered active distinct, top']
    rfl
  rw [htree, replay]
  cases hpolicy : s.config.evaluatorPolicy
  · simp [hpolicy, EvaluatorPolicy.resolvesConflicts] at resolves
  · exact nodeOrdered
  · exact keyOrdered
  · simp [hpolicy, EvaluatorPolicy.resolvesConflicts] at resolves
  · exact nodeOrdered

/-- A replay does nothing to a key without buffered operations. -/
theorem Drains.btreeSearch_of_none (drains : s.Drains s' ids cleared)
    (resolves : s.config.evaluatorPolicy.resolvesConflicts = true)
    (active : s.Active ids) (distinct : DistinctStamps s.tree.allPending) {key : Int}
    (snap : s.tree.Snapshot key)
    (none : newest s.tree.allPending key = none) :
    btreeSearch s'.tree.tree key = btreeSearch s.tree.tree key := by
  obtain ⟨slots, htree⟩ := drains.tree
  have nodeOrdered : btreeSearch
      (s.tree.applyNodeOrderedPtfoReplay s.ptfoThreads ids).1.tree key =
        btreeSearch s.tree.tree key := by
    rw [Btree.btreeSearch_applyNodeOrdered active snap distinct, none]
  have keyOrdered : btreeSearch
      (s.tree.applyKeyOrderedPtfoReplay s.ptfoThreads ids).1.tree key =
        btreeSearch s.tree.tree key := by
    have none' : newest (ids.flatMap s.tree.pending) key = Option.none := by
      rw [newest_eq_none_iff] at none ⊢
      intro op hop
      obtain ⟨p, hp, hop⟩ := List.mem_flatMap.mp hop
      refine none op (Btree.mem_allPending.mpr ?_)
      rw [Btree.producerId_of_mem hop]
      exact ⟨(active p hp).1, hop⟩
    rw [Btree.btreeSearch_applyKeyOrdered active distinct, none']
    rfl
  rw [htree, replay]
  cases hpolicy : s.config.evaluatorPolicy
  · simp [hpolicy, EvaluatorPolicy.resolvesConflicts] at resolves
  · exact nodeOrdered
  · exact keyOrdered
  · simp [hpolicy, EvaluatorPolicy.resolvesConflicts] at resolves
  · exact nodeOrdered

/-- A key in the tree stays there while only inserts are buffered on it. -/
theorem Drains.btreeSearch_of_inserts (drains : s.Drains s' ids cleared)
    (resolves : s.config.evaluatorPolicy.resolvesConflicts = true)
    (active : s.Active ids) {key : Int}
    (inserts : ∀ op ∈ s.tree.allPending, op.key = key → op.isDelete = false)
    (present : btreeSearch s.tree.tree key = true) : btreeSearch s'.tree.tree key = true := by
  obtain ⟨slots, htree⟩ := drains.tree
  have performed : ∀ ops : List FutureBufferedOp, (∀ op ∈ ops, op ∈ s.tree.allPending) →
      applyAll (btreeSearch s.tree.tree) ops key = true := fun ops within =>
    applyAll_of_agree present fun op mem hk => by
      rw [val_op, inserts op (within op mem) hk]
      rfl
  have nodeOrdered : btreeSearch
      (s.tree.applyNodeOrderedPtfoReplay s.ptfoThreads ids).1.tree key = true := by
    rw [Btree.search_applyNodeOrdered]
    exact performed _ fun op mem => Btree.nodeOrderedOps_sub active mem
  have keyOrdered : btreeSearch
      (s.tree.applyKeyOrderedPtfoReplay s.ptfoThreads ids).1.tree key = true := by
    rw [Btree.search_applyKeyOrdered]
    exact performed _ fun op mem => Btree.keyOrderedOps_sub active mem
  rw [htree, replay]
  cases hpolicy : s.config.evaluatorPolicy
  · simp [hpolicy, EvaluatorPolicy.resolvesConflicts] at resolves
  · exact nodeOrdered
  · exact keyOrdered
  · simp [hpolicy, EvaluatorPolicy.resolvesConflicts] at resolves
  · exact nodeOrdered

/-- The set of keys after a drain: where a key's newest operation is replayed, its
value is in the tree, and only the operations left behind can hide it. -/
theorem view_drains (drains : s.Drains s' ids cleared)
    (resolves : s.config.evaluatorPolicy.resolvesConflicts = true)
    (active : s.Active ids) (distinct : DistinctStamps s.tree.allPending) {key : Int}
    (snap : s.tree.Snapshot key) :
    s'.view key =
      match newest s.tree.allPending key with
      | some op =>
          if op.producerId ∈ ids then resolve (!op.isDelete) (newest s'.tree.allPending key)
          else s.view key
      | none => s.view key := by
  have within : ∀ op ∈ s'.tree.allPending, op ∈ s.tree.allPending := fun op mem =>
    (drains.mem_allPending.mp mem).1
  rcases top : newest s.tree.allPending key with _ | op
  · have none' : newest s'.tree.allPending key = none := by
      rw [newest_eq_none_iff] at top ⊢
      exact fun op mem => top op (within op mem)
    rw [view, view, top, none', drains.btreeSearch_of_none resolves active distinct snap top]
  · simp only
    split
    · rename_i mem
      rw [view, drains.btreeSearch_of_mem resolves active distinct snap top mem]
    · rename_i notMem
      have top' : newest s'.tree.allPending key = some op :=
        (newest_eq_some_iff ((distinct.at key).mono within)).mpr
          ⟨drains.mem_allPending.mpr ⟨mem_of_newest top, notMem⟩, key_of_newest top,
            fun op' mem' hk => stamp_le_of_newest top (within op' mem') hk⟩
      rw [view, view, top, top']
      rfl

/-- A drain of every producer with buffered operations puts the set of keys into
the tree. -/
theorem view_drains_all (drains : s.Drains s' ids cleared)
    (resolves : s.config.evaluatorPolicy.resolvesConflicts = true)
    (active : s.Active ids) (distinct : DistinctStamps s.tree.allPending) {key : Int}
    (snap : s.tree.Snapshot key)
    (all : ∀ p < s.tree.nThreads, p ∉ ids → s.tree.pending p = []) :
    s'.tree.allPending = [] ∧ s'.view key = s.view key := by
  have empty : s'.tree.allPending = [] := by
    rw [List.eq_nil_iff_forall_not_mem]
    intro op mem
    obtain ⟨mem, notMem⟩ := drains.mem_allPending.mp mem
    obtain ⟨hp, mem⟩ := Btree.mem_allPending.mp mem
    rw [all _ hp notMem] at mem
    exact List.not_mem_nil mem
  refine ⟨empty, ?_⟩
  rw [view_drains drains resolves active distinct snap, empty]
  rcases top : newest s.tree.allPending key with _ | op
  · rfl
  · simp only
    split
    · rw [view, top]
      rfl
    · rfl

end Drains

end View

end Impl

end F3Tree
