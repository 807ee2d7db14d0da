import F3Tree.Calls

/-!
# Producers with keys of their own

F3-K performs one chain after another and does not look for conflicts between them.  When
every key has one producer there are none: at each point of a run the wrapper is the set
of keys that the issued operations leave, and a drain performs what is buffered once and
leaves in the tree what the deterministic replay of the same chains leaves there
(`contains_run_ownKeys`).
-/

namespace F3Tree

open LastWriter

/-- The policies that drain the producers one after another. -/
def EvaluatorPolicy.partitionsByKey : EvaluatorPolicy → Bool
  | .kF3K | .kLegacyKeyPartitioned => true
  | .kF3N | .kLegacyNodePartitioned | .kDeterministicReplay => false

/-- No two producers write one key. -/
def OwnKeys (ops : List Issue) : Prop :=
  ∀ op ∈ ops, ∀ op' ∈ ops, op.key = op'.key → op.producerId = op'.producerId

instance (ops : List Issue) : Decidable (OwnKeys ops) :=
  inferInstanceAs (Decidable (∀ op ∈ ops, ∀ op' ∈ ops,
    op.key = op'.key → op.producerId = op'.producerId))

/-- The call that buffered an operation. -/
def FutureBufferedOp.issue (op : FutureBufferedOp) : Issue := ⟨op.key, op.producerId, op.isDelete⟩

namespace Impl

variable {τ : Type} [GlobalTree τ]

/-- What is buffered was issued. -/
def Buffers (s : Impl τ) (ops : List Issue) : Prop := ∀ op ∈ s.tree.allPending, op.issue ∈ ops

/-- The same chains and tree under the deterministic replay. -/
def replayedInOrder (s : Impl τ) : Impl τ :=
  { s with config := { s.config with evaluatorPolicy := .kDeterministicReplay } }

section Drain

variable {s s' : Impl τ} {ids cleared : List Nat} {ops : List Issue}

omit [GlobalTree τ] in
/-- The producers with accounted operations have all that is buffered. -/
theorem Accounted.flatMap_pending_perm (acc : s.Accounted)
    {order : List Nat} (perm : order.Perm s.pendingProducers) :
    (order.flatMap s.tree.pending).Perm s.tree.allPending := by
  refine (perm.flatMap_right _).trans ?_
  have all : ∀ ids : List Nat, (∀ p ∈ ids, p < s.tree.nThreads) →
      (ids.filter fun p => (s.ptfoThreads.get p).entryCount > 0).flatMap s.tree.pending =
        ids.flatMap s.tree.pending := by
    intro ids
    induction ids with
    | nil => exact fun _ => rfl
    | cons p ids ih =>
        intro within
        obtain ⟨hp, within⟩ := List.forall_mem_cons.mp within
        rw [List.filter_cons, List.flatMap_cons, ← ih within]
        split
        · rw [List.flatMap_cons]
        · rename_i idle
          rw [decide_eq_true_iff, acc.entryCount p hp, gt_iff_lt, Nat.not_lt, Nat.le_zero] at idle
          rw [List.length_eq_zero_iff.mp idle, List.nil_append]
  rw [pendingProducers, Btree.allPending, acc.threads, all _ fun p mem => List.mem_range.mp mem]

/-- Under F3-K a full drain performs every buffered operation once. -/
theorem Accounted.performs_drainPending (acc : s.Accounted)
    (policy : s.config.evaluatorPolicy.partitionsByKey = true) (numa : Int) :
    ∃ performed : List FutureBufferedOp, performed.Perm s.tree.allPending ∧
      (s.drainPending numa).tree.tree = performed.foldl Btree.applyBufferedOp s.tree.tree := by
  obtain ⟨cleared, drains, -⟩ := acc.drains_drainPending numa
  have active := active_pendingProducers acc.threads
  obtain ⟨slots, tree⟩ := drains.tree
  obtain ⟨order, perm, hreplay⟩ :=
    s.tree.applyKeyPartitioned_eq s.ptfoThreads s.pendingProducers slots
  have nodup : order.Nodup := perm.nodup_iff.mpr (List.nodup_range.filter _)
  have partitioned : (s.tree.applyKeyPartitionedPtfoReplay s.ptfoThreads s.pendingProducers
      slots).1.tree = (order.flatMap s.tree.pending).foldl Btree.applyBufferedOp s.tree.tree := by
    rw [hreplay, Btree.tree_drainProducers s.ptfoThreads order s.tree {}
      (fun p mem => active p (perm.mem_iff.mp mem)) nodup]
  refine ⟨_, acc.flatMap_pending_perm perm, ?_⟩
  rw [tree, replay]
  cases hpolicy : s.config.evaluatorPolicy
  · exact partitioned
  · simp [hpolicy, EvaluatorPolicy.partitionsByKey] at policy
  · simp [hpolicy, EvaluatorPolicy.partitionsByKey] at policy
  · exact partitioned
  · simp [hpolicy, EvaluatorPolicy.partitionsByKey] at policy

omit [GlobalTree τ] in
/-- One producer has everything that is buffered on a key. -/
theorem Buffers.single (buffers : s.Buffers ops) (own : OwnKeys ops) {p q : Nat} {key : Int}
    (hp : p < s.tree.nThreads) (hq : q < s.tree.nThreads)
    (left : ∃ op ∈ s.tree.pending p, op.key = key)
    (right : ∃ op ∈ s.tree.pending q, op.key = key) : p = q := by
  obtain ⟨op, mem, rfl⟩ := left
  obtain ⟨op', mem', hkey⟩ := right
  have issued : ∀ {p} {op : FutureBufferedOp}, p < s.tree.nThreads → op ∈ s.tree.pending p →
      op.issue ∈ ops ∧ op.producerId = p := fun hp mem => by
    have hid := Btree.producerId_of_mem mem
    exact ⟨buffers _ (Btree.mem_allPending.mpr (hid ▸ ⟨hp, mem⟩)), hid⟩
  obtain ⟨hop, rfl⟩ := issued hp mem
  obtain ⟨hop', rfl⟩ := issued hq mem'
  exact own _ hop _ hop' hkey.symm

variable [LawfulTree τ]

/-- A full drain under F3-K keeps the set of keys. -/
theorem Accounted.view_drainPending (acc : s.Accounted)
    (policy : s.config.evaluatorPolicy.partitionsByKey = true) (buffers : s.Buffers ops)
    (own : OwnKeys ops) (numa : Int) :
    (s.drainPending numa).tree.allPending = [] ∧ (s.drainPending numa).view = s.view := by
  obtain ⟨cleared, drains, -⟩ := acc.drains_drainPending numa
  have active := active_pendingProducers acc.threads
  have empty : (s.drainPending numa).tree.allPending = [] := by
    rw [List.eq_nil_iff_forall_not_mem]
    intro op mem
    obtain ⟨mem, notMem⟩ := drains.mem_allPending.mp mem
    obtain ⟨hp, mem⟩ := Btree.mem_allPending.mp mem
    rw [acc.mem_pendingProducers hp notMem] at mem
    exact List.not_mem_nil mem
  refine ⟨empty, funext fun key => ?_⟩
  obtain ⟨slots, tree⟩ := drains.tree
  have nodup : s.pendingProducers.Nodup := List.nodup_range.filter _
  have newest_eq : newest (s.pendingProducers.flatMap s.tree.pending) key =
      newest s.tree.allPending key :=
    (newest_congr (acc.distinct.at key) fun op _ =>
      (acc.flatMap_pending_perm (.refl _)).mem_iff.symm).symm
  have partitioned : btreeSearch (s.tree.applyKeyPartitionedPtfoReplay s.ptfoThreads
      s.pendingProducers slots).1.tree key =
        resolve (btreeSearch s.tree.tree key) (newest s.tree.allPending key) := by
    rw [← newest_eq]
    refine Btree.btreeSearch_applyKeyPartitioned active nodup slots ?_ fun p mem =>
      acc.increasing p (active p mem).1
    exact fun p mem q mem' => buffers.single own (active p mem).1 (active q mem').1
  rw [view, empty, tree, replay, view, newest_nil, resolve_none]
  cases hpolicy : s.config.evaluatorPolicy
  · exact partitioned
  · simp [hpolicy, EvaluatorPolicy.partitionsByKey] at policy
  · simp [hpolicy, EvaluatorPolicy.partitionsByKey] at policy
  · exact partitioned
  · simp [hpolicy, EvaluatorPolicy.partitionsByKey] at policy

end Drain

/-! ## Runs -/

section Run

variable [LawfulTree τ] {s : Impl τ} {config : RuntimeConfig} {keys : Nat → Finset Int}
  {members : Int → Bool} {ops : List Issue}

/-- A full drain under F3-K puts the whole set into the tree. -/
theorem Represents.drainPending_ownKeys (rep : s.Represents config keys members)
    (policy : config.evaluatorPolicy.partitionsByKey = true) (buffers : s.Buffers ops)
    (own : OwnKeys ops) (numa : Int) :
    (s.drainPending numa).Represents config keys members ∧
      (s.drainPending numa).tree.allPending = [] := by
  obtain ⟨cleared, drains, clears⟩ := rep.accounted.drains_drainPending numa
  obtain ⟨empty, view⟩ :=
    rep.accounted.view_drainPending (rep.config_eq.symm ▸ policy) buffers own numa
  exact ⟨⟨drains.config.trans rep.config_eq, drains.nThreads.trans rep.nThreads_eq,
    rep.accounted.drains drains, rep.informed.drains drains clears fun p hp _ notMem =>
      rep.accounted.mem_pendingProducers hp notMem, view.trans rep.view_eq⟩, empty⟩

omit [LawfulTree τ] in
theorem Represents.replayedInOrder (rep : s.Represents config keys members) :
    s.replayedInOrder.Represents { config with evaluatorPolicy := .kDeterministicReplay } keys
      members := by
  obtain ⟨rfl, threads, acc, inf, view⟩ := rep
  exact ⟨rfl, threads, ⟨⟨acc.threads, acc.total, acc.increasing, acc.distinct, acc.fresh⟩,
    acc.entryCount⟩, ⟨inf.roomy, inf.agrees⟩, view⟩

/-- One call: the set of keys, and what is buffered of it. -/
theorem Represents.call_ownKeys (rep : s.Represents config keys members)
    (policy : config.evaluatorPolicy.partitionsByKey = true) (buffers : s.Buffers ops)
    (own : OwnKeys ops) (c : Call)
    (within : ∀ op, c.issue config.producerThreads = some op → op.key ∈ keys op.producerId) :
    (s.call c).Represents config keys (perform members (c.issue config.producerThreads)) ∧
      (s.call c).Buffers (ops ++ (c.issue config.producerThreads).toList) := by
  have hsize : s.ptfoThreads.size = config.producerThreads :=
    rep.accounted.threads.trans rep.nThreads_eq
  rcases call_cases s c with ⟨op, numa, hissue, hp, hcall⟩ | ⟨numa, rfl, hcall⟩ |
    ⟨hissue, hcall⟩
  · rw [hsize] at hissue hp
    rw [hcall, hissue]
    refine ⟨rep.enqueued hp (within op hissue) _ _, fun o mem => ?_⟩
    rw [mem_allPending_enqueued (rep.nThreads_eq.symm ▸ hp), List.mem_append,
      List.mem_singleton] at mem
    rw [Option.toList_some, List.mem_append, List.mem_singleton]
    rcases mem with mem | rfl
    · exact Or.inl (buffers o mem)
    · exact Or.inr rfl
  · obtain ⟨rep', empty⟩ := rep.drainPending_ownKeys policy buffers own numa
    rw [hcall]
    refine ⟨rep', fun o mem => ?_⟩
    rw [empty] at mem
    exact absurd mem List.not_mem_nil
  · rw [hsize] at hissue
    rw [hcall, hissue]
    exact ⟨rep, fun o mem => List.mem_append_left _ (buffers o mem)⟩

/-- A run of producers with keys of their own performs its operations on the set. -/
theorem represents_run_ownKeys (valid : validateRuntimeConfig config = .ok ())
    (policy : config.evaluatorPolicy.partitionsByKey = true)
    (room : ∀ p < config.producerThreads, (keys p).card ≤ config.dirCap) (tree : τ)
    (resume nodes : Nat) (calls : List Call)
    (within : ∀ op ∈ issues config.producerThreads calls, op.key ∈ keys op.producerId)
    (own : OwnKeys (issues config.producerThreads calls)) :
    ((init config tree resume nodes).run calls).Represents config keys (fun key =>
        lastKind (btreeSearch tree key) (issues config.producerThreads calls) key) ∧
      ((init config tree resume nodes).run calls).Buffers
        (issues config.producerThreads calls) := by
  induction calls using List.reverseRecOn with
  | nil =>
      refine ⟨represents_init valid room tree resume nodes, fun op mem => ?_⟩
      have mem : op ∈ (init config tree resume nodes).tree.allPending := mem
      rw [allPending_init] at mem
      exact absurd mem List.not_mem_nil
  | append_singleton calls c ih =>
      have split : issues config.producerThreads (calls ++ [c]) =
          issues config.producerThreads calls ++ (c.issue config.producerThreads).toList := by
        rw [issues, List.filterMap_append, ← issues]
        rcases hissue : c.issue config.producerThreads with _ | op <;> simp [hissue]
      rw [split] at within own
      have sub : ∀ op ∈ issues config.producerThreads calls,
          op ∈ issues config.producerThreads calls ++
            (c.issue config.producerThreads).toList := fun op mem => List.mem_append_left _ mem
      have earlier : OwnKeys (issues config.producerThreads calls) := fun op mem op' mem' =>
        own op (sub op mem) op' (sub op' mem')
      obtain ⟨rep, buffers⟩ := ih (fun op mem => within op (sub op mem)) earlier
      rw [lastKind_concat, split, run, List.foldl_append, List.foldl_cons, List.foldl_nil, ← run]
      refine rep.call_ownKeys policy buffers earlier c fun op hissue => ?_
      exact within op (List.mem_append_right _ (by simp [hissue]))

end Run

/-- Where every key has one producer and every producer's tables hold all of its keys, each
point of each run is the set of keys that the issued operations leave.  A drain
performs every buffered operation once, and moves the same set into the tree as the
deterministic replay would. -/
theorem contains_run_ownKeys [LawfulTree τ] {config : RuntimeConfig}
    (valid : validateRuntimeConfig config = .ok ())
    (policy : config.evaluatorPolicy.partitionsByKey = true) (tree : τ) (resume nodes : Nat)
    (calls : List Call) (own : OwnKeys (issues config.producerThreads calls))
    (ample : ∀ p < config.producerThreads,
      (keysOf (issues config.producerThreads calls) p).card ≤ config.dirCap)
    {before : List Call} (point : before <+: calls) :
    let s := (init config tree resume nodes).run before
    (∀ key, s.contains key =
      lastKind (btreeSearch tree key) (issues config.producerThreads before) key) ∧
    ∀ numa,
      (∃ performed : List FutureBufferedOp, performed.Perm s.tree.allPending ∧
        (s.drainPending numa).tree.tree = performed.foldl Btree.applyBufferedOp s.tree.tree) ∧
      (s.drainPending numa).tree.allPending = [] ∧
      btreeSearch (s.drainPending numa).tree.tree =
        btreeSearch (s.replayedInOrder.drainPending numa).tree.tree := by
  intro s
  obtain ⟨after, rfl⟩ := point
  have split : issues config.producerThreads (before ++ after) =
      issues config.producerThreads before ++ issues config.producerThreads after :=
    List.filterMap_append
  have sub : ∀ op ∈ issues config.producerThreads before,
      op ∈ issues config.producerThreads (before ++ after) := fun op mem =>
    split ▸ List.mem_append_left _ mem
  have earlier : OwnKeys (issues config.producerThreads before) := fun op mem op' mem' =>
    own op (sub op mem) op' (sub op' mem')
  obtain ⟨rep, buffers⟩ := represents_run_ownKeys valid policy ample tree resume nodes before
    (fun op mem => mem_keysOf (sub op mem)) earlier
  refine ⟨rep.contains_eq, fun numa => ⟨?_, ?_⟩⟩
  · exact rep.accounted.performs_drainPending (rep.config_eq.symm ▸ policy) numa
  obtain ⟨drained, empty⟩ := rep.drainPending_ownKeys policy buffers earlier numa
  obtain ⟨inOrder, empty'⟩ := rep.replayedInOrder.drainPending rfl numa
  refine ⟨empty, funext fun key => ?_⟩
  exact (drained.globalContains_eq empty key).trans (inOrder.globalContains_eq empty' key).symm

/-- Two producers, each with a key of its own. -/
theorem contains_run_ownKeys_two :
    let config : RuntimeConfig :=
      { producerThreads := 2, hashCapacity := 4, evaluatorPolicy := .kF3K }
    let calls := [Call.bufferedInsert 7 0 0, .bufferedInsert 8 1 0, .eraseBuffered 7 0 0]
    let s := (init config ({7} : Finset Int) 1 1).run calls
    s.contains 7 = false ∧ s.contains 8 = true ∧ (s.drainPending 0).tree.allPending = [] := by
  intro config calls s
  have valid : validateRuntimeConfig config = .ok () := rfl
  obtain ⟨reads, drains⟩ := contains_run_ownKeys valid rfl ({7} : Finset Int) 1 1 calls
    (by decide) (by decide) (List.prefix_refl calls)
  exact ⟨(reads 7).trans (by decide), (reads 8).trans (by decide), (drains 0).2.1⟩

end Impl

end F3Tree
