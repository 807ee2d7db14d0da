import F3Tree.Calls

/-!
# Reopening a pool

With a persistent pool the chains and the global tree survive the process, the
hashtables and directories do not.  The constructor rebuilds them from the chains
(`recover`) and the wrapper starts with all its counters at zero and a sequence
counter above every recovered number (`Impl.reopen`).

The pool is what a process leaves behind between two calls; its chains have
increasing sequence numbers and no number twice, which is what `Accounted` says
of them (`Pool.ofImpl`).
-/

namespace F3Tree

open LastWriter

/-- The durable state, as far as the buffered side goes. -/
structure Pool (τ : Type) : Type where
  nThreads : Nat
  tree : τ
  localFut : Nat → LocalFut
  seqCounter : Nat

namespace Pool

variable {τ : Type}

/-- What a process that stops in state `s` leaves in the pool.  The durable counter
is the one the process was opened with. -/
def ofImpl (s : Impl τ) (seqCounter : Nat) : Pool τ where
  nThreads := s.tree.nThreads
  tree := s.tree.tree
  localFut := s.tree.localFut
  seqCounter := seqCounter

/-- The entries of a chain as the recovery pass meets them. -/
def chainOps (pool : Pool τ) (tid : Nat) : List FutureBufferedOp :=
  (pool.localFut tid).next.flatMap fun node => node.ops tid

/-- `max_seq` after the recovery pass. -/
def maxSeq (pool : Pool τ) : Nat :=
  ((List.range pool.nThreads).flatMap pool.chainOps).foldl
    (fun maxSeq op => if op.sequence > maxSeq then op.sequence else maxSeq) 0

/-- `resume_seq`, which is also what `seq_counter_resume` then returns. -/
def resumeSeq (pool : Pool τ) : Nat :=
  (if pool.seqCounter > pool.maxSeq then pool.seqCounter else pool.maxSeq) + 1000000

/-- The `btree` constructor on an existing pool: the durable chains and fresh tables
rebuilt from them. -/
def recover (pool : Pool τ) (hashCapacity : Int) : Btree τ :=
  let fresh := Btree.mk' pool.nThreads hashCapacity pool.tree
  { nThreads := pool.nThreads
    tree := pool.tree
    localFut := fun tid =>
      { pool.localFut tid with entryCount := (pool.chainOps tid).length }
    hash := fun tid =>
      (pool.chainOps tid).foldl (fun t op => t.insert op.key tid) (fresh.hash tid)
    futureLookupDirectory := fun tid =>
      (pool.chainOps tid).foldl
        (fun dir op => dir.recover op.key tid op.isDelete op.sequence)
        (fresh.futureLookupDirectory tid) }

/-- The wrapper's constructor on an existing pool. -/
def reopen (pool : Pool τ) (config : RuntimeConfig) (topologyNodes : Nat) :
    Except String (Impl τ) :=
  if pool.nThreads ≠ config.producerThreads then
    .error ("F3_PMDK: pool n_threads mismatch with RuntimeConfig " ++
      "(resize on reopen is not supported)")
  else
    .ok { Impl.init config pool.tree pool.resumeSeq topologyNodes with
      tree := pool.recover (castInt config.hashCapacity) }

/-- The recovered operations of producer `tid`, oldest first. -/
def recovered (pool : Pool τ) (tid : Nat) : List FutureBufferedOp :=
  (pool.localFut tid).log.map fun e => ⟨e.key, e.isDelete, e.sequence, tid⟩

/-- The recovered operations of all producers. -/
def allRecovered (pool : Pool τ) : List FutureBufferedOp :=
  (List.range pool.nThreads).flatMap pool.recovered

/-- Chains as producer calls build them. -/
structure Sound (pool : Pool τ) : Prop where
  increasing : ∀ p < pool.nThreads,
    (pool.recovered p).Pairwise fun op op' => op.sequence < op'.sequence
  distinct : DistinctStamps pool.allRecovered

/-- Every state between calls leaves a sound pool. -/
theorem sound_ofImpl {s : Impl τ} (acc : s.Accounted) (seqCounter : Nat) :
    (ofImpl s seqCounter).Sound :=
  ⟨acc.increasing, acc.distinct⟩

/-! ## The rebuilt tables -/

theorem pending_recover (pool : Pool τ) (hashCapacity : Int) :
    (pool.recover hashCapacity).pending = pool.recovered := rfl

theorem mem_chainOps {pool : Pool τ} {tid : Nat} {op : FutureBufferedOp} :
    op ∈ pool.chainOps tid ↔ op ∈ pool.recovered tid :=
  Btree.mem_chainOps (b := pool.recover 0)

theorem mem_allRecovered {pool : Pool τ} {op : FutureBufferedOp} :
    op ∈ pool.allRecovered ↔
      op.producerId < pool.nThreads ∧ op ∈ pool.recovered op.producerId :=
  Btree.mem_allPending (b := pool.recover 0)

theorem producerId_of_mem {pool : Pool τ} {tid : Nat} {op : FutureBufferedOp}
    (mem : op ∈ pool.recovered tid) : op.producerId = tid :=
  Btree.producerId_of_mem (b := pool.recover 0) mem

theorem le_maxSeq {pool : Pool τ} {op : FutureBufferedOp} (mem : op ∈ pool.allRecovered) :
    op.sequence ≤ pool.maxSeq := by
  have bound : ∀ (ops : List FutureBufferedOp) (m : Nat),
      m ≤ ops.foldl (fun maxSeq op => if op.sequence > maxSeq then op.sequence else maxSeq) m ∧
      ∀ op ∈ ops, op.sequence ≤
        ops.foldl (fun maxSeq op => if op.sequence > maxSeq then op.sequence else maxSeq) m := by
    intro ops
    induction ops with
    | nil => exact fun m => ⟨Nat.le_refl _, by simp⟩
    | cons op ops ih =>
        intro m
        obtain ⟨grows, covers⟩ := ih (if op.sequence > m then op.sequence else m)
        rw [List.foldl_cons]
        refine ⟨le_trans (by split <;> omega) grows, fun op' mem' => ?_⟩
        rcases List.mem_cons.mp mem' with rfl | mem'
        · exact le_trans (by split <;> omega) grows
        · exact covers op' mem'
  refine (bound _ 0).2 op ?_
  obtain ⟨tid, htid, mem⟩ := List.mem_flatMap.mp mem
  exact List.mem_flatMap.mpr ⟨tid, htid, mem_chainOps.mpr mem⟩

theorem lt_resumeSeq {pool : Pool τ} {op : FutureBufferedOp} (mem : op ∈ pool.allRecovered) :
    op.sequence < pool.resumeSeq := by
  have := le_maxSeq mem
  rw [resumeSeq]
  split <;> omega

/-- A hashtable filled from a list of operations holds all of their keys. -/
theorem serves_foldl_insert {keys : Finset Int} {tid : Nat} :
    ∀ (ops : List FutureBufferedOp) (t : HashMapTable), t.Serves keys tid →
      (∀ op ∈ ops, op.key ∈ keys) →
      (ops.foldl (fun t op => t.insert op.key tid) t).Serves keys tid ∧
        ∀ key, ¬ t.Absent key ∨ (∃ op ∈ ops, op.key = key) →
          ¬ (ops.foldl (fun t op => t.insert op.key tid) t).Absent key
  | [], t, serves, _ => ⟨serves, fun key h => h.resolve_right (by simp)⟩
  | op :: ops, t, serves, within => by
      obtain ⟨serves', kept⟩ := serves.insert (within op List.mem_cons_self)
      obtain ⟨serves'', kept'⟩ := serves_foldl_insert ops _ serves' fun op' mem =>
        within op' (List.mem_cons_of_mem _ mem)
      refine ⟨serves'', fun key h => kept' key ?_⟩
      rcases h with present | ⟨op', mem, rfl⟩
      · exact Or.inl (kept key (Or.inr present))
      · rcases List.mem_cons.mp mem with rfl | mem
        · exact Or.inl (kept _ (Or.inl rfl))
        · exact Or.inr ⟨op', mem, rfl⟩

/-- Recovering one more operation of producer `tid`. -/
theorem records_recover {dir : LookupDirectory} {keys : Finset Int} {tid : Nat}
    {ops : List FutureBufferedOp} (serves : dir.Serves keys) {op : FutureBufferedOp}
    (hop : op.producerId = tid) (hkey : op.key ∈ keys) {key : Int}
    (records : Btree.Records dir ops key) :
    Btree.Records (dir.recover op.key tid op.isDelete op.sequence) (ops ++ [op]) key := by
  have room := serves.find_ne_none hkey
  have hentry : (⟨op.key, tid, stateOf op.isDelete, op.sequence⟩ : FutureLookupEntry) =
      op.lookupEntry := by
    rw [FutureBufferedOp.lookupEntry, hop]
  intro e
  rcases LookupDirectory.recover_eq serves.wf room tid op.isDelete op.sequence with
    ⟨⟨e₀, mem₀, hk₀, hle⟩, hdir⟩ | ⟨older, hdir⟩
  · -- An entry at least as new stays.
    rw [hdir, records e, newest_append_singleton, key_op]
    by_cases hk : op.key = key
    · obtain ⟨op₀, top₀, rfl⟩ := (records e₀).mp ⟨mem₀, hk₀.trans hk⟩
      have hkeep : ¬ Write.stamp op₀ < Write.stamp op := Nat.not_lt.mpr hle
      rw [if_pos hk, top₀]
      simp only [if_neg hkeep]
    · rw [if_neg hk]
  · rw [hdir, LookupDirectory.mem_collect_record serves.wf room, hentry]
    by_cases hk : op.key = key
    · have top : newest (ops ++ [op]) key = some op := by
        rw [newest_append_singleton, key_op, if_pos hk]
        rcases top₀ : newest ops key with _ | op₀
        · rfl
        · have entry := (records op₀.lookupEntry).mpr ⟨op₀, top₀, rfl⟩
          exact if_pos (older _ entry.1 (entry.2.trans hk.symm))
      rw [top]
      constructor
      · rintro ⟨rfl | ⟨-, hne⟩, hke⟩
        · exact ⟨op, rfl, rfl⟩
        · exact absurd (hke.trans hk.symm) hne
      · rintro ⟨op', hop', rfl⟩
        cases hop'
        exact ⟨Or.inl rfl, hk⟩
    · rw [newest_append_singleton, key_op, if_neg hk, ← records e]
      constructor
      · rintro ⟨rfl | ⟨mem, -⟩, hke⟩
        · exact absurd hke hk
        · exact ⟨mem, hke⟩
      · rintro ⟨mem, hke⟩
        exact ⟨Or.inr ⟨mem, fun h => hk (h.symm.trans hke)⟩, hke⟩

/-- A directory rebuilt from a list of operations records the list. -/
theorem records_foldl_recover {keys : Finset Int} {tid : Nat} :
    ∀ (ops before : List FutureBufferedOp) (dir : LookupDirectory), dir.Serves keys →
      (∀ op ∈ ops, op.producerId = tid ∧ op.key ∈ keys) →
      (∀ key, Btree.Records dir before key) →
      let rebuilt :=
        ops.foldl (fun dir op => dir.recover op.key tid op.isDelete op.sequence) dir
      rebuilt.Serves keys ∧ ∀ key, Btree.Records rebuilt (before ++ ops) key
  | [], before, dir, serves, _, records => by
      rw [List.append_nil]
      exact ⟨serves, records⟩
  | op :: ops, before, dir, serves, within, records => by
      obtain ⟨hop, hkey⟩ := within op List.mem_cons_self
      have next := records_foldl_recover ops (before ++ [op]) _
        (serves.recover hkey tid op.isDelete op.sequence)
        (fun op' mem => within op' (List.mem_cons_of_mem _ mem))
        fun key => records_recover serves hop hkey (records key)
      rw [List.append_assoc, List.singleton_append] at next
      exact next

/-- The rebuilt tables have room, filter nothing, and record the chains. -/
theorem recover_spec {pool : Pool τ} (sound : pool.Sound) {hashCapacity : Int}
    {keys : Nat → Finset Int} {p : Nat} (hp : p < pool.nThreads)
    (room : (keys p).card ≤ if hashCapacity > 0 then hashCapacity.toNat else 1)
    (within : ∀ op ∈ pool.recovered p, op.key ∈ keys p) :
    (pool.recover hashCapacity).Roomy (keys p) p ∧
      ∀ key, (pool.recover hashCapacity).AgreesAt p key := by
  have fresh := Btree.roomy_mk' pool.nThreads hashCapacity pool.tree room p
  have ops : ∀ op ∈ pool.chainOps p, op.producerId = p ∧ op.key ∈ keys p := fun op mem =>
    ⟨producerId_of_mem (mem_chainOps.mp mem), within op (mem_chainOps.mp mem)⟩
  obtain ⟨hash, present⟩ := serves_foldl_insert (pool.chainOps p) _ fresh.hash
    fun op mem => (ops op mem).2
  have empty : ∀ key, Btree.Records
      ((Btree.mk' pool.nThreads hashCapacity pool.tree).futureLookupDirectory p) [] key := by
    intro key e
    simp [Btree.mk', LookupDirectory.collect_empty]
  obtain ⟨dir, records⟩ := records_foldl_recover (pool.chainOps p) [] _ fresh.dir ops empty
  refine ⟨⟨hash, fun op mem => ?_, dir⟩, fun key e => ?_⟩
  · exact present op.key (Or.inr ⟨op, mem_chainOps.mpr mem, rfl⟩)
  · have distinct : DistinctAt (pool.recovered p) key :=
      (sound.distinct.at key).mono fun op mem =>
        mem_allRecovered.mpr (producerId_of_mem mem ▸ ⟨hp, mem⟩)
    have same : newest (pool.chainOps p) key = newest (pool.recovered p) key :=
      (newest_congr distinct fun op _ => mem_chainOps.symm).symm
    have := records key e
    rw [List.nil_append, same] at this
    exact this

end Pool

end F3Tree
