import F3Tree.Lookups
import F3Tree.Reopen

/-!
# What recovery rebuilds

The live path overwrites a directory slot with each operation on its key, in call order.
The recovery pass meets the same operations newest node first and oldest entry first, and
keeps the highest sequence number.  As numbers rise along a chain, and every process
numbers on from above what it recovered, both traversals leave the newest operation on
each key, over any number of processes and whatever they drained in between
(`reopened_rebuilt`).
-/

namespace F3Tree

open LastWriter

namespace Btree

variable {τ : Type} {b : Btree τ} {keys : Nat → Finset Int}

/-- The directory that the live path builds from operations of producer `tid`, in call
order. -/
def recordAll (tid : Nat) (dir : LookupDirectory) (ops : List FutureBufferedOp) :
    LookupDirectory :=
  ops.foldl (fun dir op => dir.record op.key tid op.isDelete op.sequence) dir

/-- Recording operations in the order of their numbers records the newest on each key. -/
theorem records_recordAll {ks : Finset Int} {tid : Nat} {dir : LookupDirectory}
    (serves : dir.Serves ks) (empty : dir.collect = []) (ops : List FutureBufferedOp)
    (within : ∀ op ∈ ops, op.producerId = tid ∧ op.key ∈ ks)
    (increasing : ops.Pairwise fun op op' => op.sequence < op'.sequence) :
    (recordAll tid dir ops).Serves ks ∧ ∀ key, Records (recordAll tid dir ops) ops key := by
  induction ops using List.reverseRecOn with
  | nil =>
      refine ⟨serves, fun key e => ?_⟩
      rw [recordAll, List.foldl_nil, empty]
      simp
  | append_singleton ops op ih =>
      obtain ⟨before, -, above⟩ := List.pairwise_append.mp increasing
      obtain ⟨serves', records⟩ := ih (fun o mem => within o (List.mem_append_left _ mem)) before
      obtain ⟨hop, hkey⟩ := within op (List.mem_append_right _ (List.mem_singleton.mpr rfl))
      have room := serves'.find_ne_none hkey
      have step : recordAll tid dir (ops ++ [op]) =
          (recordAll tid dir ops).record op.key tid op.isDelete op.sequence := by
        rw [recordAll, List.foldl_concat]
        rfl
      have hentry : (⟨op.key, tid, stateOf op.isDelete, op.sequence⟩ : FutureLookupEntry) =
          op.lookupEntry := by
        rw [FutureBufferedOp.lookupEntry, hop]
      rw [step]
      refine ⟨serves'.record hkey tid op.isDelete op.sequence, fun key e => ?_⟩
      have newer : ∀ o ∈ ops, Write.stamp o < Write.stamp op := fun o mem =>
        above o mem op (List.mem_singleton.mpr rfl)
      rw [LookupDirectory.mem_collect_record serves'.wf room, hentry, newest_concat newer, key_op]
      by_cases hk : op.key = key
      · rw [if_pos hk]
        constructor
        · intro h
          rcases h with ⟨rfl | ⟨-, hne⟩, hke⟩
          · exact ⟨op, rfl, rfl⟩
          · exact absurd (hke.trans hk.symm) hne
        · intro h
          obtain ⟨op', here, rfl⟩ := h
          cases here
          exact ⟨Or.inl rfl, hk⟩
      · rw [if_neg hk, ← records key e]
        constructor
        · intro h
          rcases h with ⟨rfl | ⟨mem, -⟩, hke⟩
          · exact absurd hke hk
          · exact ⟨mem, hke⟩
        · intro h
          exact ⟨Or.inr ⟨h.1, fun heq => hk (heq.symm.trans h.2)⟩, h.2⟩

/-- What the directory of `tid` says about `key` comes from the chain. -/
def SoundAt (b : Btree τ) (tid : Nat) (key : Int) : Prop :=
  ∀ e ∈ (b.futureLookupDirectory tid).collect, e.key = key →
    ∃ op, newest (b.pending tid) key = some op ∧ op.lookupEntry = e

theorem AgreesAt.soundAt {tid : Nat} {key : Int} (agrees : b.AgreesAt tid key) :
    b.SoundAt tid key := fun e mem hk => (agrees e).mp ⟨mem, hk⟩

/-- Buffering an operation leaves the directories sound. -/
theorem SoundAt.futureInsert {key key' : Int} {tid tid' : Nat} {isDone : Bool} {sequence : Nat}
    (sound : b.SoundAt tid' key') (wf : (b.futureLookupDirectory tid).Wf)
    (room : (b.futureLookupDirectory tid).find key ≠ none)
    (newer : ∀ op ∈ b.pending tid, op.sequence < sequence) :
    (b.futureInsert key tid isDone sequence).SoundAt tid' key' := by
  by_cases htid : tid' = tid
  · subst htid
    by_cases hkey : key' = key
    · subst hkey
      exact (AgreesAt.futureInsert_self wf room newer).soundAt
    · intro e mem hk
      have hdir : (b.futureInsert key tid' isDone sequence).futureLookupDirectory tid' =
          (b.futureLookupDirectory tid').record key tid' isDone sequence :=
        Function.update_self ..
      rw [hdir, LookupDirectory.mem_collect_record wf room] at mem
      rw [pending_futureInsert, Function.update_self, newest_append_singleton, key_op,
        if_neg (Ne.symm hkey)]
      rcases mem with rfl | ⟨mem, -⟩
      · exact absurd hk.symm hkey
      · exact sound e mem hk
  · intro e mem hk
    have hdir : (b.futureInsert key tid isDone sequence).futureLookupDirectory tid' =
        b.futureLookupDirectory tid' := Function.update_of_ne htid ..
    rw [hdir] at mem
    rw [pending_futureInsert, Function.update_of_ne htid]
    exact sound e mem hk

end Btree

namespace Impl

variable {τ : Type} [GlobalTree τ]

/-! ## Processes -/

/-- Tables with room for the keys of the process, and directories that say nothing the
chains do not. -/
structure Backed (config : RuntimeConfig) (keys : Nat → Finset Int) (s : Impl τ) : Prop where
  nThreads : s.tree.nThreads = config.producerThreads
  numbered : s.Numbered
  roomy : ∀ p < s.tree.nThreads, s.tree.Roomy (keys p) p
  sound : ∀ p < s.tree.nThreads, ∀ key, s.tree.SoundAt p key

section Backed

variable {s s' : Impl τ} {config : RuntimeConfig} {keys : Nat → Finset Int}

omit [GlobalTree τ] in
theorem Backed.enqueued (backed : s.Backed config keys) {key : Int} {p : Nat}
    (hp : p < s.tree.nThreads) (hkey : key ∈ keys p) (isDone : Bool) (numa : Int) :
    (s.enqueued key p isDone numa).Backed config keys := by
  have newer : ∀ op ∈ s.tree.pending p, op.sequence < s.nextPtfoSequence := fun op mem =>
    backed.numbered.fresh op
      (Btree.mem_allPending.mpr (Btree.producerId_of_mem mem ▸ ⟨hp, mem⟩))
  have dir := (backed.roomy p hp).dir
  exact ⟨backed.nThreads, backed.numbered.enqueued hp,
    Btree.Roomy.futureInsert backed.roomy hkey _ _,
    fun q hq key' => (backed.sound q hq key').futureInsert dir.wf (dir.find_ne_none hkey) newer⟩

theorem Backed.drains (backed : s.Backed config keys) {ids cleared : List Nat}
    (drains : s.Drains s' ids cleared) (clears : ∀ p ∈ ids, p ∈ cleared) :
    s'.Backed config keys := by
  refine ⟨drains.nThreads.trans backed.nThreads, backed.numbered.drains drains,
    fun p hp => ?_, fun p hp key e mem hk => ?_⟩
  · rw [drains.nThreads] at hp
    refine (backed.roomy p hp).congr (congrFun drains.hash p) (fun op mem => ?_) ?_
    · rw [drains.pending] at mem
      split at mem
      · exact absurd mem List.not_mem_nil
      · exact mem
    · rw [drains.dir]
      split
      · exact Or.inr rfl
      · exact Or.inl rfl
  · rw [drains.nThreads] at hp
    rw [drains.dir] at mem
    split at mem
    · rw [LookupDirectory.collect_clear] at mem
      exact absurd mem List.not_mem_nil
    · rename_i notCleared
      rw [drains.pending, if_neg fun mem => notCleared (clears p mem)]
      exact backed.sound p hp key e mem hk

theorem Backed.event (backed : s.Backed config keys) (e : Event)
    (within : ∀ i ∈ issues config.producerThreads (callsOf [e]), i.key ∈ keys i.producerId) :
    (s.event e).Backed config keys := by
  have size : s.ptfoThreads.size = config.producerThreads :=
    backed.numbered.threads.trans backed.nThreads
  rcases event_cases backed.numbered.threads e with ⟨op, numa, issued, hp, hevent⟩ |
    ⟨ids, cleared, drains, clears⟩ | hevent
  · rw [hevent]
    rw [size] at issued
    exact backed.enqueued (backed.numbered.threads ▸ hp) (within op issued) op.isDone numa
  · exact backed.drains drains clears
  · rw [hevent]
    exact backed

theorem Backed.eventRun (backed : s.Backed config keys) (events : List Event)
    (within : ∀ i ∈ issues config.producerThreads (callsOf events),
      i.key ∈ keys i.producerId) :
    (s.eventRun events).Backed config keys := by
  induction events using List.reverseRecOn with
  | nil => exact backed
  | append_singleton events e ih =>
      rw [callsOf, List.filterMap_append, ← callsOf, ← callsOf, issues, List.filterMap_append,
        ← issues, ← issues] at within
      rw [eventRun_concat]
      exact (ih fun i mem => within i (List.mem_append_left _ mem)).event e
        fun i mem => within i (List.mem_append_right _ mem)

omit [GlobalTree τ] in
theorem backed_init (valid : validateRuntimeConfig config = .ok ())
    (room : ∀ p < config.producerThreads, (keys p).card ≤ config.dirCap) (tree : τ)
    (resume nodes : Nat) : (init config tree resume nodes).Backed config keys := by
  have informed := informed_init valid room tree resume nodes
  exact ⟨nThreads_init valid .., (accounted_init valid tree resume nodes).toNumbered,
    informed.roomy, fun p hp key => (informed.agrees p hp key).soundAt⟩

omit [GlobalTree τ] in
theorem Backed.sound_ofImpl (backed : s.Backed config keys) (seqCounter : Nat) :
    (Pool.ofImpl s seqCounter).Sound :=
  ⟨backed.numbered.increasing, backed.numbered.distinct⟩

omit [GlobalTree τ] in
/-- What the constructor leaves on an existing pool. -/
theorem backed_reopen {pool : Pool τ} (sound : pool.Sound) {nodes : Nat}
    (opened : pool.reopen config nodes = .ok s)
    (room : ∀ p < config.producerThreads, (keys p).card ≤ config.dirCap)
    (within : ∀ op ∈ pool.allRecovered, op.key ∈ keys op.producerId) :
    s.Backed config keys ∧
      ∀ p < config.producerThreads, ∀ key, s.tree.AgreesAt p key := by
  have numbered := numbered_reopen sound opened
  obtain ⟨hn, rfl⟩ := eq_reopened opened
  have spec : ∀ p < pool.nThreads,
      (pool.recover (castInt config.hashCapacity)).Roomy (keys p) p ∧
        ∀ key, (pool.recover (castInt config.hashCapacity)).AgreesAt p key := by
    intro p hp
    refine Pool.recover_spec sound hp (room p (hn ▸ hp)) fun op mem => ?_
    have owner := Pool.producerId_of_mem mem
    exact owner ▸ within op (Pool.mem_allRecovered.mpr (owner.symm ▸ ⟨hp, mem⟩))
  exact ⟨⟨hn, numbered, fun p hp => (spec p hp).1, fun p hp key => ((spec p hp).2 key).soundAt⟩,
    fun p hp => (spec p (hn.symm ▸ hp)).2⟩

/-- Sequence numbers are issued in order. -/
theorem nextPtfoSequence_le (num : s.Numbered) (events : List Event) :
    s.nextPtfoSequence ≤ (s.eventRun events).nextPtfoSequence := by
  induction events using List.reverseRecOn with
  | nil => exact Nat.le_refl _
  | append_singleton events e ih =>
      rw [eventRun_concat]
      refine ih.trans ?_
      rcases event_cases (num.eventRun events).1.threads e with ⟨op, numa, -, -, hevent⟩ |
        ⟨ids, cleared, drains, -⟩ | hevent
      · rw [hevent]
        exact Nat.le_succ _
      · exact drains.next.ge
      · rw [hevent]

end Backed

end Impl

namespace Pool

variable {τ : Type} [GlobalTree τ]

/-- A process in state `s`, on a pool whose durable counter is `seqCounter`, that no table
has overflowed in: the first process creates the pool, each later one reopens what the
process before it left, with the same hash capacity. -/
inductive Running (hashCapacity : Nat) : Impl τ → Nat → Prop
  | created (config : RuntimeConfig) (valid : validateRuntimeConfig config = .ok ())
      (capacity : config.hashCapacity = hashCapacity) (tree : τ) (nodes : Nat)
      (events : List Event)
      (ample : ∀ p < config.producerThreads,
        (keysOf (issues config.producerThreads (callsOf events)) p).card ≤ config.dirCap) :
      Running hashCapacity ((Impl.init config tree 0 nodes).eventRun events) 0
  | reopened {s s' : Impl τ} {seqCounter nodes : Nat} (running : Running hashCapacity s seqCounter)
      (config : RuntimeConfig) (capacity : config.hashCapacity = hashCapacity)
      (opened : (ofImpl s seqCounter).reopen config nodes = .ok s') (events : List Event)
      (ample : ∀ p < config.producerThreads,
        ((ofImpl s seqCounter).recoveredKeys p ∪
          keysOf (issues config.producerThreads (callsOf events)) p).card ≤ config.dirCap) :
      Running hashCapacity (s'.eventRun events) (ofImpl s seqCounter).resumeSeq

section Running

variable {s : Impl τ} {seqCounter hashCapacity : Nat}

theorem Running.backed (running : Running hashCapacity s seqCounter) :
    ∃ (config : RuntimeConfig) (keys : Nat → Finset Int), config.hashCapacity = hashCapacity ∧
      (∀ p < config.producerThreads, (keys p).card ≤ config.dirCap) ∧ s.Backed config keys := by
  induction running with
  | created config valid capacity tree nodes events ample =>
      exact ⟨config, _, capacity, ample, (Impl.backed_init valid ample tree 0 nodes).eventRun
        events fun i mem => mem_keysOf mem⟩
  | reopened running config capacity opened events ample ih =>
      obtain ⟨config', keys, -, -, backed⟩ := ih
      obtain ⟨start, -⟩ := Impl.backed_reopen (backed.sound_ofImpl _) opened ample
        fun op mem => Finset.mem_union_left _ (mem_recoveredKeys mem)
      exact ⟨config, _, capacity, ample, start.eventRun events fun i mem =>
        Finset.mem_union_right _ (mem_keysOf mem)⟩

/-- Whenever a process stops and the pool is reopened, every directory maps the keys of its
chain to what the live path has recorded, the chain reader answers as before, and all
further sequence numbers are above the recovered ones. -/
theorem reopened_rebuilt (running : Running hashCapacity s seqCounter)
    (config : RuntimeConfig) (capacity : config.hashCapacity = hashCapacity)
    (threads : config.producerThreads = s.tree.nThreads) (nodes : Nat) :
    ∃ s', (ofImpl s seqCounter).reopen config nodes = .ok s' ∧
      (∀ p < config.producerThreads, ∀ key,
        (s'.tree.futureLookupDirectory p).entryAt key =
          (Btree.recordAll p (.empty config.dirCap) (s.tree.pending p)).entryAt key ∧
        ∀ e, (s.tree.futureLookupDirectory p).entryAt key = some e →
          (s'.tree.futureLookupDirectory p).entryAt key = some e) ∧
      (∀ key, s'.tree.futureHashDirectedStateViaPtfo key =
        s.tree.futureHashDirectedStateViaPtfo key) ∧
      ∀ events, ∀ op ∈ s.tree.allPending, op.sequence < (s'.eventRun events).takeSequence.1 := by
  obtain ⟨config', keys, capacity', room', backed'⟩ := running.backed
  have backed : s.Backed config keys := { backed' with nThreads := threads.symm }
  have room : ∀ p < config.producerThreads, (keys p).card ≤ config.dirCap := by
    unfold RuntimeConfig.dirCap at room' ⊢
    rw [capacity, ← capacity', threads, backed'.nThreads]
    exact room'
  have opened : (ofImpl s seqCounter).reopen config nodes = .ok _ :=
    if_neg (not_not.mpr backed.nThreads)
  -- The keys on the chains are among those that the tables had room for.
  have within : ∀ p < config.producerThreads, ∀ op ∈ s.tree.pending p, op.key ∈ keys p := by
    intro p hp op mem
    have roomy := backed.roomy p (backed.nThreads.symm ▸ hp)
    exact roomy.hash.within op.key (roomy.filtered op mem)
  obtain ⟨rebuilt, agrees⟩ := Impl.backed_reopen (backed.sound_ofImpl _) opened room fun op mem => by
    obtain ⟨hp, mem⟩ := mem_allRecovered.mp mem
    exact within _ (backed.nThreads ▸ hp) op mem
  refine ⟨_, opened, fun p hp key => ?_, fun key => ?_, fun events op mem => ?_⟩
  · have hp' : p < s.tree.nThreads := backed.nThreads.symm ▸ hp
    have found := (agrees p hp key).entryAt (rebuilt.roomy p hp').dir.wf
    constructor
    · obtain ⟨serves, records⟩ := Btree.records_recordAll
        (LookupDirectory.serves_empty config.dirCap_pos (room p hp)) (LookupDirectory.collect_empty _)
        (s.tree.pending p)
        (fun op mem => ⟨Btree.producerId_of_mem mem, within p hp op mem⟩)
        (backed.numbered.increasing p hp')
      exact found.trans ((records key).entryAt serves.wf).symm
    · intro e here
      obtain ⟨mem, hk⟩ := (Btree.entryAt_eq_some_iff (backed.roomy p hp').dir.wf).mp here
      obtain ⟨op, top, rfl⟩ := backed.sound p hp' key e mem hk
      exact found.trans (congrArg (Option.map FutureBufferedOp.lookupEntry) top)
  · have shown := Btree.hidesNothing_of_roomy backed.roomy key
    have shown' := Btree.hidesNothing_of_roomy rebuilt.roomy key
    rw [Btree.viaPtfo_eq_of_distinct shown backed.numbered.distinct]
    exact Btree.viaPtfo_eq_of_distinct shown' backed.numbered.distinct
  · have below : op.sequence < (ofImpl s seqCounter).resumeSeq := lt_resumeSeq mem
    have later := Impl.nextPtfoSequence_le rebuilt.numbered events
    refine below.trans (Nat.lt_of_lt_of_le ?_ later)
    exact Nat.lt_of_lt_of_le (Nat.lt_succ_self _) (Nat.le_max_right _ _)

/-- Two processes, the second with a drain in it, and a third that recovers. -/
theorem reopened_rebuilt_twice :
    let config : RuntimeConfig := { producerThreads := 2, hashCapacity := 4 }
    let first := (Impl.init config (∅ : Finset Int) 0 1).eventRun
      [.call (.bufferedInsert 7 0 0), .call (.eraseBuffered 7 1 0)]
    ∃ second, (ofImpl first 0).reopen config 1 = .ok second ∧
      let s := second.eventRun [.call (.eraseBuffered 7 0 0), .checkpointProducers [1] 0]
      ∃ third, (ofImpl s (ofImpl first 0).resumeSeq).reopen config 1 = .ok third ∧
        third.tree.futureHashDirectedStateViaPtfo 7 = s.tree.futureHashDirectedStateViaPtfo 7 := by
  intro config first
  have begun : Running 4 first 0 := .created config rfl rfl _ _ _ (by decide)
  obtain ⟨second, opened, -⟩ := reopened_rebuilt begun config rfl rfl 1
  refine ⟨second, opened, ?_⟩
  have again := Running.reopened begun config rfl opened
    [.call (.eraseBuffered 7 0 0), .checkpointProducers [1] 0] (by decide)
  obtain ⟨config', keys, -, -, backed⟩ := begun.backed
  have kept := ((Impl.numbered_reopen (backed.sound_ofImpl 0) opened).eventRun
    [.call (.eraseBuffered 7 0 0), .checkpointProducers [1] 0]).2
  obtain ⟨threads, rfl⟩ := Impl.eq_reopened opened
  obtain ⟨third, opened', -, answers, -⟩ :=
    reopened_rebuilt again config rfl (threads.symm.trans kept.symm) 1
  exact ⟨third, opened', answers 7⟩

end Running

end Pool

end F3Tree
