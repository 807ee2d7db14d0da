import Mathlib.Data.List.TakeWhile
import F3Tree.Calls

/-!
# Directories that may fill up

Whatever the capacity, a directory has entries for the first keys its producer
buffered since the last drain, as many as it has slots, and refuses the others
(`Tracked`).  The node-ordered replay decides by the directories, so it performs
the newest operation on a key exactly when its producer's directory admitted the
key (`drain_applies_iff`).
-/

namespace F3Tree

open LastWriter

/-- Fewer than `cap` distinct keys come before the first `key` of the list. -/
def Admits (cap : Nat) (keys : List Int) (key : Int) : Prop :=
  (keys.takeWhile (· ≠ key)).toFinset.card < cap

instance (cap : Nat) (keys : List Int) (key : Int) : Decidable (Admits cap keys key) :=
  inferInstanceAs (Decidable (_ < _))

theorem admits_append_of_mem {cap : Nat} {keys : List Int} {key : Int} (mem : key ∈ keys)
    (key' : Int) : Admits cap (keys ++ [key']) key ↔ Admits cap keys key := by
  have stops : ¬ (keys.takeWhile (· ≠ key)).length = keys.length := by
    intro hlen
    have all := List.takeWhile_eq_self_iff.mp ((List.takeWhile_sublist _).eq_of_length hlen)
    simpa using all key mem
  rw [Admits, Admits, List.takeWhile_append, if_neg stops]

theorem admits_append_self {cap : Nat} {keys : List Int} {key : Int} (notMem : key ∉ keys) :
    Admits cap (keys ++ [key]) key ↔ keys.toFinset.card < cap := by
  have all : keys.takeWhile (· ≠ key) = keys := by
    rw [List.takeWhile_eq_self_iff]
    intro key' mem
    rw [decide_eq_true_eq]
    rintro rfl
    exact notMem mem
  rw [Admits, List.takeWhile_append, if_pos (by rw [all]),
    List.takeWhile_cons_of_neg (by simp), List.append_nil]

namespace Btree

variable {τ : Type}

/-- The keys of producer `p`'s chain, oldest operation first. -/
def pendingKeys (b : Btree τ) (p : Nat) : List Int :=
  (b.pending p).map FutureBufferedOp.key

/-- Producer `p`'s directory has the keys it admitted, and records their newest
operations. -/
structure Tracked (b : Btree τ) (p : Nat) : Prop where
  wf : (b.futureLookupDirectory p).Wf
  complete : (b.futureLookupDirectory p).keys = (b.pendingKeys p).toFinset ∨
    (b.futureLookupDirectory p).size ≤ (b.futureLookupDirectory p).keys.card
  sub : (b.futureLookupDirectory p).keys ⊆ (b.pendingKeys p).toFinset
  admitted : ∀ key ∈ b.pendingKeys p,
    key ∈ (b.futureLookupDirectory p).keys ↔
      Admits (b.futureLookupDirectory p).size (b.pendingKeys p) key
  agrees : ∀ key ∈ (b.futureLookupDirectory p).keys, b.AgreesAt p key

theorem tracked_of_empty {b : Btree τ} {p : Nat} (wf : (b.futureLookupDirectory p).Wf)
    (empty : b.pending p = []) (collect : (b.futureLookupDirectory p).collect = []) :
    b.Tracked p where
  wf := wf
  complete := Or.inl (by simp [LookupDirectory.keys, collect, pendingKeys, empty])
  sub := by simp [LookupDirectory.keys, collect]
  admitted := by simp [pendingKeys, empty]
  agrees := by simp [LookupDirectory.keys, collect]

theorem Tracked.congr {b b' : Btree τ} {p : Nat} (tracked : b.Tracked p)
    (hpending : b'.pending p = b.pending p)
    (hdir : b'.futureLookupDirectory p = b.futureLookupDirectory p) : b'.Tracked p := by
  obtain ⟨wf, complete, sub, admitted, agrees⟩ := tracked
  refine ⟨hdir ▸ wf, ?_, ?_, ?_, ?_⟩
  · rw [pendingKeys, hdir, hpending]
    exact complete
  · rw [pendingKeys, hdir, hpending]
    exact sub
  · rw [pendingKeys, hdir, hpending]
    exact admitted
  · rw [hdir]
    intro key mem e
    rw [hpending, hdir]
    exact agrees key mem e

theorem pendingKeys_futureInsert_self (b : Btree τ) (p : Nat) (key : Int) (isDone : Bool)
    (sequence : Nat) :
    (b.futureInsert key p isDone sequence).pendingKeys p = b.pendingKeys p ++ [key] := by
  rw [pendingKeys, pending_futureInsert, Function.update_self, List.map_append]
  rfl

theorem toFinset_concat (keys : List Int) (key : Int) :
    (keys ++ [key]).toFinset = insert key keys.toFinset := by
  ext key'
  simp

/-- The directory refuses the key. -/
theorem Tracked.refused {b : Btree τ} {p : Nat} (tracked : b.Tracked p) {key : Int}
    (full : (b.futureLookupDirectory p).find key = none) (isDone : Bool) (sequence : Nat) :
    (b.futureInsert key p isDone sequence).Tracked p := by
  obtain ⟨wf, complete, sub, admitted, agrees⟩ := tracked
  obtain ⟨notMem, hcard⟩ := (LookupDirectory.find_eq_none_iff_keys wf).mp full
  have hsame : (b.futureInsert key p isDone sequence).futureLookupDirectory p =
      b.futureLookupDirectory p := by
    simp [futureInsert, LookupDirectory.record_of_full full]
  have hkeys := pendingKeys_futureInsert_self b p key isDone sequence
  refine ⟨hsame ▸ wf, hsame ▸ Or.inr hcard, ?_, ?_, ?_⟩
  · rw [hsame, hkeys, toFinset_concat]
    exact sub.trans (Finset.subset_insert _ _)
  · rw [hsame, hkeys]
    intro key' mem
    rcases List.mem_append.mp mem with mem | mem
    · rw [admits_append_of_mem mem]
      exact admitted key' mem
    · rw [List.mem_singleton.mp mem]
      refine iff_of_false notMem fun admits => ?_
      by_cases hmem : key ∈ b.pendingKeys p
      · rw [admits_append_of_mem hmem] at admits
        exact notMem ((admitted key hmem).mpr admits)
      · rw [admits_append_self hmem] at admits
        have := Finset.card_le_card sub
        omega
  · rw [hsame]
    intro key' mem
    exact (agrees key' mem).futureInsert_of_ne wf fun _ hk => notMem (hk ▸ mem)

/-- The directory has a slot for the key. -/
theorem Tracked.recorded {b : Btree τ} {p : Nat} (tracked : b.Tracked p) {key : Int}
    (room : (b.futureLookupDirectory p).find key ≠ none) {isDone : Bool} {sequence : Nat}
    (newer : ∀ op ∈ b.pending p, op.sequence < sequence) :
    (b.futureInsert key p isDone sequence).Tracked p := by
  obtain ⟨wf, complete, sub, admitted, agrees⟩ := tracked
  have hdir : (b.futureInsert key p isDone sequence).futureLookupDirectory p =
      (b.futureLookupDirectory p).record key p isDone sequence := by
    simp [futureInsert]
  have hdirKeys : ((b.futureLookupDirectory p).record key p isDone sequence).keys =
      insert key (b.futureLookupDirectory p).keys := LookupDirectory.keys_record wf room ..
  have hkeys := pendingKeys_futureInsert_self b p key isDone sequence
  refine ⟨?_, ?_, ?_, ?_, ?_⟩
  · rw [hdir]
    exact wf.record ..
  · rw [hdir, hdirKeys, hkeys, toFinset_concat, LookupDirectory.size_record]
    rcases complete with all | hcard
    · exact Or.inl (by rw [all])
    · exact Or.inr (hcard.trans (Finset.card_le_card (Finset.subset_insert _ _)))
  · rw [hdir, hdirKeys, hkeys, toFinset_concat]
    exact Finset.insert_subset_insert _ sub
  · rw [hdir, hdirKeys, hkeys, LookupDirectory.size_record]
    intro key' mem
    rw [Finset.mem_insert]
    by_cases hmem : key' ∈ b.pendingKeys p
    · rw [admits_append_of_mem hmem, ← admitted key' hmem, or_iff_right_iff_imp]
      rintro rfl
      by_contra notMem
      refine room ((LookupDirectory.find_eq_none_iff_keys wf).mpr ⟨notMem, ?_⟩)
      refine complete.resolve_left fun all => notMem ?_
      rw [all, List.mem_toFinset]
      exact hmem
    · have hk : key' = key := by
        simpa [hmem] using mem
      subst hk
      refine iff_of_true (Or.inl rfl) ((admits_append_self hmem).mpr ?_)
      by_contra hge
      have notMem : key' ∉ (b.futureLookupDirectory p).keys := fun h =>
        hmem (List.mem_toFinset.mp (sub h))
      refine room ((LookupDirectory.find_eq_none_iff_keys wf).mpr ⟨notMem, ?_⟩)
      rcases complete with all | hcard
      · rw [all]
        exact Nat.not_lt.mp hge
      · exact hcard
  · rw [hdir, hdirKeys]
    intro key' mem
    by_cases hk : key' = key
    · subst hk
      exact .futureInsert_self wf room newer
    · exact (agrees key' ((Finset.mem_insert.mp mem).resolve_left hk)).futureInsert_of_ne wf
        fun _ => hk

/-- Buffering an operation newer than the chain's keeps a directory on track. -/
theorem Tracked.futureInsert_self {b : Btree τ} {p : Nat} (tracked : b.Tracked p)
    {key : Int} {isDone : Bool} {sequence : Nat}
    (newer : ∀ op ∈ b.pending p, op.sequence < sequence) :
    (b.futureInsert key p isDone sequence).Tracked p := by
  cases full : (b.futureLookupDirectory p).find key with
  | none => exact tracked.refused full isDone sequence
  | some i => exact tracked.recorded (by simp [full]) newer

theorem Tracked.futureInsert_of_ne {b : Btree τ} {p tid : Nat} (tracked : b.Tracked p)
    (hne : p ≠ tid) (key : Int) (isDone : Bool) (sequence : Nat) :
    (b.futureInsert key tid isDone sequence).Tracked p :=
  tracked.congr (by rw [pending_futureInsert, Function.update_of_ne hne])
    (by simp [futureInsert, hne])

/-- A key the directory has no entry for is not reported; the others are reported
right. -/
theorem Tracked.sound {b : Btree τ} {p : Nat} (tracked : b.Tracked p)
    {e : FutureLookupEntry} (mem : e ∈ (b.futureLookupDirectory p).collect) :
    ∃ op, newest (b.pending p) e.key = some op ∧ op.lookupEntry = e :=
  (tracked.agrees e.key (LookupDirectory.mem_keys.mpr ⟨e, mem, rfl⟩) e).mp ⟨mem, rfl⟩

/-- The newest operation on a key is recorded exactly when its directory admitted
the key. -/
theorem Tracked.mem_collect_iff {b : Btree τ} {key : Int} {op : FutureBufferedOp}
    (tracked : b.Tracked op.producerId) (distinct : DistinctStamps b.allPending)
    (top : newest b.allPending key = some op) :
    op.lookupEntry ∈ (b.futureLookupDirectory op.producerId).collect ↔
      Admits (b.futureLookupDirectory op.producerId).size (b.pendingKeys op.producerId) key := by
  have own := (newest_own distinct top).2
  have hkey : op.key = key := key_of_newest top
  have mem : key ∈ b.pendingKeys op.producerId :=
    hkey ▸ List.mem_map_of_mem (mem_of_newest own)
  rw [← tracked.admitted key mem, LookupDirectory.mem_keys]
  constructor
  · exact fun h => ⟨_, h, hkey⟩
  · intro h
    exact ((tracked.agrees key (LookupDirectory.mem_keys.mpr h) _).mpr ⟨op, own, rfl⟩).1

end Btree

namespace Impl

variable {τ : Type} [GlobalTree τ]

/-- Between calls, whatever the capacity: the counters fit the chains and every
directory is on track. -/
structure OnTrack (s : Impl τ) (config : RuntimeConfig) : Prop where
  config_eq : s.config = config
  nThreads_eq : s.tree.nThreads = config.producerThreads
  accounted : s.Accounted
  size : ∀ p, (s.tree.futureLookupDirectory p).size = config.dirCap
  tracked : ∀ p < s.tree.nThreads, s.tree.Tracked p

omit [GlobalTree τ] in
theorem onTrack_init {config : RuntimeConfig} (valid : validateRuntimeConfig config = .ok ())
    (tree : τ) (resume nodes : Nat) : (init config tree resume nodes).OnTrack config := by
  refine ⟨rfl, nThreads_init valid .., accounted_init valid .., fun p => ?_, fun p _ => ?_⟩
  · exact if_pos config.dirCap_pos
  · exact Btree.tracked_of_empty (LookupDirectory.wf_empty _) (pending_init ..)
      (LookupDirectory.collect_empty _)

omit [GlobalTree τ] in
theorem OnTrack.enqueued {s : Impl τ} {config : RuntimeConfig} (ok : s.OnTrack config)
    {p : Nat} (hp : p < s.tree.nThreads) (key : Int) (isDone : Bool) (numa : Int) :
    (s.enqueued key p isDone numa).OnTrack config := by
  refine ⟨ok.config_eq, ok.nThreads_eq, ok.accounted.enqueued hp, fun q => ?_, fun q hq => ?_⟩
  · by_cases hqp : q = p
    · subst hqp
      simpa [Impl.enqueued, account, ptfoInsert, takeSequence, Btree.futureInsert] using ok.size q
    · simpa [Impl.enqueued, account, ptfoInsert, takeSequence, Btree.futureInsert, hqp]
        using ok.size q
  · by_cases hqp : q = p
    · subst hqp
      refine (ok.tracked q hq).futureInsert_self fun op mem => ?_
      exact ok.accounted.fresh op
        (Btree.mem_allPending.mpr (Btree.producerId_of_mem mem ▸ ⟨hp, mem⟩))
    · exact (ok.tracked q hq).futureInsert_of_ne hqp ..

theorem OnTrack.drains {s s' : Impl τ} {config : RuntimeConfig} (ok : s.OnTrack config)
    {ids cleared : List Nat} (drains : s.Drains s' ids cleared)
    (clears : ∀ p ∈ ids, p ∈ cleared)
    (spares : ∀ p < s.tree.nThreads, p ∈ cleared → p ∉ ids → s.tree.pending p = []) :
    s'.OnTrack config := by
  refine ⟨drains.config.trans ok.config_eq, drains.nThreads.trans ok.nThreads_eq,
    ok.accounted.drains drains, fun p => ?_, fun p hp => ?_⟩
  · rw [drains.dir]
    split
    · exact ok.size p
    · exact ok.size p
  · rw [drains.nThreads] at hp
    by_cases hc : p ∈ cleared
    · have hdir : s'.tree.futureLookupDirectory p = (s.tree.futureLookupDirectory p).clear := by
        rw [drains.dir, if_pos hc]
      refine Btree.tracked_of_empty (hdir ▸ .clear) ?_ (hdir ▸ LookupDirectory.collect_clear _)
      rw [drains.pending]
      split
      · rfl
      · rename_i notMem
        exact spares p hp hc notMem
    · have notMem : p ∉ ids := fun mem => hc (clears p mem)
      exact (ok.tracked p hp).congr (by rw [drains.pending, if_neg notMem])
        (by rw [drains.dir, if_neg hc])

theorem onTrack_run {config : RuntimeConfig} (valid : validateRuntimeConfig config = .ok ())
    (tree : τ) (resume nodes : Nat) (calls : List Call) :
    ((init config tree resume nodes).run calls).OnTrack config := by
  induction calls using List.reverseRecOn with
  | nil => exact onTrack_init valid tree resume nodes
  | append_singleton calls c ih =>
      rw [run, List.foldl_append, List.foldl_cons, List.foldl_nil, ← run]
      rcases call_cases ((init config tree resume nodes).run calls) c with
        ⟨op, numa, -, hp, hcall⟩ | ⟨numa, -, hcall⟩ | ⟨-, hcall⟩
      · rw [hcall]
        exact ih.enqueued (ih.accounted.threads ▸ hp) ..
      · rw [hcall]
        obtain ⟨cleared, drains, clears⟩ := ih.accounted.drains_drainPending numa
        exact ih.drains drains clears fun p hp _ notMem =>
          ih.accounted.mem_pendingProducers hp notMem
      · rw [hcall]
        exact ih

/-- The operations that a drain under a node-ordered policy performs. -/
def drainedOps (s : Impl τ) : List FutureBufferedOp :=
  s.tree.nodeOrderedOps s.ptfoThreads s.pendingProducers

variable [LawfulTree τ]

/-- After any run, a drain under F3-N performs the newest operation on a key, and
leaves its kind in the tree, exactly when the producer of that operation buffered
fewer other keys than its directory has slots before it first buffered this one. -/
theorem drain_applies_iff {config : RuntimeConfig}
    (valid : validateRuntimeConfig config = .ok ())
    (policy : config.evaluatorPolicy = .kF3N) (tree : τ) (resume nodes : Nat)
    (calls : List Call) (numa : Int) {key : Int} {op : FutureBufferedOp}
    (top : newest ((init config tree resume nodes).run calls).tree.allPending key = some op) :
    let s := (init config tree resume nodes).run calls
    (op ∈ s.drainedOps ∧ (s.drainPending numa).globalContains key = !op.isDelete) ↔
      Admits config.dirCap (s.tree.pendingKeys op.producerId) key := by
  intro s
  have ok : s.OnTrack config := onTrack_run valid tree resume nodes calls
  have distinct := ok.accounted.distinct
  obtain ⟨hp, own⟩ := Btree.newest_own distinct top
  have recorded := (ok.tracked _ hp).mem_collect_iff distinct top
  rw [ok.size] at recorded
  have hkey : op.key = key := key_of_newest top
  have sound : ∀ tid < s.tree.nThreads, ∀ e ∈ (s.tree.futureLookupDirectory tid).collect,
      e.key = key → ∃ op, newest (s.tree.pending tid) key = some op ∧ op.lookupEntry = e :=
    fun tid htid e mem hk => hk ▸ (ok.tracked tid htid).sound mem
  have active := active_pendingProducers ok.accounted.threads
  constructor
  · rintro ⟨mem, -⟩
    rw [← recorded]
    refine Btree.mem_collect_of_isLatest (hkey ▸ sound) distinct (mem_of_newest top) ?_
    exact (List.mem_filter.mp mem).2
  · intro admits
    have snap : s.tree.Snapshot key := ⟨sound, fun op' top' => by
      rw [top, Option.some.injEq] at top'
      exact top' ▸ recorded.mpr admits⟩
    have visited : op.producerId ∈ s.pendingProducers := by
      by_contra notMem
      have empty := ok.accounted.mem_pendingProducers hp notMem
      rw [empty] at own
      cases own
    refine ⟨List.mem_filter.mpr ⟨?_, ?_⟩, ?_⟩
    · obtain ⟨node, hnode, hop⟩ := (Btree.mem_collectPendingNodes active).mpr
        ⟨visited, mem_of_newest own⟩
      exact List.mem_flatMap.mpr ⟨node, mem_stdSort.mpr hnode, hop⟩
    · exact (Btree.isLatest_iff snap distinct (mem_of_newest top) hkey).mpr top
    · obtain ⟨cleared, drains, -⟩ := ok.accounted.drains_drainPending numa
      refine drains.btreeSearch_of_mem ?_ active distinct snap top visited
      rw [ok.config_eq, policy]
      rfl

/-- The first key of a one-slot directory is drained. -/
theorem drain_applies_first :
    let config : RuntimeConfig := { hashCapacity := 1 }
    let s := (init config (∅ : Finset Int) 1 1).run [.bufferedInsert 1 0 0, .bufferedInsert 2 0 0]
    ⟨1, false, 2, 0⟩ ∈ s.drainedOps ∧ (s.drainPending 0).globalContains 1 = true := by
  intro config s
  have valid : validateRuntimeConfig config = .ok () := rfl
  exact (drain_applies_iff valid rfl (∅ : Finset Int) 1 1
    [.bufferedInsert 1 0 0, .bufferedInsert 2 0 0] 0 (by decide)).mpr (by decide)

/-- The second key of a one-slot directory is dropped. -/
theorem drain_drops_second :
    ¬ ∀ (config : RuntimeConfig) (calls : List Call) (key : Int) (op : FutureBufferedOp),
      validateRuntimeConfig config = .ok () → config.evaluatorPolicy = .kF3N →
      newest ((init config (∅ : Finset Int) 1 1).run calls).tree.allPending key = some op →
      (((init config (∅ : Finset Int) 1 1).run calls).drainPending 0).globalContains key =
        !op.isDelete := by
  intro h
  have := h { hashCapacity := 1 } [.bufferedInsert 1 0 0, .bufferedInsert 2 0 0] 2
    ⟨2, false, 3, 0⟩ rfl rfl (by decide)
  revert this
  decide

end Impl

end F3Tree
