import F3Tree.Lib.Runs
import F3Tree.Drain

/-!
# The tier-1 hash filter

`future_hash_directed_state_via_ptfo` walks a chain only when the producer's
hashtable finds the key.  A hashtable that is full of other keys takes a new key
by overwriting one of them, so the filter shows every buffered operation as long
as no overwritten key still has one (`shows_run_iff`).
-/

namespace F3Tree

open LastWriter Runs

/-- The calls on the buffered side, for `n` producers. -/
inductive BufferCall (n : Nat) : Type
  | futureInsert (key : Int) (tid : Fin n) (isDone : Bool) (sequence : Nat)
  | futureClearThread (tid : Fin n)
  | futureDrainThreadFromTail (tid : Fin n)
  | futureClearLookupEntriesForProducers (producerIds : List (Fin n))
  | futureClearLookupDirectory

namespace Btree

variable {τ : Type}

/-- Readers of `key` see the newest operation of the walk over all chains, and the
hashtable of every chain that holds `key` finds it. -/
def Shows (b : Btree τ) (key : Int) : Prop :=
  b.HidesNothing key ∧
    b.futureHashDirectedStateViaPtfo key = Best.ofNewest (newest b.walkOrder key)

/-- Inserting `key` makes producer `tid`'s hashtable overwrite a key of which
`tid`'s chain still holds an operation. -/
def Overwrites (b : Btree τ) (key : Int) (tid : Nat) : Prop :=
  ∃ op ∈ b.pending tid, (b.hash tid).Evicts key op.key

/-- The hashtables are well formed, map keys to their producer, and hold every
buffered key. -/
structure Filtered (b : Btree τ) : Prop where
  wf : ∀ p < b.nThreads, (b.hash p).Wf
  value : ∀ p < b.nThreads, ∀ key v, (b.hash p).Holds key v → v = p
  present : ∀ p < b.nThreads, ∀ op ∈ b.pending p, ¬ (b.hash p).Absent op.key

theorem Filtered.shows {b : Btree τ} (filtered : b.Filtered) (key : Int) : b.Shows key := by
  have shown : b.HidesNothing key := by
    rintro p hp ⟨op, mem, rfl⟩
    obtain ⟨v, holds⟩ := HashMapTable.not_absent_iff.mp (filtered.present p hp op mem)
    rw [HashMapTable.searchKey_of_holds (filtered.wf p hp) holds,
      filtered.value p hp _ v holds]
    omega
  exact ⟨shown, viaPtfo_eq shown⟩

theorem filtered_mk' (numThreads : Nat) (hashCapacity : Int) (tree : τ) :
    (mk' numThreads hashCapacity tree).Filtered where
  wf _ _ := HashMapTable.wf_init _
  value := by
    rintro p - key v ⟨i, -, hi⟩
    cases hi
  present := by simp [pending, mk', LocalFut.log]

/-- A frame: the hashtables stay and the chains only shrink. -/
theorem Filtered.mono {b b' : Btree τ} (filtered : b.Filtered)
    (hn : b'.nThreads = b.nThreads) (hhash : b'.hash = b.hash)
    (sub : ∀ p < b.nThreads, ∀ op ∈ b'.pending p, op ∈ b.pending p) : b'.Filtered where
  wf p hp := hhash ▸ filtered.wf p (hn ▸ hp)
  value p hp := hhash ▸ filtered.value p (hn ▸ hp)
  present p hp op mem := by
    rw [hhash]
    exact filtered.present p (hn ▸ hp) op (sub p (hn ▸ hp) op mem)

/-- `future_insert` keeps every buffered key in the hashtable unless it overwrites
one. -/
theorem Filtered.futureInsert {b : Btree τ} (filtered : b.Filtered) {key : Int} {tid : Nat}
    (htid : tid < b.nThreads) (isDone : Bool) (sequence : Nat)
    (keeps : ¬ b.Overwrites key tid) : (b.futureInsert key tid isDone sequence).Filtered := by
  have hself : (b.futureInsert key tid isDone sequence).hash tid =
      (b.hash tid).insert key tid := by
    simp [Btree.futureInsert]
  have hother : ∀ p, p ≠ tid → (b.futureInsert key tid isDone sequence).hash p = b.hash p :=
    fun p hp => by simp [Btree.futureInsert, hp]
  refine ⟨fun p hp => ?_, fun p hp key' v holds => ?_, fun p hp op mem => ?_⟩
  · by_cases hpt : p = tid
    · subst hpt
      rw [hself]
      exact (filtered.wf p hp).insert key p
    · rw [hother p hpt]
      exact filtered.wf p hp
  · by_cases hpt : p = tid
    · subst hpt
      rw [hself] at holds
      rcases HashMapTable.holds_of_insert (filtered.wf p hp) holds with ⟨-, rfl⟩ | holds
      · rfl
      · exact filtered.value p hp key' v holds
    · rw [hother p hpt] at holds
      exact filtered.value p hp key' v holds
  · rw [pending_futureInsert] at mem
    by_cases hpt : p = tid
    · subst hpt
      rw [Function.update_self, List.mem_append, List.mem_singleton] at mem
      rw [hself]
      by_cases hk : op.key = key
      · rw [hk, HashMapTable.not_absent_iff]
        exact ⟨_, HashMapTable.holds_insert_self (filtered.wf p hp) key p⟩
      · have old : op ∈ b.pending p := by
          refine mem.resolve_right ?_
          rintro rfl
          exact hk rfl
        rw [HashMapTable.absent_insert_iff (filtered.wf p hp) _ hk, not_or]
        exact ⟨filtered.present p hp op old, fun evicts => keeps ⟨op, old, evicts⟩⟩
    · rw [Function.update_of_ne hpt] at mem
      rw [hother p hpt]
      exact filtered.present p hp op mem

/-- An overwritten key is hidden from readers. -/
theorem not_shows_of_overwrites {b : Btree τ} (filtered : b.Filtered) {key : Int} {tid : Nat}
    (htid : tid < b.nThreads) (isDone : Bool) (sequence : Nat)
    (overwrites : b.Overwrites key tid) :
    ∃ key', ¬ (b.futureInsert key tid isDone sequence).Shows key' := by
  obtain ⟨op, mem, evicts⟩ := overwrites
  have hhash : (b.futureInsert key tid isDone sequence).hash tid =
      (b.hash tid).insert key tid := by
    simp [Btree.futureInsert]
  have hne : op.key ≠ key := by
    intro hk
    exact filtered.present tid htid op mem (hk ▸ evicts.1)
  refine ⟨op.key, fun shows => shows.1 tid htid ⟨op, ?_, rfl⟩ ?_⟩
  · rw [pending_futureInsert, Function.update_self]
    exact List.mem_append_left _ mem
  · rw [hhash]
    refine HashMapTable.searchKey_of_absent ?_
    exact (HashMapTable.absent_insert_iff (filtered.wf tid htid) _ hne).mpr (Or.inr evicts)

/-! ## Runs -/

variable [GlobalTree τ]

def bufferCall {n : Nat} (b : Btree τ) : BufferCall n → Btree τ
  | .futureInsert key tid isDone sequence => b.futureInsert key tid isDone sequence
  | .futureClearThread tid => b.futureClearThread tid
  | .futureDrainThreadFromTail tid => (b.futureDrainThreadFromTail tid).1
  | .futureClearLookupEntriesForProducers producerIds =>
      b.futureClearLookupEntriesForProducers (producerIds.map Fin.val)
  | .futureClearLookupDirectory => b.futureClearLookupDirectory

def bufferRun {n : Nat} (b : Btree τ) (calls : List (BufferCall n)) : Btree τ :=
  calls.foldl bufferCall b

/-- The call is no `future_insert` that overwrites a buffered key. -/
def Keeps {n : Nat} (b : Btree τ) (c : BufferCall n) : Prop :=
  ∀ key (tid : Fin n) isDone sequence, c = .futureInsert key tid isDone sequence →
    ¬ b.Overwrites key tid

theorem bufferRun_concat {n : Nat} (b : Btree τ) (calls : List (BufferCall n))
    (c : BufferCall n) : b.bufferRun (calls ++ [c]) = (b.bufferRun calls).bufferCall c :=
  List.foldl_append

/-- A call that is no overwriting `future_insert` keeps the filter right. -/
theorem Filtered.bufferCall {n : Nat} {b : Btree τ} (filtered : b.Filtered)
    (hn : b.nThreads = n) (c : BufferCall n)
    (keeps : b.Keeps c) :
    (b.bufferCall c).Filtered ∧ (b.bufferCall c).nThreads = n := by
  have cleared : ∀ (tid : Fin n) (tree : τ), Filtered { b with
      tree := tree
      localFut := Function.update b.localFut tid (b.localFut tid).cleared } := by
    intro tid tree
    have replayed := b.replayed_cleared tree tid
    refine filtered.mono replayed.nThreads replayed.hash fun p _ op mem => ?_
    rw [replayed.pending] at mem
    split at mem
    · exact absurd mem List.not_mem_nil
    · exact mem
  have dirs : ∀ b' ids, b.DirsCleared b' ids → b'.Filtered ∧ b'.nThreads = n := by
    intro b' ids h
    refine ⟨filtered.mono h.nThreads h.hash fun p _ op mem => ?_, h.nThreads.trans hn⟩
    rw [pending_of_localFut (congrFun h.localFut p)] at mem
    exact mem
  cases c with
  | futureInsert key tid isDone sequence =>
      have htid : (tid : Nat) < b.nThreads := hn ▸ tid.isLt
      exact ⟨filtered.futureInsert htid isDone sequence (keeps key tid isDone sequence rfl), hn⟩
  | futureClearThread tid =>
      have htid : ¬ (tid : Nat) ≥ b.nThreads := Nat.not_le.mpr (hn ▸ tid.isLt)
      rw [Btree.bufferCall, futureClearThread, if_neg htid]
      exact ⟨cleared tid b.tree, hn⟩
  | futureDrainThreadFromTail tid =>
      have htid : (tid : Nat) < b.nThreads := hn ▸ tid.isLt
      rw [Btree.bufferCall, futureDrainThreadFromTail_eq htid]
      exact ⟨cleared tid _, hn⟩
  | futureClearLookupEntriesForProducers ids =>
      refine dirs _ _ (dirsCleared_forProducers fun p mem => ?_)
      obtain ⟨tid, -, rfl⟩ := List.mem_map.mp mem
      exact hn ▸ tid.isLt
  | futureClearLookupDirectory => exact dirs _ _ (dirsCleared_foldl _ _)

/-- Runs without overwriting keep the filter right. -/
theorem filtered_run {n : Nat} {b : Btree τ} (filtered : b.Filtered) (hn : b.nThreads = n)
    {calls : List (BufferCall n)}
    (keep : StepsMeet (fun before c => (b.bufferRun before).Keeps c) calls) :
    (b.bufferRun calls).Filtered ∧ (b.bufferRun calls).nThreads = n := by
  refine points_of_steps (fun before =>
    (b.bufferRun before).Filtered ∧ (b.bufferRun before).nThreads = n) ⟨filtered, hn⟩
    (fun before c _ ih keeps => ?_) keep
  rw [bufferRun_concat]
  exact ih.1.bufferCall ih.2 c keeps

/-- Readers see every buffered operation at every point of a run exactly when no
`future_insert` of the run overwrites a key that its producer's chain still
holds. -/
theorem shows_run_iff {n : Nat} (hn : 0 < n) (hashCapacity : Int) (tree : τ)
    (calls : List (BufferCall n)) :
    AtPoints (fun before => ∀ key, ((mk' n hashCapacity tree).bufferRun before).Shows key)
        calls ↔
      StepsMeet (fun before c => ((mk' n hashCapacity tree).bufferRun before).Keeps c)
        calls := by
  have start : (mk' n hashCapacity tree).Filtered := filtered_mk' n hashCapacity tree
  have size : (mk' n hashCapacity tree).nThreads = n := if_pos hn
  refine points_iff_steps start.shows fun before c _ keep => ?_
  obtain ⟨filtered, size⟩ := filtered_run start size keep
  rw [bufferRun_concat]
  constructor
  · rintro shows key tid isDone sequence rfl overwrites
    obtain ⟨key', hidden⟩ := not_shows_of_overwrites filtered
      (lt_of_lt_of_eq tid.isLt size.symm) isDone sequence overwrites
    exact hidden (shows key')
  · exact fun keeps key => (filtered.bufferCall size c keeps).1.shows key

/-- Two keys fit in two slots. -/
theorem shows_run_two_slots :
    AtPoints (fun before => ∀ key, ((mk' 1 2 (∅ : Finset Int)).bufferRun before).Shows key)
      [.futureInsert 1 (0 : Fin 1) false 1, .futureInsert 2 0 false 2] := by
  refine (shows_run_iff (by decide) 2 (∅ : Finset Int) _).mpr ?_
  refine (stepsMeet_concat [_] _).mpr
    ⟨(stepsMeet_concat [] _).mpr ⟨stepsMeet_nil, ?_⟩, ?_⟩
  · rintro key tid isDone sequence - ⟨op, mem, -⟩
    simp [bufferRun, pending, mk', LocalFut.log] at mem
  · rintro key tid isDone sequence hc ⟨op, -, -, full, -⟩
    cases hc
    obtain ⟨k, hk⟩ := full 0 (by decide)
    -- Key 1 went to slot 1.
    have free : (((mk' 1 2 (∅ : Finset Int)).bufferRun
        [.futureInsert 1 (0 : Fin 1) false 1]).hash 0).cell 0 = .free := rfl
    exact absurd (free.symm.trans hk) (by simp)

/-- The second key evicts the first from a one-slot hashtable. -/
theorem shows_run_one_slot :
    ¬ ∀ (n : Nat) (hashCapacity : Int) (tree : Finset Int) (calls : List (BufferCall n)),
      0 < n → 1 ≤ hashCapacity →
        ∀ key, ((mk' n hashCapacity tree).bufferRun calls).Shows key := by
  intro h
  obtain ⟨shown, -⟩ := h 1 1 ∅ [.futureInsert 1 0 false 1, .futureInsert 2 0 false 2]
    (by decide) (by decide) 1
  exact shown 0 (by decide) ⟨⟨1, false, 1, 0⟩, by decide, rfl⟩ (by decide)

end Btree

end F3Tree
