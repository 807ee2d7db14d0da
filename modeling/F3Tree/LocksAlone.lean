import F3Tree.Locks

/-!
# The wrapper's operations alone

Run without other threads, the program of an operation does to the wrapper what the function
of `Impl` of the same name does.  A drain reads and clears the directories one by one, under
their locks, where the function reads and clears them at once.
-/

namespace F3Tree

open LockOrder Prog

/-- Another tree, or other buffers. -/
def Shared.withTree {τ : Type} (s : Shared τ) (b : Btree τ) : Shared τ :=
  { s with impl := { s.impl with tree := b } }

namespace Code

section Alone

variable {τ : Type} {s s' : Shared τ} {u : Unit} {key : Int} {producerIds : List Nat}

theorem runs_onImpl {f : Impl τ → Impl τ} :
    (onImpl f).Runs s u s' ↔ s' = { s with impl := f s.impl } := runs_modify

theorem runs_onTree {f : Btree τ → Btree τ} :
    (onTree f).Runs s u s' ↔ s' = s.withTree (f s.impl.tree) :=
  runs_onImpl

theorem runs_onlyIf {test : Bool} {body : Code τ Unit} :
    (onlyIf test body).Runs s u s' ↔ if test then body.Runs s u s' else s' = s := by
  unfold onlyIf
  cases test with
  | true => exact Iff.rfl
  | false => exact runs_pure.trans (and_iff_right rfl)

/-! ## Producer calls -/

theorem runs_futureInsert {tid sequence : Nat} {isDone : Bool} :
    (futureInsert key tid isDone sequence).Runs s u s' ↔
      s' = { s with impl := s.impl.ptfoInsert key tid isDone sequence } := by
  unfold futureInsert
  rw [runs_guarded, runs_bind]
  simp only [runs_guarded, runs_onTree]
  constructor
  · intro h
    rcases h with ⟨⟨⟩, t, rfl, rfl⟩
    rfl
  · rintro rfl
    exact ⟨(), _, rfl, rfl⟩

/-- The binding of a thread is not seen in `Impl`. -/
theorem runs_bindProducer {producerId : Nat} (h : (bindProducer producerId).Runs s u s') :
    s'.impl = s.impl := by
  have kept : ∀ {f : Shared τ → Shared τ} {t t' : Shared τ} {v : Unit} {test : Bool},
      (onlyIf test (guarded .mu (modify f))).Runs t v t' → (∀ s, (f s).impl = s.impl) →
        t'.impl = t.impl := by
    intro f t t' v test run hf
    rw [runs_onlyIf, runs_guarded, runs_modify] at run
    split at run
    · rw [run, hf]
    · rw [run]
  unfold bindProducer at h
  rw [runs_bind] at h
  rcases h with ⟨doBind, t, claim, h⟩
  rw [runs_guarded, runs_access] at claim
  rw [runs_onlyIf] at h
  split at h
  · rw [runs_bind] at h
    rcases h with ⟨bound, t₁, told, h⟩
    rw [runs_bind] at h
    rcases h with ⟨⟨⟩, t₂, first, h⟩
    rw [runs_get_bind, runs_bind] at h
    rcases h with ⟨memoryBound, t₃, told', h⟩
    rw [runs_ask] at told told'
    have second := kept h fun _ => rfl
    have first := kept first fun _ => rfl
    rw [second, told', first, told, claim.2]
  · rw [h, claim.2]

/-- A producer call is `enqueue`, or does nothing where that throws. -/
theorem runs_enqueue {producerId : Nat} {isDone : Bool}
    (h : (enqueue key producerId isDone).Runs s u s') :
    if producerId < s.impl.ptfoThreads.size then
      ∃ numa, s.impl.enqueue key producerId isDone numa = .ok s'.impl
    else s' = s := by
  unfold enqueue at h
  rw [runs_get_bind, runs_onlyIf] at h
  by_cases hp : producerId < s.impl.ptfoThreads.size
  · rw [if_pos (decide_eq_true hp), runs_bind] at h
    rw [if_pos hp]
    rcases h with ⟨⟨⟩, t, bound, h⟩
    have same : t.impl = s.impl := by
      rw [runs_onlyIf] at bound
      split at bound
      · exact runs_bindProducer bound
      · rw [bound]
    rw [runs_bind] at h
    rcases h with ⟨sequence, t₁, taken, h⟩
    rw [runs_access] at taken
    rcases taken with ⟨rfl, rfl⟩
    rw [runs_bind] at h
    rcases h with ⟨⟨⟩, t₂, inserted, h⟩
    rw [runs_futureInsert] at inserted
    subst inserted
    rw [runs_bind] at h
    rcases h with ⟨numa, t₃, told, h⟩
    rw [runs_ask] at told
    subst told
    rw [runs_guarded, runs_onImpl] at h
    subst h
    refine ⟨numa, ?_⟩
    rw [Impl.enqueue, if_neg (Nat.not_le.mpr hp), same]
  · rw [if_neg (by simpa using hp)] at h
    rw [if_neg hp]
    exact h

/-! ## Readers -/

theorem runs_viaPtfo {best a : Btree.Best} {tids : List Nat} :
    (viaPtfo key best tids).Runs s a s' ↔
      a = tids.foldl (s.impl.tree.viaPtfoVisit key) best ∧ s' = s := by
  induction tids generalizing best with
  | nil => exact runs_pure
  | cons tid tids ih =>
      unfold viaPtfo
      rw [runs_get_bind, List.foldl_cons, Btree.viaPtfoVisit]
      by_cases absent : (s.impl.tree.hash tid).searchKey key = -1
      · rw [if_pos absent, if_pos absent]
        exact ih
      · rw [if_neg absent, if_neg absent, runs_bind]
        simp only [runs_guarded, runs_get_bind, runs_pure]
        constructor
        · intro h
          rcases h with ⟨best', t, ⟨rfl, rfl⟩, rest⟩
          exact ih.mp rest
        · intro h
          exact ⟨_, s, ⟨rfl, rfl⟩, ih.mpr h⟩

theorem runs_section {α : Type} {l : Lock} {f : Shared τ → α} {a : α} :
    (guarded l (do let s ← get; return f s)).Runs s a s' ↔ a = f s ∧ s' = s := by
  rw [runs_guarded, runs_get_bind, runs_pure]

theorem runs_globalContains [GlobalTree τ] {a : Bool} :
    (globalContains key).Runs s a s' ↔ a = s.impl.globalContains key ∧ s' = s := runs_section

theorem runs_contains [GlobalTree τ] {a : Bool} :
    (contains key).Runs s a s' ↔ a = s.impl.contains key ∧ s' = s := by
  unfold contains Impl.contains Btree.futureHashDirectedStateViaPtfo
  rw [runs_get_bind, runs_bind]
  simp only [runs_viaPtfo]
  generalize (List.range s.impl.tree.nThreads).foldl (s.impl.tree.viaPtfoVisit key) {} = best
  constructor
  · intro h
    rcases h with ⟨best', t, ⟨rfl, rfl⟩, rest⟩
    cases state : best'.state with
    | present | tombstone =>
        rw [state] at rest
        exact runs_pure.mp rest
    | absent =>
        rw [state] at rest
        exact runs_globalContains.mp rest
  · intro h
    refine ⟨best, s, ⟨rfl, rfl⟩, ?_⟩
    cases state : best.state with
    | present | tombstone =>
        rw [state] at h
        exact runs_pure.mpr h
    | absent =>
        rw [state] at h
        exact runs_globalContains.mpr h

theorem runs_bufferedOwner {a : Int} :
    (bufferedOwner key).Runs s a s' ↔
      a = (s.impl.tree.futureHashDirectedStateViaPtfo key).owner ∧ s' = s := by
  unfold bufferedOwner Btree.futureHashDirectedStateViaPtfo
  rw [runs_get_bind, runs_bind]
  simp only [runs_viaPtfo, runs_pure]
  constructor
  · intro h
    rcases h with ⟨best, t, ⟨rfl, rfl⟩, answer⟩
    exact answer
  · intro h
    exact ⟨_, s, ⟨rfl, rfl⟩, h⟩

/-! ## Drains -/

theorem runs_withPtfoLocks {α : Type} {body : Code τ α} {a : α} :
    (withPtfoLocks producerIds body).Runs s a s' ↔ body.Runs s a s' := by
  unfold withPtfoLocks
  rw [runs_unit_bind fun _ => runs_forEach_still _ fun _ _ _ => runs_take, runs_bind]
  constructor
  · intro h
    rcases h with ⟨a', t, run, rest⟩
    rw [runs_unit_bind fun _ => runs_forEach_still _ fun _ _ _ => runs_release, runs_pure] at rest
    rcases rest with ⟨rfl, rfl⟩
    exact run
  · intro h
    refine ⟨a, s', h, ?_⟩
    rw [runs_unit_bind fun _ => runs_forEach_still _ fun _ _ _ => runs_release, runs_pure]
    exact ⟨rfl, rfl⟩

theorem runs_collectLookupEntries {tids : List Nat} {entries : List FutureLookupEntry} :
    (collectLookupEntries tids).Runs s entries s' ↔
      entries = (tids.flatMap fun tid => (s.impl.tree.futureLookupDirectory tid).collect) ∧
        s' = s := by
  induction tids generalizing entries s' with
  | nil => exact runs_pure
  | cons tid tids ih =>
      unfold collectLookupEntries
      rw [runs_bind]
      simp only [runs_section]
      constructor
      · intro h
        rcases h with ⟨own, t, ⟨rfl, rfl⟩, h⟩
        rcases runs_bind.mp h with ⟨rest, t', more, h⟩
        rcases ih.mp more with ⟨rfl, rfl⟩
        exact runs_pure.mp h
      · intro h
        rcases h with ⟨rfl, rfl⟩
        exact ⟨_, s', ⟨rfl, rfl⟩, runs_bind.mpr ⟨_, s', ih.mpr ⟨rfl, rfl⟩, runs_pure.mpr ⟨rfl, rfl⟩⟩⟩

theorem foldl_withTree (f : Btree τ → Nat → Btree τ) (tids : List Nat) (s : Shared τ) :
    tids.foldl (fun s tid => s.withTree (f s.impl.tree tid)) s =
      s.withTree (tids.foldl f s.impl.tree) := by
  induction tids generalizing s with
  | nil => rfl
  | cons tid tids ih => exact ih _

theorem runs_futureClearLookupDirectory :
    (futureClearLookupDirectory).Runs s u s' ↔
      s' = s.withTree s.impl.tree.futureClearLookupDirectory := by
  unfold futureClearLookupDirectory Btree.futureClearLookupDirectory
  rw [runs_get_bind, runs_forEach _ fun _ _ _ => runs_guarded.trans runs_onTree, foldl_withTree]

theorem runs_futureClearLookupEntriesForProducers :
    (futureClearLookupEntriesForProducers producerIds).Runs s u s' ↔
      s' = s.withTree (s.impl.tree.futureClearLookupEntriesForProducers producerIds) := by
  unfold futureClearLookupEntriesForProducers Btree.futureClearLookupEntriesForProducers
  rw [runs_get_bind]
  generalize hn : s.impl.tree.nThreads = n
  have one : ∀ tid (t t' : Shared τ),
      (onlyIf (decide (tid < n)) (guarded (.lookupDirMu tid) (onTree fun b => b.clearDirectory tid))
        : Code τ Unit).Runs t () t' ↔
      t' = t.withTree (if tid ≥ n then t.impl.tree else t.impl.tree.clearDirectory tid) := by
    intro tid t t'
    rw [runs_onlyIf, runs_guarded, runs_onTree]
    by_cases lt : tid < n
    · rw [if_pos (decide_eq_true lt), if_neg (Nat.not_le.mpr lt)]
    · rw [if_neg (by simpa using lt), if_pos (Nat.not_lt.mp lt)]
      rfl
  rw [runs_forEach _ one, foldl_withTree fun b tid => if tid ≥ n then b else b.clearDirectory tid]
  have same : ∀ b : Btree τ, b.nThreads = n →
      producerIds.foldl (fun b tid => if tid ≥ n then b else b.clearDirectory tid) b =
        producerIds.foldl (fun b tid => if tid ≥ b.nThreads then b else b.clearDirectory tid) b := by
    induction producerIds with
    | nil => exact fun _ _ => rfl
    | cons p producerIds ih =>
        intro b hb
        rw [List.foldl_cons, List.foldl_cons, hb]
        apply ih
        split
        · exact hb
        · exact hb
  rw [same _ hn]

section Tree

variable [GlobalTree τ] {a : ReplayStats} {evaluatorSlots : Nat}

omit [GlobalTree τ] in
theorem runs_replayBy {f : Impl τ → Btree τ × ReplayStats} :
    (replayBy f).Runs s a s' ↔ a = (f s.impl).2 ∧ s' = s.withTree (f s.impl).1 := runs_access

/-- The `switch` does what `Impl.replay` does. -/
theorem runs_replay :
    (replay producerIds evaluatorSlots).Runs s a s' ↔
      a = (s.impl.replay producerIds evaluatorSlots).2 ∧
        s' = s.withTree (s.impl.replay producerIds evaluatorSlots).1 := by
  unfold replay Impl.replay
  rw [runs_get_bind]
  cases s.impl.config.evaluatorPolicy with
  | kF3K | kLegacyKeyPartitioned | kDeterministicReplay => exact runs_replayBy
  | kF3N | kLegacyNodePartitioned =>
      simp only [runs_bind, runs_collectLookupEntries]
      constructor
      · intro h
        rcases h with ⟨entries, t, ⟨rfl, rfl⟩, rest⟩
        exact runs_replayBy.mp rest
      · intro h
        exact ⟨_, s, ⟨rfl, rfl⟩, runs_replayBy.mpr h⟩

/-- A replay and the clearing of directories after it. -/
theorem runs_replay_clear {replayed : List Nat} {clear : Code τ Unit}
    {cleared : Btree τ → Btree τ}
    (hclear : ∀ t t', clear.Runs t () t' ↔ t' = t.withTree (cleared t.impl.tree)) :
    (guarded .treeMu (withPtfoLocks producerIds do
      let replayStats ← replay replayed evaluatorSlots
      clear
      return replayStats) : Code τ ReplayStats).Runs s a s' ↔
    a = (s.impl.replay replayed evaluatorSlots).2 ∧
      s' = s.withTree (cleared (s.impl.replay replayed evaluatorSlots).1) := by
  rw [runs_guarded, runs_withPtfoLocks, runs_bind]
  constructor
  · intro h
    rcases h with ⟨stats, t, replay, rest⟩
    rw [runs_unit_bind (hclear t), runs_pure] at rest
    rcases rest with ⟨rfl, rfl⟩
    rcases runs_replay.mp replay with ⟨rfl, rfl⟩
    exact ⟨rfl, rfl⟩
  · intro h
    rcases h with ⟨rfl, rfl⟩
    refine ⟨_, _, runs_replay.mpr ⟨rfl, rfl⟩, ?_⟩
    rw [runs_unit_bind (hclear _), runs_pure]
    exact ⟨rfl, rfl⟩

/-- What the three drains share. -/
def checkpoint (s : Impl τ) (producerIds : List Nat) (evaluatorSlots : Nat) (numa : Int)
    (cleared : Btree τ → Btree τ) (finish : Impl τ → ReplayStats → Impl τ) : Impl τ :=
  let s := s.recordCheckpointLocalityLocked producerIds numa
  let (tree, replayStats) := s.replay producerIds evaluatorSlots
  finish { s with tree := cleared tree } replayStats

theorem runs_checkpoint {replayed : List Nat} {clear : Code τ Unit} (cleared : Btree τ → Btree τ)
    {finish : Impl τ → ReplayStats → Impl τ}
    (hclear : ∀ t t', clear.Runs t () t' ↔ t' = t.withTree (cleared t.impl.tree)) :
    (do
      let numa ← ask Int
      onImpl fun s => s.recordCheckpointLocalityLocked replayed numa
      let replayStats ← guarded .treeMu (withPtfoLocks producerIds do
        let replayStats ← replay replayed evaluatorSlots
        clear
        return replayStats)
      onImpl fun s => finish s replayStats : Code τ Unit).Runs s u s' ↔
    ∃ numa, s' = { s with
      impl := checkpoint s.impl replayed evaluatorSlots numa cleared finish } := by
  rw [runs_bind]
  constructor
  · intro h
    rcases h with ⟨numa, t, told, h⟩
    rw [runs_ask] at told
    subst told
    rw [runs_unit_bind fun _ => runs_onImpl, runs_bind] at h
    rcases h with ⟨stats, t', locked, h⟩
    rcases (runs_replay_clear hclear).mp locked with ⟨rfl, rfl⟩
    exact ⟨numa, runs_onImpl.mp h⟩
  · intro h
    rcases h with ⟨numa, rfl⟩
    refine ⟨numa, s, runs_ask.mpr rfl, ?_⟩
    rw [runs_unit_bind fun _ => runs_onImpl, runs_bind]
    exact ⟨_, _, (runs_replay_clear hclear).mpr ⟨rfl, rfl⟩, runs_onImpl.mpr rfl⟩

/-- `drain_locked` -/
theorem runs_drainLocked :
    drainLocked.Runs s u s' ↔ ∃ numa, s' = { s with impl := s.impl.drainLocked numa } := by
  unfold drainLocked Impl.drainLocked
  rw [runs_get_bind, runs_onlyIf]
  by_cases pending : s.impl.pendingOperationCount = 0
  · simp [pending]
  · rw [if_pos (by simpa using pending)]
    simp only [if_neg pending]
    exact runs_checkpoint Btree.futureClearLookupDirectory fun _ _ =>
      runs_futureClearLookupDirectory

theorem runs_drainSlice :
    (drainSlice producerIds evaluatorSlots).Runs s u s' ↔
      ∃ numa, s' = { s with impl := s.impl.drainSlice producerIds evaluatorSlots numa } := by
  unfold drainSlice Impl.drainSlice
  rw [runs_onlyIf]
  by_cases nothing : producerIds = []
  · simp [nothing]
  · rw [if_pos (by simpa using nothing)]
    simp only [if_neg nothing]
    exact runs_checkpoint (fun b => b.futureClearLookupEntriesForProducers producerIds) fun _ _ =>
      runs_futureClearLookupEntriesForProducers

/-- `drain_locked_for_nodes` -/
theorem runs_drainLockedForNodes {nodeIds : List Nat} :
    (drainLockedForNodes nodeIds).Runs s u s' ↔
      ∃ numa, s' = { s with impl := s.impl.drainLockedForNodes nodeIds numa } := by
  unfold drainLockedForNodes
  rw [runs_get_bind]
  exact runs_drainSlice

/-- `drain_locked_for_producers` -/
theorem runs_drainLockedForProducers :
    (drainLockedForProducers producerIds).Runs s u s' ↔
      ∃ numa, s' = { s with impl := s.impl.drainLockedForProducers producerIds numa } := by
  unfold drainLockedForProducers
  rw [runs_get_bind]
  exact runs_drainSlice

/-- `drain_pending` -/
theorem runs_drainPending :
    drainPending.Runs s u s' ↔ ∃ numa, s' = { s with impl := s.impl.drainPending numa } :=
  runs_guarded.trans runs_drainLocked

end Tree

end Alone

end Code

end F3Tree
