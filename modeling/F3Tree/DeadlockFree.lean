import F3Tree.Locks
import F3Tree.Resolution

/-!
# No deadlock in the wrapper

Every operation takes its locks in one order: `mu`, `tree_mu`, the `ptfo_mu` by producer
id, and a `lookup_dir_mu` last.  A drain holds all but the last and takes the directories'
locks one at a time, those of other producers too.
-/

namespace F3Tree

open LockOrder Prog

namespace Lock

def family : Lock → Nat
  | .mu => 0
  | .treeMu => 1
  | .ptfoMu _ => 2
  | .lookupDirMu _ => 3

theorem lt_of_family {a b : Lock} (h : a.family < b.family) : a < b := by
  change a.place < b.place
  rw [Prod.Lex.lt_iff]
  apply Or.inl
  cases a with
  | _ =>
    cases b with
    | _ => exact h

theorem ptfoMu_lt {p q : Nat} (h : p < q) : ptfoMu p < ptfoMu q := by
  change (ptfoMu p).place < (ptfoMu q).place
  rw [Prod.Lex.lt_iff]
  exact Or.inr ⟨rfl, h⟩

/-- The locks of a list of producers. -/
def ptfos (pids : List Nat) : Set Lock := {l | ∃ p ∈ pids, l = ptfoMu p}

theorem ptfos_cons (p : Nat) (pids : List Nat) : ptfos (p :: pids) = insert (ptfoMu p) (ptfos pids) := by
  ext l
  unfold ptfos
  simp

end Lock

namespace Code

open Lock

section Ordered

variable {τ α : Type} {held : Set Lock} {key : Int} {producerIds : List Nat}

/-- The locks that are held come before those of one family. -/
def Under (n : Nat) (held : Set Lock) : Prop := ∀ x ∈ held, x.family < n

theorem under_empty (n : Nat) : Under n ∅ := fun _ mem => nomatch mem

theorem Under.insert {l : Lock} {n m : Nat} (h : Under n held) (le : n ≤ m) (lt : l.family < m) :
    Under m (insert l held) := by
  intro x mem
  rcases Set.mem_insert_iff.mp mem with rfl | mem
  · exact lt
  · exact (h x mem).trans_le le

theorem ordered_guarded {l : Lock} {body : Code τ α} (under : Under l.family held)
    (h : body.Ordered (insert l held) (insert l held)) : (guarded l body).Ordered held held :=
  Prog.ordered_guarded (fun x mem => lt_of_family (under x mem)) h

theorem ordered_onImpl (f : Impl τ → Impl τ) : (onImpl f).Ordered held held := ordered_modify _

theorem ordered_onTree (f : Btree τ → Btree τ) : (onTree f).Ordered held held := ordered_onImpl _

theorem ordered_onlyIf {test : Bool} {body : Code τ Unit}
    (h : test = true → body.Ordered held held) : (onlyIf test body).Ordered held held := by
  unfold onlyIf
  split
  · rename_i yes
    exact h yes
  · exact ordered_pure ()

/-- A critical section without locks of its own. -/
theorem ordered_section {f : Shared τ → α} (l : Lock) (under : Under l.family held) :
    (guarded l (do let s ← get; return f s)).Ordered held held :=
  ordered_guarded under (ordered_get.bind fun _ => ordered_pure _)

/-! ## Producer calls -/

theorem ordered_futureInsert (tid : Nat) (isDone : Bool) (sequence : Nat) :
    (futureInsert key tid isDone sequence : Code τ Unit).Ordered ∅ ∅ := by
  have inner : Under (lookupDirMu tid).family (insert (ptfoMu tid) ∅) :=
    (under_empty 2).insert (Nat.le_succ 2) (Nat.lt_succ_self 2)
  unfold futureInsert
  apply ordered_guarded (under_empty _)
  apply (ordered_onTree _).bind
  intro _
  exact ordered_guarded inner (ordered_onTree _)

theorem ordered_bindProducer (producerId : Nat) :
    (bindProducer producerId : Code τ Unit).Ordered ∅ ∅ := by
  unfold bindProducer
  apply (ordered_guarded (under_empty _) (ordered_access _)).bind
  intro doBind
  apply ordered_onlyIf
  intro _
  apply (ordered_ask Bool).bind
  intro bound
  apply (ordered_onlyIf fun _ => ordered_guarded (under_empty _) (ordered_modify _)).bind
  intro _
  apply ordered_get.bind
  intro s
  apply (ordered_ask Bool).bind
  intro memoryBound
  exact ordered_onlyIf fun _ => ordered_guarded (under_empty _) (ordered_modify _)

theorem ordered_enqueue (producerId : Nat) (isDone : Bool) :
    (enqueue key producerId isDone : Code τ Unit).Ordered ∅ ∅ := by
  unfold enqueue
  apply ordered_get.bind
  intro s
  apply ordered_onlyIf
  intro _
  apply (ordered_onlyIf fun _ => ordered_bindProducer producerId).bind
  intro _
  apply (ordered_access _).bind
  intro sequence
  apply (ordered_futureInsert producerId isDone sequence).bind
  intro _
  apply (ordered_ask Int).bind
  intro numa
  exact ordered_guarded (under_empty _) (ordered_onImpl _)

/-! ## Readers -/

theorem ordered_viaPtfo (best : Btree.Best) (tids : List Nat) :
    (viaPtfo key best tids : Code τ Btree.Best).Ordered ∅ ∅ := by
  induction tids generalizing best with
  | nil => exact ordered_pure best
  | cons tid tids ih =>
      unfold viaPtfo
      apply ordered_get.bind
      intro s
      split
      · exact ih best
      · apply (ordered_section (ptfoMu tid) (under_empty 2)).bind
        exact ih

theorem ordered_globalContains [GlobalTree τ] :
    (globalContains key : Code τ Bool).Ordered ∅ ∅ := ordered_section treeMu (under_empty 1)

theorem ordered_contains [GlobalTree τ] : (contains key : Code τ Bool).Ordered ∅ ∅ := by
  unfold contains
  apply ordered_get.bind
  intro s
  apply (ordered_viaPtfo _ _).bind
  intro best
  cases best.state with
  | present => exact ordered_pure true
  | tombstone => exact ordered_pure false
  | absent => exact ordered_globalContains

theorem ordered_bufferedOwner : (bufferedOwner key : Code τ Int).Ordered ∅ ∅ := by
  unfold bufferedOwner
  apply ordered_get.bind
  intro s
  apply (ordered_viaPtfo _ _).bind
  intro best
  exact ordered_pure _

/-! ## Drains -/

theorem ordered_takeAll {pids : List Nat} (sorted : pids.Pairwise (· < ·))
    (above : ∀ x ∈ held, ∀ p ∈ pids, x < ptfoMu p) :
    (forEach (fun pid => take (ptfoMu pid)) pids : Code τ Unit).Ordered held
      (held ∪ ptfos pids) := by
  induction pids generalizing held with
  | nil =>
      have none : held ∪ ptfos [] = held := by simp [ptfos]
      rw [none]
      exact ordered_pure ()
  | cons p pids ih =>
      obtain ⟨least, sorted⟩ := List.pairwise_cons.mp sorted
      have above' : ∀ x ∈ insert (ptfoMu p) held, ∀ q ∈ pids, x < ptfoMu q := by
        intro x mem q hq
        rcases Set.mem_insert_iff.mp mem with rfl | mem
        · exact ptfoMu_lt (least q hq)
        · exact above x mem q (List.mem_cons_of_mem p hq)
      rw [ptfos_cons, Set.union_insert, ← Set.insert_union]
      apply (ordered_take fun x mem => above x mem p List.mem_cons_self).bind
      intro _
      exact ih sorted above'

theorem ordered_releaseAll {pids : List Nat} (nodup : pids.Nodup)
    (others : ∀ p ∈ pids, ptfoMu p ∉ held) :
    (forEach (fun pid => release (ptfoMu pid)) pids : Code τ Unit).Ordered
      (held ∪ ptfos pids) held := by
  induction pids with
  | nil =>
      have none : held ∪ ptfos [] = held := by simp [ptfos]
      rw [none]
      exact ordered_pure ()
  | cons p pids ih =>
      obtain ⟨once, nodup⟩ := List.nodup_cons.mp nodup
      obtain ⟨other, others⟩ := List.forall_mem_cons.mp others
      have apart : ptfoMu p ∉ held ∪ ptfos pids := by
        intro mem
        rcases mem with mem | ⟨q, hq, heq⟩
        · exact other mem
        · exact once (ptfoMu.inj heq ▸ hq)
      have left : (held ∪ ptfos (p :: pids)) \ {ptfoMu p} = held ∪ ptfos pids := by
        rw [ptfos_cons, Set.union_insert]
        exact Set.insert_sdiff_self_of_notMem apart
      have first : (release (ptfoMu p) : Code τ Unit).Ordered (held ∪ ptfos (p :: pids))
          ((held ∪ ptfos (p :: pids)) \ {ptfoMu p}) :=
        ordered_release (Or.inr ⟨p, List.mem_cons_self, rfl⟩)
      rw [left] at first
      apply first.bind
      intro _
      exact ih nodup others

theorem sorted_pids (nodup : producerIds.Nodup) :
    (stdSort (fun a b => decide (a < b)) producerIds).Pairwise (· < ·) := by
  have sorted := @pairwise_stdSort Nat (fun a b => decide (a < b)) (by simp; omega)
    (by simp; omega) producerIds
  have distinct : (stdSort (fun a b => decide (a < b)) producerIds).Nodup :=
    (List.perm_insertionSort _ _).nodup_iff.mpr nodup
  apply (sorted.and distinct).imp
  intro a b h
  have le : a ≤ b := not_lt.mp (of_decide_eq_false h.1)
  exact lt_of_le_of_ne le h.2

/-- A scope with the locks of some producers. -/
theorem ordered_withPtfoLocks {body : Code τ α} (nodup : producerIds.Nodup) (under : Under 2 held)
    (h : ∀ held', Under 3 held' → body.Ordered held' held') :
    (withPtfoLocks producerIds body).Ordered held held := by
  have sorted := sorted_pids nodup
  unfold withPtfoLocks
  generalize stdSort (fun a b => decide (a < b)) producerIds = pids at sorted
  have above : ∀ x ∈ held, ∀ p ∈ pids, x < ptfoMu p := fun x mem p _ => lt_of_family (under x mem)
  have inside : Under 3 (held ∪ ptfos pids) := by
    intro x mem
    rcases mem with mem | ⟨p, -, rfl⟩
    · exact (under x mem).trans (Nat.lt_succ_self 2)
    · exact Nat.lt_succ_self 2
  apply (ordered_takeAll sorted above).bind
  intro _
  apply (h _ inside).bind
  intro a
  apply (ordered_releaseAll sorted.nodup ?_).bind
  · intro _
    exact ordered_pure a
  · intro p _ mem
    exact lt_irrefl 2 (under _ mem)

theorem ordered_collectLookupEntries (under : Under 3 held) (tids : List Nat) :
    (collectLookupEntries tids : Code τ _).Ordered held held := by
  induction tids with
  | nil => exact ordered_pure []
  | cons tid tids ih =>
      unfold collectLookupEntries
      apply (ordered_section (lookupDirMu tid) under).bind
      intro entries
      apply ih.bind
      intro rest
      exact ordered_pure _

theorem ordered_futureClearLookupDirectory (under : Under 3 held) :
    (futureClearLookupDirectory : Code τ Unit).Ordered held held := by
  unfold futureClearLookupDirectory
  apply ordered_get.bind
  intro s
  apply ordered_forEach
  intro tid _
  exact ordered_guarded under (ordered_onTree _)

theorem ordered_futureClearLookupEntriesForProducers (under : Under 3 held) :
    (futureClearLookupEntriesForProducers producerIds : Code τ Unit).Ordered held held := by
  unfold futureClearLookupEntriesForProducers
  apply ordered_get.bind
  intro s
  apply ordered_forEach
  intro tid _
  apply ordered_onlyIf
  intro _
  exact ordered_guarded under (ordered_onTree _)

section Tree

variable [GlobalTree τ]

theorem ordered_replay (under : Under 3 held) (evaluatorSlots : Nat) :
    (replay producerIds evaluatorSlots : Code τ ReplayStats).Ordered held held := by
  unfold replay
  apply ordered_get.bind
  intro s
  cases s.impl.config.evaluatorPolicy with
  | kF3K => exact ordered_access _
  | kLegacyKeyPartitioned => exact ordered_access _
  | kDeterministicReplay => exact ordered_access _
  | kF3N | kLegacyNodePartitioned =>
      apply (ordered_collectLookupEntries under _).bind
      intro entries
      exact ordered_access _

/-- A replay and what follows it, under the locks of a drain. -/
theorem ordered_checkpoint {clear : Code τ Unit} (nodup : producerIds.Nodup)
    (replayed : List Nat) (evaluatorSlots : Nat)
    (h : ∀ held', Under 3 held' → clear.Ordered held' held') :
    (guarded .treeMu (withPtfoLocks producerIds do
        let replayStats ← replay replayed evaluatorSlots
        clear
        return replayStats) : Code τ ReplayStats).Ordered {mu} {mu} := by
  have outer : Under treeMu.family {mu} := by
    intro x mem
    rw [Set.mem_singleton_iff.mp mem]
    exact Nat.one_pos
  have inner : Under 2 (insert treeMu {mu}) := outer.insert (Nat.le_succ 1) (Nat.lt_succ_self 1)
  apply ordered_guarded outer
  apply ordered_withPtfoLocks nodup inner
  intro held' under
  apply (ordered_replay under evaluatorSlots).bind
  intro replayStats
  apply (h held' under).bind
  intro _
  exact ordered_pure replayStats

theorem ordered_drainLocked : (drainLocked : Code τ Unit).Ordered {mu} {mu} := by
  unfold drainLocked
  apply ordered_get.bind
  intro s
  apply ordered_onlyIf
  intro _
  apply (ordered_ask Int).bind
  intro numa
  apply (ordered_onImpl _).bind
  intro _
  apply (ordered_checkpoint List.nodup_range _ _ fun _ => ordered_futureClearLookupDirectory).bind
  intro replayStats
  exact ordered_onImpl _

theorem ordered_drainSlice (nodup : producerIds.Nodup) (evaluatorSlots : Nat) :
    (drainSlice producerIds evaluatorSlots : Code τ Unit).Ordered {mu} {mu} := by
  unfold drainSlice
  apply ordered_onlyIf
  intro _
  apply (ordered_ask Int).bind
  intro numa
  apply (ordered_onImpl _).bind
  intro _
  apply (ordered_checkpoint nodup _ _ fun _ => ordered_futureClearLookupEntriesForProducers).bind
  intro replayStats
  exact ordered_onImpl _

theorem ordered_drainLockedForNodes (nodeIds : List Nat) :
    (drainLockedForNodes nodeIds : Code τ Unit).Ordered {mu} {mu} := by
  unfold drainLockedForNodes
  apply ordered_get.bind
  intro s
  exact ordered_drainSlice (List.nodup_range.filter _) _

theorem ordered_drainLockedForProducers (nodup : producerIds.Nodup) :
    (drainLockedForProducers producerIds : Code τ Unit).Ordered {mu} {mu} := by
  unfold drainLockedForProducers
  apply ordered_get.bind
  intro s
  exact ordered_drainSlice (nodup.filter _) 1

/-! ## Evaluators -/

omit [GlobalTree τ] in
/-- Between two looks a wait holds no lock. -/
theorem ordered_wait {again : Code τ Bool} (h : again.Ordered {mu} {mu}) :
    (do release mu; take mu; again : Code τ Bool).Ordered {mu} {mu} := by
  have released : (release mu : Code τ Unit).Ordered {mu} ({mu} \ {mu}) :=
    ordered_release (Set.mem_singleton mu)
  have taken : (take mu : Code τ Unit).Ordered ∅ (insert mu ∅) := ordered_take nofun
  rw [Set.sdiff_self] at released
  rw [insert_empty_eq] at taken
  apply released.bind
  intro _
  apply taken.bind
  intro _
  exact h

omit [GlobalTree τ] in
theorem ordered_waitUntil (test : Shared τ → Bool) :
    (waitUntil test).Ordered {mu} {mu} := by
  unfold waitUntil
  apply ordered_repeatWhile
  apply ordered_get.bind
  intro s
  split
  · exact ordered_pure false
  · exact ordered_wait (ordered_pure true)

omit [GlobalTree τ] in
theorem ordered_waitFor (test : Shared τ → Bool) : (waitFor test).Ordered {mu} {mu} := by
  unfold waitFor
  apply ordered_repeatWhile
  apply ordered_get.bind
  intro s
  split
  · exact ordered_pure false
  · apply ordered_wait
    apply (ordered_ask Bool).bind
    intro timeout
    exact ordered_pure _

theorem ordered_evaluatorTurn (ownedNodes : List Nat) (nodup : producerIds.Nodup) (s : Shared τ) :
    (evaluatorTurn ownedNodes producerIds s).Ordered {mu} {mu} := by
  have nodes : (drainLockedForNodes ownedNodes : Code τ Unit).Ordered {mu} {mu} :=
    ordered_drainLockedForNodes ownedNodes
  have producers : (drainLockedForProducers producerIds : Code τ Unit).Ordered {mu} {mu} :=
    ordered_drainLockedForProducers nodup
  unfold evaluatorTurn
  split
  · exact ordered_waitUntil _
  split
  · exact nodes
  split
  · exact producers
  split
  · apply (ordered_waitFor _).bind
    intro _
    apply ordered_get.bind
    intro s
    apply ordered_onlyIf
    intro _
    split
    · exact nodes
    · exact producers
  · exact ordered_waitUntil _

theorem ordered_evaluatorLoop (workerId workerCount : Nat) :
    (evaluatorLoop workerId workerCount : Code τ Unit).Ordered ∅ ∅ := by
  have nodup : ∀ n, (Impl.producersForEvaluator workerId workerCount n).Nodup := by
    intro n
    unfold Impl.producersForEvaluator
    split
    · exact List.nodup_nil
    · exact List.nodup_range.sublist (List.drop_sublist _ _)
  unfold evaluatorLoop
  apply ordered_guarded (under_empty _)
  rw [insert_empty_eq]
  apply ordered_get.bind
  intro s
  apply ordered_repeatWhile
  apply ordered_get.bind
  intro s'
  split
  · exact ordered_pure false
  · apply (ordered_evaluatorTurn _ (nodup _) s').bind
    intro _
    exact ordered_pure true

theorem ordered_evaluatorWorker (i workerCount : Nat) :
    (evaluatorWorker i workerCount : Code τ Unit).Ordered ∅ ∅ := by
  unfold evaluatorWorker
  apply ordered_get.bind
  intro s
  apply (ordered_ask Bool).bind
  intro bound
  apply (ordered_onlyIf fun _ => ordered_guarded (under_empty _) (ordered_modify _)).bind
  intro _
  exact ordered_evaluatorLoop i workerCount

/-! ## Calls that drain -/

theorem ordered_drainPending : (drainPending : Code τ Unit).Ordered ∅ ∅ := by
  unfold drainPending
  apply ordered_guarded (under_empty _)
  rw [insert_empty_eq]
  exact ordered_drainLocked

theorem ordered_destructor : (destructor : Code τ Unit).Ordered ∅ ∅ := by
  unfold destructor
  apply ordered_guarded (under_empty _)
  rw [insert_empty_eq]
  apply ordered_get.bind
  intro s
  apply (ordered_onlyIf fun _ => ordered_drainLocked).bind
  intro _
  exact ordered_modify _

end Tree

end Ordered

end Code

section Threads

variable {τ ι : Type} [GlobalTree τ] [DecidableEq ι]

open Code

theorem ThreadCall.ordered (call : ThreadCall) : (call.prog : Code τ Unit).Ordered ∅ ∅ := by
  cases call with
  | bufferedInsert key p => exact ordered_enqueue p false
  | eraseBuffered key p => exact ordered_enqueue p true
  | contains key => exact ordered_contains.bind fun _ => ordered_pure ()
  | bufferedOwner key => exact ordered_bufferedOwner.bind fun _ => ordered_pure ()
  | globalContains key => exact ordered_globalContains.bind fun _ => ordered_pure ()
  | warmupInsert key => exact ordered_guarded (under_empty _) (ordered_onTree _)
  | pendingFutureNodes p =>
      exact (ordered_section Lock.mu (under_empty 0)).bind fun _ => ordered_pure ()
  | drainPending => exact ordered_drainPending
  | scanRange => exact ordered_drainPending
  | stats => exact (ordered_section Lock.mu (under_empty 0)).bind fun _ => ordered_pure ()
  | evaluatorWorker i n => exact ordered_evaluatorWorker i n
  | destructor => exact ordered_destructor

/-- However many threads run whatever calls of the wrapper, the workers and the destructor
included, no threads wait for each other in a circle. -/
theorem wrapper_no_deadlock {s : Shared τ} {w : World ι Lock (Shared τ)}
    (reach : Reachable ThreadCall.allowed s w) (threads : Finset ι) : ¬ w.Deadlocked threads := by
  apply World.no_deadlock (fun t p call => ?_) reach
  rcases call with ⟨call, rfl⟩
  exact call.ordered

/-- One thread reads the tree and another one waits to insert into it. -/
theorem wrapper_no_deadlock_two :
    ∃ w : World (Fin 2) Lock (Shared (Finset Int)), w.owner .treeMu = some 0 ∧
      w.Wants 1 .treeMu ∧ ¬ w.Deadlocked Finset.univ := by
  let s : Shared (Finset Int) :=
    ⟨.init {} ∅ Impl.dramSeqCounterResume 0, .kDefault, 0, fun _ => false, false, 0, 0, 0⟩
  have reads : @ThreadCall.allowed (Finset Int) (Fin 2) _ 0 (ThreadCall.globalContains 7).prog :=
    ⟨_, rfl⟩
  have writes : @ThreadCall.allowed (Finset Int) (Fin 2) _ 1 (ThreadCall.warmupInsert 9).prog :=
    ⟨_, rfl⟩
  have started : Reachable ThreadCall.allowed s _ := .tail .refl (.start (t := 0) rfl reads)
  have locked : Reachable ThreadCall.allowed s _ := started.tail (.lock (t := 0) rfl rfl)
  have waiting : Reachable ThreadCall.allowed s _ := locked.tail (.start (t := 1) rfl writes)
  exact ⟨_, rfl, ⟨_, rfl⟩, wrapper_no_deadlock waiting _⟩

end Threads

end F3Tree
