import F3Tree.Checkpoint
import F3Tree.ScanExact

/-!
# The wrapper on its tree

The wrapper calls its tree through `GlobalTree`.  Here that is the tree of pages: a
`PagedTree` has the form that calls on keys other than zero keep, so that every call comes
to an end.  A call with another key leaves these trees (`none`), and no run of the wrapper
on keys does (`Impl.onKeys_eventRun`).
-/

namespace F3Tree

open Keyed Fuel LastWriter

/-- A tree of pages in its form. -/
structure PagedTree : Type where
  tree : BTree
  formed : ∃ n row, tree.Rows n 0 row ∧ tree.Trails row none

namespace PagedTree

def empty (alloc : Allocator) : PagedTree :=
  ⟨.empty alloc, 0, _, (BTree.rows_empty alloc).1, BTree.trails_empty alloc⟩

section Calls

variable (t : PagedTree) {key : Int}

theorem inserts (hkey : TreeKey key) :
    ∃ t', Returns (fun fuel => t.tree.btreeInsert key key fuel) t' := by
  obtain ⟨n, row, rows, -⟩ := t.formed
  obtain ⟨t', -, -, returns, -⟩ := rows.inserts hkey
  exact ⟨t', returns⟩

/-- `btree_insert` -/
def insert (key : Int) (hkey : TreeKey key) : PagedTree where
  tree := answer _ (t.inserts hkey)
  formed := by
    obtain ⟨n, row, rows, trails⟩ := t.formed
    obtain ⟨n', row', rows', trails', -⟩ :=
      rows.inserts_trails trails hkey (returns_answer (t.inserts hkey))
    exact ⟨n', row', rows', trails'⟩

theorem searches (hkey : TreeKey key) : ∃ v, Returns (t.tree.btreeSearch key) v := by
  obtain ⟨n, row, rows, -⟩ := t.formed
  obtain ⟨before, s, after, home⟩ := rows.upward.home hkey.1
  exact ⟨_, rows.btreeSearch hkey.1 home⟩

/-- Whether `btree_search` returns a non-null pointer. -/
def found (key : Int) (hkey : TreeKey key) : Bool := answer _ (t.searches hkey) ≠ 0

/-- A deletion of what a search has found ends. -/
theorem deletes (hkey : TreeKey key) (found : t.found key hkey = true) :
    ∃ t', Returns (fun fuel => t.tree.btreeDelete key fuel) t' := by
  obtain ⟨n, row, rows, -⟩ := t.formed
  obtain ⟨before, s, after, home⟩ := rows.upward.home hkey.1
  have searched := answer_eq (BTree.steady_btreeSearch _ _) (t.searches hkey)
    (rows.btreeSearch hkey.1 home)
  rw [PagedTree.found, searched, decide_eq_true_iff] at found
  obtain ⟨has, apart⟩ := of_not_not fun hnot => found (if_neg hnot)
  obtain ⟨p, -, returns⟩ := rows.btreeDelete_found hkey.1 home has apart
  exact ⟨_, returns⟩

/-- `btree_delete` of what a search has found. -/
def delete (key : Int) (hkey : TreeKey key) (found : t.found key hkey = true) : PagedTree where
  tree := answer _ (t.deletes hkey found)
  formed := by
    obtain ⟨n, row, rows, trails⟩ := t.formed
    obtain ⟨fuel, hfuel⟩ := returns_answer (t.deletes hkey found)
    exact ⟨n, row, (rows.deletes hkey hfuel).1, rows.deletes_trails trails hkey hfuel⟩

end Calls

end PagedTree

/-- The wrapper deletes only what it has found. -/
instance : GlobalTree (Option PagedTree) where
  btreeInsert t key := t.bind fun t => if hkey : TreeKey key then some (t.insert key hkey) else none
  btreeSearch t key := t.any fun t => if hkey : TreeKey key then t.found key hkey else false
  btreeDelete t key := t.map fun t =>
    if h : ∃ hkey : TreeKey key, t.found key hkey = true then t.delete key h.1 h.2 else t

theorem applyOp_isSome {t : Option PagedTree} (some : t.isSome) {key : Int} (hkey : TreeKey key)
    (isDelete : Bool) : (Btree.applyOp t key isDelete).isSome := by
  obtain ⟨t, rfl⟩ := Option.isSome_iff_exists.mp some
  cases isDelete with
  | false =>
      simp only [Btree.applyOp, Bool.false_eq_true, if_false]
      exact congrArg Option.isSome (dif_pos hkey)
  | true =>
      simp only [Btree.applyOp, if_true]
      split
      · rfl
      · rfl

/-! ## Runs of the wrapper -/

namespace Btree

section Replay

variable {τ : Type} [GlobalTree τ] {b : Btree τ} {threads : PTFOThreads} {ids : List Nat}

/-- Draining producers performs operations of their chains, one after the other. -/
theorem exists_drainProducers (visited : b.Visited threads ids) (stats : ReplayStats) :
    ∃ ops : List FutureBufferedOp, (∀ op ∈ ops, op ∈ b.allPending) ∧
      (ids.foldl (drainProducer threads) (b, stats)).1.tree =
        ops.foldl applyBufferedOp b.tree := by
  induction ids generalizing b stats with
  | nil => exact ⟨[], by simp, rfl⟩
  | cons p ids ih =>
      obtain ⟨⟨hp, hskip⟩, visited⟩ := List.forall_mem_cons.mp visited
      rw [List.foldl_cons, drainProducer_eq hp hskip]
      have cleared := b.replayed_cleared ((b.pending p).foldl applyBufferedOp b.tree) p
      obtain ⟨ops, sub, tree⟩ := @ih { b with
        tree := (b.pending p).foldl applyBufferedOp b.tree
        localFut := Function.update b.localFut p (b.localFut p).cleared } visited
          { stats with appliedOps := stats.appliedOps + (b.pending p).length }
      refine ⟨b.pending p ++ ops, List.forall_mem_append.mpr ⟨fun op mem => ?_, fun op mem => ?_⟩,
        by rw [tree, List.foldl_append]⟩
      · exact mem_allPending.mpr (producerId_of_mem mem ▸ ⟨hp, mem⟩)
      · obtain ⟨hlt, mem⟩ := mem_allPending.mp (sub op mem)
        rw [cleared.pending] at mem
        split at mem
        · exact absurd mem List.not_mem_nil
        · exact mem_allPending.mpr ⟨hlt, mem⟩

end Replay

end Btree

namespace Impl

section Preserved

variable {τ : Type} [GlobalTree τ] {s s' : Impl τ} {ids cleared : List Nat}

/-- A drain performs buffered operations on the tree, one after the other. -/
theorem Drains.tree_eq (drains : s.Drains s' ids cleared) (active : s.Active ids) :
    ∃ ops : List FutureBufferedOp, (∀ op ∈ ops, op ∈ s.tree.allPending) ∧
      s'.tree.tree = ops.foldl Btree.applyBufferedOp s.tree.tree := by
  obtain ⟨slots, tree⟩ := drains.tree
  have partitioned : ∃ ops : List FutureBufferedOp, (∀ op ∈ ops, op ∈ s.tree.allPending) ∧
      (s.tree.applyKeyPartitionedPtfoReplay s.ptfoThreads ids slots).1.tree =
        ops.foldl Btree.applyBufferedOp s.tree.tree := by
    obtain ⟨order, perm, hreplay⟩ := s.tree.applyKeyPartitioned_eq s.ptfoThreads ids slots
    rw [hreplay]
    exact Btree.exists_drainProducers (fun p mem => active p (perm.mem_iff.mp mem)) {}
  have node : ∃ ops : List FutureBufferedOp, (∀ op ∈ ops, op ∈ s.tree.allPending) ∧
      (s.tree.applyNodeOrderedPtfoReplay s.ptfoThreads ids).1.tree =
        ops.foldl Btree.applyBufferedOp s.tree.tree := by
    rw [Btree.tree_applyNodeOrdered, Btree.tree_clear]
    exact ⟨_, fun op mem => Btree.nodeOrderedOps_sub active mem, rfl⟩
  rw [tree, replay]
  cases s.config.evaluatorPolicy
  · exact partitioned
  · exact node
  · simp only [Btree.tree_applyKeyOrdered, Btree.tree_clear]
    exact ⟨_, fun op mem => Btree.keyOrderedOps_sub active mem, rfl⟩
  · exact partitioned
  · exact node

end Preserved

/-- The calls of a run are on keys. -/
def EventOnKeys : Event → Prop
  | .call (.bufferedInsert key _ _) => TreeKey key
  | .call (.eraseBuffered key _ _) => TreeKey key
  | _ => True

/-- The wrapper has a tree of pages, and buffers operations on keys. -/
structure OnKeys (s : Impl (Option PagedTree)) : Prop where
  accounted : s.Accounted
  tree : s.tree.tree.isSome
  keys : ∀ op ∈ s.tree.allPending, TreeKey op.key

section OnKeys

variable {s s' : Impl (Option PagedTree)} {ids cleared : List Nat}

theorem foldl_isSome {ops : List FutureBufferedOp} (keys : ∀ op ∈ ops, TreeKey op.key)
    {t : Option PagedTree} (some : t.isSome) :
    (ops.foldl Btree.applyBufferedOp t).isSome := by
  induction ops generalizing t with
  | nil => exact some
  | cons op ops ih =>
      obtain ⟨hkey, keys⟩ := List.forall_mem_cons.mp keys
      exact ih keys (applyOp_isSome some hkey op.isDelete)

theorem OnKeys.drains (h : s.OnKeys) (drains : s.Drains s' ids cleared) (active : s.Active ids) :
    s'.OnKeys := by
  obtain ⟨ops, sub, tree⟩ := drains.tree_eq active
  refine ⟨h.accounted.drains drains, ?_, fun op mem => ?_⟩
  · rw [tree]
    exact foldl_isSome (fun op mem => h.keys op (sub op mem)) h.tree
  · exact h.keys op (drains.mem_allPending.mp mem).1

theorem OnKeys.drainPending (h : s.OnKeys) (numa : Int) :
    (s.drainPending numa).OnKeys ∧ (s.drainPending numa).tree.allPending = [] := by
  obtain ⟨cleared, drains, -⟩ := h.accounted.drains_drainPending numa
  have active := active_pendingProducers h.accounted.threads
  refine ⟨h.drains drains active, ?_⟩
  rw [List.eq_nil_iff_forall_not_mem]
  intro op mem
  obtain ⟨mem, notMem⟩ := drains.mem_allPending.mp mem
  obtain ⟨hp, mem⟩ := Btree.mem_allPending.mp mem
  rw [h.accounted.mem_pendingProducers hp notMem] at mem
  exact absurd mem List.not_mem_nil

theorem OnKeys.event (h : s.OnKeys) (e : Event) (keys : EventOnKeys e) : (s.event e).OnKeys := by
  have threads := h.accounted.threads
  have enqueued : ∀ op : Issue, TreeKey op.key → op.producerId < s.ptfoThreads.size → ∀ numa,
      (s.enqueued op.key op.producerId op.isDone numa).OnKeys := by
    intro op hkey hp numa
    have hp := threads ▸ hp
    refine ⟨h.accounted.enqueued hp, h.tree, fun o mem => ?_⟩
    rw [mem_allPending_enqueued hp, List.mem_append, List.mem_singleton] at mem
    rcases mem with mem | rfl
    · exact h.keys o mem
    · exact hkey
  cases e with
  | call c =>
      rcases s.call_cases c with ⟨op, numa, issue, hp, hcall⟩ | ⟨numa, rfl, hcall⟩ | ⟨-, hcall⟩
      · rw [Impl.event, hcall]
        refine enqueued op ?_ hp numa
        cases c with
        | bufferedInsert key p numa =>
            rw [Call.issue] at issue
            split at issue
            · obtain rfl := Option.some.inj issue
              exact keys
            · cases issue
        | eraseBuffered key p numa =>
            rw [Call.issue] at issue
            split at issue
            · obtain rfl := Option.some.inj issue
              exact keys
            · cases issue
        | drainPending numa => cases issue
      · rw [Impl.event, hcall]
        exact (h.drainPending numa).1
      · rw [Impl.event, hcall]
        exact h
  | checkpointProducers producerIds numa =>
      exact h.drains (drains_checkpointProducers threads producerIds numa)
        (active_activeProducers threads producerIds)
  | checkpointNodes nodeIds numa =>
      exact h.drains (drains_checkpointNodes threads nodeIds numa)
        (active_collectProducersForNodes threads nodeIds)

/-- Runs of the wrapper on keys. -/
theorem onKeys_eventRun {config : RuntimeConfig} (valid : validateRuntimeConfig config = .ok ())
    (alloc : Allocator) (resume nodes : Nat) (events : List Event)
    (keys : ∀ e ∈ events, EventOnKeys e) :
    ((init config (some (PagedTree.empty alloc)) resume nodes).eventRun events).OnKeys := by
  induction events using List.reverseRecOn with
  | nil =>
      refine ⟨accounted_init valid _ resume nodes, rfl, fun op mem => ?_⟩
      have mem : op ∈ (init config (some (PagedTree.empty alloc)) resume nodes).tree.allPending := mem
      rw [allPending_init] at mem
      exact absurd mem List.not_mem_nil
  | append_singleton events e ih =>
      obtain ⟨prior, last⟩ := List.forall_mem_append.mp keys
      rw [eventRun_concat]
      exact (ih prior).event e (last e (List.mem_singleton_self e))

end OnKeys

end Impl

end F3Tree
