import F3Tree.Buffered
import F3Tree.Replay

/-!
# What a replay leaves in the global tree

Each of the three replays empties the chains it is given and touches no
hashtable and no directory (`Replayed`).  They differ in what reaches the tree:

* the node-ordered replay gives a key the value of the newest operation of *all*
  chains when a replayed chain holds it, and leaves the key alone otherwise
  (`btreeSearch_applyNodeOrdered`);
* the key-ordered replay gives a key the value of the newest operation of the
  *replayed* chains (`btreeSearch_applyKeyOrdered`);
* the key-partitioned replay performs the logs of the replayed chains one after
  another (`btreeSearch_applyKeyPartitioned`).
-/

namespace F3Tree

open LastWriter

/-- The global tree answers as a set of keys does. -/
class LawfulTree (τ : Type) [GlobalTree τ] : Prop where
  search_insert (t : τ) (k k' : Int) :
    btreeSearch (btreeInsert t k) k' = (decide (k' = k) || btreeSearch t k')
  search_delete (t : τ) (k k' : Int) :
    btreeSearch (btreeDelete t k) k' = (decide (k' ≠ k) && btreeSearch t k')

instance : LawfulTree (Finset Int) where
  search_insert s k k' := by
    simp [btreeSearch, btreeInsert]
  search_delete s k k' := by
    simp [btreeSearch, btreeDelete]

/-! ## Sorting -/

section Sorting

variable {α : Type} {lt : α → α → Bool}

theorem mem_stdSort {l : List α} {a : α} : a ∈ stdSort lt l ↔ a ∈ l :=
  List.mem_insertionSort _

/-- A strict weak order sorts. -/
theorem pairwise_stdSort (asymm : ∀ a b, lt a b = true → lt b a = false)
    (trans : ∀ a b c, lt b a = false → lt c b = false → lt c a = false) (l : List α) :
    (stdSort lt l).Pairwise fun a b => lt b a = false := by
  have total : Std.Total fun a b => lt b a = false := ⟨fun a b => by
    rcases h : lt b a with _ | _
    · exact Or.inl rfl
    · exact Or.inr (asymm b a h)⟩
  have transitive : IsTrans α fun a b => lt b a = false := ⟨trans⟩
  exact List.pairwise_insertionSort _ l

end Sorting

namespace Btree

variable {τ : Type}

theorem lookupEntryLt_eq_false {a b : FutureLookupEntry} :
    lookupEntryLt b a = false ↔ a.key < b.key ∨ a.key = b.key ∧ a.sequence ≤ b.sequence := by
  rw [lookupEntryLt]
  split
  · rw [decide_eq_false_iff_not]
    omega
  · rw [decide_eq_false_iff_not]
    omega

theorem opLt_eq_false {a b : FutureBufferedOp} :
    opLt b a = false ↔
      a.sequence < b.sequence ∨ a.sequence = b.sequence ∧ a.producerId ≤ b.producerId := by
  rw [opLt]
  split
  · rw [decide_eq_false_iff_not]
    omega
  · rw [decide_eq_false_iff_not]
    omega

/-! ## The snapshot filter -/

/-- The invariant of the deduplication loop over a list sorted by key and
sequence. -/
structure Deduplicated (entries latest : List FutureLookupEntry) : Prop where
  increasing : latest.Pairwise fun a b => a.key < b.key
  greatest : ∀ e ∈ latest, e ∈ entries ∧
    ∀ e' ∈ entries, e'.key = e.key → e'.sequence ≤ e.sequence
  complete : ∀ e' ∈ entries, ∃ e ∈ latest, e.key = e'.key
  last : latest.getLast? = entries.getLast?

/-- An entry of a key above all others opens a new group. -/
theorem Deduplicated.push {entries latest : List FutureLookupEntry}
    {e : FutureLookupEntry} (h : Deduplicated entries latest)
    (hlt : ∀ e' ∈ entries, e'.key < e.key) :
    Deduplicated (entries ++ [e]) (latest ++ [e]) := by
  refine ⟨?_, ?_, ?_, by simp⟩
  · refine List.pairwise_append.mpr ⟨h.increasing, by simp, fun a ha b hb => ?_⟩
    rw [List.mem_singleton.mp hb]
    exact hlt a (h.greatest a ha).1
  · intro e₀ mem₀
    rcases List.mem_append.mp mem₀ with mem₀ | mem₀
    · obtain ⟨mem, top⟩ := h.greatest e₀ mem₀
      refine ⟨List.mem_append_left _ mem, fun e' mem' hk' => ?_⟩
      rcases List.mem_append.mp mem' with mem' | mem'
      · exact top e' mem' hk'
      · have := hlt e₀ mem
        rw [List.mem_singleton.mp mem'] at hk'
        omega
    · rw [List.mem_singleton.mp mem₀]
      refine ⟨by simp, fun e' mem' hk' => ?_⟩
      rcases List.mem_append.mp mem' with mem' | mem'
      · have := hlt e' mem'
        omega
      · rw [List.mem_singleton.mp mem']
  · intro e' mem'
    rcases List.mem_append.mp mem' with mem' | mem'
    · obtain ⟨e₀, mem₀, hk₀⟩ := h.complete e' mem'
      exact ⟨e₀, List.mem_append_left _ mem₀, hk₀⟩
    · exact ⟨e, by simp, by rw [List.mem_singleton.mp mem']⟩

/-- A newer entry of the last key takes the place of the last entry. -/
theorem Deduplicated.replace {entries init : List FutureLookupEntry}
    {back e : FutureLookupEntry} (h : Deduplicated entries (init ++ [back]))
    (hk : back.key = e.key)
    (newer : ∀ e' ∈ entries, e'.key = e.key → e'.sequence ≤ e.sequence) :
    Deduplicated (entries ++ [e]) (init ++ [e]) := by
  have increasing := List.pairwise_append.mp h.increasing
  have hback : ∀ a ∈ init, a.key < e.key := fun a ha =>
    hk ▸ increasing.2.2 a ha back List.mem_cons_self
  refine ⟨?_, ?_, ?_, by simp⟩
  · refine List.pairwise_append.mpr ⟨increasing.1, by simp, fun a ha b hb => ?_⟩
    rw [List.mem_singleton.mp hb]
    exact hback a ha
  · intro e₀ mem₀
    rcases List.mem_append.mp mem₀ with mem₀ | mem₀
    · obtain ⟨mem, top⟩ := h.greatest e₀ (List.mem_append_left _ mem₀)
      refine ⟨List.mem_append_left _ mem, fun e' mem' hk' => ?_⟩
      rcases List.mem_append.mp mem' with mem' | mem'
      · exact top e' mem' hk'
      · have := hback e₀ mem₀
        rw [List.mem_singleton.mp mem'] at hk'
        omega
    · rw [List.mem_singleton.mp mem₀]
      refine ⟨by simp, fun e' mem' hk' => ?_⟩
      rcases List.mem_append.mp mem' with mem' | mem'
      · exact newer e' mem' hk'
      · rw [List.mem_singleton.mp mem']
  · intro e' mem'
    rcases List.mem_append.mp mem' with mem' | mem'
    · obtain ⟨e₀, mem₀, hk₀⟩ := h.complete e' mem'
      rcases List.mem_append.mp mem₀ with mem₀ | mem₀
      · exact ⟨e₀, List.mem_append_left _ mem₀, hk₀⟩
      · rw [List.mem_singleton.mp mem₀, hk] at hk₀
        exact ⟨e, by simp, hk₀⟩
    · exact ⟨e, by simp, by rw [List.mem_singleton.mp mem']⟩

theorem deduplicated_foldl {entries : List FutureLookupEntry}
    (sorted : entries.Pairwise fun a b => lookupEntryLt b a = false) :
    Deduplicated entries (entries.foldl pushLatest []) := by
  induction entries using List.reverseRecOn with
  | nil => exact ⟨.nil, by simp, by simp, rfl⟩
  | append_singleton entries e ih =>
      rw [List.pairwise_append] at sorted
      have below : ∀ e' ∈ entries, e'.key < e.key ∨ e'.key = e.key ∧
          e'.sequence ≤ e.sequence := fun e' mem =>
        lookupEntryLt_eq_false.mp (sorted.2.2 e' mem e List.mem_cons_self)
      have h := ih sorted.1
      rw [List.foldl_append, List.foldl_cons, List.foldl_nil]
      generalize entries.foldl pushLatest [] = latest at h
      rcases hlast : latest.getLast? with _ | back
      · have hentries : entries = [] := by
          rw [← List.getLast?_eq_none_iff, ← h.last, hlast]
        rw [pushLatest, hlast]
        exact h.push (by simp [hentries])
      obtain ⟨init, rfl⟩ : ∃ init, latest = init ++ [back] :=
        List.getLast?_eq_some_iff.mp hlast
      rw [pushLatest, hlast]
      by_cases hk : back.key = e.key
      · simp only [ne_eq, hk, not_true_eq_false, if_false, List.dropLast_concat]
        refine h.replace hk fun e' mem hk' => ?_
        have := below e' mem
        omega
      · simp only [ne_eq, hk, not_false_eq_true, if_true]
        refine h.push fun e' mem => ?_
        -- The last entry has the greatest key so far.
        obtain ⟨e₀, mem₀, hk₀⟩ := h.complete e' mem
        have hle : e₀.key ≤ back.key := by
          rcases List.mem_append.mp mem₀ with mem₀ | mem₀
          · exact ((List.pairwise_append.mp h.increasing).2.2 e₀ mem₀ back
              List.mem_cons_self).le
          · rw [List.mem_singleton.mp mem₀]
        have := below back (h.greatest back (by simp)).1
        omega

/-- The snapshot holds, for each key, the newest entry of all directories. -/
theorem find_collectLatest {b : Btree τ} {key : Int}
    (distinct : DistinctAt b.futureCollectLookupEntries key) :
    (b.collectLatestLookupEntries.find? fun e => e.key = key) =
      newest b.futureCollectLookupEntries key := by
  have sorted : (stdSort lookupEntryLt b.futureCollectLookupEntries).Pairwise
      fun a b => lookupEntryLt b a = false := by
    refine pairwise_stdSort (fun a b h => ?_) (fun a b c hab hbc => ?_) _
    · rw [← Bool.not_eq_false, lookupEntryLt_eq_false] at h
      rw [lookupEntryLt_eq_false]
      omega
    · rw [lookupEntryLt_eq_false] at *
      omega
  have h := deduplicated_foldl sorted
  rw [collectLatestLookupEntries]
  rcases top : newest b.futureCollectLookupEntries key with _ | e
  · rw [newest_eq_none_iff] at top
    rw [List.find?_eq_none]
    intro e mem
    simpa using top e (mem_stdSort.mp (h.greatest e mem).1)
  · rw [newest_eq_some_iff distinct] at top
    obtain ⟨e₀, mem₀, hk₀⟩ := h.complete e (mem_stdSort.mpr top.1)
    obtain ⟨mem, greatest⟩ := h.greatest e₀ mem₀
    have heq : e₀ = e := by
      refine distinct e₀ (mem_stdSort.mp mem) e top.1 (hk₀.trans top.2.1) top.2.1 ?_
      exact Nat.le_antisymm (top.2.2 e₀ (mem_stdSort.mp mem) (hk₀.trans top.2.1))
        (greatest e (mem_stdSort.mpr top.1) hk₀.symm)
    subst heq
    obtain ⟨before, after, split⟩ := List.append_of_mem mem₀
    rw [List.find?_eq_some_iff_append]
    refine ⟨by simpa using top.2.1, before, after, split, fun a ha => ?_⟩
    have increasing := h.increasing
    rw [split, List.pairwise_append] at increasing
    have hlt : a.key < e₀.key := increasing.2.2 a ha e₀ List.mem_cons_self
    have hkey : e₀.key = key := top.2.1
    simp
    omega

/-- Over a snapshot, the filter passes exactly the newest operation of the key. -/
theorem isLatest_iff {b : Btree τ} {key : Int} (snap : b.Snapshot key)
    (distinct : DistinctStamps b.allPending) {op : FutureBufferedOp}
    (mem : op ∈ b.allPending) (hk : op.key = key) :
    isLatestBufferedOp op b.collectLatestLookupEntries = true ↔
      newest b.allPending key = some op := by
  have entries : DistinctAt b.futureCollectLookupEntries key :=
    distinctAt_lookupEntries snap.sound distinct
  have hfind := find_collectLatest entries
  rw [snap.newest_lookupEntries distinct] at hfind
  rw [isLatestBufferedOp, hk, hfind]
  rcases top : newest b.allPending key with _ | top'
  · exact absurd hk (newest_eq_none_iff.mp top op mem)
  · simp only [Option.map_some, FutureBufferedOp.lookupEntry, Bool.and_eq_true,
      decide_eq_true_eq, Option.some.injEq]
    constructor
    · exact fun h => distinct top' (mem_of_newest top) op mem h.1
    · rintro rfl
      exact ⟨rfl, rfl⟩

/-- The filter passes no operation that its own producer's directory does not
record. -/
theorem mem_collect_of_isLatest {b : Btree τ} {op : FutureBufferedOp}
    (sound : ∀ tid < b.nThreads, ∀ e ∈ (b.futureLookupDirectory tid).collect,
      e.key = op.key → ∃ op', newest (b.pending tid) op.key = some op' ∧ op'.lookupEntry = e)
    (distinct : DistinctStamps b.allPending) (mem : op ∈ b.allPending)
    (pass : isLatestBufferedOp op b.collectLatestLookupEntries = true) :
    op.lookupEntry ∈ (b.futureLookupDirectory op.producerId).collect := by
  rw [isLatestBufferedOp, find_collectLatest (distinctAt_lookupEntries sound distinct)] at pass
  rcases top : newest b.futureCollectLookupEntries op.key with _ | e
  · simp [top] at pass
  · simp only [top, Bool.and_eq_true, decide_eq_true_eq] at pass
    obtain ⟨op', hop', -, rfl, hdir⟩ :=
      exists_of_mem_lookupEntries sound (mem_of_newest top) (key_of_newest top)
    have same : op' = op := distinct op' hop' op mem pass.1
    exact same ▸ hdir

/-! ## Frames -/

/-- A replay has emptied the chains of `ids` and left the other chains, the
hashtables and the directories alone. -/
structure Replayed (b b' : Btree τ) (ids : List Nat) : Prop where
  nThreads : b'.nThreads = b.nThreads
  hash : b'.hash = b.hash
  dir : b'.futureLookupDirectory = b.futureLookupDirectory
  pending : ∀ p, b'.pending p = if p ∈ ids then [] else b.pending p

theorem Replayed.trans {b b' b'' : Btree τ} {ids ids' : List Nat}
    (h : b.Replayed b' ids) (h' : b'.Replayed b'' ids') :
    b.Replayed b'' (ids ++ ids') := by
  refine ⟨h'.nThreads.trans h.nThreads, h'.hash.trans h.hash, h'.dir.trans h.dir, fun p => ?_⟩
  rw [h'.pending, h.pending]
  by_cases hp : p ∈ ids' <;> simp [hp]

theorem Replayed.congr {b b' : Btree τ} {ids ids' : List Nat} (h : b.Replayed b' ids)
    (same : ∀ p, p ∈ ids ↔ p ∈ ids') : b.Replayed b' ids' :=
  ⟨h.nThreads, h.hash, h.dir, fun p => by simp only [h.pending, same]⟩

theorem pending_of_localFut {b b' : Btree τ} {p : Nat}
    (h : b'.localFut p = b.localFut p) : b'.pending p = b.pending p := by
  simp [Btree.pending, h]

/-- Producers that a replay visits: configured, and with accounted entries. -/
def Visited (b : Btree τ) (threads : PTFOThreads) (ids : List Nat) : Prop :=
  ∀ p ∈ ids, p < b.nThreads ∧ threads.skips p = false

/-- Dismantling one chain, whatever happens to the tree. -/
theorem replayed_cleared (b : Btree τ) (tree : τ) (p : Nat) :
    b.Replayed
      { b with tree := tree, localFut := Function.update b.localFut p (b.localFut p).cleared }
      [p] := by
  refine ⟨rfl, rfl, rfl, fun q => ?_⟩
  by_cases hq : q = p
  · subst hq
    simp [Btree.pending]
  · simp [hq, Btree.pending]

theorem replayed_clear (threads : PTFOThreads) :
    ∀ (ids : List Nat) (b : Btree τ), b.Visited threads ids →
      b.Replayed (b.clearPtfoThreadsForProducers threads ids) ids
  | [], b, _ => ⟨rfl, rfl, rfl, by simp [clearPtfoThreadsForProducers]⟩
  | p :: ids, b, visited => by
      obtain ⟨hp, hskip⟩ := visited p List.mem_cons_self
      have hclear : b.futureClearThread p =
          { b with localFut := Function.update b.localFut p (b.localFut p).cleared } :=
        if_neg (Nat.not_le.mpr hp)
      have hstep : b.clearPtfoThreadsForProducers threads (p :: ids) =
          (b.futureClearThread p).clearPtfoThreadsForProducers threads ids := by
        simp [clearPtfoThreadsForProducers, hskip]
      rw [hstep, hclear]
      exact (b.replayed_cleared b.tree p).trans (replayed_clear threads ids _ fun q hq =>
        visited q (List.mem_cons_of_mem _ hq))

theorem tree_clear (threads : PTFOThreads) (ids : List Nat) (b : Btree τ) :
    (b.clearPtfoThreadsForProducers threads ids).tree = b.tree := by
  induction ids generalizing b with
  | nil => rfl
  | cons p ids ih =>
      rw [clearPtfoThreadsForProducers, List.foldl_cons]
      refine (ih _).trans ?_
      split
      · rfl
      · rw [futureClearThread]
        split <;> rfl

/-! ## Performing operations on the tree -/

section Tree

variable [GlobalTree τ] [LawfulTree τ]

theorem btreeSearch_applyBufferedOp (t : τ) (op : FutureBufferedOp) :
    btreeSearch (applyBufferedOp t op) =
      Function.update (btreeSearch t) op.key (!op.isDelete) := by
  funext k
  rw [applyBufferedOp, applyOp]
  cases hdel : op.isDelete
  · rw [if_neg Bool.false_ne_true, LawfulTree.search_insert]
    by_cases hk : k = op.key <;> simp [hk]
  · rw [if_pos rfl]
    split
    · rw [LawfulTree.search_delete]
      by_cases hk : k = op.key <;> simp [hk]
    · rename_i absent
      by_cases hk : k = op.key
      · simpa [hk] using absent
      · simp [hk]

/-- A tree reads a list of operations as writes of membership. -/
theorem btreeSearch_foldl (ops : List FutureBufferedOp) (t : τ) :
    btreeSearch (ops.foldl applyBufferedOp t) = applyAll (btreeSearch t) ops := by
  induction ops generalizing t with
  | nil => rfl
  | cons op ops ih =>
      rw [List.foldl_cons, ih, btreeSearch_applyBufferedOp]
      rfl

/-! ### F3-N -/

omit [LawfulTree τ] in
theorem foldl_replayNode (latest : List FutureLookupEntry)
    (nodes : List FutureBufferedNode) (acc : τ × ReplayStats) :
    nodes.foldl (replayNode latest) acc =
      let ops := (nodes.flatMap FutureBufferedNode.ops).filter (isLatestBufferedOp · latest)
      (ops.foldl applyBufferedOp acc.1,
        ⟨acc.2.appliedOps + ops.length, acc.2.replayedNodes + nodes.length⟩) := by
  have inner : ∀ (ops : List FutureBufferedOp) (acc : τ × ReplayStats),
      ops.foldl
        (fun (acc : τ × ReplayStats) op =>
          if isLatestBufferedOp op latest then
            (applyBufferedOp acc.1 op, { acc.2 with appliedOps := acc.2.appliedOps + 1 })
          else acc) acc =
        ((ops.filter (isLatestBufferedOp · latest)).foldl applyBufferedOp acc.1,
          ⟨acc.2.appliedOps + (ops.filter (isLatestBufferedOp · latest)).length,
            acc.2.replayedNodes⟩) := by
    intro ops
    induction ops with
    | nil => intro acc; rfl
    | cons op ops ih =>
        intro acc
        rw [List.foldl_cons, ih]
        by_cases h : isLatestBufferedOp op latest = true
        · simp [h]
          omega
        · simp [h]
  induction nodes generalizing acc with
  | nil => rfl
  | cons node nodes ih =>
      rw [List.foldl_cons, replayNode, inner, ih]
      simp [List.filter_append, List.foldl_append]
      omega

/-- The operations that the node-ordered replay performs, in order. -/
def nodeOrderedOps (b : Btree τ) (threads : PTFOThreads) (ids : List Nat) :
    List FutureBufferedOp :=
  ((stdSort nodeLt (b.collectPendingNodes threads ids)).flatMap
    FutureBufferedNode.ops).filter (isLatestBufferedOp · b.collectLatestLookupEntries)

omit [LawfulTree τ] in
theorem tree_applyNodeOrdered (b : Btree τ) (threads : PTFOThreads) (ids : List Nat) :
    b.applyNodeOrderedPtfoReplay threads ids =
      (clearPtfoThreadsForProducers
          { b with tree := (b.nodeOrderedOps threads ids).foldl applyBufferedOp b.tree }
          threads ids,
        ⟨(b.nodeOrderedOps threads ids).length,
          (b.collectPendingNodes threads ids).length⟩) := by
  rw [applyNodeOrderedPtfoReplay, foldl_replayNode]
  simp [nodeOrderedOps, stdSort]

omit [GlobalTree τ] [LawfulTree τ] in
theorem mem_collectPendingNodes {b : Btree τ} {threads : PTFOThreads} {ids : List Nat}
    (visited : b.Visited threads ids) {op : FutureBufferedOp} :
    (∃ node ∈ b.collectPendingNodes threads ids, op ∈ node.ops) ↔
      op.producerId ∈ ids ∧ op ∈ b.pending op.producerId := by
  have nodesOf : ∀ p ∈ ids,
      ((∃ node ∈ (if threads.skips p then [] else b.futureCollectNodes p),
        op ∈ node.ops) ↔ op ∈ b.pending p) := by
    intro p mem
    obtain ⟨hp, hskip⟩ := visited p mem
    simp only [hskip, Bool.false_eq_true, if_false, futureCollectNodes,
      if_neg (Nat.not_le.mpr hp), List.mem_map]
    rw [← mem_chainOps, chainOps, List.mem_flatMap]
    constructor
    · rintro ⟨_, ⟨node, hnode, rfl⟩, hop⟩
      exact ⟨node, hnode, hop⟩
    · rintro ⟨node, hnode, hop⟩
      exact ⟨_, ⟨node, hnode, rfl⟩, hop⟩
  simp only [collectPendingNodes, List.mem_flatMap]
  constructor
  · rintro ⟨node, ⟨p, mem, hnode⟩, hop⟩
    have hmem := (nodesOf p mem).mp ⟨node, hnode, hop⟩
    rw [producerId_of_mem hmem]
    exact ⟨mem, hmem⟩
  · rintro ⟨mem, hop⟩
    obtain ⟨node, hnode, hop⟩ := (nodesOf _ mem).mpr hop
    exact ⟨node, ⟨_, mem, hnode⟩, hop⟩

theorem search_applyNodeOrdered (b : Btree τ) (threads : PTFOThreads) (ids : List Nat) :
    btreeSearch (b.applyNodeOrderedPtfoReplay threads ids).1.tree =
      applyAll (btreeSearch b.tree) (b.nodeOrderedOps threads ids) := by
  rw [tree_applyNodeOrdered, ← btreeSearch_foldl]
  congr 1
  exact tree_clear ..

omit [GlobalTree τ] [LawfulTree τ] in
theorem mem_allPending_of_visited {b : Btree τ} {threads : PTFOThreads} {ids : List Nat}
    (visited : b.Visited threads ids) {op : FutureBufferedOp} (mem : op.producerId ∈ ids)
    (hop : op ∈ b.pending op.producerId) : op ∈ b.allPending :=
  mem_allPending.mpr ⟨(visited _ mem).1, hop⟩

omit [GlobalTree τ] [LawfulTree τ] in
theorem nodeOrderedOps_sub {b : Btree τ} {threads : PTFOThreads} {ids : List Nat}
    (visited : b.Visited threads ids) {op : FutureBufferedOp}
    (mem : op ∈ b.nodeOrderedOps threads ids) : op ∈ b.allPending := by
  obtain ⟨node, hnode, hop⟩ := List.mem_flatMap.mp (List.mem_filter.mp mem).1
  obtain ⟨mem, hop⟩ := (mem_collectPendingNodes visited).mp ⟨node, mem_stdSort.mp hnode, hop⟩
  exact mem_allPending_of_visited visited mem hop

/-- F3-N gives a key the newest value of all chains when a replayed chain holds
it, and leaves the key alone otherwise. -/
theorem btreeSearch_applyNodeOrdered {b : Btree τ} {threads : PTFOThreads}
    {ids : List Nat} (visited : b.Visited threads ids) {key : Int}
    (snap : b.Snapshot key) (distinct : DistinctStamps b.allPending) :
    btreeSearch (b.applyNodeOrderedPtfoReplay threads ids).1.tree key =
      match newest b.allPending key with
      | some op => if op.producerId ∈ ids then !op.isDelete else btreeSearch b.tree key
      | none => btreeSearch b.tree key := by
  set ops := (stdSort nodeLt (b.collectPendingNodes threads ids)).flatMap
    FutureBufferedNode.ops with hops
  have memOps : ∀ op, op ∈ ops ↔ op.producerId ∈ ids ∧ op ∈ b.pending op.producerId := by
    intro op
    rw [hops, List.mem_flatMap, ← mem_collectPendingNodes visited]
    simp only [mem_stdSort]
  have within : ∀ op ∈ ops, op ∈ b.allPending := fun op mem => by
    obtain ⟨mem, hop⟩ := (memOps op).mp mem
    exact mem_allPending_of_visited visited mem hop
  have filtered : ∀ op ∈ ops, Write.key op = key →
      (isLatestBufferedOp op b.collectLatestLookupEntries = true ↔
        newest b.allPending key = some op) := fun op mem hk =>
    isLatest_iff snap distinct (within op mem) hk
  rw [search_applyNodeOrdered, nodeOrderedOps, ← hops]
  rcases top : newest b.allPending key with _ | op
  · exact applyAll_filter_newest_of_not_mem filtered _ (by simp [top])
  · simp only
    split
    · rename_i mem
      refine applyAll_filter_newest_of_mem filtered _ top ((memOps op).mpr ⟨mem, ?_⟩)
      exact (mem_allPending.mp (mem_of_newest top)).2
    · rename_i notMem
      refine applyAll_filter_newest_of_not_mem filtered _ fun w hw hmem => ?_
      rw [top, Option.some.injEq] at hw
      exact notMem (hw ▸ ((memOps w).mp hmem).1)

/-! ### Deterministic replay -/

/-- The operations that the key-ordered replay performs, in order. -/
def keyOrderedOps (b : Btree τ) (threads : PTFOThreads) (ids : List Nat) :
    List FutureBufferedOp :=
  stdSort opLt (b.collectPendingOps threads ids)

omit [LawfulTree τ] in
theorem tree_applyKeyOrdered (b : Btree τ) (threads : PTFOThreads) (ids : List Nat) :
    b.applyKeyOrderedPtfoReplay threads ids =
      (clearPtfoThreadsForProducers
          { b with tree := (b.keyOrderedOps threads ids).foldl applyBufferedOp b.tree }
          threads ids,
        ⟨(b.keyOrderedOps threads ids).length, 0⟩) := by
  have loop : ∀ (ops : List FutureBufferedOp) (acc : τ × ReplayStats),
      ops.foldl
        (fun (acc : τ × ReplayStats) op =>
          (applyBufferedOp acc.1 op, { acc.2 with appliedOps := acc.2.appliedOps + 1 }))
        acc =
        (ops.foldl applyBufferedOp acc.1,
          ⟨acc.2.appliedOps + ops.length, acc.2.replayedNodes⟩) := by
    intro ops
    induction ops with
    | nil => intro acc; rfl
    | cons op ops ih =>
        intro acc
        rw [List.foldl_cons, ih]
        simp only [List.foldl_cons, List.length_cons, Prod.mk.injEq, ReplayStats.mk.injEq,
          true_and, and_true]
        omega
  rw [applyKeyOrderedPtfoReplay, ← keyOrderedOps, loop]
  simp

omit [GlobalTree τ] [LawfulTree τ] in
theorem mem_collectPendingOps {b : Btree τ} {threads : PTFOThreads} {ids : List Nat}
    (visited : b.Visited threads ids) {op : FutureBufferedOp} :
    op ∈ b.collectPendingOps threads ids ↔
      op.producerId ∈ ids ∧ op ∈ b.pending op.producerId := by
  have opsOf : ∀ p ∈ ids,
      (op ∈ (if threads.skips p then [] else b.futureCollectOps p) ↔
        op ∈ b.pending p) := by
    intro p mem
    obtain ⟨hp, hskip⟩ := visited p mem
    simp only [hskip, Bool.false_eq_true, if_false, futureCollectOps,
      if_neg (Nat.not_le.mpr hp)]
    exact mem_chainOps
  simp only [collectPendingOps, List.mem_flatMap]
  constructor
  · rintro ⟨p, mem, hop⟩
    have hmem := (opsOf p mem).mp hop
    rw [producerId_of_mem hmem]
    exact ⟨mem, hmem⟩
  · rintro ⟨mem, hop⟩
    exact ⟨_, mem, (opsOf _ mem).mpr hop⟩

theorem search_applyKeyOrdered (b : Btree τ) (threads : PTFOThreads) (ids : List Nat) :
    btreeSearch (b.applyKeyOrderedPtfoReplay threads ids).1.tree =
      applyAll (btreeSearch b.tree) (b.keyOrderedOps threads ids) := by
  rw [tree_applyKeyOrdered, ← btreeSearch_foldl]
  congr 1
  exact tree_clear ..

omit [GlobalTree τ] [LawfulTree τ] in
theorem keyOrderedOps_sub {b : Btree τ} {threads : PTFOThreads} {ids : List Nat}
    (visited : b.Visited threads ids) {op : FutureBufferedOp}
    (mem : op ∈ b.keyOrderedOps threads ids) : op ∈ b.allPending := by
  rw [keyOrderedOps, mem_stdSort, mem_collectPendingOps visited] at mem
  exact mem_allPending_of_visited visited mem.1 mem.2

/-- The deterministic replay gives a key the newest value of the replayed chains. -/
theorem btreeSearch_applyKeyOrdered {b : Btree τ} {threads : PTFOThreads}
    {ids : List Nat} (visited : b.Visited threads ids)
    (distinct : DistinctStamps b.allPending) (key : Int) :
    btreeSearch (b.applyKeyOrderedPtfoReplay threads ids).1.tree key =
      resolve (btreeSearch b.tree key) (newest (ids.flatMap b.pending) key) := by
  have memOps : ∀ op, op ∈ b.keyOrderedOps threads ids ↔ op ∈ ids.flatMap b.pending := by
    intro op
    rw [keyOrderedOps, mem_stdSort, mem_collectPendingOps visited, List.mem_flatMap]
    constructor
    · exact fun ⟨mem, hop⟩ => ⟨_, mem, hop⟩
    · rintro ⟨p, mem, hop⟩
      rw [producerId_of_mem hop]
      exact ⟨mem, hop⟩
  have sorted : (b.keyOrderedOps threads ids).Pairwise fun a c => a.sequence ≤ c.sequence := by
    refine (pairwise_stdSort (fun a c h => ?_) (fun a c d hac hcd => ?_) _).imp fun h => ?_
    · rw [← Bool.not_eq_false, opLt_eq_false] at h
      rw [opLt_eq_false]
      omega
    · rw [opLt_eq_false] at *
      omega
    · rw [opLt_eq_false] at h
      omega
  have distinctOps : DistinctAt (b.keyOrderedOps threads ids) key :=
    (distinct.at key).mono fun op mem => keyOrderedOps_sub visited mem
  rw [search_applyKeyOrdered, applyAll_of_sorted sorted _ distinctOps,
    newest_congr distinctOps fun op _ => memOps op]

/-! ### F3-K -/

omit [LawfulTree τ] in
theorem drainNodes_eq (nodes : List FutureNode) (t : τ) :
    drainNodes t nodes =
      ((nodes.flatMap FutureNode.entries).foldl (fun t e => applyOp t e.key e.isDelete) t,
        (nodes.flatMap FutureNode.entries).length) := by
  induction nodes generalizing t with
  | nil => rfl
  | cons node nodes ih =>
      rw [drainNodes, ih]
      simp [FutureNode.entryCount]

omit [LawfulTree τ] in
/-- A drain from the tail performs the producer's log. -/
theorem futureDrainThreadFromTail_eq {b : Btree τ} {tid : Nat} (htid : tid < b.nThreads) :
    b.futureDrainThreadFromTail tid =
      ({ b with
          tree := (b.pending tid).foldl applyBufferedOp b.tree
          localFut := Function.update b.localFut tid (b.localFut tid).cleared },
        (b.pending tid).length) := by
  rw [futureDrainThreadFromTail, if_neg (Nat.not_le.mpr htid), drainNodes_eq]
  simp [pending, LocalFut.log, List.foldl_map, applyBufferedOp]

omit [LawfulTree τ] in
theorem drainProducer_eq {b : Btree τ} {threads : PTFOThreads} {p : Nat}
    (hp : p < b.nThreads) (hskip : threads.skips p = false) (stats : ReplayStats) :
    drainProducer threads (b, stats) p =
      ({ b with
          tree := (b.pending p).foldl applyBufferedOp b.tree
          localFut := Function.update b.localFut p (b.localFut p).cleared },
        { stats with appliedOps := stats.appliedOps + (b.pending p).length }) := by
  rw [drainProducer, hskip, if_neg Bool.false_ne_true, futureDrainThreadFromTail_eq hp]

omit [LawfulTree τ] in
theorem replayed_drainProducers (threads : PTFOThreads) :
    ∀ (ids : List Nat) (b : Btree τ) (stats : ReplayStats), b.Visited threads ids →
      b.Replayed (ids.foldl (drainProducer threads) (b, stats)).1 ids
  | [], b, _, _ => ⟨rfl, rfl, rfl, by simp⟩
  | p :: ids, b, stats, visited => by
      obtain ⟨hp, hskip⟩ := visited p List.mem_cons_self
      rw [List.foldl_cons, drainProducer_eq hp hskip]
      exact (b.replayed_cleared _ p).trans (replayed_drainProducers threads ids _ _
        fun q hq => visited q (List.mem_cons_of_mem _ hq))

omit [LawfulTree τ] in
/-- Draining some producers one after another performs their logs in that order. -/
theorem tree_drainProducers (threads : PTFOThreads) (ids : List Nat) (b : Btree τ)
    (stats : ReplayStats) (visited : b.Visited threads ids) (nodup : ids.Nodup) :
    (ids.foldl (drainProducer threads) (b, stats)).1.tree =
      (ids.flatMap b.pending).foldl applyBufferedOp b.tree := by
  induction ids generalizing b stats with
  | nil => rfl
  | cons p ids ih =>
      obtain ⟨hp, hskip⟩ := visited p List.mem_cons_self
      obtain ⟨notMem, nodup⟩ := List.nodup_cons.mp nodup
      rw [List.foldl_cons, drainProducer_eq hp hskip]
      rw [ih _ _ ?visited nodup, List.flatMap_cons, List.foldl_append]
      case visited => exact fun q hq => visited q (List.mem_cons_of_mem _ hq)
      congr 1
      refine List.flatMap_congr fun q hq => ?_
      rw [(b.replayed_cleared _ p).pending, if_neg]
      exact fun mem => notMem (List.mem_singleton.mp mem ▸ hq)

/-- Sorting a list into numbered slots rearranges it. -/
theorem flatMap_slots_perm {α : Type} (f : α → Nat) (l : List α) :
    ∀ n, ((List.range n).flatMap fun slot => l.filter fun a => f a = slot).Perm
      (l.filter fun a => f a < n)
  | 0 => by simp
  | n + 1 => by
      rw [List.range_succ, List.flatMap_append, List.flatMap_singleton]
      refine ((flatMap_slots_perm f l n).append_right _).trans ?_
      have split := List.filter_append_perm (fun a => decide (f a < n))
        (l.filter fun a => f a < n + 1)
      rw [List.filter_filter, List.filter_filter] at split
      convert split using 2
      · refine List.filter_congr fun a _ => ?_
        rw [Bool.eq_iff_iff]
        simp
        omega
      · refine List.filter_congr fun a _ => ?_
        rw [Bool.eq_iff_iff]
        simp
        omega

theorem slotOf_lt {evaluatorSlots : Nat} (pos : 0 < evaluatorSlots) (nProducers i : Nat) :
    slotOf nProducers evaluatorSlots i < evaluatorSlots := by
  rw [slotOf]
  split <;> split <;> omega

/-- The slots of F3-K hold every producer once. -/
theorem slotProducers_perm (ids : List Nat) {evaluatorSlots : Nat}
    (pos : 0 < evaluatorSlots) :
    ((List.range evaluatorSlots).flatMap (slotProducers ids evaluatorSlots)).Perm ids := by
  have slots := flatMap_slots_perm (fun p : Nat × Nat =>
    slotOf ids.length evaluatorSlots p.2) ids.zipIdx evaluatorSlots
  have all : (ids.zipIdx.filter fun p =>
      slotOf ids.length evaluatorSlots p.2 < evaluatorSlots) = ids.zipIdx :=
    List.filter_eq_self.mpr fun p _ => by simp [slotOf_lt pos]
  rw [all] at slots
  have mapped := slots.map Prod.fst
  rw [List.map_flatMap, List.zipIdx_map_fst] at mapped
  exact mapped

omit [LawfulTree τ] in
/-- F3-K drains the producers one after another, in some order. -/
theorem applyKeyPartitioned_eq (b : Btree τ) (threads : PTFOThreads) (ids : List Nat)
    (evaluatorSlots : Nat) :
    ∃ order : List Nat, order.Perm ids ∧
      b.applyKeyPartitionedPtfoReplay threads ids evaluatorSlots =
        order.foldl (drainProducer threads) (b, {}) := by
  set slots := if evaluatorSlots = 0 then 1 else evaluatorSlots with hslots
  have pos : 0 < slots := by
    rw [hslots]
    split <;> omega
  refine ⟨_, slotProducers_perm ids pos, ?_⟩
  rw [applyKeyPartitionedPtfoReplay, List.foldl_flatMap]

omit [LawfulTree τ] in
theorem replayed_applyKeyPartitioned {b : Btree τ} {threads : PTFOThreads}
    {ids : List Nat} (visited : b.Visited threads ids) (evaluatorSlots : Nat) :
    b.Replayed (b.applyKeyPartitionedPtfoReplay threads ids evaluatorSlots).1 ids := by
  obtain ⟨order, perm, hreplay⟩ := b.applyKeyPartitioned_eq threads ids evaluatorSlots
  rw [hreplay]
  exact (replayed_drainProducers threads order b {}
    fun p mem => visited p (perm.mem_iff.mp mem)).congr fun p => perm.mem_iff

theorem search_applyKeyPartitioned {b : Btree τ} {threads : PTFOThreads} {ids : List Nat}
    (visited : b.Visited threads ids) (nodup : ids.Nodup) (evaluatorSlots : Nat) :
    ∃ order : List Nat, order.Perm ids ∧
      btreeSearch (b.applyKeyPartitionedPtfoReplay threads ids evaluatorSlots).1.tree =
        applyAll (btreeSearch b.tree) (order.flatMap b.pending) := by
  obtain ⟨order, perm, hreplay⟩ := b.applyKeyPartitioned_eq threads ids evaluatorSlots
  refine ⟨order, perm, ?_⟩
  rw [hreplay, tree_drainProducers threads order b {}
    (fun q hq => visited q (perm.mem_iff.mp hq)) (perm.nodup_iff.mpr nodup),
    btreeSearch_foldl]

/-- Where one of the replayed producers has all their operations on a key, F3-K
gives the key the newest value of the replayed chains. -/
theorem btreeSearch_applyKeyPartitioned {b : Btree τ} {threads : PTFOThreads}
    {ids : List Nat} (visited : b.Visited threads ids) (nodup : ids.Nodup)
    (evaluatorSlots : Nat) {key : Int}
    (single : ∀ p ∈ ids, ∀ q ∈ ids, (∃ op ∈ b.pending p, op.key = key) →
      (∃ op ∈ b.pending q, op.key = key) → p = q)
    (ordered : ∀ p ∈ ids, (b.pending p).Pairwise fun op op' => op.sequence < op'.sequence) :
    btreeSearch (b.applyKeyPartitionedPtfoReplay threads ids evaluatorSlots).1.tree key =
      resolve (btreeSearch b.tree key) (newest (ids.flatMap b.pending) key) := by
  obtain ⟨order, perm, htree⟩ := search_applyKeyPartitioned visited nodup evaluatorSlots
  rw [htree]
  by_cases holder : ∃ p ∈ ids, ∃ op ∈ b.pending p, op.key = key
  · obtain ⟨p, mem, has⟩ := holder
    have others : ∀ qs : List Nat, (∀ q ∈ qs, q ∈ order ∧ q ≠ p) →
        ∀ op ∈ qs.flatMap b.pending, Write.key op ≠ key := by
      intro qs hqs op hop hk
      obtain ⟨q, hq, hop⟩ := List.mem_flatMap.mp hop
      exact (hqs q hq).2 (single q (perm.mem_iff.mp (hqs q hq).1) p mem ⟨op, hop, hk⟩ has)
    have distinct : DistinctAt (b.pending p) key :=
      (distinctStamps_of_pairwise (ordered p mem)).at key
    have own : newest (b.pending p) key = newest (ids.flatMap b.pending) key := by
      refine newest_congr distinct fun op hk => ?_
      rw [List.mem_flatMap]
      constructor
      · exact fun hop => ⟨p, mem, hop⟩
      · rintro ⟨q, hq, hop⟩
        exact single q hq p mem ⟨op, hop, hk⟩ has ▸ hop
    obtain ⟨before, after, horder⟩ := List.append_of_mem (perm.mem_iff.mpr mem)
    have hnodup : (before ++ p :: after).Nodup := horder ▸ perm.nodup_iff.mpr nodup
    rw [List.nodup_append, List.nodup_cons] at hnodup
    rw [horder, List.flatMap_append, List.flatMap_cons, applyAll_append, applyAll_append,
      applyAll_of_forall_ne, applyAll_of_sorted, applyAll_of_forall_ne, own]
    · refine others before fun q hq => ⟨by simp [horder, hq], ?_⟩
      exact hnodup.2.2 q hq p List.mem_cons_self
    · exact (ordered p mem).imp fun h => h.le
    · exact distinct
    · refine others after fun q hq => ⟨by simp [horder, hq], ?_⟩
      rintro rfl
      exact hnodup.2.1.1 hq
  · have nobody : ∀ qs : List Nat, (∀ q ∈ qs, q ∈ ids) →
        ∀ op ∈ qs.flatMap b.pending, Write.key op ≠ key := by
      intro qs hqs op hop hk
      obtain ⟨q, hq, hop⟩ := List.mem_flatMap.mp hop
      exact holder ⟨q, hqs q hq, op, hop, hk⟩
    rw [applyAll_of_forall_ne (nobody order fun q hq => perm.mem_iff.mp hq),
      newest_eq_none_iff.mpr (nobody ids fun q hq => hq)]
    rfl

end Tree

end Btree

end F3Tree
