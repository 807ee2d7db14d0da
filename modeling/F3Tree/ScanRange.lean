import Mathlib.Data.Finset.Max
import Mathlib.Data.Int.Interval
import F3Tree.OwnKeys
import F3Tree.Paged

/-!
# `scan_range`

`scan_range` drains, has `btree_search_range` write into a buffer of `count` slots, and
reads the slots that are not null as the keys at their positions from `start` on.  The
buffer is filled from its front, so what comes out is `start`, `start + 1`, … whatever
the keys are, `start` itself, which the open interval leaves out, among them
(`Impl.scan_range_iff`).  A key takes one slot on each leaf that has it, and a value that
a split has left over may take one more (`Page.slots`); nothing holds their number to
`count` (`Impl.scan_writes_iff`).
-/

namespace F3Tree

open Keyed Fuel

namespace PagedTree

section Search

variable (t : PagedTree) {min max : Int}

theorem searchesRange (least : longMin ≤ min) (lt : min < max) :
    ∃ written, Returns (t.tree.btreeSearchRange min max) written := by
  obtain ⟨n, row, rows, trails⟩ := t.formed
  obtain ⟨before, s, after, home⟩ := rows.upward.home least
  exact ⟨_, rows.btreeSearchRange trails least lt home⟩

/-- `btree_search_range`: what it writes to the buffer. -/
def searchRange (min max : Int) (least : longMin ≤ min) (lt : min < max) : List Int :=
  answer _ (t.searchesRange least lt)

end Search

end PagedTree

/-- The loop over the slots of the buffer, from position `i` on. -/
def readSlots (start : Int) : Nat → List Int → List Int
  | _, [] => []
  | i, slot :: slots =>
      if slot ≠ 0 then (start + i) :: readSlots start (i + 1) slots
      else readSlots start (i + 1) slots

/-- The buffer of `count` slots after the writes. -/
def bufferOf (count : Nat) (written : List Int) : List Int :=
  written ++ List.replicate (count - written.length) 0

/-! ## What comes out of the buffer -/

theorem readSlots_null (start : Int) (i n : Nat) :
    readSlots start i (List.replicate n 0) = [] := by
  induction n generalizing i with
  | zero => rfl
  | succ n ih =>
      rw [List.replicate_succ, readSlots, if_neg (not_not.mpr rfl), ih]

/-- The slots that were written are read as their positions. -/
theorem readSlots_append {written : List Int} (nonzero : ∀ v ∈ written, v ≠ 0) (start : Int)
    (i n : Nat) :
    readSlots start i (written ++ List.replicate n 0) =
      (List.range' i written.length).map fun j : Nat => start + j := by
  induction written generalizing i with
  | nil => exact readSlots_null start i n
  | cons v written ih =>
      obtain ⟨first, nonzero⟩ := List.forall_mem_cons.mp nonzero
      rw [List.cons_append, readSlots, if_pos first, ih nonzero, List.length_cons,
        List.range'_succ, List.map_cons]

section Positions

variable {written : List Int} (nonzero : ∀ v ∈ written, v ≠ 0) (start : Int) (count : Nat)

include nonzero

theorem readSlots_bufferOf : readSlots start 0 (bufferOf count written) =
    (List.range written.length).map fun j : Nat => start + j := by
  rw [bufferOf, readSlots_append nonzero, List.range_eq_range']

theorem length_readSlots :
    (readSlots start 0 (bufferOf count written)).length = written.length := by
  rw [readSlots_bufferOf nonzero, List.length_map, List.length_range]

theorem mem_readSlots {k : Int} :
    k ∈ readSlots start 0 (bufferOf count written) ↔
      start ≤ k ∧ k < start + written.length := by
  rw [readSlots_bufferOf nonzero, List.mem_map]
  constructor
  · rintro ⟨j, mem, rfl⟩
    rw [List.mem_range] at mem
    omega
  · rintro ⟨least, lt⟩
    refine ⟨(k - start).toNat, List.mem_range.mpr (by omega), by omega⟩

theorem readSlots_pairwise :
    (readSlots start 0 (bufferOf count written)).Pairwise (· < ·) := by
  rw [readSlots_bufferOf nonzero, List.pairwise_map]
  exact List.pairwise_lt_range.imp fun h => by omega

end Positions

/-! ## How many slots the leaves take -/

/-- The slots of the buffer that a leaf takes: one for each key of the interval in the live
records that the walk looks at, whatever number of records the key has, and one for each value
that is left over. -/
def Page.slots (p : Page) (numEntries : Nat) (min max : Int) : Nat :=
  (within min max (p.reached numEntries)).toFinset.card + (p.leftover numEntries min max).length

/-- The leaves that a walk writes from: those in front of the leaf that ends it, and that one if
it is read from left to right. -/
def passed (numEntries : Nat) (max : Int) : List Page → List Page
  | [] => []
  | p :: ps =>
      if p.Ends numEntries max then
        if isForward p.hdr.switchCounter then [p] else []
      else p :: passed numEntries max ps

/-- The slots that the leaves of a walk take. -/
def slots (numEntries : Nat) (min max : Int) (ps : List Page) : Nat :=
  ((passed numEntries max ps).map fun p => p.slots numEntries min max).sum

section Slots

variable {p : Page} {s : Entry} {next : Option Entry} {c : Nat} {min max : Int} {es : List Entry}

theorem mem_within {k : Int} :
    k ∈ within min max es ↔ ∃ e ∈ es, (e.ptr ≠ 0 ∧ min < e.key ∧ e.key < max) ∧ e.ptr = k := by
  rw [within, List.mem_map]
  simp only [List.mem_filter, decide_eq_true_iff, and_assoc]

/-- Of records in order with one `ptr` the first counts. -/
theorem firsts_pairwise (ordered : es.Pairwise (·.ptr ≤ ·.ptr)) {prev : Int}
    (above : ∀ e ∈ es, prev ≤ e.ptr) :
    (firsts prev es).Pairwise (·.ptr < ·.ptr) ∧ ∀ e ∈ firsts prev es, prev < e.ptr := by
  induction es generalizing prev with
  | nil => exact ⟨.nil, by simp [firsts]⟩
  | cons e es ih =>
      obtain ⟨least, ordered⟩ := List.pairwise_cons.mp ordered
      obtain ⟨here, -⟩ := List.forall_mem_cons.mp above
      obtain ⟨ascending, behind⟩ := ih ordered least
      rw [firsts]
      split
      case isTrue same => exact ⟨ascending, same ▸ behind⟩
      case isFalse other =>
        have lt : prev < e.ptr := lt_of_le_of_ne here (Ne.symm other)
        refine ⟨List.pairwise_cons.mpr ⟨behind, ascending⟩, ?_⟩
        exact List.forall_mem_cons.mpr ⟨lt, fun x hx => lt.trans (behind x hx)⟩

theorem firsts_zero_pairwise (ordered : es.Pairwise (·.ptr ≤ ·.ptr)) (live : ∀ e ∈ es, e.ptr ≠ 0) :
    (firsts 0 es).Pairwise (·.ptr < ·.ptr) := by
  cases es with
  | nil => exact .nil
  | cons e es =>
      obtain ⟨least, ordered⟩ := List.pairwise_cons.mp ordered
      obtain ⟨ascending, behind⟩ := firsts_pairwise ordered least
      rw [firsts, if_neg (live e List.mem_cons_self)]
      exact List.pairwise_cons.mpr ⟨behind, ascending⟩

/-- Every `ptr` but the one in front counts once. -/
theorem exists_firsts (prev : Int) (es : List Entry) :
    ∀ e ∈ es, e.ptr = prev ∨ ∃ x ∈ firsts prev es, x.ptr = e.ptr := by
  induction es generalizing prev with
  | nil => exact fun _ mem => absurd mem List.not_mem_nil
  | cons y es ih =>
      have here : y.ptr = prev ∨ ∃ x ∈ firsts prev (y :: es), x.ptr = y.ptr := by
        rw [firsts]
        split
        case isTrue same => exact Or.inl same
        case isFalse => exact Or.inr ⟨y, List.mem_cons_self, rfl⟩
      refine List.forall_mem_cons.mpr ⟨here, fun e mem => ?_⟩
      rcases ih y.ptr e mem with same | ⟨x, hx, same⟩
      · rwa [same]
      · refine Or.inr ⟨x, ?_, same⟩
        rw [firsts]
        split
        · exact hx
        · exact List.mem_cons_of_mem _ hx

/-- Live records in order add one value for each key. -/
theorem length_within_firsts (ordered : Ordered Entry.key es)
    (live : ∀ e ∈ es, e.ptr ≠ 0 ∧ e.ptr = e.key) :
    (within min max (firsts 0 es)).length = (within min max es).toFinset.card := by
  have ascending : (firsts 0 es).Pairwise (·.ptr < ·.ptr) := by
    refine firsts_zero_pairwise (ordered.imp_of_mem fun {x y} hx hy hle => ?_) fun e he =>
      (live e he).1
    rw [(live x hx).2, (live y hy).2]
    exact hle
  have nodup : (within min max (firsts 0 es)).Nodup := by
    rw [within, List.Nodup, List.pairwise_map]
    exact (ascending.filter _).imp fun h => h.ne
  rw [← List.toFinset_card_of_nodup nodup]
  congr 1
  ext k
  rw [List.mem_toFinset, List.mem_toFinset, mem_within, mem_within]
  constructor
  · rintro ⟨e, he, interval, rfl⟩
    exact ⟨e, (firsts_sublist 0 es).mem he, interval, rfl⟩
  · rintro ⟨e, he, interval, rfl⟩
    rcases exists_firsts 0 es e he with null | ⟨x, hx, same⟩
    · exact absurd null interval.1
    · have mem : x ∈ es := (firsts_sublist 0 es).mem hx
      have key : x.key = e.key := by rw [← (live x mem).2, ← (live e he).2, same]
      exact ⟨x, hx, by rwa [same, key], same⟩

/-- A leaf that the walk writes from fills its slots. -/
theorem PageOk.length_shown (ok : PageOk p 0 s next)
    (passed : isForward p.hdr.switchCounter = true ∨ ¬ p.Ends c max) :
    (p.shown c min max).length = p.slots c min max := by
  obtain ⟨z, rest, holds, -⟩ := ok.holds
  have sub := p.reached_sublist c
  have keys : (within min max (firsts 0 (p.reached c))).length =
      (within min max (p.reached c)).toFinset.card :=
    length_within_firsts (ok.ordered.sublist sub) fun e he =>
      ⟨holds.live e (sub.mem he), (ok.leaf rfl).2 e (sub.mem he)⟩
  rw [Page.slots, ← keys]
  by_cases forward : isForward p.hdr.switchCounter = true
  · rw [ok.shown_of_forward forward, Page.reached, if_pos forward, Page.leftover, if_pos forward,
      List.length_nil, Nat.add_zero]
  · rw [ok.shown_turned forward (passed.resolve_left forward), List.length_reverse,
      List.length_append]

end Slots

theorem Page.shown_ne_zero {p : Page} {c : Nat} {min max k : Int} (mem : k ∈ p.shown c min max) :
    k ≠ 0 := by
  have value : ∀ {es : List Entry}, k ∈ within min max es → k ≠ 0 := fun mem => by
    obtain ⟨e, he, rfl⟩ := List.mem_map.mp mem
    exact (of_decide_eq_true (List.mem_filter.mp he).2).1
  rw [Page.shown] at mem
  split at mem
  · exact value mem
  · split at mem
    · exact absurd mem List.not_mem_nil
    · exact value (List.mem_reverse.mp mem)

namespace BTree

section Scan

variable {t : BTree} {n c : Nat} {row : List Entry} {min max : Int}

theorem ne_zero_of_mem_scan {ps : List Page} {k : Int} (mem : k ∈ scan c min max ps) : k ≠ 0 := by
  induction ps with
  | nil => exact absurd mem List.not_mem_nil
  | cons p ps ih =>
      rw [scan] at mem
      split at mem
      · exact Page.shown_ne_zero mem
      · rcases List.mem_append.mp mem with mem | mem
        · exact Page.shown_ne_zero mem
        · exact ih mem

/-- A walk fills the slots of the leaves that it writes from. -/
theorem Row.length_scan {next : Option Entry} (h : t.Row 0 row next) :
    (scan c min max (t.pages row)).length = slots c min max (t.pages row) := by
  induction row with
  | nil => rfl
  | cons s row ih =>
      obtain ⟨ok, -, rest⟩ := h
      rw [pages, List.map_cons, ← pages, scan, slots, passed]
      by_cases ends : (t.page s.ptr).Ends c max
      · rw [if_pos ends, if_pos ends]
        split
        case isTrue forward =>
          rw [ok.length_shown (Or.inl forward), List.map_singleton, List.sum_singleton]
        case isFalse backward =>
          rw [Page.shown, if_neg backward, if_pos ends]
          rfl
      · rw [if_neg ends, if_neg ends, List.length_append, ok.length_shown (Or.inr ends), ih rest,
          List.map_cons, List.sum_cons, slots]

/-- The keys of the tree from `start` on, `count` integers far. -/
def keysFrom (t : BTree) (start count : Int) : Finset Int :=
  t.leafKeys.toFinset.filter fun k => start ≤ k ∧ k < start + count

theorem mem_keysFrom {start count k : Int} :
    k ∈ t.keysFrom start count ↔ k ∈ t.leafKeys ∧ start ≤ k ∧ k < start + count := by
  rw [keysFrom, Finset.mem_filter, List.mem_toFinset]

/-- The leaves that a scan walks, and what it writes. -/
theorem Rows.exists_scan (h : t.Rows n 0 row) (tr : t.Trails row none) (least : longMin ≤ min)
    (lt : min < max) :
    ∃ leaf front back, Returns (fun fuel => t.descend aboveLeaves min fuel t.root) leaf ∧
      t.level t.depth = front ++ leaf :: back ∧
      ∃ written, Returns (t.btreeSearchRange min max) written ∧
        written.length = slots (t.page leaf).live.length min max ((leaf :: back).map t.page) ∧
        ∀ k ∈ written, k ≠ 0 := by
  obtain ⟨before, s, after, home⟩ := h.upward.home least
  have leaves : t.level t.depth = row.map Entry.ptr := by
    have depth : t.depth = n := h.root.trans (Nat.zero_add n)
    rw [depth, h.upward.level_eq]
  have walked : (s.ptr :: after.map Entry.ptr).map t.page = t.pages (s :: after) := by
    rw [pages, ← List.map_cons (f := Entry.ptr), List.map_map]
    rfl
  refine ⟨s.ptr, before.map Entry.ptr, after.map Entry.ptr, h.descends least home, ?_, ?_⟩
  · rw [leaves, home.split, List.map_append, List.map_cons]
  · obtain ⟨-, ⟨ok, alloc⟩, hafter⟩ := row_split.mp (home.split ▸ h.isRow)
    obtain ⟨-, here, behind⟩ := trails_split.mp (home.split ▸ tr)
    have rowBehind : t.Row 0 (s :: after) none := ⟨by rwa [Option.or_none], alloc, hafter⟩
    have trailsBehind : t.Trails (s :: after) none := ⟨by rwa [Option.or_none], behind⟩
    rw [walked]
    exact ⟨_, h.btreeSearchRange tr least lt home, rowBehind.length_scan,
      fun _ => ne_zero_of_mem_scan⟩

end Scan

end BTree

namespace Impl

/-- `scan_range`: `out` and the number it returns.  There is no result where the writes do
not fit into the buffer, or `start + count` is not a key. -/
def scanRange (s : Impl (Option PagedTree)) (start count : Int) (out : List Int) (numa : Int) :
    Impl (Option PagedTree) × Option (List Int × Nat) :=
  let s := s.drainPending numa
  if hcount : count ≤ 0 then (s, some (out, 0))
  else (s, s.tree.tree.bind fun t =>
    if h : longMin ≤ start ∧ start + count ≤ longMax then
      let written := t.searchRange start (start + count) h.1 (by omega)
      if written.length ≤ count then
        let out := readSlots start 0 (bufferOf count.toNat written)
        some (out, out.length)
      else none
    else none)

/-- `warmup_insert` -/
def warmupInsert {τ : Type} [GlobalTree τ] (s : Impl τ) (key : Int) : Impl τ :=
  { s with tree := { s.tree with tree := btreeInsert s.tree.tree key } }

/-- What may happen between two states.  Lookups change nothing. -/
inductive Operation : Type
  | event (e : Event)
  | warmupInsert (key : Int)
  | scanRange (start count numa : Int)

def Operation.OnKeys : Operation → Prop
  | .event e => EventOnKeys e
  | .warmupInsert key => TreeKey key
  | .scanRange _ _ _ => True

def operation (s : Impl (Option PagedTree)) : Operation → Impl (Option PagedTree)
  | .event e => s.event e
  | .warmupInsert key => s.warmupInsert key
  | .scanRange start count numa => (s.scanRange start count [] numa).1

def operations (s : Impl (Option PagedTree)) (ops : List Operation) : Impl (Option PagedTree) :=
  ops.foldl operation s

section OnKeys

variable {s : Impl (Option PagedTree)}

theorem OnKeys.warmupInsert (h : s.OnKeys) {key : Int} (hkey : TreeKey key) :
    (s.warmupInsert key).OnKeys := by
  obtain ⟨acc, tree, keys⟩ := h
  exact ⟨⟨⟨acc.threads, acc.total, acc.increasing, acc.distinct, acc.fresh⟩, acc.entryCount⟩,
    applyOp_isSome tree hkey false, keys⟩

theorem scanRange_fst (start count : Int) (out : List Int) (numa : Int) :
    (s.scanRange start count out numa).1 = s.drainPending numa := by
  rw [scanRange]
  split <;> rfl

theorem OnKeys.operation (h : s.OnKeys) (op : Operation) (keys : op.OnKeys) :
    (s.operation op).OnKeys := by
  cases op with
  | event e => exact h.event e keys
  | warmupInsert key => exact h.warmupInsert keys
  | scanRange start count numa =>
      rw [Impl.operation, scanRange_fst]
      exact (h.drainPending numa).1

/-- Every state of the wrapper on keys has its tree. -/
theorem onKeys_operations {config : RuntimeConfig} (valid : validateRuntimeConfig config = .ok ())
    (alloc : Allocator) (resume nodes : Nat) (ops : List Operation)
    (keys : ∀ op ∈ ops, op.OnKeys) :
    ((init config (some (PagedTree.empty alloc)) resume nodes).operations ops).OnKeys := by
  induction ops using List.reverseRecOn with
  | nil => exact onKeys_eventRun valid alloc resume nodes [] (by simp)
  | append_singleton ops op ih =>
      obtain ⟨prior, last⟩ := List.forall_mem_append.mp keys
      rw [operations, List.foldl_append, List.foldl_cons, List.foldl_nil, ← operations]
      exact (ih prior).operation op (last op (List.mem_singleton_self op))

end OnKeys

/-- `out` lists the keys from `start` on that are in the drained tree, and their number is
returned. -/
def ScansExactly (s : Impl (Option PagedTree)) (start count : Int) (out : List Int) (numa : Int) :
    Prop :=
  let (s', result) := s.scanRange start count out numa
  s'.tree.allPending = [] ∧ ∃ t listed, s'.tree.tree = some t ∧
    result = some (listed, listed.length) ∧ listed.Pairwise (· < ·) ∧
    ∀ k, k ∈ listed ↔ k ∈ t.tree.leafKeys ∧ start ≤ k ∧ k < start + count

/-! ## The scan of a state -/

section Scan

variable {s : Impl (Option PagedTree)}

/-- The leaves that the scan of a state walks, and what it writes. -/
theorem OnKeys.exists_scan (h : s.OnKeys) (start count : Int) (positive : 0 < count)
    (least : longMin ≤ start) (most : start + count ≤ longMax) (out : List Int) (numa : Int) :
    ∃ t leaf front back written, (s.drainPending numa).tree.tree = some t ∧
      Returns (fun fuel => t.tree.descend BTree.aboveLeaves start fuel t.tree.root) leaf ∧
      t.tree.level t.tree.depth = front ++ leaf :: back ∧
      Returns (t.tree.btreeSearchRange start (start + count)) written ∧
      written.length = slots (t.tree.page leaf).live.length start (start + count)
        ((leaf :: back).map t.tree.page) ∧
      (∀ k ∈ written, k ≠ 0) ∧
      (s.scanRange start count out numa).2 =
        if written.length ≤ count then
          some (readSlots start 0 (bufferOf count.toNat written), written.length)
        else none := by
  obtain ⟨t, tree⟩ := Option.isSome_iff_exists.mp (h.drainPending numa).1.tree
  obtain ⟨n, row, rows, trails⟩ := t.formed
  have lt : start < start + count := by omega
  obtain ⟨leaf, front, back, descends, level, written, returns, length, nonzero⟩ :=
    rows.exists_scan trails least lt
  refine ⟨t, leaf, front, back, written, tree, descends, level, returns, length, nonzero, ?_⟩
  have searched : t.searchRange start (start + count) least lt = written :=
    answer_eq (BTree.steady_btreeSearchRange _ _ _) (t.searchesRange least lt) returns
  simp only [scanRange, dif_neg (not_le.mpr positive), tree, Option.bind_some,
    dif_pos (And.intro least most), searched, length_readSlots nonzero]

end Scan

/-! ## One key, inserted again and again -/

section Fives

/-- Insertions one after another. -/
def insertAll (fuel : Nat) : List Int → BTree → Option BTree
  | [], t => some t
  | key :: keys, t => (t.btreeInsert key key fuel).bind (insertAll fuel keys)

/-- An insertion that ends is what the drain performs. -/
theorem applyOp_insert {t : PagedTree} {key : Int} {fuel : Nat} {u : BTree} (hkey : TreeKey key)
    (ran : t.tree.btreeInsert key key fuel = some u) :
    ∃ t', Btree.applyOp (some t) key false = some t' ∧ t'.tree = u := by
  refine ⟨t.insert key hkey, ?_, ?_⟩
  · rw [Btree.applyOp, if_neg Bool.false_ne_true]
    exact dif_pos hkey
  · exact answer_eq (BTree.steady_btreeInsert _ _ _) (t.inserts hkey) ⟨fuel, ran⟩

theorem foldl_insertAll {performed : List FutureBufferedOp}
    (inserts : ∀ op ∈ performed, TreeKey op.key ∧ op.isDelete = false) (t : PagedTree) {fuel : Nat}
    {u : BTree} (ran : insertAll fuel (performed.map FutureBufferedOp.key) t.tree = some u) :
    ∃ t', performed.foldl Btree.applyBufferedOp (some t) = some t' ∧ t'.tree = u := by
  induction performed generalizing t with
  | nil => exact ⟨t, rfl, Option.some.inj ran⟩
  | cons op performed ih =>
      obtain ⟨⟨hkey, insert⟩, inserts⟩ := List.forall_mem_cons.mp inserts
      obtain ⟨v, hv, ran⟩ := Option.bind_eq_some_iff.mp ran
      obtain ⟨t', step, rfl⟩ := applyOp_insert hkey hv
      rw [List.foldl_cons, Btree.applyBufferedOp, insert, step]
      exact ih inserts _ ran

/-- One producer under F3-K. -/
def oneProducer : RuntimeConfig := { evaluatorPolicy := .kF3K }

theorem oneProducer_valid : validateRuntimeConfig oneProducer = .ok () := rfl

/-- `buffered_insert(5)`, `n` times. -/
def fives (n : Nat) : List Operation :=
  List.replicate n (.event (.call (.bufferedInsert 5 0 0)))

def afterFives (n : Nat) : Impl (Option PagedTree) :=
  (init oneProducer (some (PagedTree.empty (.bump 100))) 0 1).operations (fives n)

theorem fives_onKeys (n : Nat) : ∀ op ∈ fives n, op.OnKeys := by
  intro op mem
  rw [List.eq_of_mem_replicate mem]
  exact (by decide : TreeKey 5)

theorem pending_afterFives (n : Nat) :
    (afterFives n).ptfoThreads.size = 1 ∧ (afterFives n).tree.nThreads = 1 ∧
      (afterFives n).config = oneProducer ∧
      (afterFives n).tree.tree = some (PagedTree.empty (.bump 100)) ∧
      ((afterFives n).tree.pending 0).length = n ∧
      ∀ op ∈ (afterFives n).tree.pending 0, op.key = 5 ∧ op.isDelete = false := by
  induction n with
  | zero =>
      have none : (afterFives 0).tree.pending 0 = [] := pending_init _ _ _ _ _
      rw [none]
      exact ⟨rfl, rfl, rfl, rfl, rfl, by simp⟩
  | succ n ih =>
      obtain ⟨size, threads, config, tree, length, inserts⟩ := ih
      have one : afterFives (n + 1) = (afterFives n).enqueued 5 0 false 0 := by
        have split : fives (n + 1) = fives n ++ [.event (.call (.bufferedInsert 5 0 0))] :=
          List.replicate_succ'
        have called : (afterFives n).call (.bufferedInsert 5 0 0) =
            (afterFives n).enqueued 5 0 false 0 := by
          rw [call, bufferedInsert, enqueue_of_lt (by omega)]
        rw [afterFives, split, operations, List.foldl_append]
        exact called
      rw [one, pending_enqueued, Function.update_self]
      refine ⟨size, threads, config, tree, by rw [List.length_append, length]; rfl, ?_⟩
      intro op mem
      rcases List.mem_append.mp mem with mem | mem
      · exact inserts op mem
      · rw [List.mem_singleton.mp mem]
        exact ⟨rfl, rfl⟩

/-- A drain inserts as often as there were calls. -/
theorem tree_afterFives (n : Nat) {u : BTree}
    (ran : insertAll 6 (List.replicate n 5) (.empty (.bump 100)) = some u) :
    ∃ t, ((afterFives n).drainPending 0).tree.tree = some t ∧ t.tree = u := by
  obtain ⟨size, threads, config, tree, length, inserts⟩ := pending_afterFives n
  have h : (afterFives n).OnKeys := onKeys_operations oneProducer_valid _ 0 1 _ (fives_onKeys n)
  have all : (afterFives n).tree.allPending = (afterFives n).tree.pending 0 := by
    rw [Btree.allPending, threads]
    exact List.append_nil _
  obtain ⟨performed, perm, drained⟩ := h.accounted.performs_drainPending (by rw [config]; rfl) 0
  rw [all] at perm
  have inserts : ∀ op ∈ performed, op.key = 5 ∧ op.isDelete = false := fun op mem =>
    inserts op (perm.mem_iff.mp mem)
  have keys : performed.map FutureBufferedOp.key = List.replicate n 5 := by
    rw [List.eq_replicate_iff, List.length_map, perm.length_eq, length]
    refine ⟨rfl, fun k mem => ?_⟩
    obtain ⟨op, hop, rfl⟩ := List.mem_map.mp mem
    exact (inserts op hop).1
  rw [drained, tree]
  refine foldl_insertAll (fun op mem => ?_) _ (keys ▸ ran)
  obtain ⟨hkey, insert⟩ := inserts op mem
  exact ⟨hkey ▸ by decide, insert⟩

end Fives

/-! ## Calls that are drained at once -/

end Impl

/-- The call of producer 0 for an operation. -/
def TreeOp.call : TreeOp → Call
  | .insert key => .bufferedInsert key 0 0
  | .delete key => .eraseBuffered key 0 0

namespace Impl

section OneByOne

variable {s : Impl (Option PagedTree)} {op : TreeOp} {ops : List TreeOp} {fuel : Nat}
  {t u : BTree}

/-- Each operation is buffered by producer 0 and then drained. -/
def drainedOneByOne (ops : List TreeOp) : List Operation :=
  ops.flatMap fun op => [.event (.call op.call), .event (.call (.drainPending 0))]

def afterEach (ops : List TreeOp) : Impl (Option PagedTree) :=
  (init oneProducer (some (PagedTree.empty (.bump 100))) 0 1).operations (drainedOneByOne ops)

/-- One producer under F3-K with a tree, and nothing buffered. -/
structure Settled (s : Impl (Option PagedTree)) (t : BTree) : Prop where
  onKeys : s.OnKeys
  size : s.ptfoThreads.size = 1
  threads : s.tree.nThreads = 1
  config : s.config = oneProducer
  none : s.tree.allPending = []
  tree : ∃ u : PagedTree, s.tree.tree = some u ∧ u.tree = t

theorem settled_init (alloc : Allocator) :
    (init oneProducer (some (PagedTree.empty alloc)) 0 1).Settled (.empty alloc) where
  onKeys := onKeys_operations oneProducer_valid alloc 0 1 [] (by simp)
  size := rfl
  threads := rfl
  config := rfl
  none := allPending_init ..
  tree := ⟨_, rfl, rfl⟩

/-- What a drain performs of an operation that ends. -/
theorem applyOp_perform {t : PagedTree} (ready : t.tree.ready fuel op = true)
    (ran : op.perform fuel t.tree = some u) :
    ∃ t', Btree.applyOp (some t) op.key (op = .delete op.key) = some t' ∧ t'.tree = u := by
  cases op with
  | insert key =>
      simp only [reduceCtorEq, decide_false]
      exact applyOp_insert ((BTree.guarded_of_ready ready).1) ran
  | delete key =>
      have hkey : TreeKey key := (BTree.guarded_of_ready ready).1
      obtain ⟨v, hv, found⟩ := (BTree.guarded_of_ready ready).2 rfl
      have searched : answer _ (t.searches hkey) = v :=
        answer_eq (BTree.steady_btreeSearch _ _) (t.searches hkey) hv
      have found : t.found key hkey = true := by
        rw [PagedTree.found, searched]
        exact decide_eq_true (found.mpr trivial)
      have inTree : GlobalTree.btreeSearch (some t) key = true := by
        rw [← found]
        exact dif_pos hkey
      refine ⟨t.delete key hkey found, ?_, ?_⟩
      · simp only [TreeOp.key, decide_true, Btree.applyOp, inTree, if_true]
        exact congrArg some (dif_pos ⟨hkey, found⟩)
      · exact answer_eq (fun fuel => BTree.steady_btreeDelete key _ fuel) (t.deletes hkey found)
          ⟨fuel, ran⟩

/-- With one producer the drain performs its chain. -/
theorem OnKeys.tree_drainPending (h : s.OnKeys) (config : s.config = oneProducer)
    {op : FutureBufferedOp} (one : s.tree.allPending = [op]) :
    (s.drainPending 0).tree.tree = Btree.applyOp s.tree.tree op.key op.isDelete := by
  obtain ⟨performed, perm, drained⟩ := h.accounted.performs_drainPending (by rw [config]; rfl) 0
  rw [one, List.perm_singleton] at perm
  rw [drained, perm]
  rfl

theorem Settled.step (h : s.Settled t) (ready : t.ready fuel op = true)
    (ran : op.perform fuel t = some u) :
    ((s.call op.call).drainPending 0).Settled u := by
  obtain ⟨onKeys, size, threads, config, none, tree, htree, rfl⟩ := h
  have called : s.call op.call = s.enqueued op.key 0 (op = .delete op.key) 0 := by
    cases op with
    | insert key =>
        simp only [TreeOp.call, call, bufferedInsert, enqueue_of_lt (size ▸ Nat.one_pos)]
        rfl
    | delete key =>
        simp only [TreeOp.call, call, eraseBuffered, enqueue_of_lt (size ▸ Nat.one_pos),
          TreeOp.key, decide_true]
  have hkey : (s.call op.call).OnKeys := by
    refine onKeys.event (.call op.call) ?_
    cases op with
    | insert key => exact (BTree.guarded_of_ready ready).1
    | delete key => exact (BTree.guarded_of_ready ready).1
  rw [called] at hkey ⊢
  obtain ⟨cleared, drains, -⟩ := hkey.accounted.drains_drainPending 0
  have one : (s.enqueued op.key 0 (op = .delete op.key) 0).tree.allPending =
      [s.nextOp op.key 0 (op = .delete op.key)] := by
    have own : s.tree.pending 0 = [] := by
      rw [Btree.allPending, threads] at none
      exact (List.append_nil _).symm.trans none
    rw [Btree.allPending]
    change (List.range s.tree.nThreads).flatMap _ = _
    rw [threads, pending_enqueued]
    change Function.update s.tree.pending 0 _ 0 ++ [] = _
    rw [Function.update_self, own]
    rfl
  obtain ⟨t', applied, rfl⟩ := applyOp_perform ready ran
  refine ⟨(hkey.drainPending 0).1, drains.size.trans size, drains.nThreads.trans threads,
    drains.config.trans config, (hkey.drainPending 0).2, t', ?_, rfl⟩
  rw [hkey.tree_drainPending config one]
  exact (congrArg (fun t => Btree.applyOp t op.key _) htree).trans applied

theorem Settled.drainedOneByOne (h : s.Settled t)
    (ran : BTree.calls (BTree.ready fuel) fuel ops t = some u) :
    (s.operations (drainedOneByOne ops)).Settled u := by
  induction ops generalizing s t with
  | nil => exact Option.some.inj ran ▸ h
  | cons op ops ih =>
      rw [BTree.calls] at ran
      split at ran
      case isTrue ready =>
        obtain ⟨v, hv, ran⟩ := Option.bind_eq_some_iff.mp ran
        exact ih (h.step ready hv) ran
      case isFalse => cases ran

theorem Settled.tree_drainPending (h : s.Settled t) :
    ∃ u : PagedTree, (s.drainPending 0).tree.tree = some u ∧ u.tree = t := by
  obtain ⟨onKeys, -, -, config, none, tree⟩ := h
  obtain ⟨performed, perm, drained⟩ :=
    onKeys.accounted.performs_drainPending (by rw [config]; rfl) 0
  rw [none, List.perm_nil] at perm
  rwa [drained, perm]

theorem drainedOneByOne_onKeys (ran : BTree.calls (BTree.ready fuel) fuel ops t = some u) :
    ∀ o ∈ drainedOneByOne ops, o.OnKeys := by
  induction ops generalizing t with
  | nil => exact fun _ mem => absurd mem List.not_mem_nil
  | cons op ops ih =>
      rw [BTree.calls] at ran
      split at ran
      case isTrue ready =>
        obtain ⟨v, hv, ran⟩ := Option.bind_eq_some_iff.mp ran
        refine List.forall_mem_cons.mpr ⟨?_, List.forall_mem_cons.mpr ⟨trivial, ih ran⟩⟩
        cases op with
        | insert key => exact (BTree.guarded_of_ready ready).1
        | delete key => exact (BTree.guarded_of_ready ready).1
      case isFalse => cases ran

end OneByOne

/-! ## What a scan promises -/

/-- The integers of an interval from `start` on are a set without a gap. -/
theorem gapless_iff {ks : Finset Int} {start : Int} (least : ∀ k ∈ ks, start ≤ k) (n : Nat) :
    (∀ k, k ∈ ks ↔ start ≤ k ∧ k < start + n) ↔
      (∀ k ∈ ks, ∀ j, start ≤ j → j < k → j ∈ ks) ∧ n = ks.card := by
  constructor
  · intro members
    have interval : ks = Finset.Ico start (start + n) := by
      ext k
      rw [members, Finset.mem_Ico]
    refine ⟨fun k mem j hj hlt => ?_, ?_⟩
    · rw [members] at mem ⊢
      omega
    · rw [interval, Int.card_Ico]
      omega
  · rintro ⟨gapless, rfl⟩
    rcases ks.eq_empty_or_nonempty with rfl | nonempty
    · intro k
      refine iff_of_false (Finset.notMem_empty k) ?_
      rw [Finset.card_empty]
      omega
    have last := ks.max'_mem nonempty
    have upTo : ks = Finset.Ico start (ks.max' nonempty + 1) := by
      ext k
      rw [Finset.mem_Ico]
      constructor
      · intro mem
        exact ⟨least k mem, Int.lt_add_one_of_le (ks.le_max' k mem)⟩
      · rintro ⟨hk, hlt⟩
        rcases Int.lt_or_eq_of_le (Int.le_of_lt_add_one hlt) with hlt | rfl
        · exact gapless _ last k hk hlt
        · exact last
    have card : ks.card = (ks.max' nonempty + 1 - start).toNat :=
      (congrArg Finset.card upTo).trans (Int.card_Ico _ _)
    have bound : start + ks.card = ks.max' nonempty + 1 := by
      have := least _ last
      omega
    intro k
    rw [bound, ← Finset.mem_Ico, ← upTo]

/-- `scan_range` is exact exactly if the keys of the tree from `start` on have no gap, and the
leaves that the walk writes from take as many slots of the buffer as there are such keys.  This
holds of every drained tree that calls on keys other than zero lead to. -/
theorem scan_range_iff {config : RuntimeConfig} (valid : validateRuntimeConfig config = .ok ())
    (alloc : Allocator) (resume nodes : Nat) (ops : List Operation)
    (keys : ∀ op ∈ ops, op.OnKeys) (start count : Int) (positive : 0 < count)
    (least : longMin ≤ start) (most : start + count ≤ longMax) (out : List Int) (numa : Int) :
    let s := (init config (some (PagedTree.empty alloc)) resume nodes).operations ops
    ∃ t leaf front back, (s.drainPending numa).tree.tree = some t ∧
      Returns (fun fuel => t.tree.descend BTree.aboveLeaves start fuel t.tree.root) leaf ∧
      t.tree.level t.tree.depth = front ++ leaf :: back ∧
      (s.ScansExactly start count out numa ↔
        (∀ k ∈ t.tree.keysFrom start count, ∀ j, start ≤ j → j < k →
          j ∈ t.tree.keysFrom start count) ∧
        slots (t.tree.page leaf).live.length start (start + count)
          ((leaf :: back).map t.tree.page) = (t.tree.keysFrom start count).card) := by
  intro s
  have h : s.OnKeys := onKeys_operations valid alloc resume nodes ops keys
  obtain ⟨t, leaf, front, back, written, tree, descends, level, -, length, nonzero, result⟩ :=
    h.exists_scan start count positive least most out numa
  refine ⟨t, leaf, front, back, tree, descends, level, ?_⟩
  have first : ∀ k ∈ t.tree.keysFrom start count, start ≤ k := fun k mem =>
    (BTree.mem_keysFrom.mp mem).2.1
  rw [← length, ← gapless_iff first, ScansExactly]
  simp only [scanRange_fst, result]
  constructor
  · rintro ⟨-, t', listed, tree', hlisted, -, members⟩
    obtain rfl := Option.some.inj (tree.symm.trans tree')
    split at hlisted
    · obtain ⟨rfl, -⟩ := Prod.mk.inj (Option.some.inj hlisted)
      intro k
      rw [BTree.mem_keysFrom, ← members, mem_readSlots nonzero]
    · cases hlisted
  · intro exactly
    have members : ∀ k, k ∈ t.tree.leafKeys ∧ start ≤ k ∧ k < start + count ↔
        start ≤ k ∧ k < start + written.length := fun k => by
      rw [← BTree.mem_keysFrom, exactly]
    have fits : (written.length : Int) ≤ count := by
      by_contra upward
      have last := (members (start + count)).mpr ⟨by omega, by omega⟩
      omega
    rw [if_pos fits]
    refine ⟨(h.drainPending numa).2, t, readSlots start 0 (bufferOf count.toNat written), tree,
      ?_, readSlots_pairwise nonzero .., fun k => ?_⟩
    · rw [length_readSlots nonzero]
    · rw [members, mem_readSlots nonzero]

/-- The leaf of 1 has fifteen keys.  The one behind it is read from right to left and has the key
16; of what a split has left over there, one value is in reach. -/
def leavesBehind : List TreeOp :=
  (List.range 42).map (fun i => .insert (i + 3)) ++ [.insert 2, .insert 1] ++
    (List.range 16).map fun i => .delete (i + 17)

/-- Fourteen keys behind 1 on the first leaf, 16 and what is left over on the second, and the
sixteen keys of the interval. -/
theorem scan_range_sixteen : (afterEach leavesBehind).ScansExactly 1 32 [] 0 := by
  have checked : (BTree.calls (BTree.ready 6) 6 leavesBehind (.empty (.bump 100))).any (fun u =>
      decide (u.descend BTree.aboveLeaves 1 6 u.root = some 101 ∧
        u.level u.depth = [101, 102, 104] ∧
        slots (u.page 101).live.length 1 (1 + 32) ([101, 102, 104].map u.page) = 16 ∧
        u.keysFrom 1 32 = Finset.Ico (1 : Int) (1 + (16 : Nat)))) = true := by decide +kernel
  obtain ⟨u, ran, holds⟩ := (Option.any_eq_true _ _).mp checked
  obtain ⟨down, leaves, taken, listed⟩ := of_decide_eq_true holds
  have keys := drainedOneByOne_onKeys ran
  obtain ⟨t, tree, rfl⟩ := ((settled_init (.bump 100)).drainedOneByOne ran).tree_drainPending
  obtain ⟨t', leaf, front, back, tree', descends, level, exact_iff⟩ :=
    scan_range_iff oneProducer_valid (.bump 100) 0 1 (drainedOneByOne leavesBehind) keys 1 32
      (by decide) (by decide) (by decide) [] 0
  obtain rfl := Option.some.inj (tree.symm.trans tree')
  obtain rfl := (BTree.steady_descend _ _ _ _).unique descends ⟨6, down⟩
  obtain ⟨rfl, rfl⟩ := BTree.split_first (by decide) (leaves.symm.trans level)
  have first : ∀ k ∈ t.tree.keysFrom 1 32, 1 ≤ k := fun k mem => (BTree.mem_keysFrom.mp mem).2.1
  refine exact_iff.mpr ?_
  rw [taken]
  refine (gapless_iff first 16).mp fun k => ?_
  rw [listed, Finset.mem_Ico]

/-- The key 5 is read as 4. -/
theorem scan_range_shifted : ¬ (afterFives 1).ScansExactly 4 2 [] 0 := by
  obtain ⟨u, ran, walked, keys⟩ : ∃ u,
      insertAll 6 (List.replicate 1 5) (.empty (.bump 100)) = some u ∧
        u.btreeSearchRange 4 (4 + 2) 4 = some [5] ∧ u.leafKeys = [5] :=
    ⟨_, rfl, by decide, by decide⟩
  obtain ⟨t, tree, rfl⟩ := tree_afterFives 1 ran
  have h : (afterFives 1).OnKeys := onKeys_operations oneProducer_valid _ 0 1 _ (fives_onKeys 1)
  obtain ⟨t', leaf, front, back, written, tree', -, -, returns, -, -, result⟩ :=
    h.exists_scan 4 2 (by decide) (by decide) (by decide) [] 0
  obtain rfl := Option.some.inj (tree.symm.trans tree')
  obtain rfl := (BTree.steady_btreeSearchRange _ _ _).unique returns ⟨4, walked⟩
  rw [ScansExactly]
  simp only [scanRange_fst, result]
  rintro ⟨-, t'', listed, tree'', hlisted, -, members⟩
  obtain rfl := Option.some.inj (tree.symm.trans tree'')
  rw [if_pos (by decide)] at hlisted
  obtain ⟨rfl, -⟩ := Prod.mk.inj (Option.some.inj hlisted)
  have missing := (members 5).mpr ⟨keys ▸ List.mem_singleton_self 5, by decide, by decide⟩
  exact absurd missing (by decide)

/-- A scan stays inside its buffer exactly if the leaves that the walk writes from take `count`
slots at most: one for each key of the interval on each of them, and one for each value left over
on a leaf that is read from right to left.  The calls are on keys other than zero. -/
theorem scan_writes_iff {config : RuntimeConfig} (valid : validateRuntimeConfig config = .ok ())
    (alloc : Allocator) (resume nodes : Nat) (ops : List Operation)
    (keys : ∀ op ∈ ops, op.OnKeys) (start count : Int) (positive : 0 < count)
    (least : longMin ≤ start) (most : start + count ≤ longMax) (numa : Int) :
    let s := (init config (some (PagedTree.empty alloc)) resume nodes).operations ops
    ∃ t leaf front back written, (s.drainPending numa).tree.tree = some t ∧
      Returns (fun fuel => t.tree.descend BTree.aboveLeaves start fuel t.tree.root) leaf ∧
      t.tree.level t.tree.depth = front ++ leaf :: back ∧
      Returns (t.tree.btreeSearchRange start (start + count)) written ∧
      ((written.length : Int) ≤ count ↔
        (slots (t.tree.page leaf).live.length start (start + count)
          ((leaf :: back).map t.tree.page) : Int) ≤ count) := by
  intro s
  have h : s.OnKeys := onKeys_operations valid alloc resume nodes ops keys
  obtain ⟨t, leaf, front, back, written, tree, descends, level, returns, length, -, -⟩ :=
    h.exists_scan start count positive least most [] numa
  refine ⟨t, leaf, front, back, written, tree, descends, level, returns, ?_⟩
  rw [length]

/-- Two leaves show the key 5 to a buffer of two slots. -/
theorem scan_writes_twice :
    ∃ t written, ((afterFives 28).drainPending 0).tree.tree = some t ∧
      Returns (t.tree.btreeSearchRange 4 (4 + 2)) written ∧ written = [5, 5] ∧
      (written.length : Int) ≤ 2 := by
  have checked : (insertAll 6 (List.replicate 28 5) (.empty (.bump 100))).any (fun u =>
      decide (u.descend BTree.aboveLeaves 4 6 u.root = some 101 ∧ u.level u.depth = [101, 102] ∧
        slots (u.page 101).live.length 4 (4 + 2) ([101, 102].map u.page) = 2 ∧
        u.btreeSearchRange 4 (4 + 2) 6 = some [5, 5])) = true := by decide +kernel
  obtain ⟨u, ran, holds⟩ := (Option.any_eq_true _ _).mp checked
  obtain ⟨down, leaves, taken, walked⟩ := of_decide_eq_true holds
  obtain ⟨t, tree, rfl⟩ := tree_afterFives 28 ran
  have fits := scan_writes_iff oneProducer_valid (.bump 100) 0 1 (fives 28) (fives_onKeys 28) 4 2
    (by decide) (by decide) (by decide) 0
  rw [← afterFives] at fits
  obtain ⟨t', leaf, front, back, written, tree', descends, level, returns, fits_iff⟩ := fits
  obtain rfl := Option.some.inj (tree.symm.trans tree')
  obtain rfl := (BTree.steady_descend _ _ _ _).unique descends ⟨6, down⟩
  obtain ⟨rfl, rfl⟩ := BTree.split_first (by decide) (leaves.symm.trans level)
  obtain rfl := (BTree.steady_btreeSearchRange _ _ _).unique returns ⟨6, walked⟩
  refine ⟨t, [5, 5], tree, returns, rfl, fits_iff.mpr ?_⟩
  rw [taken]
  decide

/-- Three leaves show the key 5 to a buffer of two slots. -/
theorem scan_writes_thrice :
    ∃ t written, ((afterFives 42).drainPending 0).tree.tree = some t ∧
      Returns (t.tree.btreeSearchRange 4 (4 + 2)) written ∧ ¬ (written.length : Int) ≤ 2 := by
  have checked : (insertAll 6 (List.replicate 42 5) (.empty (.bump 100))).any (fun u =>
      u.btreeSearchRange 4 (4 + 2) 6 == some [5, 5, 5]) = true := by decide +kernel
  obtain ⟨u, ran, walked⟩ := (Option.any_eq_true _ _).mp checked
  obtain ⟨t, tree, rfl⟩ := tree_afterFives 42 ran
  exact ⟨t, _, tree, ⟨6, beq_iff_eq.mp walked⟩, by decide⟩

end Impl

end F3Tree
