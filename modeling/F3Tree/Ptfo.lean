import Mathlib.Data.Finset.Basic
import Mathlib.Data.Int.Order.Basic
import F3Tree.HashMap
import F3Tree.Directory

/-!
# Per-thread future objects

The buffered side of `core/btree.h`: each producer `tid` owns a chain of
`future_Node`s hanging off the dummy head `local_fut[tid]`, a hashtable
`hash[tid]`, and a lookup directory `future_lookup_directory[tid]`.  A buffered
operation goes into all three (`futureInsert`); readers consult the hashtable
and then the chain (`futureHashDirectedStateViaPtfo`).

A chain is the list of nodes met by following `next` from the dummy head, newest
node first.  `local_fut_tail[tid].next` and the `prev` pointers name the same
nodes from the other end, so a walk along them is a walk along the reversed list.

The global tree below the buffers enters through the three calls the buffered
side makes on it (`GlobalTree`).
-/

namespace F3Tree

/-! ## Sizes -/

def pageSize : Nat := 512

/-- `sizeof(std::mutex)` on Linux/x86-64. -/
def sizeofMutex : Nat := 40

/-- `leftmost_ptr`, `sibling_ptr`, `level`, `switch_counter`, `is_deleted`,
`last_index`, `mtx`. -/
def sizeofHeader : Nat := 8 + 8 + 4 + 1 + 1 + 2 + sizeofMutex

/-- `key`, `ptr`. -/
def sizeofEntry : Nat := 8 + 8

def cardinality : Nat := (pageSize - sizeofHeader) / sizeofEntry

theorem cardinality_eq : cardinality = 28 := rfl

/-! ## The global tree, as its callers see it -/

/-- The calls that replay and lookup make on the global tree.  `btreeSearch` says
whether `btree_search` returns a non-null pointer. -/
class GlobalTree (τ : Type) where
  btreeInsert : τ → Int → τ
  btreeSearch : τ → Int → Bool
  btreeDelete : τ → Int → τ

export GlobalTree (btreeInsert btreeSearch btreeDelete)

/-- The tree read as a finite set of keys. -/
instance : GlobalTree (Finset Int) where
  btreeInsert s k := insert k s
  btreeSearch s k := decide (k ∈ s)
  btreeDelete s k := s.erase k

/-! ## Nodes and chains -/

/-- One index of the arrays `keys`, `is_delete`, `sequence` of a `future_Node`. -/
structure FutureEntry : Type where
  key : Int
  isDelete : Bool
  sequence : Nat
deriving DecidableEq, Repr

/-- An entry together with the producer that buffered it. -/
structure FutureBufferedOp : Type where
  key : Int
  isDelete : Bool
  sequence : Nat
  producerId : Nat
deriving DecidableEq, Repr

/-- A `future_Node` on a chain: its first `entry_count` entries.  A node enters a
chain with one entry and never takes more than `cardinality`. -/
structure FutureNode : Type where
  entries : List FutureEntry
  nonempty : entries ≠ []
  fits : entries.length ≤ cardinality

namespace FutureNode

def entryCount (node : FutureNode) : Nat := node.entries.length

/-- A fresh node holding one entry. -/
def single (e : FutureEntry) : FutureNode where
  entries := [e]
  nonempty := by simp
  fits := by simp [cardinality_eq]

/-- Write the entry at index `entry_count` and advance `entry_count`. -/
def push (node : FutureNode) (e : FutureEntry) (room : node.entryCount ≠ cardinality) :
    FutureNode where
  entries := node.entries ++ [e]
  nonempty := by simp
  fits := by
    have := node.fits
    simp only [entryCount] at room
    simp only [List.length_append, List.length_singleton]
    omega

/-- The entries of a node of producer `tid`, in array order. -/
def ops (node : FutureNode) (tid : Nat) : List FutureBufferedOp :=
  node.entries.map fun e => ⟨e.key, e.isDelete, e.sequence, tid⟩

end FutureNode

/-- The dummy head `local_fut[tid]`.  The nodes behind it are listed newest
first. -/
structure LocalFut : Type where
  next : List FutureNode := []
  entryCount : Nat := 0
  isDone : Bool := false

/-- The chain branches of `future_insert`: a first node, a new head node in front
of a full one, or one more entry in the head node. -/
def LocalFut.insert (fut : LocalFut) (e : FutureEntry) : LocalFut :=
  match fut.next with
  | [] => { fut with next := [.single e], entryCount := fut.entryCount + 1 }
  | node :: rest =>
      if h : node.entryCount = cardinality then
        { fut with next := .single e :: node :: rest, entryCount := fut.entryCount + 1 }
      else { fut with next := node.push e h :: rest }

/-- The dummy head once its chain has been dismantled. -/
def LocalFut.cleared (fut : LocalFut) : LocalFut :=
  { fut with next := [], entryCount := 0, isDone := true }

/-! ## `btree`, its buffered side -/

/-- A collected node: `first_sequence` and `last_sequence` are those of the first
and last operation. -/
structure FutureBufferedNode : Type where
  ops : List FutureBufferedOp
  firstSequence : Nat
  lastSequence : Nat
  producerId : Nat
deriving Repr

/-- The fields of `btree` that the buffered side reads and writes. -/
structure Btree (τ : Type) : Type where
  nThreads : Nat
  tree : τ
  localFut : Nat → LocalFut
  hash : Nat → HashMapTable
  futureLookupDirectory : Nat → LookupDirectory

namespace Btree

variable {τ : Type}

/-- The constructor over a given global tree, with `hash_capacity` as it arrives
there (an `int`). -/
def mk' (numThreads : Nat) (hashCapacity : Int) (tree : τ) : Btree τ where
  nThreads := if 0 < numThreads then numThreads else 1
  tree := tree
  localFut := fun _ => {}
  hash := fun _ => .init (if hashCapacity > 0 then hashCapacity.toNat else 1)
  futureLookupDirectory := fun _ =>
    .empty (if hashCapacity > 0 then hashCapacity.toNat else 1)

/-- `future_insert`. -/
def futureInsert (b : Btree τ) (key : Int) (tid : Nat) (isDone : Bool)
    (sequence : Nat) : Btree τ :=
  { b with
    localFut := Function.update b.localFut tid
      ((b.localFut tid).insert ⟨key, isDone, sequence⟩)
    hash := Function.update b.hash tid ((b.hash tid).insert key tid)
    futureLookupDirectory := Function.update b.futureLookupDirectory tid
      ((b.futureLookupDirectory tid).record key tid isDone sequence) }

/-! ### Readers -/

/-- What a reader has found so far: `latest_state`, `best_seq`, `best_owner`. -/
structure Best : Type where
  state : FutureEntryState := .absent
  sequence : Nat := 0
  owner : Int := -1
deriving DecidableEq, Repr

/-- The reader's body at one entry of producer `tid`'s chain. -/
def Best.visit (key : Int) (best : Best) (op : FutureBufferedOp) : Best :=
  if op.key ≠ key then best
  else if best.state = .absent ∨ op.sequence > best.sequence then
    ⟨stateOf op.isDelete, op.sequence, op.producerId⟩
  else best

/-- The entries of producer `tid`'s chain as a walk along `next` meets them: head
node first, and in array order inside a node. -/
def chainOps (b : Btree τ) (tid : Nat) : List FutureBufferedOp :=
  (b.localFut tid).next.flatMap fun node => node.ops tid

/-- The chain walk of `future_hash_directed_state_via_ptfo` at one producer. -/
def viaPtfoWalk (b : Btree τ) (key : Int) (best : Best) (tid : Nat) : Best :=
  (b.chainOps tid).foldl (Best.visit key) best

/-- The loop body of `future_hash_directed_state_via_ptfo`: the hashtable probe
and, on a hit, the chain walk. -/
def viaPtfoVisit (b : Btree τ) (key : Int) (best : Best) (tid : Nat) : Best :=
  if (b.hash tid).searchKey key = -1 then best else b.viaPtfoWalk key best tid

/-- `future_hash_directed_state_via_ptfo`, with its two out-parameters. -/
def futureHashDirectedStateViaPtfo (b : Btree τ) (key : Int) : Best :=
  (List.range b.nThreads).foldl (b.viaPtfoVisit key) {}

/-! ### Collecting -/

/-- `future_collect_lookup_entries`. -/
def futureCollectLookupEntries (b : Btree τ) : List FutureLookupEntry :=
  (List.range b.nThreads).flatMap fun tid =>
    (b.futureLookupDirectory tid).collect

/-- `future_collect_ops`. -/
def futureCollectOps (b : Btree τ) (tid : Nat) : List FutureBufferedOp :=
  if tid ≥ b.nThreads then [] else b.chainOps tid

/-- `future_collect_nodes`.  No node of a chain is empty, so none is skipped. -/
def futureCollectNodes (b : Btree τ) (tid : Nat) : List FutureBufferedNode :=
  if tid ≥ b.nThreads then []
  else
    (b.localFut tid).next.map fun node =>
      { ops := node.ops tid
        firstSequence := (node.entries.head node.nonempty).sequence
        lastSequence := (node.entries.getLast node.nonempty).sequence
        producerId := tid }

/-! ### Clearing and draining -/

/-- `future_clear_thread`. -/
def futureClearThread (b : Btree τ) (tid : Nat) : Btree τ :=
  if tid ≥ b.nThreads then b
  else { b with localFut := Function.update b.localFut tid (b.localFut tid).cleared }

def clearDirectory (b : Btree τ) (tid : Nat) : Btree τ :=
  { b with futureLookupDirectory :=
      Function.update b.futureLookupDirectory tid (b.futureLookupDirectory tid).clear }

/-- `future_clear_lookup_entries_for_producers`. -/
def futureClearLookupEntriesForProducers (b : Btree τ) (producerIds : List Nat) :
    Btree τ :=
  producerIds.foldl (fun b tid => if tid ≥ b.nThreads then b else b.clearDirectory tid) b

/-- `future_clear_lookup_directory`. -/
def futureClearLookupDirectory (b : Btree τ) : Btree τ :=
  (List.range b.nThreads).foldl clearDirectory b

variable [GlobalTree τ]

/-- `apply_buffered_op`, and the same three lines inside
`future_drain_thread_from_tail`. -/
def applyOp (tree : τ) (key : Int) (isDelete : Bool) : τ :=
  if isDelete then
    if btreeSearch tree key then btreeDelete tree key else tree
  else btreeInsert tree key

/-- The loop of `future_drain_thread_from_tail` over the nodes from the tail: the
tree, and the number of entries applied. -/
def drainNodes (tree : τ) : List FutureNode → τ × Nat
  | [] => (tree, 0)
  | tailNode :: newer =>
      let tree := tailNode.entries.foldl (fun t e => applyOp t e.key e.isDelete) tree
      let (tree, applied) := drainNodes tree newer
      (tree, tailNode.entryCount + applied)

/-- `future_drain_thread_from_tail`. -/
def futureDrainThreadFromTail (b : Btree τ) (tid : Nat) : Btree τ × Nat :=
  if tid ≥ b.nThreads then (b, 0)
  else
    let (tree, applied) := drainNodes b.tree (b.localFut tid).next.reverse
    ({ b with
        tree := tree
        localFut := Function.update b.localFut tid (b.localFut tid).cleared },
      applied)

end Btree

end F3Tree
