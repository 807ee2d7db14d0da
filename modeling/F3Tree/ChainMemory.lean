import Mathlib.Data.Finset.Card
import Mathlib.Data.Finset.Insert
import F3Tree.Lib.Fuel
import F3Tree.Buffered

/-!
# A producer's chain in memory

`local_fut[tid]` and `local_fut_tail[tid]` with the nodes between them, as the stores of
`future_insert`, `future_drain_thread_from_tail` and `future_clear_thread` change them one
by one.  A call is the list of its stores in program order, so that a process that stops
inside a call has performed some of them, from the first one on.

Between calls the nodes are threaded on `next`, on `prev` and on the two ends
(`ChainMemory.Threaded`), and they are the nodes of a `LocalFut`
(`ChainMemory.Refines`).
-/

namespace F3Tree

open Fuel

/-- What `prev` points to: the dummy head `&local_fut[tid]`, or a node. -/
inductive Link : Type
  | dummy
  | node (a : Nat)
deriving DecidableEq, Repr

/-- A `future_Node` in memory, with whatever its arrays hold. -/
structure NodeCell : Type where
  keys : Nat → Int
  isDelete : Nat → Bool
  sequence : Nat → Nat
  entryCount : Nat
  next : Option Nat
  prev : Option Link

/-- The entries that `entry_count` covers. -/
def NodeCell.entries (c : NodeCell) : List FutureEntry :=
  (List.range c.entryCount).map fun i => ⟨c.keys i, c.isDelete i, c.sequence i⟩

/-- The next tail that a drain takes from a node. -/
def NodeCell.nextTail (c : NodeCell) : Option Nat :=
  match c.prev with
  | some (.node a) => some a
  | some .dummy => none
  | none => none

/-- The fields of `local_fut[tid]` and `local_fut_tail[tid]`, and the nodes. -/
structure ChainMemory : Type where
  cells : Nat → NodeCell
  allocated : Finset Nat
  headNext : Option Nat
  headEntryCount : Nat
  headIsDone : Bool
  tailNext : Option Nat

/-- One store, an allocation, a free, or an entry that is applied to the global tree. -/
inductive Store : Type
  | alloc (a : Nat)
  | keys (a idx : Nat) (key : Int)
  | isDelete (a idx : Nat) (isDone : Bool)
  | sequence (a idx sequenceNumber : Nat)
  | entryCount (a n : Nat)
  | next (a : Nat) (link : Option Nat)
  | prev (a : Nat) (link : Option Link)
  | headNext (link : Option Nat)
  | headEntryCount (n : Nat)
  | headIsDone (isDone : Bool)
  | tailNext (link : Option Nat)
  | free (a : Nat)
  | apply (e : FutureEntry)
deriving DecidableEq, Repr

/-- The entry that is applied. -/
def Store.applied? : Store → Option FutureEntry
  | .apply e => some e
  | _ => none

/-- The store is to the slot `idx` of the node `a`. -/
def Store.IntoSlot (a idx : Nat) : Store → Prop
  | .keys b i _ => b = a ∧ i = idx
  | .isDelete b i _ => b = a ∧ i = idx
  | .sequence b i _ => b = a ∧ i = idx
  | _ => False

/-- A store into a node, or its allocation. -/
def Store.Into (new : Nat) : Store → Prop
  | .alloc a | .keys a _ _ | .isDelete a _ _ | .sequence a _ _ | .entryCount a _ | .next a _
  | .prev a _ => a = new
  | _ => False

/-- A store of a drain's turns, where `ns` are the nodes it may free. -/
def Store.Dismantles (ns : List Nat) : Store → Prop
  | .apply _ | .tailNext _ | .headEntryCount _ => True
  | .free a => a ∈ ns
  | _ => False

/-- The entries that stores apply, in order. -/
def appliedOf (stores : List Store) : List FutureEntry := stores.filterMap Store.applied?

/-- `new future_Node()` -/
structure NodeAllocator : Type where
  pick : Finset Nat → Nat
  fresh : ∀ allocated, pick allocated ∉ allocated

namespace ChainMemory

def write (m : ChainMemory) (a : Nat) (f : NodeCell → NodeCell) : ChainMemory :=
  { m with cells := Function.update m.cells a (f (m.cells a)) }

def perform (m : ChainMemory) : Store → ChainMemory
  | .alloc a => { m with allocated := insert a m.allocated }
  | .keys a idx key => m.write a fun c => { c with keys := Function.update c.keys idx key }
  | .isDelete a idx isDone =>
      m.write a fun c => { c with isDelete := Function.update c.isDelete idx isDone }
  | .sequence a idx n => m.write a fun c => { c with sequence := Function.update c.sequence idx n }
  | .entryCount a n => m.write a fun c => { c with entryCount := n }
  | .next a link => m.write a fun c => { c with next := link }
  | .prev a link => m.write a fun c => { c with prev := link }
  | .headNext link => { m with headNext := link }
  | .headEntryCount n => { m with headEntryCount := n }
  | .headIsDone isDone => { m with headIsDone := isDone }
  | .tailNext link => { m with tailNext := link }
  | .free a => { m with allocated := m.allocated.erase a }
  | .apply _ => m

def performs (m : ChainMemory) (stores : List Store) : ChainMemory := stores.foldl perform m

/-! ## `future_insert` -/

/-- The stores into a new node before it is linked: its constructor, the entry, `prev` and
what the branch puts into `next`.  `touch_future_node_allocation` stores zeros over zeros. -/
def freshStores (new : Nat) (e : FutureEntry) (next : Option Nat) : List Store :=
  [.alloc new, .keys new 0 0, .isDelete new 0 false, .sequence new 0 0, .entryCount new 0,
    .next new none, .prev new none,
    .keys new 0 e.key, .isDelete new 0 e.isDelete, .sequence new 0 e.sequence,
    .entryCount new 1, .prev new (some .dummy)] ++
  match next with
  | none => []
  | some head => [.next new (some head)]

/-- The chain branches of `future_insert`. -/
def insertStores (m : ChainMemory) (new : Nat) (e : FutureEntry) : List Store :=
  match m.headNext with
  | none =>
      freshStores new e none ++
        [.headNext (some new), .tailNext (some new), .headEntryCount (m.headEntryCount + 1)]
  | some head =>
      let idx := (m.cells head).entryCount
      if idx = cardinality then
        freshStores new e (some head) ++
          [.prev head (some (.node new)), .headNext (some new),
            .headEntryCount (m.headEntryCount + 1)]
      else
        [.keys head idx e.key, .isDelete head idx e.isDelete, .sequence head idx e.sequence,
          .entryCount head (idx + 1)]

def futureInsert (alloc : NodeAllocator) (m : ChainMemory) (e : FutureEntry) : ChainMemory :=
  m.performs (m.insertStores (alloc.pick m.allocated) e)

/-! ## Drains -/

/-- One turn of `future_drain_thread_from_tail`. -/
def drainTurn (m : ChainMemory) (tailNode : Nat) : List Store :=
  (m.cells tailNode).entries.map .apply ++ .tailNext (m.cells tailNode).nextTail ::
    ((if m.headEntryCount > 0 then [.headEntryCount (m.headEntryCount - 1)] else []) ++
      [.free tailNode])

/-- `future_drain_thread_from_tail` -/
def futureDrainThreadFromTail (m : ChainMemory) : Nat → Option (List Store)
  | 0 => none
  | fuel + 1 =>
      match m.tailNext with
      | none => some [.headNext none, .headEntryCount 0, .headIsDone true]
      | some tailNode => do
          let turn := m.drainTurn tailNode
          let rest ← futureDrainThreadFromTail (m.performs turn) fuel
          return turn ++ rest

/-- The loop of `future_clear_thread`. -/
def freeStores (m : ChainMemory) : Nat → Option Nat → Option (List Store)
  | 0, _ => none
  | _ + 1, none => some []
  | fuel + 1, some current => do
      let rest ← freeStores (m.perform (.free current)) fuel (m.cells current).next
      return .free current :: rest

/-- `future_clear_thread` -/
def futureClearThread (m : ChainMemory) (fuel : Nat) : Option (List Store) := do
  let frees ← m.freeStores fuel m.headNext
  return frees ++ [.headNext none, .headEntryCount 0, .headIsDone true, .tailNext none]

/-! ## Recovery -/

/-- The walk of the recovery pass.  It must not touch a freed node. -/
def recoveryWalk (m : ChainMemory) : Nat → Option Nat → Option (List Nat)
  | 0, _ => none
  | _ + 1, none => some []
  | fuel + 1, some current =>
      if current ∈ m.allocated then
        (recoveryWalk m fuel (m.cells current).next).map (current :: ·)
      else none

/-- The entries of nodes that are listed newest first, oldest first. -/
def log (m : ChainMemory) (nodes : List Nat) : List FutureEntry :=
  nodes.reverse.flatMap fun a => (m.cells a).entries

/-- The chain that recovery finds has the entries `ops`. -/
def Recovers (m : ChainMemory) (ops : List FutureEntry) : Prop :=
  ∃ nodes, Returns (fun fuel => m.recoveryWalk fuel m.headNext) nodes ∧ m.log nodes = ops

/-- The recovery pass over `nodes` restores `entry_count` of the dummy head. -/
def reopen (m : ChainMemory) (nodes : List Nat) : ChainMemory :=
  { m with headEntryCount := (m.log nodes).length }

/-! ## Threads -/

/-- The nodes, newest first, are threaded on `next`. -/
def Forward (m : ChainMemory) : List Nat → Prop
  | [] => True
  | a :: ns => (m.cells a).next = ns.head? ∧ Forward m ns

/-- The nodes, newest first, are threaded on `prev`, the first one to `before`. -/
def Backward (m : ChainMemory) : Link → List Nat → Prop
  | _, [] => True
  | before, a :: ns => (m.cells a).prev = some before ∧ Backward m (.node a) ns

/-- What recovery goes by: allocated nodes on `next` from the dummy head. -/
structure Strung (m : ChainMemory) (ns : List Nat) : Prop where
  nodup : ns.Nodup
  allocated : ∀ a ∈ ns, a ∈ m.allocated
  entries : ∀ a ∈ ns, (m.cells a).entries ≠ [] ∧ (m.cells a).entryCount ≤ cardinality
  forward : m.Forward ns
  head : m.headNext = ns.head?

/-- Moreover what drains go by: `prev`, from the tail. -/
structure Threaded (m : ChainMemory) (ns : List Nat) : Prop extends Strung m ns where
  backward : m.Backward .dummy ns
  tail : m.tailNext = ns.getLast?

section Frames

variable {m m' : ChainMemory} {ns : List Nat} {before : Link}

/-- Two memories agree on nodes, as far as recovery goes. -/
structure SameOn (m m' : ChainMemory) (ns : List Nat) : Prop where
  entries : ∀ a ∈ ns, (m'.cells a).entries = (m.cells a).entries
  entryCount : ∀ a ∈ ns, (m'.cells a).entryCount = (m.cells a).entryCount
  next : ∀ a ∈ ns, (m'.cells a).next = (m.cells a).next
  allocated : ∀ a ∈ ns, a ∈ m.allocated → a ∈ m'.allocated

/-- Moreover on `prev` and on the two ends. -/
structure Unchanged (m m' : ChainMemory) (ns : List Nat) : Prop extends SameOn m m' ns where
  prev : ∀ a ∈ ns, (m'.cells a).prev = (m.cells a).prev
  head : m'.headNext = m.headNext
  tail : m'.tailNext = m.tailNext

theorem Unchanged.of_cells (cells : ∀ a ∈ ns, m'.cells a = m.cells a)
    (allocated : ∀ a ∈ ns, a ∈ m.allocated → a ∈ m'.allocated)
    (head : m'.headNext = m.headNext) (tail : m'.tailNext = m.tailNext) : Unchanged m m' ns := by
  refine ⟨⟨?_, ?_, ?_, allocated⟩, ?_, head, tail⟩
  all_goals
    intro a mem
    rw [cells a mem]

theorem Unchanged.trans {m'' : ChainMemory} (h : Unchanged m m' ns) (h' : Unchanged m' m'' ns) :
    Unchanged m m'' ns :=
  ⟨⟨fun a mem => (h'.entries a mem).trans (h.entries a mem),
      fun a mem => (h'.entryCount a mem).trans (h.entryCount a mem),
      fun a mem => (h'.next a mem).trans (h.next a mem),
      fun a mem had => h'.allocated a mem (h.allocated a mem had)⟩,
    fun a mem => (h'.prev a mem).trans (h.prev a mem), h'.head.trans h.head, h'.tail.trans h.tail⟩

theorem Forward.congr (h : m.Forward ns) (next : ∀ a ∈ ns, (m'.cells a).next = (m.cells a).next) :
    m'.Forward ns := by
  induction ns with
  | nil => trivial
  | cons a ns ih =>
      obtain ⟨here, next⟩ := List.forall_mem_cons.mp next
      exact ⟨here.trans h.1, ih h.2 next⟩

theorem Backward.congr (h : m.Backward before ns)
    (prev : ∀ a ∈ ns, (m'.cells a).prev = (m.cells a).prev) : m'.Backward before ns := by
  induction ns generalizing before with
  | nil => trivial
  | cons a ns ih =>
      obtain ⟨here, prev⟩ := List.forall_mem_cons.mp prev
      exact ⟨here.trans h.1, ih h.2 prev⟩

theorem log_congr (entries : ∀ a ∈ ns, (m'.cells a).entries = (m.cells a).entries) :
    m'.log ns = m.log ns :=
  List.flatMap_congr fun a mem => entries a (List.mem_reverse.mp mem)

theorem log_append (m : ChainMemory) (ns ns' : List Nat) :
    m.log (ns ++ ns') = m.log ns' ++ m.log ns := by
  rw [log, List.reverse_append, List.flatMap_append]
  rfl

theorem log_cons (m : ChainMemory) (a : Nat) (ns : List Nat) :
    m.log (a :: ns) = m.log ns ++ (m.cells a).entries := by
  rw [log, List.reverse_cons, List.flatMap_append]
  exact congrArg _ (List.append_nil _)

theorem Strung.congr (h : m.Strung ns) (same : SameOn m m' ns) (head : m'.headNext = m.headNext) :
    m'.Strung ns := by
  refine ⟨h.nodup, fun a mem => same.allocated a mem (h.allocated a mem), fun a mem => ?_,
    h.forward.congr same.next, head.trans h.head⟩
  rw [same.entries a mem, same.entryCount a mem]
  exact h.entries a mem

theorem Threaded.congr (h : m.Threaded ns) (same : Unchanged m m' ns) : m'.Threaded ns :=
  ⟨h.toStrung.congr same.toSameOn same.head, h.backward.congr same.prev, same.tail.trans h.tail⟩

end Frames

section Recovery

variable {m : ChainMemory} {ns : List Nat}

theorem steady_recoveryWalk (m : ChainMemory) (current : Option Nat) :
    Steady fun fuel => m.recoveryWalk fuel current := by
  intro fuel
  induction fuel generalizing current with
  | zero => exact Extends.of_none _
  | succ fuel ih =>
      cases current with
      | none => exact Extends.refl _
      | some a => exact Extends.ite _ (.map (ih _) _) (.refl _)

theorem recoveryWalk_of_forward (allocated : ∀ a ∈ ns, a ∈ m.allocated) (forward : m.Forward ns) :
    Returns (fun fuel => m.recoveryWalk fuel ns.head?) ns := by
  induction ns with
  | nil => exact ⟨1, rfl⟩
  | cons a ns ih =>
      obtain ⟨here, allocated⟩ := List.forall_mem_cons.mp allocated
      obtain ⟨fuel, walk⟩ := ih allocated forward.2
      refine ⟨fuel + 1, ?_⟩
      simp only [List.head?_cons, recoveryWalk, if_pos here, forward.1, walk, Option.map_some]

theorem Strung.walk (h : m.Strung ns) :
    Returns (fun fuel => m.recoveryWalk fuel m.headNext) ns := by
  rw [h.head]
  exact recoveryWalk_of_forward h.allocated h.forward

theorem Strung.recovers (h : m.Strung ns) : m.Recovers (m.log ns) := ⟨ns, h.walk, rfl⟩

end Recovery

/-! ## Insertions -/

section Insert

theorem performs_append (m : ChainMemory) (stores stores' : List Store) :
    m.performs (stores ++ stores') = (m.performs stores).performs stores' :=
  List.foldl_append

theorem performs_cons (m : ChainMemory) (s : Store) (stores : List Store) :
    m.performs (s :: stores) = (m.perform s).performs stores := rfl

/-- Stores into a node that is not on the chain are not seen there. -/
theorem performs_into {new : Nat} {stores : List Store} (into : ∀ s ∈ stores, s.Into new)
    (m : ChainMemory) :
    ∃ c allocated, m.allocated ⊆ allocated ∧
      m.performs stores = { m with
        cells := Function.update m.cells new c
        allocated := allocated } := by
  induction stores generalizing m with
  | nil =>
      refine ⟨m.cells new, m.allocated, Finset.Subset.refl _, ?_⟩
      rw [Function.update_eq_self]
      rfl
  | cons s stores ih =>
      obtain ⟨here, into⟩ := List.forall_mem_cons.mp into
      have one : ∃ c allocated, m.allocated ⊆ allocated ∧
          m.perform s = { m with
            cells := Function.update m.cells new c
            allocated := allocated } := by
        cases s with
        | alloc a =>
            refine ⟨m.cells new, insert a m.allocated, Finset.subset_insert _ _, ?_⟩
            rw [Function.update_eq_self]
            rfl
        | keys a | isDelete a | sequence a | entryCount a | next a | prev a =>
            obtain rfl : a = new := here
            exact ⟨_, _, Finset.Subset.refl _, rfl⟩
        | _ => exact absurd here id
      obtain ⟨c, allocated, sub, step⟩ := one
      obtain ⟨c', allocated', sub', rest⟩ := ih into (m.perform s)
      rw [step] at sub'
      refine ⟨c', allocated', sub.trans sub', ?_⟩
      rw [performs_cons, rest, step]
      simp only [Function.update_idem]

theorem into_freshStores (new : Nat) (e : FutureEntry) (next : Option Nat) :
    ∀ s ∈ freshStores new e next, s.Into new := by
  unfold freshStores
  cases next with
  | none => simp [Store.Into]
  | some head => simp [Store.Into]

/-- The new node, complete but not linked. -/
theorem performs_freshStores (m : ChainMemory) (new : Nat) (e : FutureEntry) (next : Option Nat) :
    ∃ c : NodeCell, c.entries = [e] ∧ c.entryCount = 1 ∧ c.next = next ∧ c.prev = some .dummy ∧
      m.performs (freshStores new e next) = { m with
        cells := Function.update m.cells new c
        allocated := insert new m.allocated } := by
  let c : NodeCell :=
    { keys := Function.update (Function.update (m.cells new).keys 0 0) 0 e.key
      isDelete := Function.update (Function.update (m.cells new).isDelete 0 false) 0 e.isDelete
      sequence := Function.update (Function.update (m.cells new).sequence 0 0) 0 e.sequence
      entryCount := 1
      next := next
      prev := some .dummy }
  refine ⟨c, ?_, rfl, rfl, rfl, ?_⟩
  · simp [c, NodeCell.entries]
  · cases next with
    | none => simp [c, freshStores, performs, perform, write]
    | some head => simp [c, freshStores, performs, perform, write]

variable {m m' : ChainMemory} {new head : Nat} {ns : List Nat} {before : Link} {e : FutureEntry}

/-- A node that holds one entry, as `future_insert` fills it. -/
structure Holds (m : ChainMemory) (new : Nat) (e : FutureEntry) (next : Option Nat) : Prop where
  allocated : new ∈ m.allocated
  entries : (m.cells new).entries = [e]
  entryCount : (m.cells new).entryCount = 1
  next : (m.cells new).next = next
  prev : (m.cells new).prev = some .dummy

/-- Before the new node is linked, the chain is as it was. -/
theorem performs_take_freshStores (fresh : new ∉ ns) (m : ChainMemory) (e : FutureEntry)
    (next : Option Nat) (n : Nat) :
    Unchanged m (m.performs ((freshStores new e next).take n)) ns := by
  have into : ∀ s ∈ (freshStores new e next).take n, s.Into new := fun s mem =>
    into_freshStores new e next s (List.mem_of_mem_take mem)
  obtain ⟨c, allocated, sub, performed⟩ := performs_into into m
  rw [performed]
  refine Unchanged.of_cells (fun a mem => ?_) (fun a _ h => sub h) rfl rfl
  apply Function.update_of_ne
  rintro rfl
  exact fresh mem

/-- The new node once it is complete. -/
theorem performs_fresh (fresh : new ∉ ns) (m : ChainMemory) (e : FutureEntry)
    (next : Option Nat) :
    Unchanged m (m.performs (freshStores new e next)) ns ∧
      (m.performs (freshStores new e next)).Holds new e next := by
  obtain ⟨c, entries, count, hnext, prev, performed⟩ := performs_freshStores m new e next
  rw [performed]
  constructor
  · refine Unchanged.of_cells (fun a mem => ?_) (fun a _ h => Finset.mem_insert_of_mem h) rfl rfl
    apply Function.update_of_ne
    rintro rfl
    exact fresh mem
  · have here : Function.update m.cells new c new = c := Function.update_self ..
    refine ⟨Finset.mem_insert_self _ _, ?_, ?_, ?_, ?_⟩
    all_goals
      simp only [here]
      assumption

theorem Holds.strung (holds : m.Holds new e none) (head : m.headNext = some new) :
    m.Strung [new] := by
  refine ⟨List.nodup_singleton new, fun a mem => ?_, fun a mem => ?_, ⟨holds.next, trivial⟩, head⟩
  · rw [List.mem_singleton.mp mem]
    exact holds.allocated
  · rw [List.mem_singleton.mp mem, holds.entries, holds.entryCount]
    exact ⟨List.cons_ne_nil _ _, by decide⟩

theorem Holds.log_single {link : Option Nat} (holds : m.Holds new e link) : m.log [new] = [e] := by
  rw [log_cons, holds.entries]
  rfl

/-- A new node in front of a chain. -/
theorem Holds.strung_cons (holds : m'.Holds new e ns.head?) (fresh : new ∉ ns) (h : m.Strung ns)
    (same : SameOn m m' ns) (head : m'.headNext = some new) : m'.Strung (new :: ns) := by
  refine ⟨List.nodup_cons.mpr ⟨fresh, h.nodup⟩, ?_, ?_,
    ⟨holds.next, h.forward.congr same.next⟩, head⟩
  · intro a mem
    rcases List.mem_cons.mp mem with rfl | mem
    · exact holds.allocated
    · exact same.allocated a mem (h.allocated a mem)
  · intro a mem
    rcases List.mem_cons.mp mem with rfl | mem
    · rw [holds.entries, holds.entryCount]
      exact ⟨List.cons_ne_nil _ _, by decide⟩
    · rw [same.entries a mem, same.entryCount a mem]
      exact h.entries a mem

theorem insertStores_none (head : m.headNext = none) (new : Nat) (e : FutureEntry) :
    m.insertStores new e = freshStores new e none ++
      [.headNext (some new), .tailNext (some new), .headEntryCount (m.headEntryCount + 1)] := by
  unfold insertStores
  rw [head]

theorem insertStores_full (h : m.headNext = some head) (full : (m.cells head).entryCount = cardinality)
    (new : Nat) (e : FutureEntry) :
    m.insertStores new e = freshStores new e (some head) ++
      [.prev head (some (.node new)), .headNext (some new),
        .headEntryCount (m.headEntryCount + 1)] := by
  unfold insertStores
  rw [h]
  exact if_pos full

theorem insertStores_room (h : m.headNext = some head)
    (room : (m.cells head).entryCount ≠ cardinality) (new : Nat) (e : FutureEntry) :
    m.insertStores new e =
      [.keys head (m.cells head).entryCount e.key, .isDelete head (m.cells head).entryCount e.isDelete,
        .sequence head (m.cells head).entryCount e.sequence,
        .entryCount head ((m.cells head).entryCount + 1)] := by
  unfold insertStores
  rw [h]
  exact if_neg room

theorem take_append_cases {α : Type} (xs ys : List α) (n : Nat) :
    n ≤ xs.length ∧ (xs ++ ys).take n = xs.take n ∨
      ∃ j, n = xs.length + (j + 1) ∧ (xs ++ ys).take n = xs ++ ys.take (j + 1) := by
  rcases Nat.lt_or_ge xs.length n with lt | le
  · refine Or.inr ⟨n - xs.length - 1, by omega, ?_⟩
    rw [List.take_append, List.take_of_length_le lt.le]
    congr 2
    omega
  · exact Or.inl ⟨le, List.take_append_of_le_length le⟩

/-- The first node.  Between its two link stores the chain has no tail. -/
theorem Threaded.insert_first (h : m.Threaded []) (new : Nat) (e : FutureEntry) (n : Nat) :
    let crashed := m.performs ((m.insertStores new e).take n)
    (n ≤ 12 ∧ crashed.Threaded []) ∨
      (n = 13 ∧ crashed.Strung [new] ∧ crashed.Backward .dummy [new] ∧ crashed.tailNext = none ∧
        crashed.log [new] = [e]) ∨
      (14 ≤ n ∧ crashed.Threaded [new] ∧ crashed.log [new] = [e]) := by
  intro crashed
  have stores := insertStores_none h.head new e
  have length : (freshStores new e none).length = 12 := rfl
  have fresh : new ∉ ([] : List Nat) := List.not_mem_nil
  obtain ⟨same, holds⟩ := performs_fresh fresh m e none
  rcases take_append_cases (freshStores new e none) _ n with ⟨le, taken⟩ | ⟨j, rfl, taken⟩
  · refine Or.inl ⟨by omega, ?_⟩
    unfold crashed
    rw [stores, taken]
    exact h.congr (performs_take_freshStores fresh m e none n)
  · unfold crashed
    rw [stores, taken, performs_append]
    generalize m.performs (freshStores new e none) = m₁ at same holds
    have linked : ∀ tailNext count, ChainMemory.Holds { m₁ with
        headNext := some new
        tailNext := tailNext
        headEntryCount := count } new e none := fun _ _ =>
      ⟨holds.1, holds.2, holds.3, holds.4, holds.5⟩
    rcases j with _ | _ | j
    · exact Or.inr (Or.inl ⟨by omega, (linked _ _).strung rfl, ⟨holds.prev, trivial⟩,
        same.tail.trans h.tail, (linked _ _).log_single⟩)
    · exact Or.inr (Or.inr ⟨by omega, ⟨(linked _ _).strung rfl, ⟨holds.prev, trivial⟩, rfl⟩,
        (linked _ _).log_single⟩)
    · rw [List.take_of_length_le (by simp)]
      exact Or.inr (Or.inr ⟨by omega, ⟨(linked _ _).strung rfl, ⟨holds.prev, trivial⟩, rfl⟩,
        (linked _ _).log_single⟩)

/-- A store to `prev` of one node. -/
theorem perform_prev (m : ChainMemory) (head : Nat) (link : Option Link) (a : Nat) :
    ((m.perform (.prev head link)).cells a).entries = (m.cells a).entries ∧
      ((m.perform (.prev head link)).cells a).entryCount = (m.cells a).entryCount ∧
      ((m.perform (.prev head link)).cells a).next = (m.cells a).next ∧
      ((m.perform (.prev head link)).cells a).prev = if a = head then link else (m.cells a).prev := by
  by_cases ha : a = head
  · subst ha
    simp [perform, write, NodeCell.entries]
  · simp [perform, write, ha]

/-- A node in front of a full one.  Between the two link stores `prev` leads to a node that
`next` does not lead to. -/
theorem Strung.insert_prepend (h : m.Strung (head :: ns)) (backward : m.Backward before (head :: ns))
    (full : (m.cells head).entryCount = cardinality) (fresh : new ∉ head :: ns) (e : FutureEntry)
    (n : Nat) :
    let crashed := m.performs ((m.insertStores new e).take n)
    crashed.tailNext = m.tailNext ∧
    ((n ≤ 13 ∧ Unchanged m crashed (head :: ns)) ∨
      (crashed.Backward .dummy (new :: head :: ns) ∧
        (∀ a ∈ new :: head :: ns, a ∈ crashed.allocated) ∧ SameOn m crashed (head :: ns) ∧
        (crashed.cells new).entries = [e] ∧
        (n = 14 ∧ crashed.Strung (head :: ns) ∨ 15 ≤ n ∧ crashed.Strung (new :: head :: ns)))) := by
  intro crashed
  have stores := insertStores_full h.head full new e
  have length : (freshStores new e (some head)).length = 13 := rfl
  obtain ⟨same, holds⟩ := performs_fresh fresh m e (some head)
  rcases take_append_cases (freshStores new e (some head)) _ n with ⟨le, taken⟩ | ⟨j, rfl, taken⟩
  · have same := performs_take_freshStores fresh m e (some head) n
    unfold crashed
    rw [stores, taken]
    exact ⟨same.tail, Or.inl ⟨by omega, same⟩⟩
  · unfold crashed
    rw [stores, taken, performs_append]
    generalize m.performs (freshStores new e (some head)) = m₁ at same holds
    generalize hm₂ : m₁.perform (.prev head (some (.node new))) = m₂
    have relinked := hm₂ ▸ m₁.perform_prev head (some (.node new))
    have notHead : new ≠ head := fun heq => fresh (heq ▸ List.mem_cons_self)
    have linked : ∀ headNext count,
        ChainMemory.Holds { m₂ with headNext := headNext, headEntryCount := count } new e
          (some head) := by
      intro headNext count
      obtain ⟨entries, entryCount, next, prev⟩ := relinked new
      rw [if_neg notHead] at prev
      exact ⟨hm₂ ▸ holds.allocated, entries.trans holds.entries,
        entryCount.trans holds.entryCount, next.trans holds.next, prev.trans holds.prev⟩
    have kept : ∀ headNext count,
        SameOn m { m₂ with headNext := headNext, headEntryCount := count } (head :: ns) := by
      intro headNext count
      exact ⟨fun a mem => (relinked a).1.trans (same.entries a mem),
        fun a mem => (relinked a).2.1.trans (same.entryCount a mem),
        fun a mem => (relinked a).2.2.1.trans (same.next a mem), hm₂ ▸ same.allocated⟩
    have back : ∀ headNext count,
        ChainMemory.Backward { m₂ with headNext := headNext, headEntryCount := count } .dummy
          (new :: head :: ns) := by
      intro headNext count
      refine ⟨(linked headNext count).prev, ?_, backward.2.congr fun a mem => ?_⟩
      · rw [(relinked head).2.2.2, if_pos rfl]
      · have hne : a ≠ head := fun heq => (List.nodup_cons.mp h.nodup).1 (heq ▸ mem)
        rw [(relinked a).2.2.2, if_neg hne]
        exact same.prev a (List.mem_cons_of_mem _ mem)
    have allocated : ∀ headNext count, ∀ a ∈ new :: head :: ns,
        a ∈ ChainMemory.allocated { m₂ with headNext := headNext, headEntryCount := count } := by
      intro headNext count a mem
      rcases List.mem_cons.mp mem with rfl | mem
      · exact (linked headNext count).allocated
      · exact (kept headNext count).allocated a mem (h.allocated a mem)
    have tail : m₂.tailNext = m.tailNext := hm₂ ▸ same.tail
    have headNext : m₂.headNext = m.headNext := hm₂ ▸ same.head
    rw [List.take_succ_cons, performs_cons, hm₂]
    rcases j with _ | _ | j
    · refine ⟨tail, Or.inr ⟨back m₂.headNext m₂.headEntryCount, allocated m₂.headNext _,
        kept m₂.headNext m₂.headEntryCount, (linked m₂.headNext m₂.headEntryCount).entries,
        Or.inl ⟨by omega, ?_⟩⟩⟩
      exact h.congr (kept m₂.headNext m₂.headEntryCount) headNext
    · refine ⟨tail, Or.inr ⟨back (some new) m₂.headEntryCount, allocated (some new) _,
        kept (some new) m₂.headEntryCount, (linked (some new) m₂.headEntryCount).entries,
        Or.inr ⟨by omega, ?_⟩⟩⟩
      exact (linked (some new) m₂.headEntryCount).strung_cons fresh h (kept _ _) rfl
    · rw [List.take_of_length_le (by simp)]
      refine ⟨tail, Or.inr ⟨back (some new) _, allocated (some new) _, kept (some new) _,
        (linked (some new) _).entries, Or.inr ⟨by omega, ?_⟩⟩⟩
      exact (linked (some new) _).strung_cons fresh h (kept _ _) rfl

/-- What lies behind `entry_count` is not read. -/
theorem entries_slots (c : NodeCell) {keys : Nat → Int} {isDelete : Nat → Bool}
    {sequence : Nat → Nat} (hkeys : ∀ i < c.entryCount, keys i = c.keys i)
    (hdelete : ∀ i < c.entryCount, isDelete i = c.isDelete i)
    (hsequence : ∀ i < c.entryCount, sequence i = c.sequence i) :
    NodeCell.entries { c with keys := keys, isDelete := isDelete, sequence := sequence } =
      c.entries := by
  unfold NodeCell.entries
  refine List.map_congr_left fun i mem => ?_
  have hi : i < c.entryCount := List.mem_range.mp mem
  simp only [hkeys i hi, hdelete i hi, hsequence i hi]

theorem entries_push (c : NodeCell) (e : FutureEntry) :
    NodeCell.entries { c with
      keys := Function.update c.keys c.entryCount e.key
      isDelete := Function.update c.isDelete c.entryCount e.isDelete
      sequence := Function.update c.sequence c.entryCount e.sequence
      entryCount := c.entryCount + 1 } = c.entries ++ [e] := by
  unfold NodeCell.entries
  rw [List.range_succ, List.map_append, List.map_singleton]
  simp only [Function.update_self]
  congr 1
  refine List.map_congr_left fun i mem => ?_
  have hne : i ≠ c.entryCount := (List.mem_range.mp mem).ne
  simp only [Function.update_of_ne hne]

/-- A store to the slot behind the entries of a node is not seen. -/
theorem unchanged_slot {s : Store} (into : s.IntoSlot head (m.cells head).entryCount)
    (ns : List Nat) : Unchanged m (m.perform s) ns := by
  have below : ∀ {β : Type} (f : Nat → β) (v : β), ∀ i < (m.cells head).entryCount,
      Function.update f (m.cells head).entryCount v i = f i := fun f v i hi =>
    Function.update_of_ne hi.ne v f
  have cell : ∀ c : NodeCell, c.entries = (m.cells head).entries →
      c.entryCount = (m.cells head).entryCount → c.next = (m.cells head).next →
      c.prev = (m.cells head).prev →
      Unchanged m { m with cells := Function.update m.cells head c } ns := by
    intro c entries count next prev
    have here : ∀ {β : Type} (f : NodeCell → β), f c = f (m.cells head) →
        ∀ a, f (Function.update m.cells head c a) = f (m.cells a) := by
      intro β f heq a
      by_cases ha : a = head
      · rw [ha, Function.update_self, heq]
      · rw [Function.update_of_ne ha]
    exact ⟨⟨fun a _ => here NodeCell.entries entries a, fun a _ => here NodeCell.entryCount count a,
      fun a _ => here NodeCell.next next a, fun _ _ mem => mem⟩,
      fun a _ => here NodeCell.prev prev a, rfl, rfl⟩
  cases s with
  | keys =>
      obtain ⟨rfl, rfl⟩ := into
      exact cell _ (entries_slots _ (below _ _) (fun _ _ => rfl) fun _ _ => rfl) rfl rfl rfl
  | isDelete =>
      obtain ⟨rfl, rfl⟩ := into
      exact cell _ (entries_slots _ (fun _ _ => rfl) (below _ _) fun _ _ => rfl) rfl rfl rfl
  | sequence =>
      obtain ⟨rfl, rfl⟩ := into
      exact cell _ (entries_slots _ (fun _ _ => rfl) (fun _ _ => rfl) (below _ _)) rfl rfl rfl
  | _ => exact into.elim

theorem unchanged_slots {stores : List Store} (hhead : head ∈ ns)
    (into : ∀ s ∈ stores, s.IntoSlot head (m.cells head).entryCount) :
    Unchanged m (m.performs stores) ns := by
  induction stores generalizing m with
  | nil => exact Unchanged.of_cells (fun _ _ => rfl) (fun _ _ mem => mem) rfl rfl
  | cons s stores ih =>
      obtain ⟨hs, into⟩ := List.forall_mem_cons.mp into
      have first := unchanged_slot hs ns
      rw [performs_cons]
      refine first.trans (ih ?_)
      rwa [first.entryCount head hhead]

/-- One more entry in the head node, which has it once `entry_count` has been stored. -/
theorem Strung.insert_append (h : m.Strung (head :: ns)) (backward : m.Backward before (head :: ns))
    (room : (m.cells head).entryCount ≠ cardinality) (new : Nat) (e : FutureEntry) (n : Nat) :
    let crashed := m.performs ((m.insertStores new e).take n)
    crashed.tailNext = m.tailNext ∧
    ((n ≤ 3 ∧ Unchanged m crashed (head :: ns)) ∨
      (4 ≤ n ∧ crashed.Strung (head :: ns) ∧ crashed.Backward before (head :: ns) ∧
        (crashed.cells head).entries = (m.cells head).entries ++ [e] ∧
        ∀ a ∈ ns, crashed.cells a = m.cells a)) := by
  intro crashed
  have stores := insertStores_room h.head room new e
  rcases Nat.lt_or_ge 3 n with all | few
  · have whole : crashed = { m with
          cells := Function.update m.cells head { m.cells head with
            keys := Function.update (m.cells head).keys (m.cells head).entryCount e.key
            isDelete := Function.update (m.cells head).isDelete (m.cells head).entryCount
              e.isDelete
            sequence := Function.update (m.cells head).sequence (m.cells head).entryCount
              e.sequence
            entryCount := (m.cells head).entryCount + 1 } } := by
      unfold crashed
      rw [stores, List.take_of_length_le all]
      simp [performs, perform, write]
    have others : ∀ {c : NodeCell} {a : Nat}, a ∈ ns →
        Function.update m.cells head c a = m.cells a := by
      intro c a mem
      apply Function.update_of_ne
      rintro rfl
      exact (List.nodup_cons.mp h.nodup).1 mem
    have fits := (h.entries head List.mem_cons_self).2
    rw [whole]
    refine ⟨rfl, Or.inr ⟨all, ⟨h.nodup, h.allocated, ?_, ?_, h.head⟩, ?_, ?_, ?_⟩⟩
    · refine List.forall_mem_cons.mpr ⟨?_, fun a mem => ?_⟩
      · simp only [Function.update_self]
        rw [entries_push]
        exact ⟨by simp, by omega⟩
      · simp only [others mem]
        exact h.entries a (List.mem_cons_of_mem _ mem)
    · refine h.forward.congr (List.forall_mem_cons.mpr ⟨?_, fun a mem => ?_⟩)
      · simp only [Function.update_self]
      · simp only [others mem]
    · refine backward.congr (List.forall_mem_cons.mpr ⟨?_, fun a mem => ?_⟩)
      · simp only [Function.update_self]
      · simp only [others mem]
    · simp only [Function.update_self]
      exact entries_push _ _
    · exact fun a mem => others mem
  · -- Only the slot behind the entries has been written.
    have into : ∀ s ∈ (m.insertStores new e).take n,
        s.IntoSlot head (m.cells head).entryCount := by
      intro s mem
      have sub : (m.insertStores new e).take n <+: (m.insertStores new e).take 3 :=
        List.take_prefix_take_left few
      have mem := sub.subset mem
      rw [stores] at mem
      simp only [List.take_succ_cons, List.take_zero, List.mem_cons, List.not_mem_nil,
        or_false] at mem
      rcases mem with rfl | rfl | rfl <;> exact ⟨rfl, rfl⟩
    have same : Unchanged m crashed (head :: ns) := unchanged_slots List.mem_cons_self into
    exact ⟨same.tail, Or.inl ⟨few, same⟩⟩

theorem headIsDone_freshStores (m : ChainMemory) (new : Nat) (e : FutureEntry)
    (next : Option Nat) : (m.performs (freshStores new e next)).headIsDone = m.headIsDone := by
  obtain ⟨c, -, -, -, -, performed⟩ := performs_freshStores m new e next
  rw [performed]

/-- A completed first insertion. -/
theorem Threaded.insert_none (h : m.Threaded []) (new : Nat) (e : FutureEntry) :
    let m' := m.performs (m.insertStores new e)
    m'.Threaded [new] ∧ (m'.cells new).entries = [e] ∧
      m'.headEntryCount = m.headEntryCount + 1 ∧ m'.headIsDone = m.headIsDone := by
  intro m'
  have stores := insertStores_none h.head new e
  have first := h.insert_first new e (m.insertStores new e).length
  have length : (m.insertStores new e).length = 15 := stores ▸ rfl
  rw [List.take_length] at first
  rcases first with ⟨le, -⟩ | ⟨eq, -⟩ | ⟨-, linked, logged⟩
  · omega
  · omega
  · rw [log_cons] at logged
    refine ⟨linked, logged, ?_⟩
    unfold m'
    rw [stores, performs_append]
    have isDone := m.headIsDone_freshStores new e none
    generalize m.performs (freshStores new e none) = m₁ at isDone
    exact ⟨rfl, isDone⟩

/-- A completed insertion in front of a full node. -/
theorem Strung.insert_full (h : m.Strung (head :: ns)) (backward : m.Backward before (head :: ns))
    (full : (m.cells head).entryCount = cardinality) (fresh : new ∉ head :: ns) (e : FutureEntry) :
    let m' := m.performs (m.insertStores new e)
    m'.Strung (new :: head :: ns) ∧ m'.Backward .dummy (new :: head :: ns) ∧
      m'.tailNext = m.tailNext ∧ (m'.cells new).entries = [e] ∧ SameOn m m' (head :: ns) ∧
      m'.headEntryCount = m.headEntryCount + 1 ∧ m'.headIsDone = m.headIsDone := by
  intro m'
  have stores := insertStores_full h.head full new e
  have prepend := h.insert_prepend backward full fresh e (m.insertStores new e).length
  have length : (m.insertStores new e).length = 16 := stores ▸ rfl
  rw [List.take_length] at prepend
  obtain ⟨tail, ⟨le, -⟩ | ⟨back, -, same, entries, ⟨eq, -⟩ | ⟨-, strung⟩⟩⟩ := prepend
  · omega
  · omega
  · refine ⟨strung, back, tail, entries, same, ?_⟩
    unfold m'
    rw [stores, performs_append]
    have isDone := m.headIsDone_freshStores new e (some head)
    generalize m.performs (freshStores new e (some head)) = m₁ at isDone
    exact ⟨rfl, isDone⟩

/-- A completed insertion into the head node. -/
theorem Strung.insert_room (h : m.Strung (head :: ns)) (backward : m.Backward before (head :: ns))
    (room : (m.cells head).entryCount ≠ cardinality) (new : Nat) (e : FutureEntry) :
    let m' := m.performs (m.insertStores new e)
    m'.Strung (head :: ns) ∧ m'.Backward before (head :: ns) ∧ m'.tailNext = m.tailNext ∧
      (m'.cells head).entries = (m.cells head).entries ++ [e] ∧
      (∀ a ∈ ns, m'.cells a = m.cells a) ∧
      m'.headEntryCount = m.headEntryCount ∧ m'.headIsDone = m.headIsDone := by
  intro m'
  have stores := insertStores_room h.head room new e
  have append := h.insert_append backward room new e (m.insertStores new e).length
  have length : (m.insertStores new e).length = 4 := stores ▸ rfl
  rw [List.take_length] at append
  rcases append with ⟨tail, ⟨le, -⟩ | ⟨-, strung, back, entries, others⟩⟩
  · omega
  · refine ⟨strung, back, tail, entries, others, ?_⟩
    unfold m'
    rw [stores]
    exact ⟨rfl, rfl⟩

end Insert

end ChainMemory

end F3Tree
