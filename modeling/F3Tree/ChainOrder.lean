import F3Tree.ChainCrash

/-!
# Chains in call order

Between calls a chain is a packed record of the operations on it: every node but the
newest is full, and the entries, from the oldest node on, are those of the calls since the
chain was last emptied (`sinceEmptied`).  `next` and `prev` lead through the same nodes in
opposite orders, a reader finds the last entry on a key, and a drain applies the entries in
call order (`chain_run`).
-/

namespace F3Tree

open Fuel

/-- The entries inserted since the last drain or clear. -/
def sinceEmptied (calls : List ChainCall) : List FutureEntry :=
  calls.foldl (fun log c =>
    match c with
    | .insert e => log ++ [e]
    | .drain | .clear => []) []

/-- What the last entry on `key` says. -/
def lastState (log : List FutureEntry) (key : Int) : FutureEntryState :=
  match (log.filter fun e => e.key = key).getLast? with
  | none => .absent
  | some e => stateOf e.isDelete

theorem lastState_append (log log' : List FutureEntry) (key : Int) :
    lastState (log ++ log') key =
      if lastState log' key = .absent then lastState log key else lastState log' key := by
  unfold lastState
  rw [List.filter_append, List.getLast?_append]
  cases (log'.filter fun e => e.key = key).getLast? with
  | none => rfl
  | some e =>
      rw [Option.some_or, if_neg]
      dsimp only
      unfold stateOf
      split
      · exact FutureEntryState.noConfusion
      · exact FutureEntryState.noConfusion

theorem lastState_singleton (e : FutureEntry) (key : Int) :
    lastState [e] key = if e.key = key then stateOf e.isDelete else .absent := by
  unfold lastState
  by_cases hkey : e.key = key
  · rw [List.filter_cons_of_pos (by simpa using hkey), if_pos hkey]
    rfl
  · rw [List.filter_cons_of_neg (by simpa using hkey), if_neg hkey]
    rfl

/-! ## Packed chains -/

/-- Every node behind the newest one is full, and the dummy head counts the nodes. -/
structure LocalFut.Packed (fut : LocalFut) : Prop where
  full : ∀ node ∈ fut.next.tail, node.entryCount = cardinality
  count : fut.entryCount = fut.next.length

namespace LocalFut

variable {fut : LocalFut}

theorem packed_fresh : LocalFut.Packed {} :=
  ⟨fun _ mem => absurd mem List.not_mem_nil, rfl⟩

theorem packed_cleared (fut : LocalFut) : fut.cleared.Packed :=
  ⟨fun _ mem => absurd mem List.not_mem_nil, rfl⟩

/-- A new node comes in front of a full one. -/
theorem Packed.insert (packed : fut.Packed) (e : FutureEntry) : (fut.insert e).Packed := by
  unfold LocalFut.insert
  split
  · rename_i empty
    refine ⟨fun _ mem => absurd mem List.not_mem_nil, ?_⟩
    rw [packed.count, empty]
    rfl
  · rename_i node rest chain
    have behind : ∀ old ∈ rest, old.entryCount = cardinality := fun old mem =>
      packed.full old (chain ▸ mem)
    split
    · rename_i full
      refine ⟨fun old mem => ?_, ?_⟩
      · rcases List.mem_cons.mp mem with rfl | mem
        · exact full
        · exact behind old mem
      · rw [packed.count, chain]
        rfl
    · refine ⟨behind, ?_⟩
      rw [packed.count, chain]
      rfl

theorem Packed.call (packed : fut.Packed) (c : ChainCall) : (fut.call c).Packed := by
  cases c with
  | insert e => exact packed.insert e
  | drain => exact fut.packed_cleared
  | clear => exact fut.packed_cleared

/-- The number of nodes of a packed chain. -/
theorem Packed.length_next (packed : fut.Packed) :
    fut.next.length = (fut.log.length + (cardinality - 1)) / cardinality := by
  have full : ∀ nodes : List FutureNode, (∀ node ∈ nodes, node.entryCount = cardinality) →
      (nodes.reverse.flatMap FutureNode.entries).length = nodes.length * cardinality := by
    intro nodes full
    induction nodes with
    | nil => rfl
    | cons node nodes ih =>
        obtain ⟨here, full⟩ := List.forall_mem_cons.mp full
        rw [FutureNode.entryCount] at here
        rw [List.reverse_cons, List.flatMap_append, List.length_append, ih full,
          List.flatMap_singleton, here, List.length_cons, Nat.succ_mul]
  rw [LocalFut.log]
  cases chain : fut.next with
  | nil => rfl
  | cons node rest =>
      have fits := node.fits
      have some := List.length_pos_of_ne_nil node.nonempty
      have behind := full rest fun old mem => packed.full old (chain ▸ mem)
      rw [List.reverse_cons, List.flatMap_append, List.length_append, behind,
        List.flatMap_singleton, List.length_cons]
      rw [cardinality_eq] at fits ⊢
      omega

/-- Calls leave the entries since the chain was last emptied. -/
theorem log_calls (calls : List ChainCall) :
    (calls.foldl LocalFut.call {}).log = sinceEmptied calls ∧
      (calls.foldl LocalFut.call {}).Packed := by
  induction calls using List.reverseRecOn with
  | nil => exact ⟨rfl, packed_fresh⟩
  | append_singleton calls c ih =>
      obtain ⟨log, packed⟩ := ih
      rw [sinceEmptied, List.foldl_concat, List.foldl_concat, ← sinceEmptied]
      refine ⟨?_, packed.call c⟩
      cases c with
      | insert e =>
          rw [LocalFut.call, log_insert, log]
      | drain => rfl
      | clear => rfl

end LocalFut

/-- The index loop of `future_state` at a node, from index `i - 1` down. -/
def NodeCell.stateBelow (c : NodeCell) (key : Int) : Nat → FutureEntryState
  | 0 => .absent
  | i + 1 => if c.keys i = key then stateOf (c.isDelete i) else c.stateBelow key i

namespace ChainMemory

variable {m : ChainMemory} {ns : List Nat}

/-! ## From the tail -/

/-- The nodes from a link on, along `prev` up to the dummy head. -/
def prevWalk (m : ChainMemory) : Nat → Option Link → Option (List Nat)
  | 0, _ => none
  | _ + 1, none => none
  | _ + 1, some .dummy => some []
  | fuel + 1, some (.node a) => (prevWalk m fuel (m.cells a).prev).map (a :: ·)

/-- The nodes from `local_fut_tail[tid].next` on. -/
def tailWalk (m : ChainMemory) (fuel : Nat) : Option (List Nat) :=
  match m.tailNext with
  | none => some []
  | some a => m.prevWalk fuel (some (.node a))

theorem prevWalk_of_backward (backward : m.Backward .dummy ns) :
    Returns (fun fuel => m.prevWalk fuel (some ((ns.getLast?.map Link.node).getD .dummy)))
      ns.reverse := by
  induction ns using List.reverseRecOn with
  | nil => exact ⟨1, rfl⟩
  | append_singleton ns a ih =>
      obtain ⟨front, last, -⟩ := backward.append
      obtain ⟨fuel, walk⟩ := ih front
      refine ⟨fuel + 1, ?_⟩
      dsimp only at walk ⊢
      rw [List.getLast?_concat, Option.map_some, Option.getD_some, prevWalk, last, walk,
        Option.map_some, List.reverse_concat]

/-- A threaded chain read from its tail. -/
theorem Threaded.tailWalk (h : m.Threaded ns) : Returns m.tailWalk ns.reverse := by
  obtain ⟨fuel, walk⟩ := prevWalk_of_backward h.backward
  refine ⟨fuel, ?_⟩
  unfold ChainMemory.tailWalk
  rw [h.tail]
  cases last : ns.getLast? with
  | none =>
      rw [List.getLast?_eq_none_iff.mp last]
      rfl
  | some a =>
      rw [last] at walk
      exact walk

/-! ## Reading a key -/

/-- `future_state`, from the node `current` on. -/
def stateFrom (m : ChainMemory) (key : Int) : Nat → Option Nat → Option FutureEntryState
  | 0, _ => none
  | _ + 1, none => some .absent
  | fuel + 1, some current =>
      if (m.cells current).stateBelow key (m.cells current).entryCount = .absent then
        stateFrom m key fuel (m.cells current).next
      else some ((m.cells current).stateBelow key (m.cells current).entryCount)

/-- `future_state` -/
def futureState (m : ChainMemory) (key : Int) (fuel : Nat) : Option FutureEntryState :=
  m.stateFrom key fuel m.headNext

theorem stateBelow_eq (c : NodeCell) (key : Int) :
    c.stateBelow key c.entryCount = lastState c.entries key := by
  unfold NodeCell.entries
  generalize c.entryCount = n
  induction n with
  | zero => rfl
  | succ n ih =>
      rw [NodeCell.stateBelow, List.range_succ, List.map_append, List.map_singleton,
        lastState_append, lastState_singleton, ih]
      dsimp only
      by_cases hkey : c.keys n = key
      · rw [if_pos hkey, if_pos hkey, if_neg]
        unfold stateOf
        split
        · exact FutureEntryState.noConfusion
        · exact FutureEntryState.noConfusion
      · rw [if_neg hkey, if_neg hkey, if_pos rfl]

/-- The newest node that knows the key decides. -/
theorem stateFrom_of_forward (key : Int) (forward : m.Forward ns) :
    Returns (fun fuel => m.stateFrom key fuel ns.head?) (lastState (m.log ns) key) := by
  induction ns with
  | nil => exact ⟨1, rfl⟩
  | cons a ns ih =>
      obtain ⟨fuel, older⟩ := ih forward.2
      refine ⟨fuel + 1, ?_⟩
      dsimp only at older ⊢
      rw [List.head?_cons, stateFrom, forward.1, older, stateBelow_eq, log_cons, lastState_append]
      split
      · rfl
      · rfl

/-! ## Replaying -/

section Drain

variable {τ : Type} [GlobalTree τ]

/-- `future_drain_thread_from_tail` with the tree that it applies the entries to and the
number of entries that it returns. -/
def drainInto (m : ChainMemory) (tree : τ) (applied : Nat) :
    Nat → Option (ChainMemory × τ × Nat)
  | 0 => none
  | fuel + 1 =>
      match m.tailNext with
      | none =>
          some (m.performs [.headNext none, .headEntryCount 0, .headIsDone true], tree, applied)
      | some tailNode =>
          let entries := (m.cells tailNode).entries
          drainInto (m.performs (m.drainTurn tailNode))
            (entries.foldl (fun t e => Btree.applyOp t e.key e.isDelete) tree)
            (applied + entries.length) fuel

/-- The drain applies the entries that its stores name, and counts them. -/
theorem drainInto_eq (fuel : Nat) (m : ChainMemory) (tree : τ) (applied : Nat)
    {stores : List Store} (drain : m.futureDrainThreadFromTail fuel = some stores) :
    m.drainInto tree applied fuel =
      some (m.performs stores,
        (appliedOf stores).foldl (fun t e => Btree.applyOp t e.key e.isDelete) tree,
        applied + (appliedOf stores).length) := by
  induction fuel generalizing m tree applied stores with
  | zero => cases drain
  | succ fuel ih =>
      rw [futureDrainThreadFromTail] at drain
      rw [drainInto]
      cases tail : m.tailNext with
      | none =>
          rw [tail] at drain
          cases drain
          rfl
      | some tailNode =>
          rw [tail] at drain
          rcases Option.bind_eq_some_iff.mp drain with ⟨rest, hrest, hstores⟩
          cases hstores
          dsimp only
          rw [ih _ _ _ hrest, appliedOf_append, appliedOf_drainTurn, List.foldl_append,
            performs_append, List.length_append, Nat.add_assoc]

end Drain

end ChainMemory

/-! ## Runs -/

section Run

open ChainMemory

/-- At every point of every sequence of calls on a chain, the nodes are threaded both ways,
packed, and hold the operations since the last drain or clear in call order; a reader finds
the last one on a key, and a drain applies them all in that order. -/
theorem chain_run (alloc : NodeAllocator) (cells : Nat → NodeCell) (allocated : Finset Nat)
    {calls : List ChainCall} {m : ChainMemory}
    (run : ChainRun alloc (empty cells allocated) calls m) :
    ∃ ns,
      (Returns (fun fuel => m.recoveryWalk fuel m.headNext) ns ∧
        Returns m.tailWalk ns.reverse) ∧
      ((∀ a ∈ ns.tail, (m.cells a).entryCount = cardinality) ∧
        (∀ a ∈ ns.head?, 1 ≤ (m.cells a).entryCount ∧ (m.cells a).entryCount ≤ cardinality) ∧
        m.headEntryCount = ns.length) ∧
      m.log ns = sinceEmptied calls ∧
      (∀ key, Returns (m.futureState key) (lastState (sinceEmptied calls) key)) ∧
      ∀ (τ : Type) [GlobalTree τ] (tree : τ), ∃ m',
        Returns (m.drainInto tree 0)
          (m', (sinceEmptied calls).foldl (fun t e => Btree.applyOp t e.key e.isDelete) tree,
            (sinceEmptied calls).length) ∧
        m'.headNext = none ∧ m'.tailNext = none ∧ m'.headEntryCount = 0 := by
  have refines := run.refines (refines_empty cells allocated)
  obtain ⟨hlog, packed⟩ := LocalFut.log_calls calls
  obtain ⟨stores, ⟨fuel, drain⟩, applied, cleared⟩ := refines.drain
  obtain ⟨⟨ns, threaded, nodes⟩, count, -⟩ := refines
  have log : m.log ns = sinceEmptied calls := (log_eq nodes).trans hlog
  have length : ns.length = (calls.foldl LocalFut.call {}).next.length := by
    have both := congrArg List.length nodes
    rw [List.length_map, List.length_map] at both
    exact both.symm
  have counts : ns.map (fun a => (m.cells a).entryCount) =
      (calls.foldl LocalFut.call {}).next.map FutureNode.entryCount := by
    have both := congrArg (List.map List.length) nodes
    rw [List.map_map, List.map_map] at both
    refine (Eq.trans ?_ both.symm).trans rfl
    exact List.map_congr_left fun a _ => (length_entries (m.cells a)).symm
  refine ⟨ns, ⟨threaded.walk, threaded.tailWalk⟩, ⟨fun a mem => ?_, fun a mem => ?_, ?_⟩, log,
    fun key => ?_, fun τ _ tree => ?_⟩
  · have mem' : (m.cells a).entryCount ∈ (ns.map fun a => (m.cells a).entryCount).tail := by
      rw [← List.map_tail]
      exact List.mem_map_of_mem mem
    rw [counts, ← List.map_tail] at mem'
    obtain ⟨node, hnode, here⟩ := List.mem_map.mp mem'
    exact here ▸ packed.full node hnode
  · obtain ⟨some, fits⟩ := threaded.entries a (List.mem_of_mem_head? mem)
    have pos := List.length_pos_of_ne_nil some
    rw [length_entries] at pos
    exact ⟨pos, fits⟩
  · rw [count, packed.count, length]
  · have read := stateFrom_of_forward key threaded.forward
    rw [log, ← threaded.head] at read
    exact read
  · obtain ⟨⟨ns', threaded', nodes'⟩, count', -⟩ := cleared
    have none' : ns' = [] := by
      cases ns' with
      | nil => rfl
      | cons a ns' => cases nodes'
    subst none'
    refine ⟨m.performs stores, ⟨fuel, ?_⟩, threaded'.head, threaded'.tail, count'⟩
    rw [drainInto_eq fuel m tree 0 drain, applied, hlog, Nat.zero_add]

/-- A chain that was drained and begun again. -/
theorem chain_run_again :
    ∃ m ns, ChainRun nodeAfter zeroed
        [.insert ⟨7, false, 1⟩, .insert ⟨9, true, 2⟩, .drain, .insert ⟨3, false, 3⟩] m ∧
      m.log ns = [⟨3, false, 3⟩] ∧ Returns (m.futureState 3) .present := by
  obtain ⟨m, run⟩ := exists_chainRun nodeAfter (refines_empty _ _)
    [.insert ⟨7, false, 1⟩, .insert ⟨9, true, 2⟩, .drain, .insert ⟨3, false, 3⟩]
  obtain ⟨ns, -, -, log, read, -⟩ := chain_run nodeAfter _ _ run
  exact ⟨m, ns, run, log, read 3⟩

end Run

end F3Tree
