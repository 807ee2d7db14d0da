import F3Tree.ChainMemory
import F3Tree.Resolution

/-!
# Calls on a chain in memory

What a drain and a clear do to the nodes of a chain, and the runs of completed calls: each
call on the memory is the call on the list of nodes that the rest of the model has
(`ChainRun.refines`), and a drain applies the log of that list.
-/

namespace F3Tree

open Fuel

namespace ChainMemory

/-! ## What drains do -/

section Drain

variable {m : ChainMemory} {ns : List Nat} {before : Link} {a : Nat}

theorem Backward.append {ns' : List Nat} (h : m.Backward before (ns ++ ns')) :
    m.Backward before ns ∧ m.Backward ((ns.getLast?.map Link.node).getD before) ns' := by
  induction ns generalizing before with
  | nil => exact ⟨trivial, h⟩
  | cons a ns ih =>
      obtain ⟨front, back⟩ := ih h.2
      refine ⟨⟨h.1, front⟩, ?_⟩
      cases ns with
      | nil => exact back
      | cons b ns =>
          rw [List.getLast?_cons_cons]
          rw [List.getLast?_eq_some_getLast (List.cons_ne_nil b ns)] at back ⊢
          exact back

/-- What such stores change. -/
theorem performs_dismantles {stores : List Store} (dismantles : ∀ s ∈ stores, s.Dismantles ns)
    (m : ChainMemory) :
    (m.performs stores).cells = m.cells ∧ (m.performs stores).headNext = m.headNext ∧
      (m.performs stores).headIsDone = m.headIsDone ∧
      ∀ a, a ∈ (m.performs stores).allocated ↔ a ∈ m.allocated ∧ .free a ∉ stores := by
  induction stores generalizing m with
  | nil => exact ⟨rfl, rfl, rfl, fun a => by simp [performs]⟩
  | cons s stores ih =>
      obtain ⟨here, dismantles⟩ := List.forall_mem_cons.mp dismantles
      obtain ⟨cells, head, isDone, allocated⟩ := ih dismantles (m.perform s)
      rw [performs_cons]
      cases s with
      | apply | tailNext | headEntryCount =>
          refine ⟨cells, head, isDone, fun a => ?_⟩
          rw [allocated, List.mem_cons, not_or]
          exact ⟨fun h => ⟨h.1, fun heq => (by cases heq), h.2⟩, fun h => ⟨h.1, h.2.2⟩⟩
      | free b =>
          refine ⟨cells, head, isDone, fun a => ?_⟩
          rw [allocated, List.mem_cons, not_or]
          change a ∈ m.allocated.erase b ∧ _ ↔ _
          rw [Finset.mem_erase]
          constructor
          · intro h
            refine ⟨h.1.2, fun heq => h.1.1 (Store.free.inj heq), h.2⟩
          · intro h
            exact ⟨⟨fun heq => h.2.1 (heq ▸ rfl), h.1⟩, h.2.2⟩
      | _ => exact absurd here id

theorem steady_futureDrainThreadFromTail (m : ChainMemory) :
    Steady m.futureDrainThreadFromTail := by
  intro fuel
  induction fuel generalizing m with
  | zero => exact Extends.of_none _
  | succ fuel ih =>
      rw [futureDrainThreadFromTail, futureDrainThreadFromTail]
      cases m.tailNext with
      | none => exact Extends.refl _
      | some a => exact Extends.bind (ih _) fun _ => .refl _

theorem dismantles_drainTurn (m : ChainMemory) (mem : a ∈ ns) :
    ∀ s ∈ m.drainTurn a, s.Dismantles ns := by
  intro s hs
  unfold drainTurn at hs
  rcases List.mem_append.mp hs with hs | hs
  · rcases List.mem_map.mp hs with ⟨e, -, rfl⟩
    trivial
  · rcases List.mem_cons.mp hs with rfl | hs
    · trivial
    · rcases List.mem_append.mp hs with hs | hs
      · split at hs
        · rw [List.mem_singleton.mp hs]
          trivial
        · exact absurd hs List.not_mem_nil
      · rw [List.mem_singleton.mp hs]
        exact mem

theorem appliedOf_append (stores stores' : List Store) :
    appliedOf (stores ++ stores') = appliedOf stores ++ appliedOf stores' :=
  List.filterMap_append

theorem appliedOf_drainTurn (m : ChainMemory) (a : Nat) :
    appliedOf (m.drainTurn a) = (m.cells a).entries := by
  unfold drainTurn
  rw [appliedOf_append]
  have entries : ∀ es : List FutureEntry, appliedOf (es.map .apply) = es := by
    intro es
    induction es with
    | nil => rfl
    | cons e es ih => exact congrArg (e :: ·) ih
  rw [entries]
  split
  · exact List.append_nil _
  · exact List.append_nil _

theorem tailNext_drainTurn (m : ChainMemory) (a : Nat) :
    (m.performs (m.drainTurn a)).tailNext = (m.cells a).nextTail := by
  unfold drainTurn
  have entries : ∀ es : List FutureEntry, m.performs (es.map .apply) = m := by
    intro es
    induction es with
    | nil => rfl
    | cons e es ih => exact ih
  rw [performs_append, entries]
  split
  · rfl
  · rfl

/-- A drain from the tail applies the entries of the nodes that `prev` leads to, oldest
first, and frees these nodes. -/
theorem futureDrainThreadFromTail_returns (backward : m.Backward .dummy ns)
    (tail : m.tailNext = ns.getLast?) :
    ∃ turns, Returns m.futureDrainThreadFromTail
        (turns ++ [.headNext none, .headEntryCount 0, .headIsDone true]) ∧
      (∀ s ∈ turns, s.Dismantles ns) ∧ appliedOf turns = m.log ns ∧
      (∀ a ∈ ns, .free a ∈ turns) ∧ (m.performs turns).tailNext = none := by
  induction ns using List.reverseRecOn generalizing m with
  | nil =>
      refine ⟨[], ⟨1, ?_⟩, by simp, rfl, by simp, tail⟩
      rw [futureDrainThreadFromTail, tail]
      rfl
  | append_singleton ns a ih =>
      rw [List.getLast?_concat] at tail
      obtain ⟨front, last, -⟩ := backward.append
      have sub : ∀ s ∈ m.drainTurn a, s.Dismantles (ns ++ [a]) :=
        m.dismantles_drainTurn (by simp)
      obtain ⟨cells, -⟩ := performs_dismantles sub m
      have next : (m.cells a).nextTail = ns.getLast? := by
        unfold NodeCell.nextTail
        rw [last]
        cases ns.getLast? with
        | none => rfl
        | some b => rfl
      obtain ⟨turns, ⟨fuel, rest⟩, dismantles, applied, freed, done⟩ :=
        @ih (m.performs (m.drainTurn a)) (front.congr fun b _ => by rw [cells])
          ((m.tailNext_drainTurn a).trans next)
      refine ⟨m.drainTurn a ++ turns, ⟨fuel + 1, ?_⟩, ?_, ?_, ?_, ?_⟩
      · rw [futureDrainThreadFromTail, tail]
        simp only [rest, Option.bind_eq_bind, Option.bind_some, List.append_assoc]
        rfl
      · refine List.forall_mem_append.mpr ⟨sub, fun s hs => ?_⟩
        have := dismantles s hs
        cases s with
        | free b => exact List.mem_append_left _ this
        | _ => exact this
      · have kept : (m.performs (m.drainTurn a)).log ns = m.log ns :=
          log_congr fun b _ => by rw [cells]
        rw [appliedOf_append, appliedOf_drainTurn, applied, kept, log_append, log_cons]
        rfl
      · intro b mem
        rcases List.mem_append.mp mem with mem | mem
        · exact List.mem_append_right _ (freed b mem)
        · rw [List.mem_singleton.mp mem]
          refine List.mem_append_left _ ?_
          unfold drainTurn
          simp
      · rw [performs_append]
        exact done

theorem steady_freeStores (m : ChainMemory) (current : Option Nat) :
    Steady fun fuel => m.freeStores fuel current := by
  intro fuel
  induction fuel generalizing m current with
  | zero => exact Extends.of_none _
  | succ fuel ih =>
      cases current with
      | none => exact Extends.refl _
      | some a => exact Extends.bind (ih _ _) fun _ => .refl _

theorem steady_futureClearThread (m : ChainMemory) : Steady m.futureClearThread :=
  (steady_freeStores m m.headNext).bind fun _ => steady_const _

/-- `future_clear_thread` frees the nodes that `next` leads to, newest first. -/
theorem futureClearThread_returns (forward : m.Forward ns) (head : m.headNext = ns.head?) :
    Returns m.futureClearThread
      (ns.map .free ++ [.headNext none, .headEntryCount 0, .headIsDone true, .tailNext none]) := by
  have frees : ∀ ns : List Nat, ∀ m : ChainMemory, m.Forward ns →
      Returns (fun fuel => m.freeStores fuel ns.head?) (ns.map .free) := by
    intro ns
    induction ns with
    | nil => exact fun _ _ => ⟨1, rfl⟩
    | cons a ns ih =>
        intro m forward
        obtain ⟨fuel, rest⟩ := ih (m.perform (.free a)) (forward.2.congr fun _ _ => rfl)
        refine ⟨fuel + 1, ?_⟩
        simp only [List.head?_cons, freeStores, forward.1, rest, Option.bind_eq_bind,
          Option.bind_some, List.map_cons]
        rfl
  obtain ⟨fuel, hfrees⟩ := frees ns m forward
  refine ⟨fuel, ?_⟩
  simp only at hfrees
  rw [futureClearThread, head, hfrees]
  rfl

end Drain

/-! ## Runs -/

/-- A fresh chain, with whatever the memory holds. -/
def empty (cells : Nat → NodeCell) (allocated : Finset Nat) : ChainMemory where
  cells := cells
  allocated := allocated
  headNext := none
  headEntryCount := 0
  headIsDone := false
  tailNext := none

end ChainMemory

/-- A completed call on the chain. -/
inductive ChainCall : Type
  | insert (e : FutureEntry)
  | drain
  | clear
deriving DecidableEq, Repr

/-- The chain after completed calls. -/
inductive ChainRun (alloc : NodeAllocator) (m : ChainMemory) : List ChainCall → ChainMemory → Prop
  | nil : ChainRun alloc m [] m
  | insert {calls m'} (run : ChainRun alloc m calls m') (e : FutureEntry) :
      ChainRun alloc m (calls ++ [.insert e]) (m'.futureInsert alloc e)
  | drain {calls m' stores} (run : ChainRun alloc m calls m')
      (returns : Returns m'.futureDrainThreadFromTail stores) :
      ChainRun alloc m (calls ++ [.drain]) (m'.performs stores)
  | clear {calls m' stores} (run : ChainRun alloc m calls m')
      (returns : Returns m'.futureClearThread stores) :
      ChainRun alloc m (calls ++ [.clear]) (m'.performs stores)

/-- The same calls on a list of nodes. -/
def LocalFut.call (fut : LocalFut) : ChainCall → LocalFut
  | .insert e => fut.insert e
  | .drain | .clear => fut.cleared

namespace ChainMemory

/-- The memory holds the nodes of `fut`. -/
structure Refines (m : ChainMemory) (fut : LocalFut) : Prop where
  chain : ∃ ns, m.Threaded ns ∧
    fut.next.map FutureNode.entries = ns.map fun a => (m.cells a).entries
  entryCount : m.headEntryCount = fut.entryCount
  isDone : m.headIsDone = fut.isDone

section Refines

variable {m : ChainMemory} {fut : LocalFut} {ns : List Nat} {alloc : NodeAllocator}

theorem log_eq (nodes : fut.next.map FutureNode.entries = ns.map fun a => (m.cells a).entries) :
    m.log ns = fut.log := by
  have reversed := congrArg List.reverse nodes
  rw [← List.map_reverse, ← List.map_reverse] at reversed
  rw [log, LocalFut.log, List.flatMap_def, List.flatMap_def, reversed]

theorem length_entries (c : NodeCell) : c.entries.length = c.entryCount := by
  rw [NodeCell.entries, List.length_map, List.length_range]

/-- A completed `future_insert` is `LocalFut.insert`. -/
theorem Refines.insert (h : m.Refines fut) (alloc : NodeAllocator) (e : FutureEntry) :
    (m.futureInsert alloc e).Refines (fut.insert e) := by
  obtain ⟨⟨ns, threaded, nodes⟩, count, isDone⟩ := h
  have fresh : alloc.pick m.allocated ∉ ns := fun mem =>
    alloc.fresh _ (threaded.allocated _ mem)
  cases ns with
  | nil =>
      have hnext : fut.next = [] := List.map_eq_nil_iff.mp nodes
      obtain ⟨linked, entries, hcount, hdone⟩ := threaded.insert_none (alloc.pick m.allocated) e
      rw [LocalFut.insert, hnext]
      exact ⟨⟨_, linked, congrArg (· :: []) entries.symm⟩, hcount.trans (congrArg (· + 1) count),
        hdone.trans isDone⟩
  | cons head ns =>
      obtain ⟨node, rest, hnext⟩ : ∃ node rest, fut.next = node :: rest := by
        cases hnext : fut.next with
        | nil => rw [hnext] at nodes; cases nodes
        | cons node rest => exact ⟨node, rest, rfl⟩
      rw [hnext, List.map_cons, List.map_cons] at nodes
      obtain ⟨hnode, nodes⟩ := List.cons.inj nodes
      have full_iff : node.entryCount = cardinality ↔ (m.cells head).entryCount = cardinality := by
        rw [FutureNode.entryCount, hnode, length_entries]
      rw [LocalFut.insert, hnext]
      by_cases full : (m.cells head).entryCount = cardinality
      · obtain ⟨strung, back, tail, entries, same, hcount, hdone⟩ :=
          threaded.toStrung.insert_full threaded.backward full fresh e
        simp only [dif_pos (full_iff.mpr full)]
        refine ⟨⟨_, ⟨strung, back, tail.trans ?_⟩, ?_⟩, hcount.trans (congrArg (· + 1) count),
          hdone.trans isDone⟩
        · rw [threaded.tail, List.getLast?_cons_cons]
        · rw [List.map_cons, List.map_cons, List.map_cons, hnode, nodes, List.map_cons]
          refine congr (congrArg _ entries.symm) (congr (congrArg _ ?_) ?_)
          · exact (same.entries head List.mem_cons_self).symm
          · exact List.map_congr_left fun a mem =>
              (same.entries a (List.mem_cons_of_mem _ mem)).symm
      · obtain ⟨strung, back, tail, entries, others, hcount, hdone⟩ :=
          threaded.toStrung.insert_room threaded.backward full (alloc.pick m.allocated) e
        simp only [dif_neg fun h => full (full_iff.mp h)]
        refine ⟨⟨_, ⟨strung, back, tail.trans threaded.tail⟩, ?_⟩, hcount.trans count,
          hdone.trans isDone⟩
        rw [List.map_cons, List.map_cons, nodes]
        refine congr (congrArg _ ?_) ?_
        · change node.entries ++ [e] = _
          rw [hnode]
          exact entries.symm
        · exact List.map_congr_left fun a mem => by rw [futureInsert, others a mem]

/-- A completed drain is `LocalFut.cleared`, and applies the log. -/
theorem Refines.drain (h : m.Refines fut) :
    ∃ stores, Returns m.futureDrainThreadFromTail stores ∧ appliedOf stores = fut.log ∧
      (m.performs stores).Refines fut.cleared := by
  obtain ⟨⟨ns, threaded, nodes⟩, -, -⟩ := h
  obtain ⟨turns, returns, -, applied, -, tail⟩ :=
    futureDrainThreadFromTail_returns threaded.backward threaded.tail
  refine ⟨_, returns, ?_, ⟨[], ⟨⟨.nil, by simp, by simp, trivial, ?_⟩, trivial, ?_⟩, rfl⟩, ?_, ?_⟩
  · rw [appliedOf_append, applied, log_eq nodes]
    exact List.append_nil _
  · rw [performs_append]
    rfl
  · rw [performs_append]
    exact tail
  · rw [performs_append]
    rfl
  · rw [performs_append]
    rfl

/-- A completed clear is `LocalFut.cleared`. -/
theorem Refines.clear (h : m.Refines fut) :
    ∃ stores, Returns m.futureClearThread stores ∧ (m.performs stores).Refines fut.cleared := by
  obtain ⟨⟨ns, threaded, nodes⟩, -, -⟩ := h
  refine ⟨_, futureClearThread_returns threaded.forward threaded.head,
    ⟨[], ⟨⟨.nil, by simp, by simp, trivial, ?_⟩, trivial, ?_⟩, rfl⟩, ?_, ?_⟩
  · rw [performs_append]
    rfl
  · rw [performs_append]
    rfl
  · rw [performs_append]
    rfl
  · rw [performs_append]
    rfl

theorem Threaded.refines (h : m.Threaded ns) : ∃ fut, m.Refines fut ∧ fut.log = m.log ns := by
  obtain ⟨nodes, hnodes⟩ : ∃ nodes : List FutureNode,
      nodes.map FutureNode.entries = ns.map fun a => (m.cells a).entries := by
    have entries := h.entries
    clear h
    induction ns with
    | nil => exact ⟨[], rfl⟩
    | cons a ns ih =>
        obtain ⟨⟨nonempty, fits⟩, entries⟩ := List.forall_mem_cons.mp entries
        obtain ⟨nodes, hnodes⟩ := ih entries
        refine ⟨⟨(m.cells a).entries, nonempty, length_entries _ ▸ fits⟩ :: nodes, ?_⟩
        rw [List.map_cons, List.map_cons, hnodes]
  exact ⟨⟨nodes, m.headEntryCount, m.headIsDone⟩, ⟨⟨ns, h, hnodes⟩, rfl, rfl⟩, (log_eq hnodes).symm⟩

/-- The list of nodes is read by the drain's loop as the memory is. -/
theorem Refines.drainNodes {τ : Type} [GlobalTree τ] (h : m.Refines fut) (t : τ) :
    ∃ stores, Returns m.futureDrainThreadFromTail stores ∧
      Btree.drainNodes t fut.next.reverse =
        ((appliedOf stores).foldl (fun t e => Btree.applyOp t e.key e.isDelete) t,
          (appliedOf stores).length) := by
  obtain ⟨stores, returns, applied, -⟩ := h.drain
  refine ⟨stores, returns, ?_⟩
  rw [Btree.drainNodes_eq, applied]
  rfl

theorem refines_empty (cells : Nat → NodeCell) (allocated : Finset Nat) :
    (empty cells allocated).Refines {} :=
  ⟨⟨[], ⟨⟨.nil, by simp, by simp, trivial, rfl⟩, trivial, rfl⟩, rfl⟩, rfl, rfl⟩

end Refines

end ChainMemory

section ChainRun

variable {alloc : NodeAllocator} {m m' : ChainMemory} {fut : LocalFut} {calls : List ChainCall}

open ChainMemory in
/-- Completed calls on the memory are the calls on the list of nodes. -/
theorem ChainRun.refines (run : ChainRun alloc m calls m') (h : m.Refines fut) :
    m'.Refines (calls.foldl LocalFut.call fut) := by
  induction run with
  | nil => exact h
  | insert run e ih =>
      rw [List.foldl_append]
      exact ih.insert alloc e
  | drain run returns ih =>
      obtain ⟨stores, returns', -, cleared⟩ := ih.drain
      rw [List.foldl_append, (steady_futureDrainThreadFromTail _).unique returns returns']
      exact cleared
  | clear run returns ih =>
      obtain ⟨stores, returns', cleared⟩ := ih.clear
      rw [List.foldl_append, (steady_futureClearThread _).unique returns returns']
      exact cleared

/-- Every sequence of calls comes to an end. -/
theorem exists_chainRun (alloc : NodeAllocator) (h : m.Refines fut) (calls : List ChainCall) :
    ∃ m', ChainRun alloc m calls m' := by
  induction calls using List.reverseRecOn with
  | nil => exact ⟨m, .nil⟩
  | append_singleton calls c ih =>
      obtain ⟨m', run⟩ := ih
      have h' := run.refines h
      cases c with
      | insert e => exact ⟨_, run.insert e⟩
      | drain =>
          obtain ⟨stores, returns, -⟩ := h'.drain
          exact ⟨_, run.drain returns⟩
      | clear =>
          obtain ⟨stores, returns, -⟩ := h'.clear
          exact ⟨_, run.clear returns⟩

end ChainRun

end F3Tree
