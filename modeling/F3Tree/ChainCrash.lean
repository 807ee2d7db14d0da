import Mathlib.Data.Finset.Lattice.Fold
import Mathlib.Order.Lattice.Nat
import F3Tree.ChainRuns

/-!
# Crashes inside a call on a chain

A process stops after some of the stores of a call, and recovery walks the chain on
`next`.

A stopped `future_insert` leaves the old entries, or the new one behind them.  The other
links are not repaired, and in two places a later drain sees it: between the two link
stores of a first node the chain has no tail, and between those of a prepended node a
drain finds on `prev` the node that recovery did not find (`insert_crash_iff`).

A stopped drain has freed nodes that `next` still leads to, from the first free until the
dummy head is reset (`drain_crash_iff`).
-/

namespace F3Tree

open Fuel

namespace ChainMemory

/-! ## Insertions after a crash -/

section Later

variable {alloc : NodeAllocator} {m : ChainMemory} {ns : List Nat} {head : Nat} {before : Link}
  {fut : LocalFut}

def futureInserts (alloc : NodeAllocator) (m : ChainMemory) (later : List FutureEntry) :
    ChainMemory := later.foldl (futureInsert alloc) m

theorem Refines.inserts (h : m.Refines fut) (later : List FutureEntry) :
    ∃ fut', (futureInserts alloc m later).Refines fut' ∧ fut'.log = fut.log ++ later := by
  induction later generalizing m fut with
  | nil => exact ⟨fut, h, (List.append_nil _).symm⟩
  | cons e later ih =>
      obtain ⟨fut', refines, log⟩ := ih (h.insert alloc e)
      refine ⟨fut', refines, ?_⟩
      rw [log, LocalFut.log_insert, List.append_assoc]
      rfl

/-- A chain whose links are whole goes on as any other. -/
theorem Threaded.drains_later (h : m.Threaded ns) (alloc : NodeAllocator)
    (later : List FutureEntry) :
    ∃ stores, Returns (futureInserts alloc m later).futureDrainThreadFromTail stores ∧
      appliedOf stores = m.log ns ++ later := by
  obtain ⟨fut, refines, log⟩ := h.refines
  obtain ⟨fut', refines', log'⟩ : ∃ fut', (futureInserts alloc m later).Refines fut' ∧
      fut'.log = fut.log ++ later := refines.inserts later
  obtain ⟨stores, returns, applied, -⟩ := refines'.drain
  exact ⟨stores, returns, by rw [applied, log', log]⟩

/-- Without a tail it stays so. -/
theorem Strung.tailNext_inserts (h : m.Strung (head :: ns)) (backward : m.Backward before (head :: ns))
    (tail : m.tailNext = none) (alloc : NodeAllocator) (later : List FutureEntry) :
    (futureInserts alloc m later).tailNext = none := by
  induction later generalizing m head ns before with
  | nil => exact tail
  | cons e later ih =>
      by_cases full : (m.cells head).entryCount = cardinality
      · have fresh : alloc.pick m.allocated ∉ head :: ns := fun mem =>
          alloc.fresh _ (h.allocated _ mem)
        obtain ⟨strung, back, tail', -⟩ := h.insert_full backward full fresh e
        exact ih strung back (tail'.trans tail)
      · obtain ⟨strung, back, tail', -⟩ :=
          h.insert_room backward full (alloc.pick m.allocated) e
        exact ih strung back (tail'.trans tail)

theorem drain_of_tailless (tail : m.tailNext = none) :
    Returns m.futureDrainThreadFromTail [.headNext none, .headEntryCount 0, .headIsDone true] :=
  ⟨1, by rw [futureDrainThreadFromTail, tail]⟩

end Later

/-! ## A crash inside `future_insert` -/

/-- What is promised of a process that stops after `n` stores of `future_insert`: recovery
finds the old operations, or these and the new one, and later insertions and a drain apply
what was found and what came later. -/
def SurvivesInsert (alloc : NodeAllocator) (m : ChainMemory) (e : FutureEntry) (n : Nat)
    (later : List FutureEntry) : Prop :=
  let crashed := m.performs ((m.insertStores (alloc.pick m.allocated) e).take n)
  ∃ old nodes stores, m.Recovers old ∧
    Returns (fun fuel => crashed.recoveryWalk fuel crashed.headNext) nodes ∧
    (crashed.log nodes = old ∨ crashed.log nodes = old ++ [e]) ∧
    Returns (futureInserts alloc (crashed.reopen nodes) later).futureDrainThreadFromTail stores ∧
    appliedOf stores = crashed.log nodes ++ later

/-- The next store is the one to the tail of a first node; or it is the one that links a
node in front of a full one, and nothing is inserted later. -/
def TornInsert (alloc : NodeAllocator) (m : ChainMemory) (e : FutureEntry) (n : Nat)
    (later : List FutureEntry) : Prop :=
  let new := alloc.pick m.allocated
  let next := (m.insertStores new e)[n]?
  next = some (.tailNext (some new)) ∨
    m.headNext ≠ none ∧ next = some (.headNext (some new)) ∧ later = []

section Insert

variable {alloc : NodeAllocator} {m : ChainMemory} {ns : List Nat} {head n : Nat}
  {e : FutureEntry} {later : List FutureEntry}

theorem Strung.reopen (h : m.Strung ns) (nodes : List Nat) : (m.reopen nodes).Strung ns :=
  h.congr ⟨fun _ _ => rfl, fun _ _ => rfl, fun _ _ => rfl, fun _ _ mem => mem⟩ rfl

theorem Threaded.reopen (h : m.Threaded ns) (nodes : List Nat) : (m.reopen nodes).Threaded ns :=
  h.congr (Unchanged.of_cells (fun _ _ => rfl) (fun _ _ mem => mem) rfl rfl)

/-- A crash that leaves all links whole. -/
theorem survives_of_threaded (h : m.Strung ns) {nodes : List Nat}
    (threaded : (m.performs ((m.insertStores (alloc.pick m.allocated) e).take n)).Threaded nodes)
    (log : (m.performs ((m.insertStores (alloc.pick m.allocated) e).take n)).log nodes = m.log ns ∨
      (m.performs ((m.insertStores (alloc.pick m.allocated) e).take n)).log nodes =
        m.log ns ++ [e])
    (later : List FutureEntry) : SurvivesInsert alloc m e n later := by
  obtain ⟨stores, returns, applied⟩ := (threaded.reopen nodes).drains_later alloc later
  exact ⟨m.log ns, nodes, stores, h.recovers, threaded.walk, log, returns, applied⟩

/-- A link store comes after the stores into the new node. -/
theorem getElem?_freshStores {new : Nat} {next : Option Nat} {links : List Store} {s : Store}
    (link : ¬ s.Into new) (h : (freshStores new e next ++ links)[n]? = some s) :
    ∃ j, n = (freshStores new e next).length + j ∧ links[j]? = some s := by
  rcases Nat.lt_or_ge n (freshStores new e next).length with lt | ge
  · rw [List.getElem?_append_left lt] at h
    exact absurd (into_freshStores new e next s (List.mem_of_getElem? h)) link
  · rw [List.getElem?_append_right ge] at h
    exact ⟨n - (freshStores new e next).length, by omega, h⟩

theorem Threaded.survives_first (h : m.Threaded []) :
    SurvivesInsert alloc m e n later ↔ ¬ TornInsert alloc m e n later := by
  have stores := insertStores_none h.head (alloc.pick m.allocated) e
  have torn_iff : TornInsert alloc m e n later ↔ n = 13 := by
    unfold TornInsert
    simp only [h.head, List.head?_nil, ne_eq, not_true_eq_false, false_and, or_false, stores]
    constructor
    · intro next
      obtain ⟨j, rfl, hj⟩ := getElem?_freshStores id next
      rcases j with _ | _ | _ | j
      · cases hj
      · rfl
      · cases hj
      · cases hj
    · rintro rfl
      rfl
  rw [torn_iff]
  rcases h.insert_first (alloc.pick m.allocated) e n with
    ⟨le, threaded⟩ | ⟨eq, strung, back, tail, logged⟩ | ⟨ge, threaded, logged⟩
  · exact iff_of_true (survives_of_threaded h.toStrung threaded (Or.inl rfl) later) (by omega)
  · refine iff_of_false ?_ (not_not.mpr eq)
    intro survives
    rcases survives with ⟨old, nodes, stores, -, walk, -, returns, applied⟩
    -- The walk finds the new node, and no drain does.
    obtain rfl := (steady_recoveryWalk _ _).unique walk strung.walk
    have tailless := (strung.reopen [alloc.pick m.allocated]).tailNext_inserts
      (back.congr fun _ _ => rfl) tail alloc later
    rw [(steady_futureDrainThreadFromTail _).unique returns (drain_of_tailless tailless),
      logged] at applied
    cases applied
  · exact iff_of_true (survives_of_threaded h.toStrung threaded (Or.inr logged) later) (by omega)

/-- `prev` leads from the first node to one that `next` does not lead to.  Only the next
insertion, which comes to a full node, mends this. -/
theorem Strung.drains_detached {new : Nat} (h : m.Strung (head :: ns))
    (backward : m.Backward .dummy (new :: head :: ns))
    (tail : m.tailNext = (head :: ns).getLast?) (entries : (m.cells new).entries = [e])
    (full : (m.cells head).entryCount = cardinality) (alloc : NodeAllocator)
    (later : List FutureEntry) :
    ∃ stores, Returns (futureInserts alloc m later).futureDrainThreadFromTail stores ∧
      appliedOf stores =
        if later = [] then m.log (head :: ns) ++ [e] else m.log (head :: ns) ++ later := by
  cases later with
  | nil =>
      obtain ⟨turns, returns, -, applied, -⟩ := futureDrainThreadFromTail_returns backward
        (tail.trans List.getLast?_cons_cons.symm)
      refine ⟨_, returns, ?_⟩
      rw [appliedOf_append, applied, log_cons, entries, if_pos rfl]
      exact List.append_nil _
  | cons x later =>
      have fresh : alloc.pick m.allocated ∉ head :: ns := fun mem =>
        alloc.fresh _ (h.allocated _ mem)
      obtain ⟨strung, back, tail', pushed, same, -⟩ := h.insert_full backward.2 full fresh x
      have mended : (futureInsert alloc m x).Threaded (alloc.pick m.allocated :: head :: ns) :=
        ⟨strung, back, (tail'.trans tail).trans List.getLast?_cons_cons.symm⟩
      obtain ⟨stores, returns, applied⟩ := mended.drains_later alloc later
      have kept : (futureInsert alloc m x).log (head :: ns) = m.log (head :: ns) :=
        log_congr same.entries
      refine ⟨stores, returns, ?_⟩
      rw [applied, log_cons, kept, if_neg (List.cons_ne_nil x later), List.append_assoc]
      exact congrArg (fun es => m.log (head :: ns) ++ (es ++ later)) pushed

theorem Threaded.survives_prepend (h : m.Threaded (head :: ns))
    (full : (m.cells head).entryCount = cardinality) :
    SurvivesInsert alloc m e n later ↔ ¬ TornInsert alloc m e n later := by
  have stores := insertStores_full h.head full (alloc.pick m.allocated) e
  have fresh : alloc.pick m.allocated ∉ head :: ns := fun mem =>
    alloc.fresh _ (h.allocated _ mem)
  have torn_iff : TornInsert alloc m e n later ↔ n = 14 ∧ later = [] := by
    unfold TornInsert
    simp only [stores]
    constructor
    · intro next
      rcases next with next | ⟨-, next, rfl⟩
      · obtain ⟨j, rfl, hj⟩ := getElem?_freshStores id next
        rcases j with _ | _ | _ | j <;> cases hj
      · obtain ⟨j, rfl, hj⟩ := getElem?_freshStores id next
        rcases j with _ | _ | _ | j
        · cases hj
        · exact ⟨rfl, rfl⟩
        · cases hj
        · cases hj
    · intro torn
      rcases torn with ⟨rfl, rfl⟩
      exact Or.inr ⟨by rw [h.head]; exact Option.some_ne_none _, rfl, rfl⟩
  rw [torn_iff]
  obtain ⟨tail, ⟨le, same⟩ | ⟨back, allocated, same, entries, ⟨eq, strung⟩ | ⟨ge, strung⟩⟩⟩ :=
    h.toStrung.insert_prepend h.backward full fresh e n
  · have log := log_congr same.entries
    exact iff_of_true (survives_of_threaded h.toStrung (h.congr same) (Or.inl log) later) (by omega)
  · have fullNow := (same.entryCount head List.mem_cons_self).trans full
    obtain ⟨stores, returns, applied⟩ := (strung.reopen (head :: ns)).drains_detached
      (back.congr fun _ _ => rfl) (tail.trans h.tail) entries fullNow alloc later
    by_cases nothing : later = []
    · refine iff_of_false ?_ (not_not.mpr ⟨eq, nothing⟩)
      intro survives
      rcases survives with ⟨old, nodes, stores', -, walk, -, returns', applied'⟩
      obtain rfl := (steady_recoveryWalk _ _).unique walk strung.walk
      rw [(steady_futureDrainThreadFromTail _).unique returns' returns, applied, if_pos nothing,
        nothing] at applied'
      exact List.cons_ne_nil e [] (List.append_cancel_left applied')
    · refine iff_of_true ?_ fun torn => nothing torn.2
      rw [if_neg nothing] at applied
      exact ⟨m.log (head :: ns), head :: ns, stores, h.recovers, strung.walk,
        Or.inl (log_congr same.entries), returns, applied⟩
  · have threaded : (m.performs ((m.insertStores (alloc.pick m.allocated) e).take n)).Threaded
        (alloc.pick m.allocated :: head :: ns) := by
      refine ⟨strung, back, tail.trans ?_⟩
      rw [h.tail, List.getLast?_cons_cons]
    have log := log_congr same.entries
    refine iff_of_true (survives_of_threaded h.toStrung threaded (Or.inr ?_) later) (by omega)
    rw [log_cons, log, entries]

theorem Threaded.survives_append (h : m.Threaded (head :: ns))
    (room : (m.cells head).entryCount ≠ cardinality) :
    SurvivesInsert alloc m e n later ↔ ¬ TornInsert alloc m e n later := by
  have stores := insertStores_room h.head room (alloc.pick m.allocated) e
  have whole : ¬ TornInsert alloc m e n later := by
    unfold TornInsert
    simp only [stores]
    intro next
    rcases next with next | ⟨-, next, -⟩
    · rcases n with _ | _ | _ | _ | n <;> cases next
    · rcases n with _ | _ | _ | _ | n <;> cases next
  refine iff_of_true ?_ whole
  rcases h.toStrung.insert_append h.backward room (alloc.pick m.allocated) e n with
    ⟨tail, ⟨le, same⟩ | ⟨ge, strung, back, entries, others⟩⟩
  · have log := log_congr same.entries
    exact survives_of_threaded h.toStrung (h.congr same) (Or.inl log) later
  · have threaded : (m.performs ((m.insertStores (alloc.pick m.allocated) e).take n)).Threaded
        (head :: ns) := ⟨strung, back, tail.trans h.tail⟩
    refine survives_of_threaded h.toStrung threaded (Or.inr ?_) later
    have log : (m.performs ((m.insertStores (alloc.pick m.allocated) e).take n)).log ns = m.log ns :=
      log_congr fun a mem => by rw [others a mem]
    rw [log_cons, log_cons, entries, log, List.append_assoc]

/-- A process that stops inside `future_insert` leaves a chain that can be used further,
unless it stops at a torn link. -/
theorem insert_crash_iff {cells : Nat → NodeCell} {allocated : Finset Nat}
    {calls : List ChainCall} (run : ChainRun alloc (empty cells allocated) calls m)
    (e : FutureEntry) (n : Nat) (later : List FutureEntry) :
    SurvivesInsert alloc m e n later ↔ ¬ TornInsert alloc m e n later := by
  obtain ⟨⟨ns, threaded, -⟩, -, -⟩ := run.refines (refines_empty cells allocated)
  cases ns with
  | nil => exact threaded.survives_first
  | cons head ns =>
      by_cases full : (m.cells head).entryCount = cardinality
      · exact threaded.survives_prepend full
      · exact threaded.survives_append full

end Insert

/-- An allocator that takes the node after all others. -/
def nodeAfter : NodeAllocator where
  pick allocated := allocated.sup id + 1
  fresh allocated mem := by
    have le : allocated.sup id + 1 ≤ allocated.sup id := Finset.le_sup (f := id) mem
    omega

/-- A pool of zeros without nodes. -/
def zeroed : ChainMemory :=
  empty (fun _ => ⟨fun _ => 0, fun _ => false, fun _ => 0, 0, none, none⟩) ∅

theorem threaded_zeroed : zeroed.Threaded [] :=
  ⟨⟨.nil, by simp, by simp, trivial, rfl⟩, trivial, rfl⟩

/-- Insertions with the sequence numbers from 1 on. -/
def numbered (n : Nat) : List FutureEntry :=
  (List.range n).map fun i => ⟨(i + 1 : Nat), false, i + 1⟩

theorem chainRun_inserts {alloc : NodeAllocator} {m m' : ChainMemory} {calls : List ChainCall}
    (run : ChainRun alloc m calls m') (later : List FutureEntry) :
    ChainRun alloc m (calls ++ later.map .insert) (futureInserts alloc m' later) := by
  induction later generalizing calls m' with
  | nil => rwa [List.map_nil, List.append_nil]
  | cons e later ih =>
      have whole := ih (run.insert e)
      rwa [List.append_assoc] at whole

instance (alloc : NodeAllocator) (m : ChainMemory) (e : FutureEntry) (n : Nat)
    (later : List FutureEntry) : Decidable (TornInsert alloc m e n later) := by
  unfold TornInsert
  infer_instance

/-- A node in front of a full one, which `prev` leads to and `next` does not: an insertion after the
reopening puts another node there. -/
theorem insert_crash_prepended :
    SurvivesInsert nodeAfter (futureInserts nodeAfter zeroed (numbered 28)) ⟨9, true, 29⟩ 14
      [⟨4, false, 30⟩] := by
  have whole :
      ¬ TornInsert nodeAfter (futureInserts nodeAfter zeroed (numbered 28)) ⟨9, true, 29⟩ 14
      [⟨4, false, 30⟩] := by decide +kernel
  exact (insert_crash_iff (chainRun_inserts .nil (numbered 28)) _ _ _).mpr whole

/-- The first operation of a producer is found again, and a drain does not apply it. -/
theorem insert_crash_first : ¬ SurvivesInsert nodeAfter zeroed ⟨7, false, 1⟩ 13 [] := by
  exact fun survives => threaded_zeroed.survives_first.mp survives (Or.inl rfl)

/-! ## A crash inside a drain -/

/-- The nodes that a walk on `next` from the dummy head comes to. -/
inductive Reachable (m : ChainMemory) : Nat → Prop
  | head {a} (head : m.headNext = some a) : Reachable m a
  | next {a b} (reached : Reachable m a) (allocated : a ∈ m.allocated)
      (next : (m.cells a).next = some b) : Reachable m b

/-- Recovery touches no freed node and finds the operations that have not been applied. -/
structure Recoverable (m : ChainMemory) (unapplied : List FutureEntry) : Prop where
  allocated : ∀ a, m.Reachable a → a ∈ m.allocated
  entries : ∀ e ∈ unapplied, ∃ a, m.Reachable a ∧ e ∈ (m.cells a).entries
  walk : ∃ ops, m.Recovers ops ∧ ∀ e ∈ unapplied, e ∈ ops

section Drain

variable {m : ChainMemory} {ns : List Nat} {a b : Nat} {unapplied : List FutureEntry}

theorem Forward.next_mem (forward : m.Forward ns) (mem : a ∈ ns) (next : (m.cells a).next = some b) :
    b ∈ ns := by
  induction ns with
  | nil => cases mem
  | cons c ns ih =>
      rcases List.mem_cons.mp mem with rfl | mem
      · exact List.mem_cons_of_mem _ (List.mem_of_head? (forward.1.symm.trans next))
      · exact List.mem_cons_of_mem _ (ih forward.2 mem)

theorem mem_of_reachable (forward : m.Forward ns) (head : m.headNext = ns.head?)
    (h : m.Reachable a) : a ∈ ns := by
  induction h with
  | head first => exact List.mem_of_head? (head.symm.trans first)
  | next _ _ next ih => exact forward.next_mem ih next

/-- As long as the walk comes to allocated nodes it comes to the whole chain. -/
theorem reachable_of_mem (forward : m.Forward ns) (head : m.headNext = ns.head?)
    (allocated : ∀ a, m.Reachable a → a ∈ m.allocated) (mem : a ∈ ns) : m.Reachable a := by
  have reached : ∀ a, ns.head? = some a → m.Reachable a := fun a first => .head (head.trans first)
  clear head
  induction ns with
  | nil => cases mem
  | cons c ns ih =>
      have here := reached c rfl
      rcases List.mem_cons.mp mem with rfl | mem
      · exact here
      · refine ih forward.2 mem fun a first => ?_
        exact .next here (allocated c here) (forward.1.trans first)

theorem recoverable_iff (forward : m.Forward ns) (head : m.headNext = ns.head?)
    (sub : ∀ e ∈ unapplied, e ∈ m.log ns) :
    m.Recoverable unapplied ↔ ∀ a ∈ ns, a ∈ m.allocated := by
  constructor
  · intro h a mem
    exact h.allocated a (reachable_of_mem forward head h.allocated mem)
  · intro here
    have allocated : ∀ a, m.Reachable a → a ∈ m.allocated := fun a reached =>
      here a (mem_of_reachable forward head reached)
    refine ⟨allocated, fun e mem => ?_, ⟨m.log ns, ⟨ns, ?_, rfl⟩, sub⟩⟩
    · rcases List.mem_flatMap.mp (sub e mem) with ⟨a, ha, he⟩
      exact ⟨a, reachable_of_mem forward head allocated (List.mem_reverse.mp ha), he⟩
    · rw [head]
      exact recoveryWalk_of_forward here forward

/-- Until the dummy head is reset, no node may be freed. -/
theorem Strung.recoverable_dismantled {done : List Store} (h : m.Strung ns)
    (dismantles : ∀ s ∈ done, s.Dismantles ns) (sub : ∀ e ∈ unapplied, e ∈ m.log ns) :
    (m.performs done).Recoverable unapplied ↔ ∀ a, .free a ∉ done := by
  obtain ⟨cells, head, -, allocated⟩ := performs_dismantles dismantles m
  have log : (m.performs done).log ns = m.log ns := log_congr fun a _ => by rw [cells]
  rw [recoverable_iff (h.forward.congr fun a _ => by rw [cells]) (head.trans h.head)
    (log ▸ sub)]
  constructor
  · intro here a freed
    exact ((allocated a).mp (here a (dismantles _ freed))).2 freed
  · intro kept a mem
    exact (allocated a).mpr ⟨h.allocated a mem, kept a⟩

/-- Afterwards nothing is found. -/
theorem recoverable_reset (head : m.headNext = none) : m.Recoverable unapplied ↔ unapplied = [] := by
  have forward : m.Forward [] := trivial
  constructor
  · intro h
    refine List.eq_nil_iff_forall_not_mem.mpr fun e mem => ?_
    obtain ⟨a, reached, -⟩ := h.entries e mem
    exact List.not_mem_nil (mem_of_reachable forward head reached)
  · rintro rfl
    exact (recoverable_iff forward head (by simp)).mpr (by simp)

theorem headNext_performs {stores : List Store} (others : ∀ link, .headNext link ∉ stores) :
    (m.performs stores).headNext = m.headNext := by
  induction stores generalizing m with
  | nil => rfl
  | cons s stores ih =>
      rw [performs_cons, ih fun link mem => others link (List.mem_cons_of_mem _ mem)]
      cases s with
      | headNext link => exact absurd List.mem_cons_self (others link)
      | _ => rfl

/-- The stores before the dummy head is reset, or that one and some after it. -/
theorem take_reset {turns rest : List Store} (dismantles : ∀ s ∈ turns, s.Dismantles ns)
    (others : ∀ link, .headNext link ∉ rest) (n : Nat) (m : ChainMemory) :
    (∃ k, (turns ++ .headNext none :: rest).take n = turns.take k ∧
        .headNext none ∉ turns.take k) ∨
      ∃ done, (turns ++ .headNext none :: rest).take n = turns ++ done ∧ .headNext none ∈ done ∧
        (m.performs (turns ++ done)).headNext = none := by
  rcases Nat.lt_or_ge turns.length n with lt | le
  · obtain ⟨k, rfl⟩ : ∃ k, n = turns.length + (k + 1) := ⟨n - turns.length - 1, by omega⟩
    refine Or.inr ⟨.headNext none :: rest.take k, ?_, List.mem_cons_self, ?_⟩
    · rw [List.take_length_add_append, List.take_succ_cons]
    · rw [performs_append, performs_cons]
      exact headNext_performs fun link mem => others link (List.mem_of_mem_take mem)
  · refine Or.inl ⟨n, List.take_append_of_le_length le, fun mem => ?_⟩
    exact dismantles _ (List.mem_of_mem_take mem)

/-- A process that stops inside a drain or a clear leaves a chain that can be recovered, if
no node has been freed yet, or if the dummy head has been reset and nothing was left to
apply. -/
theorem drain_crash_iff (h : m.Threaded ns) :
    (∃ stores, Returns m.futureDrainThreadFromTail stores ∧ appliedOf stores = m.log ns ∧
      ∀ n, (m.performs (stores.take n)).Recoverable
          ((m.log ns).drop (appliedOf (stores.take n)).length) ↔
        (∀ a, .free a ∉ stores.take n) ∨ .headNext none ∈ stores.take n) ∧
    (∃ stores, Returns m.futureClearThread stores ∧
      ∀ n unapplied, (∀ e ∈ unapplied, e ∈ m.log ns) →
        ((m.performs (stores.take n)).Recoverable unapplied ↔
          (∀ a, .free a ∉ stores.take n) ∨
            .headNext none ∈ stores.take n ∧ unapplied = [])) := by
  constructor
  · obtain ⟨turns, returns, dismantles, applied, -, -⟩ :=
      futureDrainThreadFromTail_returns h.backward h.tail
    refine ⟨_, returns, ?_, fun n => ?_⟩
    · rw [appliedOf_append, applied]
      exact List.append_nil _
    · have others : ∀ link, .headNext link ∉ [Store.headEntryCount 0, .headIsDone true] := nofun
      rcases take_reset dismantles others n m with ⟨k, taken, before⟩ | ⟨done, taken, reset, head⟩
      · rw [taken, or_iff_left before]
        exact h.toStrung.recoverable_dismantled
          (fun s mem => dismantles s (List.mem_of_mem_take mem)) fun e mem => List.mem_of_mem_drop mem
      · rw [taken]
        refine iff_of_true ?_ (Or.inr (List.mem_append_right _ reset))
        rw [recoverable_reset head, appliedOf_append, applied]
        exact List.drop_of_length_le (by simp)
  · have dismantles : ∀ s ∈ ns.map Store.free, s.Dismantles ns := by
      intro s mem
      rcases List.mem_map.mp mem with ⟨a, ha, rfl⟩
      exact ha
    refine ⟨_, futureClearThread_returns h.forward h.head, fun n unapplied sub => ?_⟩
    have others : ∀ link,
        .headNext link ∉ [Store.headEntryCount 0, .headIsDone true, .tailNext none] := nofun
    rcases take_reset dismantles others n m with ⟨k, taken, before⟩ | ⟨done, taken, reset, head⟩
    · rw [taken, or_iff_left fun both => before both.1]
      exact h.toStrung.recoverable_dismantled
        (fun s mem => dismantles s (List.mem_of_mem_take mem)) sub
    · rw [taken, recoverable_reset head]
      have reset : .headNext none ∈ ns.map Store.free ++ done := List.mem_append_right _ reset
      constructor
      · exact fun nothing => Or.inr ⟨reset, nothing⟩
      · intro kept
        rcases kept with kept | ⟨-, nothing⟩
        · refine List.eq_nil_iff_forall_not_mem.mpr fun e mem => ?_
          rcases List.mem_flatMap.mp (sub e mem) with ⟨a, ha, -⟩
          exact kept a (List.mem_append_left _ (List.mem_map_of_mem (List.mem_reverse.mp ha)))
        · exact nothing

end Drain

/-- A drain of two nodes, right before it frees the first of them, and after it has reset the dummy
head. -/
theorem drain_crash_two :
    let m := futureInserts nodeAfter zeroed (numbered 29)
    ∃ stores, Returns m.futureDrainThreadFromTail stores ∧
      stores[30]? = some (.free 1) ∧ (m.performs (stores.take 30)).Recoverable [⟨29, false, 29⟩] ∧
      stores[35]? = some (.headNext none) ∧ (m.performs (stores.take 36)).Recoverable [] := by
  intro m
  have checked : (m.futureDrainThreadFromTail 3).any (fun stores => decide
      (appliedOf stores = numbered 29 ∧ stores[30]? = some (.free 1) ∧
        stores.take 30 = (numbered 28).map .apply ++ [.tailNext (some 2), .headEntryCount 1] ∧
        stores[35]? = some (.headNext none) ∧
          appliedOf (stores.take 36) = numbered 29)) = true := by
    decide +kernel
  obtain ⟨stores, returns, holds⟩ := (Option.any_eq_true _ _).mp checked
  obtain ⟨all, first, before, reset, last⟩ := of_decide_eq_true holds
  have run : ChainRun nodeAfter zeroed _ m := chainRun_inserts .nil (numbered 29)
  obtain ⟨⟨ns, threaded, -⟩, -, -⟩ := run.refines (refines_empty _ _)
  obtain ⟨⟨stores', returns', applied, recoverable_iff⟩, -⟩ := drain_crash_iff threaded
  obtain rfl := (steady_futureDrainThreadFromTail m).unique returns' ⟨3, returns⟩
  rw [← applied, all] at recoverable_iff
  refine ⟨stores', returns', first, ?_, reset, ?_⟩
  · have kept : ∀ a, Store.free a ∉ stores'.take 30 := by
      rw [before]
      simp
    have here := (recoverable_iff 30).mpr (Or.inl kept)
    rw [before] at here ⊢
    exact here
  · have done : Store.headNext none ∈ stores'.take 36 :=
      List.mem_take_iff_getElem.mpr ⟨35, by simp [(List.getElem?_eq_some_iff.mp reset).1],
        (List.getElem?_eq_some_iff.mp reset).2⟩
    have here := (recoverable_iff 36).mpr (Or.inr done)
    rw [last] at here
    exact here

/-- The only node of a chain is freed while the dummy head still leads to it. -/
theorem drain_crash_freed :
    let m := zeroed.futureInsert nodeAfter ⟨7, false, 1⟩
    (∃ stores, Returns m.futureDrainThreadFromTail stores ∧
      ¬ (m.performs (stores.take 4)).Recoverable []) ∧
    ∃ stores, Returns m.futureClearThread stores ∧
      ¬ (m.performs (stores.take 1)).Recoverable [] := by
  intro m
  refine ⟨⟨[.apply ⟨7, false, 1⟩, .tailNext none, .headEntryCount 0, .free 1, .headNext none,
      .headEntryCount 0, .headIsDone true], ⟨2, rfl⟩, fun h => ?_⟩,
    ⟨[.free 1, .headNext none, .headEntryCount 0, .headIsDone true, .tailNext none], ⟨2, rfl⟩,
      fun h => ?_⟩⟩
  · exact absurd (h.allocated 1 (.head rfl)) (by decide)
  · exact absurd (h.allocated 1 (.head rfl)) (by decide)

end ChainMemory

end F3Tree
