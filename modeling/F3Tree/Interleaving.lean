import F3Tree.Lib.Runs
import F3Tree.Calls

/-!
# Producer calls and drains, interleaved

A producer call is three critical sections: it takes a sequence number, puts the
operation into its own structures, and accounts for it.  Each section is one step,
a drain is one step, and steps of different producers come in any order
(`Machine.step`).  A producer id belongs to one thread, so its own sections come
in order.

A full drain clears every directory but replays only the producers that have
accounted for something.  It can therefore strand an operation whose producer has
buffered it and not yet accounted for it; a run whose drains all cover what is
buffered (`Covers`) loses no insert (`inserts_survive`).
-/

namespace F3Tree

open LastWriter Runs

/-- Where producer `p`'s thread stands inside a call. -/
inductive Phase : Type
  | idle
  | sequenced (key : Int) (isDone : Bool) (sequence : Nat)
  | buffered (key : Int) (isDone : Bool)
deriving DecidableEq, Repr

/-- The sequence number that a thread has taken and not used yet. -/
def Phase.taken : Phase → Option Nat
  | .sequenced _ _ sequence => some sequence
  | .idle | .buffered _ _ => none

/-- The operation a thread is busy with. -/
def Phase.operation (p : Nat) : Phase → Option Issue
  | .idle => none
  | .sequenced key isDone _ | .buffered key isDone => some ⟨key, p, isDone⟩

/-- The wrapper together with the threads inside its calls.  `issued` and `returned`
record which calls have begun and which have ended. -/
structure Machine (τ : Type) : Type where
  impl : Impl τ
  phase : Nat → Phase
  issued : List Issue
  returned : List Issue

inductive Action : Type
  | takeSequence (key : Int) (producerId : Nat) (isDone : Bool)
  | ptfoInsert (producerId : Nat)
  | account (producerId : Nat) (numa : Int)
  | drainPending (numa : Int)
  | drainForProducers (producerIds : List Nat) (numa : Int)
  | drainForNodes (nodeIds : List Nat) (numa : Int)
deriving DecidableEq, Repr

namespace Machine

variable {τ : Type} [GlobalTree τ]

def init (config : RuntimeConfig) (tree : τ) (resume nodes : Nat) : Machine τ where
  impl := .init config tree resume nodes
  phase := fun _ => .idle
  issued := []
  returned := []

/-- One critical section.  A thread that is not at the section does nothing. -/
def step (m : Machine τ) : Action → Machine τ
  | .takeSequence key p isDone =>
      if p < m.impl.ptfoThreads.size ∧ m.phase p = .idle then
        { m with
          impl := m.impl.takeSequence.2
          phase := Function.update m.phase p (.sequenced key isDone m.impl.nextPtfoSequence)
          issued := m.issued ++ [⟨key, p, isDone⟩] }
      else m
  | .ptfoInsert p =>
      match m.phase p with
      | .sequenced key isDone sequence =>
          { m with
            impl := m.impl.ptfoInsert key p isDone sequence
            phase := Function.update m.phase p (.buffered key isDone) }
      | .idle | .buffered _ _ => m
  | .account p numa =>
      match m.phase p with
      | .buffered key isDone =>
          { m with
            impl := m.impl.account p numa
            phase := Function.update m.phase p .idle
            returned := m.returned ++ [⟨key, p, isDone⟩] }
      | .idle | .sequenced _ _ _ => m
  | .drainPending numa => { m with impl := m.impl.drainPending numa }
  | .drainForProducers producerIds numa =>
      { m with impl := m.impl.drainLockedForProducers producerIds numa }
  | .drainForNodes nodeIds numa =>
      { m with impl := m.impl.drainLockedForNodes nodeIds numa }

def run (m : Machine τ) (actions : List Action) : Machine τ := actions.foldl step m

theorem run_concat (m : Machine τ) (actions : List Action) (a : Action) :
    m.run (actions ++ [a]) = (m.run actions).step a :=
  List.foldl_append

/-! ## What a step can do -/

/-- The producers that an action drains. -/
def drained (s : Impl τ) : Action → List Nat
  | .drainPending _ => if s.pendingOperationCount = 0 then [] else s.pendingProducers
  | .drainForProducers producerIds _ => s.activeProducers producerIds
  | .drainForNodes nodeIds _ => s.collectProducersForNodes nodeIds
  | .takeSequence _ _ _ | .ptfoInsert _ | .account _ _ => []

/-- Every insert that is the newest operation on a key missing from the tree
belongs to one of `ids`. -/
def CoveredBy (s : Impl τ) (ids : List Nat) : Prop :=
  ∀ key op, newest s.tree.allPending key = some op → op.isDelete = false →
    s.globalContains key = false → op.producerId ∈ ids

/-- The condition on one action: a full drain that does anything finds every such
insert with a producer that has accounted for something. -/
def Covers (m : Machine τ) : Action → Prop
  | .drainPending _ =>
      m.impl.pendingOperationCount ≠ 0 → CoveredBy m.impl m.impl.pendingProducers
  | .takeSequence _ _ _ | .ptfoInsert _ | .account _ _ | .drainForProducers _ _
  | .drainForNodes _ _ => True

/-- The steps of a machine, by what they do to the wrapper. -/
inductive Steps (m : Machine τ) (a : Action) : Machine τ → Prop
  | stay (quiet : drained m.impl a = []) : Steps m a m
  | take (quiet : drained m.impl a = []) (key : Int) (p : Nat) (isDone : Bool)
      (lt : p < m.impl.ptfoThreads.size) (idle : m.phase p = .idle) :
      Steps m a
        { m with
          impl := m.impl.takeSequence.2
          phase := Function.update m.phase p (.sequenced key isDone m.impl.nextPtfoSequence)
          issued := m.issued ++ [⟨key, p, isDone⟩] }
  | insert (quiet : drained m.impl a = []) (key : Int) (p : Nat) (isDone : Bool)
      (sequence : Nat) (ready : m.phase p = .sequenced key isDone sequence) :
      Steps m a
        { m with
          impl := m.impl.ptfoInsert key p isDone sequence
          phase := Function.update m.phase p (.buffered key isDone) }
  | account (quiet : drained m.impl a = []) (key : Int) (p : Nat) (isDone : Bool)
      (numa : Int) (ready : m.phase p = .buffered key isDone) :
      Steps m a
        { m with
          impl := m.impl.account p numa
          phase := Function.update m.phase p .idle
          returned := m.returned ++ [⟨key, p, isDone⟩] }
  | drain (s' : Impl τ) (cleared : List Nat) (active : m.impl.Active (drained m.impl a))
      (drains : m.impl.Drains s' (drained m.impl a) cleared)
      (clears : ∀ p ∈ drained m.impl a, p ∈ cleared)
      (covered : (∀ p ∈ cleared, p ∈ drained m.impl a) ∨ CoveredBy m.impl (drained m.impl a)) :
      Steps m a { m with impl := s' }

theorem step_steps {m : Machine τ}
    (threads : m.impl.ptfoThreads.size = m.impl.tree.nThreads) (a : Action)
    (covers : m.Covers a) : m.Steps a (m.step a) := by
  cases a with
  | takeSequence key p isDone =>
      by_cases h : p < m.impl.ptfoThreads.size ∧ m.phase p = .idle
      · rw [step, if_pos h]
        exact .take rfl key p isDone h.1 h.2
      · rw [step, if_neg h]
        exact .stay rfl
  | ptfoInsert p =>
      rcases hp : m.phase p with _ | ⟨key, isDone, sequence⟩ | ⟨key, isDone⟩
      · simp only [step, hp]
        exact .stay rfl
      · simp only [step, hp]
        exact .insert rfl key p isDone sequence hp
      · simp only [step, hp]
        exact .stay rfl
  | account p numa =>
      rcases hp : m.phase p with _ | ⟨key, isDone, sequence⟩ | ⟨key, isDone⟩
      · simp only [step, hp]
        exact .stay rfl
      · simp only [step, hp]
        exact .stay rfl
      · simp only [step, hp]
        exact .account rfl key p isDone numa hp
  | drainPending numa =>
      by_cases pending : m.impl.pendingOperationCount = 0
      · have same : m.impl.drainPending numa = m.impl := if_pos pending
        rw [step, same]
        exact .stay (if_pos pending)
      · have active := Impl.active_pendingProducers threads
        have picked : drained m.impl (.drainPending numa) = m.impl.pendingProducers :=
          if_neg pending
        rw [step]
        refine .drain _ _ ?_ (picked ▸ Impl.drains_drainLocked threads pending numa) ?_ ?_
        · exact picked ▸ active
        · rw [picked]
          exact fun p mem => List.mem_range.mpr (active p mem).1
        · exact Or.inr (picked ▸ covers pending)
  | drainForProducers producerIds numa =>
      have active := Impl.active_activeProducers threads producerIds
      exact .drain _ _ active (Impl.drains_drainSlice active 1 numa) (fun _ mem => mem)
        (Or.inl fun _ mem => mem)
  | drainForNodes nodeIds numa =>
      have active := Impl.active_collectProducersForNodes threads nodeIds
      exact .drain _ _ active (Impl.drains_drainSlice active _ numa) (fun _ mem => mem)
        (Or.inl fun _ mem => mem)

/-! ## Numbers and counters -/

/-- What holds at every point of an interleaving over the keys `keys`: sequence
numbers are used once and in order, and a chain that is not empty has been
accounted for or is about to be. -/
structure Consistent (config : RuntimeConfig) (keys : Nat → Finset Int) (m : Machine τ) :
    Prop where
  config_eq : m.impl.config = config
  nThreads_eq : m.impl.tree.nThreads = config.producerThreads
  threads : m.impl.ptfoThreads.size = m.impl.tree.nThreads
  configured : ∀ p, m.phase p ≠ .idle → p < m.impl.tree.nThreads
  total : m.impl.pendingOperationCount = m.impl.entryTotal
  counted : ∀ p < m.impl.tree.nThreads, m.impl.tree.pending p ≠ [] →
    0 < (m.impl.ptfoThreads.get p).entryCount ∨ ∃ key isDone, m.phase p = .buffered key isDone
  distinct : DistinctStamps m.impl.tree.allPending
  fresh : ∀ op ∈ m.impl.tree.allPending, op.sequence < m.impl.nextPtfoSequence
  takenFresh : ∀ p sequence, (m.phase p).taken = some sequence →
    sequence < m.impl.nextPtfoSequence
  takenUnused : ∀ p sequence, (m.phase p).taken = some sequence →
    ∀ op ∈ m.impl.tree.allPending, op.sequence ≠ sequence
  takenNewer : ∀ p sequence, (m.phase p).taken = some sequence →
    ∀ op ∈ m.impl.tree.pending p, op.sequence < sequence
  takenOnce : ∀ p q sequence, (m.phase p).taken = some sequence →
    (m.phase q).taken = some sequence → p = q
  roomy : ∀ p < m.impl.tree.nThreads, m.impl.tree.Roomy (keys p) p

/-- Everything a call has left in the wrapper or in a thread was issued. -/
structure Traced (m : Machine τ) : Prop where
  busy : ∀ p i, (m.phase p).operation p = some i → i ∈ m.issued
  pending : ∀ op ∈ m.impl.tree.allPending, ⟨op.key, op.producerId, op.isDelete⟩ ∈ m.issued

omit [GlobalTree τ] in
theorem mem_allPending_of_lt {b : Btree τ} {p : Nat} (hp : p < b.nThreads)
    {op : FutureBufferedOp} (mem : op ∈ b.pending p) : op ∈ b.allPending :=
  Btree.mem_allPending.mpr (Btree.producerId_of_mem mem ▸ ⟨hp, mem⟩)

section Step

variable {m m' : Machine τ} {a : Action} {config : RuntimeConfig} {keys : Nat → Finset Int}

omit [GlobalTree τ] in
theorem Consistent.take (con : m.Consistent config keys) {p : Nat} (key : Int) (isDone : Bool)
    (lt : p < m.impl.ptfoThreads.size) (idle : m.phase p = .idle) :
    Consistent config keys
      { m with
        impl := m.impl.takeSequence.2
        phase := Function.update m.phase p (.sequenced key isDone m.impl.nextPtfoSequence)
        issued := m.issued ++ [⟨key, p, isDone⟩] } := by
  have own : ∀ op ∈ m.impl.tree.pending p, op.sequence < m.impl.nextPtfoSequence :=
    fun op mem => con.fresh op (mem_allPending_of_lt (con.threads ▸ lt) mem)
  have taken : ∀ q sequence,
      (Function.update m.phase p (.sequenced key isDone m.impl.nextPtfoSequence) q).taken =
        some sequence →
      q = p ∧ sequence = m.impl.nextPtfoSequence ∨ (m.phase q).taken = some sequence := by
    intro q sequence hq
    by_cases hqp : q = p
    · subst hqp
      rw [Function.update_self] at hq
      exact Or.inl ⟨rfl, (Option.some.inj hq).symm⟩
    · rw [Function.update_of_ne hqp] at hq
      exact Or.inr hq
  refine ⟨con.config_eq, con.nThreads_eq, con.threads, fun q hq => ?_, con.total, fun q hq nonempty => ?_, con.distinct,
    fun op mem => Nat.lt_succ_of_lt (con.fresh op mem), fun q sequence hq => ?_,
    fun q sequence hq op mem => ?_, fun q sequence hq op mem => ?_,
    fun q q' sequence hq hq' => ?_, con.roomy⟩
  · by_cases hqp : q = p
    · subst hqp
      exact con.threads ▸ lt
    · exact con.configured q (by simpa [hqp] using hq)
  · refine (con.counted q hq nonempty).imp_right ?_
    rintro ⟨key', isDone', hphase⟩
    have hqp : q ≠ p := by
      rintro rfl
      rw [idle] at hphase
      cases hphase
    exact ⟨key', isDone', (Function.update_of_ne hqp _ _).trans hphase⟩
  · rcases taken q sequence hq with ⟨-, rfl⟩ | old
    · exact Nat.lt_succ_self _
    · exact Nat.lt_succ_of_lt (con.takenFresh q sequence old)
  · rcases taken q sequence hq with ⟨-, rfl⟩ | old
    · exact (con.fresh op mem).ne
    · exact con.takenUnused q sequence old op mem
  · rcases taken q sequence hq with ⟨rfl, rfl⟩ | old
    · exact own op mem
    · exact con.takenNewer q sequence old op mem
  · rcases taken q sequence hq with ⟨hqp, hseq⟩ | old <;>
      rcases taken q' sequence hq' with ⟨hqp', hseq'⟩ | old'
    · rw [hqp, hqp']
    · exact absurd (con.takenFresh q' _ old') (by omega)
    · exact absurd (con.takenFresh q _ old) (by omega)
    · exact con.takenOnce q q' sequence old old'

omit [GlobalTree τ] in
theorem Consistent.insert (con : m.Consistent config keys) {key : Int} {p : Nat} {isDone : Bool}
    {sequence : Nat} (ready : m.phase p = .sequenced key isDone sequence)
    (hkey : key ∈ keys p) :
    Consistent config keys
      { m with
        impl := m.impl.ptfoInsert key p isDone sequence
        phase := Function.update m.phase p (.buffered key isDone) } := by
  have hp : p < m.impl.tree.nThreads := con.configured p (by simp [ready])
  have own : (m.phase p).taken = some sequence := by rw [ready]; rfl
  have taken : ∀ q sequence', (Function.update m.phase p (.buffered key isDone) q).taken =
      some sequence' → q ≠ p ∧ (m.phase q).taken = some sequence' := by
    intro q sequence' hq
    by_cases hqp : q = p
    · subst hqp
      rw [Function.update_self] at hq
      cases hq
    · exact ⟨hqp, by rwa [Function.update_of_ne hqp] at hq⟩
  have pending : (m.impl.ptfoInsert key p isDone sequence).tree.pending =
      Function.update m.impl.tree.pending p
        (m.impl.tree.pending p ++ [⟨key, isDone, sequence, p⟩]) :=
    Btree.pending_futureInsert ..
  have buffered : ∀ op ∈ (m.impl.ptfoInsert key p isDone sequence).tree.allPending,
      op ∈ m.impl.tree.allPending ∨ op = ⟨key, isDone, sequence, p⟩ := fun op mem =>
    (Btree.mem_allPending_futureInsert hp).mp mem
  refine ⟨con.config_eq, con.nThreads_eq, con.threads, fun q hq => ?_, con.total, fun q hq nonempty => ?_, ?_,
    fun op mem => ?_, fun q sequence' hq => con.takenFresh q sequence' (taken q _ hq).2,
    fun q sequence' hq op mem => ?_, fun q sequence' hq op mem => ?_,
    fun q q' sequence' hq hq' => con.takenOnce q q' sequence' (taken q _ hq).2 (taken q' _ hq').2,
    Btree.Roomy.futureInsert con.roomy hkey _ _⟩
  · by_cases hqp : q = p
    · subst hqp
      exact hp
    · exact con.configured q (by simpa [hqp] using hq)
  · by_cases hqp : q = p
    · subst hqp
      exact Or.inr ⟨key, isDone, Function.update_self ..⟩
    · rw [pending, Function.update_of_ne hqp] at nonempty
      refine (con.counted q hq nonempty).imp_right ?_
      rintro ⟨key', isDone', hphase⟩
      exact ⟨key', isDone', (Function.update_of_ne hqp _ _).trans hphase⟩
  · intro op mem op' mem' hstamp
    have hseq : op.sequence = op'.sequence := hstamp
    rcases buffered op mem with old | rfl <;> rcases buffered op' mem' with old' | rfl
    · exact con.distinct op old op' old' hstamp
    · exact absurd hseq (con.takenUnused p sequence own op old)
    · exact absurd hseq.symm (con.takenUnused p sequence own op' old')
    · rfl
  · rcases buffered op mem with old | rfl
    · exact con.fresh op old
    · exact con.takenFresh p sequence own
  · obtain ⟨hqp, old⟩ := taken q sequence' hq
    rcases buffered op mem with mem | rfl
    · exact con.takenUnused q sequence' old op mem
    · rintro rfl
      exact hqp (con.takenOnce q p _ old own)
  · obtain ⟨hqp, old⟩ := taken q sequence' hq
    rw [pending, Function.update_of_ne hqp] at mem
    exact con.takenNewer q sequence' old op mem

omit [GlobalTree τ] in
theorem Consistent.account (con : m.Consistent config keys) {key : Int} {p : Nat} {isDone : Bool}
    (ready : m.phase p = .buffered key isDone) (numa : Int) :
    Consistent config keys
      { m with
        impl := m.impl.account p numa
        phase := Function.update m.phase p .idle
        returned := m.returned ++ [⟨key, p, isDone⟩] } := by
  have hp : p < m.impl.tree.nThreads := con.configured p (by simp [ready])
  have taken : ∀ q sequence, (Function.update m.phase p .idle q).taken = some sequence →
      (m.phase q).taken = some sequence := by
    intro q sequence hq
    by_cases hqp : q = p
    · subst hqp
      rw [Function.update_self] at hq
      cases hq
    · rwa [Function.update_of_ne hqp] at hq
  refine ⟨con.config_eq, con.nThreads_eq, con.threads, fun q hq => ?_, ?_, fun q hq nonempty => ?_, con.distinct, con.fresh,
    fun q sequence hq => con.takenFresh q sequence (taken q _ hq),
    fun q sequence hq => con.takenUnused q sequence (taken q _ hq),
    fun q sequence hq => con.takenNewer q sequence (taken q _ hq),
    fun q q' sequence hq hq' => con.takenOnce q q' sequence (taken q _ hq) (taken q' _ hq'),
    con.roomy⟩
  · by_cases hqp : q = p
    · subst hqp
      exact hp
    · exact con.configured q (by simpa [hqp] using hq)
  · have hcount : m.impl.pendingOperationCount + 1 = m.impl.entryTotal + 1 :=
      congrArg (· + 1) con.total
    exact hcount.trans (Impl.entryTotal_account (con.threads ▸ hp) numa).symm
  · by_cases hqp : q = p
    · subst hqp
      left
      simp [Impl.account, PTFOThreadState.bump]
    · refine (con.counted q hq nonempty).imp (fun hcount => ?_) ?_
      · simpa [Impl.account, hqp] using hcount
      · rintro ⟨key', isDone', hphase⟩
        exact ⟨key', isDone', (Function.update_of_ne hqp _ _).trans hphase⟩

theorem Consistent.drain (con : m.Consistent config keys) {s' : Impl τ} {ids cleared : List Nat}
    (drains : m.impl.Drains s' ids cleared) : Consistent config keys { m with impl := s' } := by
  have pendingSub : ∀ p, ∀ op ∈ s'.tree.pending p, p ∉ ids ∧ op ∈ m.impl.tree.pending p := by
    intro p op mem
    rw [drains.pending] at mem
    split at mem
    · exact absurd mem List.not_mem_nil
    · exact ⟨by assumption, mem⟩
  have kept : ∀ op ∈ s'.tree.allPending, op ∈ m.impl.tree.allPending := fun op mem =>
    (drains.mem_allPending.mp mem).1
  refine ⟨drains.config.trans con.config_eq, drains.nThreads.trans con.nThreads_eq, ?_,
    fun p hp => ?_, drains.total con.total, fun p hp nonempty => ?_,
    con.distinct.mono kept, fun op mem => ?_, fun p sequence hp => ?_,
    fun p sequence hp op mem => con.takenUnused p sequence hp op (kept op mem),
    fun p sequence hp op mem => con.takenNewer p sequence hp op (pendingSub p op mem).2,
    con.takenOnce, fun p hp => ?_⟩
  · rw [drains.size, drains.nThreads, con.threads]
  · rw [drains.nThreads]
    exact con.configured p hp
  · rw [drains.nThreads] at hp
    obtain ⟨op, mem⟩ := List.exists_mem_of_ne_nil _ nonempty
    obtain ⟨notMem, old⟩ := pendingSub p op mem
    rw [drains.entryCount p (con.threads ▸ hp), if_neg notMem]
    exact con.counted p hp (List.ne_nil_of_mem old)
  · rw [drains.next]
    exact con.fresh op (kept op mem)
  · rw [drains.next]
    exact con.takenFresh p sequence hp
  · rw [drains.nThreads] at hp
    refine (con.roomy p hp).congr (congrFun drains.hash p)
      (fun op mem => (pendingSub p op mem).2) ?_
    rw [drains.dir]
    split
    · exact Or.inr rfl
    · exact Or.inl rfl

theorem Traced.step (traced : m.Traced) (con : m.Consistent config keys) (steps : m.Steps a m') :
    m'.Traced ∧ ∀ i ∈ m.issued, i ∈ m'.issued := by
  obtain ⟨busy, pending⟩ := traced
  cases steps with
  | stay quiet => exact ⟨⟨busy, pending⟩, fun i mem => mem⟩
  | take quiet key p isDone lt idle =>
      refine ⟨⟨fun q i hq => ?_, fun op mem => List.mem_append_left _ (pending op mem)⟩,
        fun i mem => List.mem_append_left _ mem⟩
      by_cases hqp : q = p
      · subst hqp
        simp only [Function.update_self, Phase.operation, Option.some.injEq] at hq
        simp [hq]
      · simp only [Function.update_of_ne hqp] at hq
        exact List.mem_append_left _ (busy q i hq)
  | insert quiet key p isDone sequence ready =>
      have issued : ⟨key, p, isDone⟩ ∈ m.issued := busy p _ (by rw [ready]; rfl)
      refine ⟨⟨fun q i hq => ?_, fun op mem => ?_⟩, fun i mem => mem⟩
      · by_cases hqp : q = p
        · subst hqp
          simp only [Function.update_self, Phase.operation, Option.some.injEq] at hq
          exact hq ▸ issued
        · simp only [Function.update_of_ne hqp] at hq
          exact busy q i hq
      · have hp : p < m.impl.tree.nThreads := con.configured p (by simp [ready])
        rcases (Btree.mem_allPending_futureInsert hp).mp mem with old | rfl
        · exact pending op old
        · exact issued
  | account quiet key p isDone numa ready =>
      refine ⟨⟨fun q i hq => ?_, pending⟩, fun i mem => mem⟩
      by_cases hqp : q = p
      · subst hqp
        simp [Phase.operation] at hq
      · simp only [Function.update_of_ne hqp] at hq
        exact busy q i hq
  | drain s' cleared active drains clears covered =>
      exact ⟨⟨busy, fun op mem => pending op (drains.mem_allPending.mp mem).1⟩,
        fun i mem => mem⟩

/-- Every step keeps an interleaving consistent. -/
theorem Consistent.step (con : m.Consistent config keys) (traced : m.Traced) (steps : m.Steps a m')
    (within : ∀ i ∈ m.issued, i.key ∈ keys i.producerId) : m'.Consistent config keys := by
  cases steps with
  | stay quiet => exact con
  | take quiet key p isDone lt idle => exact con.take key isDone lt idle
  | insert quiet key p isDone sequence ready =>
      exact con.insert ready (within ⟨key, p, isDone⟩ (traced.busy p _ (by rw [ready]; rfl)))
  | account quiet key p isDone numa ready => exact con.account ready numa
  | drain s' cleared active drains clears covered => exact con.drain drains

end Step

/-! ## Keys that are only inserted -/

/-- The key is in the tree or buffered somewhere. -/
def Present (s : Impl τ) (key : Int) : Prop :=
  btreeSearch s.tree.tree key = true ∨ ∃ op ∈ s.tree.allPending, op.key = key

/-- What holds of a key that is only ever inserted: until it is in the tree, every
directory says what its chain says about it; and once one of its operations is
buffered, it is in the tree or still buffered. -/
structure Lasting (key : Int) (m : Machine τ) : Prop where
  known : btreeSearch m.impl.tree.tree key = true ∨
    ∀ p < m.impl.tree.nThreads, m.impl.tree.AgreesAt p key
  returned : ∀ i ∈ m.returned, i.key = key → Present m.impl key
  buffered : ∀ p isDone, m.phase p = .buffered key isDone → Present m.impl key

section Lasting

variable {m m' : Machine τ} {a : Action} {config : RuntimeConfig} {keys : Nat → Finset Int} {key : Int}

theorem Lasting.insert (lasting : m.Lasting key) (con : m.Consistent config keys)
    {key' : Int} {p : Nat} {isDone : Bool} {sequence : Nat}
    (ready : m.phase p = .sequenced key' isDone sequence) (hkey : key' ∈ keys p) :
    Lasting key
      { m with
        impl := m.impl.ptfoInsert key' p isDone sequence
        phase := Function.update m.phase p (.buffered key' isDone) } := by
  have hp : p < m.impl.tree.nThreads := con.configured p (by simp [ready])
  have newer := con.takenNewer p sequence (by rw [ready]; rfl)
  have roomy := con.roomy p hp
  have buffered : ∀ op, op ∈ (m.impl.ptfoInsert key' p isDone sequence).tree.allPending ↔
      op ∈ m.impl.tree.allPending ∨ op = ⟨key', isDone, sequence, p⟩ := fun op =>
    Btree.mem_allPending_futureInsert hp
  have present : Present m.impl key → Present (m.impl.ptfoInsert key' p isDone sequence) key := by
    refine Or.imp_right ?_
    rintro ⟨op, mem, hk⟩
    exact ⟨op, (buffered op).mpr (Or.inl mem), hk⟩
  refine ⟨lasting.known.imp_right fun agrees q hq => ?_,
    fun i mem hi => present (lasting.returned i mem hi), fun q isDone' hq => ?_⟩
  · by_cases same : q = p ∧ key = key'
    · obtain ⟨rfl, rfl⟩ := same
      exact .futureInsert_self roomy.dir.wf (roomy.dir.find_ne_none hkey) newer
    · exact (agrees q hq).futureInsert_of_ne roomy.dir.wf fun hqp hk => same ⟨hqp, hk⟩
  · by_cases hqp : q = p
    · subst hqp
      simp only [Function.update_self, Phase.buffered.injEq] at hq
      exact Or.inr ⟨_, (buffered _).mpr (Or.inr rfl), hq.1⟩
    · simp only [Function.update_of_ne hqp] at hq
      exact present (lasting.buffered q isDone' hq)

variable [LawfulTree τ]

/-- A drain that covers the newest insert on the key neither loses the key nor puts
its directories out of step. -/
theorem Lasting.drain (lasting : m.Lasting key) (con : m.Consistent config keys)
    (resolves : config.evaluatorPolicy.resolvesConflicts = true)
    (inserts : ∀ op ∈ m.impl.tree.allPending, op.key = key → op.isDelete = false)
    {s' : Impl τ} {ids cleared : List Nat} (active : m.impl.Active ids)
    (drains : m.impl.Drains s' ids cleared) (clears : ∀ p ∈ ids, p ∈ cleared)
    (covered : (∀ p ∈ cleared, p ∈ ids) ∨ CoveredBy m.impl ids) :
    Lasting key { m with impl := s' } := by
  have resolves' : m.impl.config.evaluatorPolicy.resolvesConflicts = true :=
    con.config_eq.symm ▸ resolves
  by_cases inTree : btreeSearch m.impl.tree.tree key = true
  · have stays := drains.btreeSearch_of_inserts resolves' active inserts inTree
    exact ⟨Or.inl stays, fun _ _ _ => Or.inl stays, fun _ _ _ => Or.inl stays⟩
  have agrees := lasting.known.resolve_left inTree
  have snap : m.impl.tree.Snapshot key := .of_agrees agrees con.distinct
  rcases top : newest m.impl.tree.allPending key with _ | op
  · -- Nothing is buffered on the key, so nothing is lost.
    have nothing : ∀ op ∈ m.impl.tree.allPending, op.key ≠ key := newest_eq_none_iff.mp top
    have absent : ¬ Present m.impl key := by
      rintro (h | ⟨op, mem, hk⟩)
      · exact inTree h
      · exact nothing op mem hk
    refine ⟨Or.inr fun p hp e => ?_, fun i mem hi => absurd (lasting.returned i mem hi) absent,
      fun p isDone hp => absurd (lasting.buffered p isDone hp) absent⟩
    have hp' : p < m.impl.tree.nThreads := drains.nThreads ▸ hp
    have none' : newest (m.impl.tree.pending p) key = none :=
      newest_eq_none_iff.mpr fun op mem => nothing op (mem_allPending_of_lt hp' mem)
    have before := agrees p hp' e
    rw [none'] at before
    have chain : newest (s'.tree.pending p) key = none := by
      rw [drains.pending]
      split
      · rfl
      · exact none'
    rw [chain, drains.dir]
    split
    · simp [LookupDirectory.collect_clear]
    · exact before
  · by_cases mem : op.producerId ∈ ids
    · have arrives : btreeSearch s'.tree.tree key = true := by
        rw [drains.btreeSearch_of_mem resolves' active con.distinct snap top mem,
          inserts op (mem_of_newest top) (key_of_newest top)]
        rfl
      exact ⟨Or.inl arrives, fun _ _ _ => Or.inl arrives, fun _ _ _ => Or.inl arrives⟩
    · -- The newest insert stays behind, and so do the directories of all who do.
      have partly : ∀ p ∈ cleared, p ∈ ids := by
        refine covered.resolve_right fun cover => mem (cover key op top ?_ ?_)
        · exact inserts op (mem_of_newest top) (key_of_newest top)
        · exact Bool.eq_false_iff.mpr inTree
      have present : Present s' key :=
        Or.inr ⟨op, drains.mem_allPending.mpr ⟨mem_of_newest top, mem⟩, key_of_newest top⟩
      refine ⟨Or.inr fun p hp e => ?_, fun _ _ _ => present, fun _ _ _ => present⟩
      have hp' : p < m.impl.tree.nThreads := drains.nThreads ▸ hp
      rw [drains.pending, drains.dir]
      by_cases hids : p ∈ ids
      · rw [if_pos hids, if_pos (clears p hids), LookupDirectory.collect_clear]
        simp
      · rw [if_neg hids, if_neg fun h => hids (partly p h)]
        exact agrees p hp' e

/-- Every step keeps what holds of a key that is only inserted. -/
theorem Lasting.step (lasting : m.Lasting key) (con : m.Consistent config keys)
    (traced : m.Traced) (resolves : config.evaluatorPolicy.resolvesConflicts = true)
    (within : ∀ i ∈ m.issued, i.key ∈ keys i.producerId)
    (never : ∀ i ∈ m.issued, i.key = key → i.isDone = false) (steps : m.Steps a m') :
    m'.Lasting key := by
  cases steps with
  | stay quiet => exact lasting
  | take quiet key' p isDone lt idle =>
      refine ⟨lasting.known, lasting.returned, fun q isDone' hq => ?_⟩
      by_cases hqp : q = p
      · subst hqp
        simp at hq
      · simp only [Function.update_of_ne hqp] at hq
        exact lasting.buffered q isDone' hq
  | insert quiet key' p isDone sequence ready =>
      exact lasting.insert con ready
        (within ⟨key', p, isDone⟩ (traced.busy p _ (by rw [ready]; rfl)))
  | account quiet key' p isDone numa ready =>
      refine ⟨lasting.known, fun i mem hi => ?_, fun q isDone' hq => ?_⟩
      · rcases List.mem_append.mp mem with mem | mem
        · exact lasting.returned i mem hi
        · rw [List.mem_singleton.mp mem] at hi
          exact lasting.buffered p isDone (hi ▸ ready)
      · by_cases hqp : q = p
        · subst hqp
          simp at hq
        · simp only [Function.update_of_ne hqp] at hq
          exact lasting.buffered q isDone' hq
  | drain s' cleared active drains clears covered =>
      exact lasting.drain con resolves (fun op mem hk => never _ (traced.pending op mem) hk)
        active drains clears covered

end Lasting

/-! ## Runs -/

theorem issued_step (m : Machine τ) (a : Action) : ∀ i ∈ m.issued, i ∈ (m.step a).issued := by
  intro i mem
  cases a with
  | takeSequence key p isDone =>
      rw [step]
      split
      · exact List.mem_append_left _ mem
      · exact mem
  | ptfoInsert p =>
      rw [step]
      split <;> exact mem
  | account p numa =>
      rw [step]
      split <;> exact mem
  | drainPending numa | drainForProducers ids numa | drainForNodes ids numa => exact mem

/-- What was issued up to a point was issued in the whole run. -/
theorem issued_of_prefix (m : Machine τ) {before actions : List Action}
    (point : before <+: actions) : ∀ i ∈ (m.run before).issued, i ∈ (m.run actions).issued := by
  obtain ⟨after, rfl⟩ := point
  induction after using List.reverseRecOn with
  | nil =>
      rw [List.append_nil]
      exact fun i mem => mem
  | append_singleton after a ih =>
      rw [← List.append_assoc, run_concat]
      exact fun i mem => issued_step _ a i (ih i mem)

/-- Runs of a fresh machine whose drains cover what is buffered. -/
def Covered (m : Machine τ) (actions : List Action) : Prop :=
  StepsMeet (fun before a => (m.run before).Covers a) actions

/-- Only a full drain can leave something uncovered. -/
theorem covered_of_forall_ne (m : Machine τ) {actions : List Action}
    (partly : ∀ a ∈ actions, ∀ numa, a ≠ .drainPending numa) : m.Covered actions := by
  intro before a point
  have mem : a ∈ actions := point.subset (by simp)
  cases a with
  | drainPending numa => exact absurd rfl (partly _ mem numa)
  | _ => trivial

/-- Producers with all that is buffered cover it. -/
theorem coveredBy_of_forall_mem {s : Impl τ} {ids : List Nat}
    (all : ∀ op ∈ s.tree.allPending, op.producerId ∈ ids) : CoveredBy s ids :=
  fun _ op newest _ _ => all op (mem_of_newest newest)

section Run

variable {config : RuntimeConfig} {keys : Nat → Finset Int}

omit [GlobalTree τ] in
theorem consistent_init (valid : validateRuntimeConfig config = .ok ())
    (room : ∀ p < config.producerThreads, (keys p).card ≤ config.dirCap) (tree : τ)
    (resume nodes : Nat) : (init config tree resume nodes).Consistent config keys := by
  have acc := Impl.accounted_init valid tree resume nodes
  have inf := Impl.informed_init valid room tree resume nodes
  refine ⟨rfl, Impl.nThreads_init valid .., acc.threads, fun p hp => absurd rfl hp, acc.total,
    fun p _ nonempty => absurd (Impl.pending_init ..) nonempty, acc.distinct, acc.fresh,
    ?_, ?_, ?_, ?_, inf.roomy⟩
  all_goals
    intro p
    simp [init, Phase.taken]

variable [LawfulTree τ]

/-- A covered run over keys that fit is consistent, and in it a key that is only
inserted stays. -/
theorem covered_run (valid : validateRuntimeConfig config = .ok ())
    (resolves : config.evaluatorPolicy.resolvesConflicts = true)
    (room : ∀ p < config.producerThreads, (keys p).card ≤ config.dirCap) (tree : τ)
    (resume nodes : Nat) {actions : List Action}
    (within : ∀ i ∈ ((init config tree resume nodes).run actions).issued,
      i.key ∈ keys i.producerId)
    (covered : (init config tree resume nodes).Covered actions) {key : Int}
    (never : ∀ i ∈ ((init config tree resume nodes).run actions).issued,
      i.key = key → i.isDone = false) :
    let m := (init config tree resume nodes).run actions
    m.Consistent config keys ∧ m.Traced ∧ m.Lasting key := by
  have empty := Impl.allPending_init config tree resume nodes
  refine points_of_steps (fun before =>
    ((init config tree resume nodes).run before).Consistent config keys ∧
      ((init config tree resume nodes).run before).Traced ∧
      ((init config tree resume nodes).run before).Lasting key)
    ⟨consistent_init valid room tree resume nodes, ⟨?_, ?_⟩, ?_, ?_, ?_⟩
    (fun before a point ⟨con, traced, lasting⟩ covers => ?_) covered
  · rintro p i ⟨⟩
  · intro op mem
    rw [show ((init config tree resume nodes).run []).impl.tree.allPending = [] from empty] at mem
    exact absurd mem List.not_mem_nil
  · exact Or.inr fun p hp =>
      (Impl.informed_init valid room tree resume nodes).agrees p hp key
  · rintro i ⟨⟩
  · rintro p isDone ⟨⟩
  · have sub := issued_of_prefix (init config tree resume nodes)
      ((List.prefix_append _ _).trans point)
    have within' := fun i mem => within i (sub i mem)
    have steps := step_steps con.threads a covers
    rw [run_concat]
    exact ⟨con.step traced steps within', (traced.step con steps).1,
      lasting.step con traced resolves within' (fun i mem => never i (sub i mem)) steps⟩

end Run

/-- With no thread inside a call, a full drain covers everything and empties the
chains. -/
theorem Consistent.drainPending_idle {m : Machine τ} {config : RuntimeConfig}
    {keys : Nat → Finset Int} (con : m.Consistent config keys)
    (idle : ∀ p < config.producerThreads, m.phase p = .idle) (numa : Int) :
    m.Covers (.drainPending numa) ∧ (m.impl.drainPending numa).tree.allPending = [] := by
  have accounted : ∀ p < m.impl.tree.nThreads, m.impl.tree.pending p ≠ [] →
      0 < (m.impl.ptfoThreads.get p).entryCount := by
    intro p hp nonempty
    refine (con.counted p hp nonempty).resolve_right ?_
    rintro ⟨key, isDone, hphase⟩
    rw [idle p (con.nThreads_eq ▸ hp)] at hphase
    cases hphase
  have picked : ∀ p < m.impl.tree.nThreads, m.impl.tree.pending p ≠ [] →
      p ∈ m.impl.pendingProducers := fun p hp nonempty =>
    List.mem_filter.mpr ⟨List.mem_range.mpr (con.threads ▸ hp), by
      simpa using accounted p hp nonempty⟩
  constructor
  · intro _ key op top _ _
    obtain ⟨hp, mem⟩ := Btree.mem_allPending.mp (mem_of_newest top)
    exact picked _ hp (List.ne_nil_of_mem mem)
  · rw [List.eq_nil_iff_forall_not_mem]
    intro op mem
    by_cases pending : m.impl.pendingOperationCount = 0
    · have same : m.impl.drainPending numa = m.impl := if_pos pending
      rw [same] at mem
      obtain ⟨hp, mem⟩ := Btree.mem_allPending.mp mem
      have total := con.total
      rw [pending, Impl.entryTotal] at total
      have zero := Finset.sum_eq_zero_iff.mp total.symm _
        (Finset.mem_range.mpr (con.threads ▸ hp))
      exact (accounted _ hp (List.ne_nil_of_mem mem)).ne' zero
    · have drains := Impl.drains_drainLocked con.threads pending numa
      obtain ⟨mem, notMem⟩ := drains.mem_allPending.mp mem
      obtain ⟨hp, mem⟩ := Btree.mem_allPending.mp mem
      exact notMem (picked _ hp (List.ne_nil_of_mem mem))

variable [LawfulTree τ]

/-- In a run whose full drains cover what is buffered, no insert is lost: once all
calls have returned and one more drain has run, every key that was inserted and
never erased is in the tree.  The policy is F3-N, and the tables hold the keys of every
producer. -/
theorem inserts_survive {config : RuntimeConfig} (valid : validateRuntimeConfig config = .ok ())
    (policy : config.evaluatorPolicy = .kF3N) (tree : τ) (resume nodes : Nat)
    (actions : List Action)
    (ample : ∀ p < config.producerThreads,
      (keysOf ((init config tree resume nodes).run actions).issued p).card ≤ config.dirCap)
    (covered : (init config tree resume nodes).Covered actions)
    (idle : ∀ p < config.producerThreads,
      ((init config tree resume nodes).run actions).phase p = .idle) :
    let m := (init config tree resume nodes).run actions
    ∀ key, (∃ i ∈ m.returned, i.key = key) → (∀ i ∈ m.issued, i.key = key → i.isDone = false) →
      ∀ numa, (m.impl.drainPending numa).globalContains key = true := by
  intro m key ⟨i, returned, hi⟩ never numa
  have resolves : config.evaluatorPolicy.resolvesConflicts = true := by
    rw [policy]
    rfl
  obtain ⟨con, traced, lasting⟩ := covered_run valid resolves ample tree resume nodes
    (fun i mem => mem_keysOf mem) covered never
  obtain ⟨covers, empty⟩ := con.drainPending_idle idle numa
  have last := lasting.step con traced resolves (fun i mem => mem_keysOf mem) never
    (step_steps con.threads (.drainPending numa) covers)
  rcases last.returned i returned hi with inTree | ⟨op, mem, -⟩
  · exact inTree
  · have mem' : op ∈ (m.impl.drainPending numa).tree.allPending := mem
    rw [empty] at mem'
    exact absurd mem' List.not_mem_nil

/-- Producer 1 has accounted for the key 3 and buffered the key 2, producer 0 has taken the
sequence number of the key 1; then a full drain, and the ends of both calls. -/
def aroundDrain : List Action :=
  [.takeSequence 3 1 false, .ptfoInsert 1, .account 1 0, .takeSequence 1 0 false,
    .takeSequence 2 1 false, .ptfoInsert 1] ++ [.drainPending 0] ++
  [.account 1 0, .ptfoInsert 0, .account 0 0]

def twoProducers : RuntimeConfig := { producerThreads := 2, hashCapacity := 4 }

theorem covered_aroundDrain : (init twoProducers (∅ : Finset Int) 1 1).Covered aroundDrain := by
  have first : (init twoProducers (∅ : Finset Int) 1 1).Covered
      [.takeSequence 3 1 false, .ptfoInsert 1, .account 1 0, .takeSequence 1 0 false,
        .takeSequence 2 1 false, .ptfoInsert 1] := covered_of_forall_ne _ (by simp)
  have covers : ((init twoProducers (∅ : Finset Int) 1 1).run
      [.takeSequence 3 1 false, .ptfoInsert 1, .account 1 0, .takeSequence 1 0 false,
        .takeSequence 2 1 false, .ptfoInsert 1]).Covers (.drainPending 0) :=
    fun _ => coveredBy_of_forall_mem (by decide)
  have rest : ∀ a ∈ [Action.account 1 0, .ptfoInsert 0, .account 0 0],
      ∀ before, ((init twoProducers (∅ : Finset Int) 1 1).run before).Covers a := by simp [Covers]
  exact ((stepsMeet_concat _ _).mpr ⟨first, covers⟩).append rest

/-- The drain takes the key 2 along, as its producer has accounted for an earlier one, and leaves
the key 1, which is buffered behind it. -/
theorem inserts_survive_overlap :
    let m := (init twoProducers (∅ : Finset Int) 1 1).run aroundDrain
    ∀ key ∈ ({1, 2, 3} : Finset Int), (m.impl.drainPending 0).globalContains key = true := by
  intro m key hkey
  have returned : ∃ i ∈ m.returned, i.key = key := by
    revert key
    decide
  have inserts : ∀ i ∈ m.issued, i.isDone = false := by decide
  exact inserts_survive rfl rfl (∅ : Finset Int) 1 1 _ (by decide) covered_aroundDrain (by decide)
    key returned (fun i mem _ => inserts i mem) 0

/-- A drain between a producer's insert and its accounting strands the insert. -/
theorem insert_stranded :
    ¬ ∀ (config : RuntimeConfig) (actions : List Action),
      validateRuntimeConfig config = .ok () → config.evaluatorPolicy = .kF3N →
      let m := (init config (∅ : Finset Int) 1 1).run actions
      (∀ p < config.producerThreads, (keysOf m.issued p).card ≤ config.dirCap) →
      (∀ p < config.producerThreads, m.phase p = .idle) →
      ∀ key, (∃ i ∈ m.returned, i.key = key) →
        (∀ i ∈ m.issued, i.key = key → i.isDone = false) →
        ∀ numa, (m.impl.drainPending numa).globalContains key = true := by
  intro survive
  have lost := survive { producerThreads := 2, hashCapacity := 4 }
    [.takeSequence 2 1 false, .ptfoInsert 1, .account 1 0, .takeSequence 1 0 false,
      .ptfoInsert 0, .drainPending 0, .account 0 0] rfl rfl (by decide) (by decide) 1
    ⟨⟨1, 0, false⟩, by decide, rfl⟩ (by decide) 0
  revert lost
  decide

end Machine

end F3Tree
