import F3Tree.Calls

/-!
# Calls between their two steps

A producer call puts its operation into the chain under the producer's own mutex and
accounts for it later, under `mu`.  Any number of calls, of one producer or of many, may
be between the two steps when a drain runs.

A drain that replays a producer takes the operations of such calls out of the chain; the
calls then account for them all the same.  From there on the producer's entry count
exceeds its chain by their number (`Balanced`), until the next drain replays it.
-/

namespace F3Tree

/-- A critical section. -/
inductive Section : Type
  | futureInsert (key : Int) (producerId : Nat) (isDone : Bool)
  | account (producerId : Nat) (numa : Int)
  | drainPending (numa : Int)
  | drainForProducers (producerIds : List Nat) (numa : Int)
  | drainForNodes (nodeIds : List Nat) (numa : Int)
deriving DecidableEq, Repr

/-- The wrapper with `between p` calls of producer `p` between their two steps.
`missed p` is the number of them that the last drain of `p` found. -/
structure CallMachine (τ : Type) : Type where
  impl : Impl τ
  between : Nat → Nat
  missed : Nat → Nat

namespace CallMachine

variable {τ : Type} [GlobalTree τ]

def init (config : RuntimeConfig) (tree : τ) (resume nodes : Nat) : CallMachine τ where
  impl := .init config tree resume nodes
  between := fun _ => 0
  missed := fun _ => 0

/-- The producers that a section drains. -/
def drained (s : Impl τ) : Section → List Nat
  | .drainPending _ => if s.pendingOperationCount = 0 then [] else s.pendingProducers
  | .drainForProducers producerIds _ => s.activeProducers producerIds
  | .drainForNodes nodeIds _ => s.collectProducersForNodes nodeIds
  | .futureInsert _ _ _ | .account _ _ => []

/-- The machine after a drain that leaves the wrapper in state `s'`. -/
def drainTo (m : CallMachine τ) (s' : Impl τ) (ids : List Nat) : CallMachine τ :=
  { m with
    impl := s'
    missed := fun p => if p ∈ ids then m.between p else m.missed p }

/-- One section.  A call by an unconfigured producer throws before its first step, and
no call accounts that has not buffered. -/
def step (m : CallMachine τ) (c : Section) : CallMachine τ :=
  match c with
  | .futureInsert key p isDone =>
      if p < m.impl.ptfoThreads.size then
        { m with
          impl := m.impl.takeSequence.2.ptfoInsert key p isDone m.impl.takeSequence.1
          between := Function.update m.between p (m.between p + 1) }
      else m
  | .account p numa =>
      if 0 < m.between p then
        { m with
          impl := m.impl.account p numa
          between := Function.update m.between p (m.between p - 1) }
      else m
  | .drainPending numa => m.drainTo (m.impl.drainPending numa) (drained m.impl c)
  | .drainForProducers producerIds numa =>
      m.drainTo (m.impl.drainLockedForProducers producerIds numa) (drained m.impl c)
  | .drainForNodes nodeIds numa =>
      m.drainTo (m.impl.drainLockedForNodes nodeIds numa) (drained m.impl c)

def run (m : CallMachine τ) (sections : List Section) : CallMachine τ := sections.foldl step m

/-- What a section is: one of the two steps of a call, a drain, or nothing. -/
inductive Steps (m : CallMachine τ) : CallMachine τ → Prop
  | stay : Steps m m
  | insert (key : Int) (p : Nat) (isDone : Bool) (lt : p < m.impl.ptfoThreads.size) :
      Steps m
        { m with
          impl := m.impl.takeSequence.2.ptfoInsert key p isDone m.impl.takeSequence.1
          between := Function.update m.between p (m.between p + 1) }
  | account (p : Nat) (numa : Int) (waiting : 0 < m.between p) :
      Steps m
        { m with
          impl := m.impl.account p numa
          between := Function.update m.between p (m.between p - 1) }
  | drain (s' : Impl τ) (ids cleared : List Nat) (drains : m.impl.Drains s' ids cleared) :
      Steps m (m.drainTo s' ids)

theorem step_steps {m : CallMachine τ} (threads : m.impl.ptfoThreads.size = m.impl.tree.nThreads)
    (c : Section) : m.Steps (m.step c) := by
  cases c with
  | futureInsert key p isDone =>
      rw [step]
      split
      · rename_i lt
        exact .insert key p isDone lt
      · exact .stay
  | account p numa =>
      rw [step]
      split
      · rename_i waiting
        exact .account p numa waiting
      · exact .stay
  | drainPending numa =>
      rw [step, drained]
      by_cases empty : m.impl.pendingOperationCount = 0
      · have same : m.impl.drainPending numa = m.impl := if_pos empty
        rw [if_pos empty, same]
        exact .drain _ _ [] ⟨rfl, rfl, rfl, rfl, rfl, by simp, by simp, by simp, fun h => h,
          0, (m.impl.tree_replay_nil 0).symm⟩
      · rw [if_neg empty]
        exact .drain _ _ _ (Impl.drains_drainLocked threads empty numa)
  | drainForProducers producerIds numa =>
      have active := Impl.active_activeProducers threads producerIds
      exact .drain _ _ _ (Impl.drains_drainSlice active 1 numa)
  | drainForNodes nodeIds numa =>
      have active := Impl.active_collectProducersForNodes threads nodeIds
      exact .drain _ _ _ (Impl.drains_drainSlice active _ numa)

/-- The entry counts against the chains, while calls are between their steps. -/
structure Balanced (m : CallMachine τ) : Prop where
  threads : m.impl.ptfoThreads.size = m.impl.tree.nThreads
  configured : ∀ p, 0 < m.between p → p < m.impl.ptfoThreads.size
  balance : ∀ p < m.impl.ptfoThreads.size,
    (m.impl.ptfoThreads.get p).entryCount + m.between p =
      (m.impl.tree.pending p).length + m.missed p

section Step

variable {m m' : CallMachine τ} {p : Nat}

omit [GlobalTree τ] in
/-- The first step of a call lengthens the chain. -/
theorem Balanced.insert (balanced : m.Balanced) (key : Int) (isDone : Bool)
    (lt : p < m.impl.ptfoThreads.size) :
    Balanced
      { m with
        impl := m.impl.takeSequence.2.ptfoInsert key p isDone m.impl.takeSequence.1
        between := Function.update m.between p (m.between p + 1) } := by
  have chain : (m.impl.takeSequence.2.ptfoInsert key p isDone
      m.impl.takeSequence.1).tree.pending = Function.update m.impl.tree.pending p
        (m.impl.tree.pending p ++ [⟨key, isDone, m.impl.takeSequence.1, p⟩]) :=
    Btree.pending_futureInsert ..
  refine ⟨balanced.threads, fun q waiting => ?_, fun q hq => ?_⟩
  · by_cases hqp : q = p
    · exact hqp ▸ lt
    · dsimp only at waiting
      rw [Function.update_of_ne hqp] at waiting
      exact balanced.configured q waiting
  · have before := balanced.balance q hq
    have same : (m.impl.takeSequence.2.ptfoInsert key p isDone
      m.impl.takeSequence.1).ptfoThreads = m.impl.ptfoThreads := rfl
    dsimp only
    rw [chain, same]
    by_cases hqp : q = p
    · subst hqp
      rw [Function.update_self, Function.update_self, List.length_append, List.length_singleton]
      omega
    · rw [Function.update_of_ne hqp, Function.update_of_ne hqp]
      exact before

omit [GlobalTree τ] in
/-- The second step of a call moves it from `between` to the entry count. -/
theorem Balanced.account (balanced : m.Balanced) (numa : Int) (waiting : 0 < m.between p) :
    Balanced
      { m with
        impl := m.impl.account p numa
        between := Function.update m.between p (m.between p - 1) } := by
  refine ⟨balanced.threads, fun q waiting' => ?_, fun q hq => ?_⟩
  · by_cases hqp : q = p
    · exact hqp ▸ balanced.configured p waiting
    · dsimp only at waiting'
      rw [Function.update_of_ne hqp] at waiting'
      exact balanced.configured q waiting'
  · have before := balanced.balance q hq
    have counts : (m.impl.account p numa).ptfoThreads.get =
      Function.update m.impl.ptfoThreads.get p (m.impl.ptfoThreads.get p).bump := rfl
    have chain : (m.impl.account p numa).tree = m.impl.tree := rfl
    dsimp only
    rw [counts, chain]
    by_cases hqp : q = p
    · subst hqp
      have bumped : (m.impl.ptfoThreads.get q).bump.entryCount =
        (m.impl.ptfoThreads.get q).entryCount + 1 := rfl
      rw [Function.update_self, Function.update_self, bumped]
      omega
    · rw [Function.update_of_ne hqp, Function.update_of_ne hqp]
      exact before

/-- A drain misses the calls it finds between their steps. -/
theorem Balanced.drain (balanced : m.Balanced) {s' : Impl τ} {ids cleared : List Nat}
    (drains : m.impl.Drains s' ids cleared) : (m.drainTo s' ids).Balanced := by
  refine ⟨drains.size.trans (balanced.threads.trans drains.nThreads.symm), fun q waiting => ?_,
    fun q hq => ?_⟩
  · exact drains.size.symm ▸ balanced.configured q waiting
  · have hq' : q < m.impl.ptfoThreads.size := drains.size ▸ hq
    have before := balanced.balance q hq'
    have counts := drains.entryCount q hq'
    have chain := drains.pending q
    have target : (s'.ptfoThreads.get q).entryCount + m.between q =
        (s'.tree.pending q).length + if q ∈ ids then m.between q else m.missed q := by
      rw [counts, chain]
      split
      · rfl
      · exact before
    exact target

/-- Every section keeps the balance. -/
theorem Balanced.step (balanced : m.Balanced) (steps : m.Steps m') : m'.Balanced := by
  cases steps with
  | stay => exact balanced
  | insert key p isDone lt => exact balanced.insert key isDone lt
  | account p numa waiting => exact balanced.account numa waiting
  | drain s' ids cleared drains => exact balanced.drain drains

end Step

theorem size_step {m m' : CallMachine τ} (steps : m.Steps m') :
    m'.impl.ptfoThreads.size = m.impl.ptfoThreads.size := by
  cases steps with
  | stay => rfl
  | insert key p isDone lt => rfl
  | account p numa waiting => rfl
  | drain s' ids cleared drains => exact drains.size

theorem balanced_run {config : RuntimeConfig} (valid : validateRuntimeConfig config = .ok ())
    (tree : τ) (resume nodes : Nat) (sections : List Section) :
    let m := (init config tree resume nodes).run sections
    m.Balanced ∧ m.impl.ptfoThreads.size = config.producerThreads := by
  induction sections using List.reverseRecOn with
  | nil =>
      refine ⟨⟨(Impl.accounted_init valid tree resume nodes).threads, fun p waiting => ?_,
        fun p hp => ?_⟩, rfl⟩
      · exact absurd waiting (Nat.lt_irrefl 0)
      · have empty := Impl.pending_init config tree resume nodes p
        exact congrArg (fun chain => chain.length + 0) empty.symm
  | append_singleton sections c ih =>
      obtain ⟨balanced, size⟩ := ih
      have steps := step_steps balanced.threads c
      rw [run, List.foldl_concat, ← run]
      exact ⟨balanced.step steps, (size_step steps).trans size⟩

/-- No drain of the run that replays producer `p` finds one of its calls between its steps. -/
def FindsNone (m : CallMachine τ) (sections : List Section) (p : Nat) : Prop :=
  ∀ before c, before ++ [c] <+: sections → p ∈ drained (m.run before).impl c →
    (m.run before).between p = 0

/-- Drains that find no call between its steps miss nothing. -/
theorem missed_eq_zero (m : CallMachine τ) (sections : List Section) (p : Nat)
    (start : m.missed p = 0) (clear : m.FindsNone sections p) :
    (m.run sections).missed p = 0 := by
  induction sections using List.reverseRecOn with
  | nil => exact start
  | append_singleton sections c ih =>
      have before := ih fun before c point =>
        clear before c (point.trans (List.prefix_append _ _))
      have last := clear sections c (List.prefix_refl _)
      have drop : ∀ s', ((m.run sections).drainTo s' (drained (m.run sections).impl c)).missed p =
          0 := by
        intro s'
        rw [drainTo]
        dsimp only
        split
        · rename_i mem
          exact last mem
        · exact before
      rw [run, List.foldl_concat, ← run]
      cases c with
      | futureInsert key q isDone =>
          rw [step]
          split
          · exact before
          · exact before
      | account q numa =>
          rw [step]
          split
          · exact before
          · exact before
      | drainPending numa => exact drop _
      | drainForProducers ids numa => exact drop _
      | drainForNodes ids numa => exact drop _

/-- With no call between its steps, a producer's entry count is the length of its chain
exactly if the last drain that replayed it found none either: in every such state of a run
none of whose drains of the producer finds one. -/
theorem entryCount_run_iff {config : RuntimeConfig} (valid : validateRuntimeConfig config = .ok ())
    (tree : τ) (resume nodes : Nat) (sections : List Section) :
    let m := (init config tree resume nodes).run sections
    (∀ p < config.producerThreads, m.between p = 0) → ∀ p < config.producerThreads,
      ((m.impl.ptfoThreads.get p).entryCount = (m.impl.tree.localFut p).log.length ↔
        m.missed p = 0) ∧
      ((init config tree resume nodes).FindsNone sections p →
        (m.impl.ptfoThreads.get p).entryCount = (m.impl.tree.localFut p).log.length) := by
  intro m quiet p hp
  obtain ⟨balanced, size⟩ := balanced_run valid tree resume nodes sections
  have balance : (m.impl.ptfoThreads.get p).entryCount + m.between p =
      (m.impl.tree.pending p).length + m.missed p :=
    balanced.balance p (size.symm ▸ hp)
  have chain : (m.impl.tree.pending p).length = (m.impl.tree.localFut p).log.length :=
    List.length_map ..
  rw [quiet p hp, chain] at balance
  have exactly_none : (m.impl.ptfoThreads.get p).entryCount =
      (m.impl.tree.localFut p).log.length ↔ m.missed p = 0 := by
    constructor
    · intro same
      omega
    · intro none
      omega
  refine ⟨exactly_none, fun clear => exactly_none.mpr ?_⟩
  exact missed_eq_zero _ sections p rfl clear

/-- Two calls of one producer and one of another, with a drain while the second call of the
first is between its steps, and a drain after it. -/
theorem entryCount_run_repaired :
    let config : RuntimeConfig := { producerThreads := 2, hashCapacity := 4 }
    let sections : List Section :=
      [.futureInsert 1 0 false, .account 0 0, .futureInsert 2 0 false, .futureInsert 3 1 false,
        .drainPending 0, .account 1 0, .account 0 0, .drainPending 0, .futureInsert 4 0 true,
        .account 0 0]
    (((init config (∅ : Finset Int) 1 1).run sections).impl.ptfoThreads.get 0).entryCount =
      (((init config (∅ : Finset Int) 1 1).run sections).impl.tree.localFut 0).log.length := by
  intro config sections
  have valid : validateRuntimeConfig config = .ok () := rfl
  have whole := entryCount_run_iff valid (∅ : Finset Int) 1 1 sections (by decide) 0 (by decide)
  exact whole.1.mpr (by decide)

/-- A drain that runs between the two steps of a call leaves its operation counted and not
stored. -/
theorem entryCount_off :
    ¬ ∀ (config : RuntimeConfig) (sections : List Section),
      validateRuntimeConfig config = .ok () →
      let m := (init config (∅ : Finset Int) 1 1).run sections
      (∀ p < config.producerThreads, m.between p = 0) → ∀ p < config.producerThreads,
        (m.impl.ptfoThreads.get p).entryCount = (m.impl.tree.localFut p).log.length := by
  intro holds
  have counted := holds { producerThreads := 1, hashCapacity := 4 }
    [.futureInsert 1 0 false, .account 0 0, .futureInsert 2 0 false, .drainPending 0,
      .account 0 0] rfl (by decide) 0 (by decide)
  revert counted
  decide

end CallMachine

end F3Tree
