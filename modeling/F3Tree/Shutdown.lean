import F3Tree.Wakeups

/-!
# The end of the workers

The destructor takes `mu`, drains what is pending, sets `stop_requested`, wakes all workers and
joins them.  It gets `mu`: a worker that has it drains at most once before it sleeps
(`mu_returns`).  The joins come back: once all have been woken no worker sleeps again, and each
is at its end after two steps of its own (`workers_join`).  And when the calls of the producers
have returned, nothing that was inserted is missing in the tree that is left
(`shutdown_keeps_inserts`).
-/

namespace F3Tree

open LastWriter

namespace Impl

variable {τ : Type} [GlobalTree τ]

theorem entries_drainSlice (s : Impl τ) (ids : List Nat) (slots : Nat) (numa : Int) {p : Nat}
    (hp : p < s.ptfoThreads.size) :
    (s.drainSlice ids slots numa).entries p = if p ∈ ids then 0 else s.entries p := by
  rw [drainSlice_eq]
  split
  · rename_i empty
    rw [empty, if_neg List.not_mem_nil]
  · exact (subtracted_locked ids (s.replayed ids slots numa)).entryCount p hp

end Impl

/-- The most steps that a worker has left to its end, when it does not sleep again. -/
def WorkerPhase.left : WorkerPhase → Nat
  | .exited => 0
  | .looping => 1
  | .entering | .awake _ _ => 2
  | .asleep _ => 3

namespace EvaluatorMachine

variable {τ : Type} [GlobalTree τ] {m m' : EvaluatorMachine τ} {e : Move} {i : Nat}

/-! ## `mu` comes back -/

theorem entries_drainOwned_nodes {p : Nat} (nodes : (!(m.shared.ownedNodes i).isEmpty) = true)
    (hp : p < m.shared.impl.ptfoThreads.size)
    (home : (m.shared.impl.ptfoThreads.get p).homeNode ∈ m.shared.ownedNodes i) (numa : Int) :
    (m.drainOwned i numa).shared.impl.entries p = 0 := by
  rw [drainOwned, if_pos nodes]
  refine (m.shared.impl.entries_drainSlice _ _ numa hp).trans ?_
  split
  · rfl
  · rename_i notMem
    by_contra some
    refine notMem (List.mem_filter.mpr ⟨List.mem_range.mpr hp, ?_⟩)
    exact decide_eq_true ⟨some, home⟩

theorem entries_drainOwned_producers {p : Nat}
    (nodes : ¬ (!(m.shared.ownedNodes i).isEmpty) = true)
    (hp : p < m.shared.impl.ptfoThreads.size) (mine : p ∈ m.shared.ownedProducers i) (numa : Int) :
    (m.drainOwned i numa).shared.impl.entries p = 0 := by
  rw [drainOwned, if_neg nodes]
  refine (m.shared.impl.entries_drainSlice _ _ numa hp).trans ?_
  split
  · rfl
  · rename_i notMem
    by_contra some
    refine notMem (List.mem_filter.mpr ⟨mine, ?_⟩)
    exact decide_eq_true ⟨hp, Nat.pos_of_ne_zero some⟩

/-- A worker's drain leaves it nothing to drain. -/
theorem due_drainOwned (booked : m.calls.Booked) (i : Nat) (numa : Int) :
    Code.due (m.shared.ownedNodes i) (m.shared.ownedProducers i)
      (m.drainOwned i numa).shared.impl = false := by
  have booked' : (m.drainOwned i numa).calls.Booked := by
    obtain ⟨a, same, slice, -⟩ := m.drainOwned_eq i numa
    rw [same]
    exact booked.step slice
  have counted := booked'.tallied.toCounted
  have shape : m.shared.impl.SameShape (m.drainOwned i numa).shared.impl := m.sameShape_act _
  rw [← Bool.not_eq_true, Code.due_iff]
  suffices none : Code.ownedPending (m.shared.ownedNodes i) (m.shared.ownedProducers i)
      (m.drainOwned i numa).shared.impl = 0 from fun h => h.1 none
  unfold Code.ownedPending
  split
  · rename_i nodes
    refine List.sum_eq_zero fun count mem => ?_
    obtain ⟨node, hnode, rfl⟩ := List.mem_map.mp mem
    obtain ⟨mine, hnode⟩ := List.mem_filter.mp hnode
    refine (counted.byNode node (of_decide_eq_true hnode)).trans ?_
    refine Finset.sum_eq_zero fun p hp => ?_
    split
    · rename_i home
      refine entries_drainOwned_nodes nodes ?_ ?_ numa
      · exact shape.size ▸ Finset.mem_range.mp hp
      · exact shape.home p ▸ home ▸ mine
    · rfl
  · rename_i nodes
    refine List.sum_eq_zero fun count mem => ?_
    obtain ⟨p, hp, rfl⟩ := List.mem_map.mp mem
    obtain ⟨mine, hp⟩ := List.mem_filter.mp hp
    refine entries_drainOwned_producers nodes ?_ mine numa
    exact shape.size ▸ of_decide_eq_true hp

/-- While a worker has `mu`, nobody accounts for anything. -/
theorem Step.quieter (step : m.Step e m') (hi : i < m.shared.workerCount)
    (looping : m.worker i = .looping) : m.shared.impl.Quieter m'.shared.impl := by
  have owned : ∀ j numa, m.shared.impl.Quieter (m.drainOwned j numa).shared.impl := by
    intro j numa
    obtain ⟨a, same, -, -, other⟩ := m.drainOwned_eq j numa
    rw [same]
    exact m.calls.quieter_step other
  cases step with
  | takeSequence key p isDone => exact m.calls.quieter_step (by simp)
  | ptfoInsert p => exact m.calls.quieter_step (by simp)
  | account p numa free => exact absurd looping (free i hi)
  | accountWakes p numa j free => exact absurd looping (free i hi)
  | drainPending numa => exact m.calls.quieter_step (by simp)
  | destroy numa => exact m.calls.quieter_step (a := .drainPending numa) (by simp)
  | @resume wait timeout j numa =>
      rcases m.resume_cases j wait timeout numa with
        ⟨-, -, same⟩ | ⟨-, ⟨-, -, same⟩ | ⟨-, -, same⟩ | ⟨-, same⟩⟩
      · rw [same]
        exact .refl _
      · rw [same]
        exact .refl _
      · rw [same]
        exact owned j numa
      · rw [same]
        exact .refl _
  | turn j numa =>
      unfold EvaluatorMachine.turn
      split
      · exact .refl _
      · exact owned j numa
      · exact .refl _
  | _ => exact .refl _

/-- A turn of worker `i`. -/
def Move.turns (i : Nat) : Move → Bool
  | .turn j _ => j == i
  | _ => false

theorem Move.turns_iff : e.turns i = true ↔ ∃ numa, e = .turn i numa := by
  cases e with
  | turn j numa => simp [turns]
  | _ => simp [turns]

omit [GlobalTree τ] in
theorem Sound.owned {m₀ : EvaluatorMachine τ} (sound : Sound m₀ m) (i : Nat) :
    m.shared.ownedNodes i = m₀.shared.ownedNodes i ∧
      m.shared.ownedProducers i = m₀.shared.ownedProducers i := by
  unfold Shared.ownedNodes Shared.ownedProducers
  rw [sound.workerCount, sound.shape.size]
  unfold Shared.binds
  rw [sound.policy, sound.nodes]
  exact ⟨rfl, rfl⟩

omit [GlobalTree τ] in
theorem Sound.of_booked (booked : m.calls.Booked) : Sound m m := ⟨.refl _, rfl, rfl, booked⟩

/-- Worker `i` has nothing to drain. -/
def NothingDue (m : EvaluatorMachine τ) (i : Nat) : Prop :=
  Code.due (m.shared.ownedNodes i) (m.shared.ownedProducers i) m.shared.impl = false

theorem Step.idle (booked : m.calls.Booked) (step : m.Step e m') (hi : i < m.shared.workerCount)
    (looping : m.worker i = .looping) (idle : m.NothingDue i) : m'.NothingDue i := by
  have sound := step.sound (.of_booked booked)
  obtain ⟨nodes, producers⟩ := sound.owned i
  unfold NothingDue at idle ⊢
  rw [nodes, producers, ← Bool.not_eq_true]
  intro due
  have before := Code.due_of_quieter (step.quieter hi looping) booked.tallied.toCounted
    sound.booked.tallied.toCounted due
  rw [idle] at before
  cases before

/-- A worker's drain, as a part of its step, leaves it nothing to drain. -/
theorem Sound.nothingDue (sound : Sound m m') (booked : m.calls.Booked) {numa : Int}
    (drained : m'.shared.impl = (m.drainOwned i numa).shared.impl) : m'.NothingDue i := by
  obtain ⟨nodes, producers⟩ := sound.owned i
  unfold NothingDue
  rw [nodes, producers, drained]
  exact m.due_drainOwned booked i numa

/-- A worker keeps `mu` over a turn only for a drain. -/
theorem turn_cases (m : EvaluatorMachine τ) (i : Nat) (numa : Int) :
    (m.turn i numa).worker i ≠ .looping ∨ m.turn i numa = m.drainOwned i numa ∧
      Code.due (m.shared.ownedNodes i) (m.shared.ownedProducers i) m.shared.impl = true := by
  unfold EvaluatorMachine.turn
  split
  · left
    have here : (m.put i .exited).worker i = .exited := Function.update_self ..
    rw [here]
    simp
  · rename_i drain
    refine Or.inr ⟨rfl, ?_⟩
    unfold Code.turn at drain
    by_contra idle
    rw [if_neg idle] at drain
    split at drain
    · cases drain
    split at drain
    · cases drain
    split at drain
    · cases drain
    · cases drain
  · rename_i wait sleep
    left
    have here : (m.put i (.asleep wait)).worker i = .asleep wait := Function.update_self ..
    rw [here]
    simp

/-- Worker `i` has `mu` all along. -/
def KeepsMu (m : EvaluatorMachine τ) (i : Nat) (more : List Move) : Prop :=
  ∀ before m₁, before <+: more → m.run before = some m₁ → m₁.worker i = .looping

theorem KeepsMu.looping {more : List Move} (keeps : m.KeepsMu i more) : m.worker i = .looping :=
  keeps [] m List.nil_prefix rfl

theorem KeepsMu.tail {more : List Move} (keeps : m.KeepsMu i (e :: more))
    (first : m.move e = some m') : m'.KeepsMu i more := by
  intro before m₁ point run
  refine keeps (e :: before) m₁ ((List.prefix_cons_inj e).mpr point) ?_
  exact Option.bind_eq_some_iff.mpr ⟨m', first, run⟩

theorem keepsMu_nil (looping : m.worker i = .looping) : m.KeepsMu i [] := by
  intro before m₁ point run
  obtain rfl := List.prefix_nil.mp point
  exact Option.some.inj run ▸ looping

theorem KeepsMu.cons {more : List Move} (first : m.move e = some m')
    (looping : m.worker i = .looping) (keeps : m'.KeepsMu i more) : m.KeepsMu i (e :: more) := by
  intro before m₁ point run
  rcases List.prefix_cons_iff.mp point with rfl | ⟨rest, rfl, inside⟩
  · exact Option.some.inj run ▸ looping
  · obtain ⟨m₂, first', run⟩ := Option.bind_eq_some_iff.mp run
    obtain rfl := Option.some.inj (first.symm.trans first')
    exact keeps rest m₁ inside run

/-- A worker with nothing to drain does not keep `mu` over a turn. -/
theorem KeepsMu.no_turn {more : List Move} (keeps : m.KeepsMu i more)
    (booked : m.calls.Booked) (hi : i < m.shared.workerCount) (run : m.run more = some m')
    (idle : m.NothingDue i) : more.countP (Move.turns i) = 0 ∧ m'.NothingDue i := by
  induction more generalizing m with
  | nil => exact ⟨rfl, Option.some.inj run ▸ idle⟩
  | cons e more ih =>
      obtain ⟨m₁, first, rest⟩ := Option.bind_eq_some_iff.mp run
      have step := move_step first
      have sound := step.sound (.of_booked booked)
      have on := keeps.tail first
      have other : ¬ e.turns i = true := by
        rw [Move.turns_iff]
        rintro ⟨numa, rfl⟩
        cases step with
        | turn _ _ _ _ =>
            rcases m.turn_cases i numa with left | ⟨-, due⟩
            · exact left on.looping
            · unfold NothingDue at idle
              rw [idle] at due
              cases due
      rw [List.countP_cons_of_neg other]
      exact ih on sound.booked (sound.workerCount ▸ hi) rest
        (step.idle booked hi keeps.looping idle)

/-- A worker that keeps `mu` goes through its loop once at most, and for a drain. -/
theorem KeepsMu.one_turn {more : List Move} (keeps : m.KeepsMu i more)
    (booked : m.calls.Booked) (hi : i < m.shared.workerCount) (run : m.run more = some m') :
    more.countP (Move.turns i) = 0 ∨
      more.countP (Move.turns i) = 1 ∧ m'.NothingDue i := by
  induction more generalizing m with
  | nil => exact Or.inl rfl
  | cons e more ih =>
      obtain ⟨m₁, first, rest⟩ := Option.bind_eq_some_iff.mp run
      have step := move_step first
      have sound := step.sound (.of_booked booked)
      have on := keeps.tail first
      have hi₁ : i < m₁.shared.workerCount := sound.workerCount ▸ hi
      by_cases mine : e.turns i = true
      · right
        rw [List.countP_cons_of_pos mine]
        obtain ⟨numa, rfl⟩ := Move.turns_iff.mp mine
        cases step with
        | turn _ _ _ _ =>
            rcases m.turn_cases i numa with left | ⟨drained, -⟩
            · exact absurd on.looping left
            · have idle := sound.nothingDue booked (congrArg (·.shared.impl) drained)
              obtain ⟨none, still⟩ := on.no_turn sound.booked hi₁ rest idle
              rw [none]
              exact ⟨rfl, still⟩
      · rw [List.countP_cons_of_neg mine]
        exact ih on sound.booked hi₁ rest

theorem sound_of_run {config : RuntimeConfig} {policy : PlacementPolicy} {tree : τ}
    {resume nodes : Nat} {moves : List Move}
    (reach : (init config policy tree resume nodes).run moves = some m) :
    Sound (init config policy tree resume nodes) m :=
  run_keeps (fun sound step => step.sound sound) (sound_init config policy tree resume nodes)
    reach

/-- Worker `i` is just back from its wait for `checkpoint_interval_us`. -/
def Resumed (m₀ m : EvaluatorMachine τ) (i : Nat) : Prop :=
  ∃ moves m₁ timeout numa, m₀.run moves = some m₁ ∧ m₁.worker i = .awake .timed timeout ∧
    m₁.move (.resume i numa) = some m

/-- A worker that goes on after that wait has drained what it owns. -/
theorem Step.nothingDue_of_timed {timeout : Bool} {numa : Int} (step : m.Step (.resume i numa) m')
    (booked : m.calls.Booked) (timed : m.worker i = .awake .timed timeout)
    (looping : m'.worker i = .looping) : m'.NothingDue i := by
  have sound := step.sound (.of_booked booked)
  cases step with
  | @resume wait timeout' _ _ _ _ awake =>
      obtain ⟨rfl, rfl⟩ := WorkerPhase.awake.inj (timed.symm.trans awake)
      rcases m.resume_cases i .timed timeout numa with
        ⟨-, -, same⟩ | ⟨-, ⟨-, -, same⟩ | ⟨-, -, same⟩ | ⟨other, -⟩⟩
      · rw [same] at looping
        have here : (m.put i (.asleep .timed)).worker i = .asleep .timed :=
          Function.update_self ..
        cases here.symm.trans looping
      · rw [same] at looping
        have here : (m.put i .exited).worker i = .exited := Function.update_self ..
        cases here.symm.trans looping
      · exact sound.nothingDue booked (congrArg (·.shared.impl) same)
      · exact absurd rfl other

/-- A worker that has `mu` in a state that a run can reach gives it back at its second turn at the
latest, whatever the others do meanwhile. What it has drained, at that turn or when its timed wait
was over, is not due for it again while it has `mu`. -/
theorem mu_returns {config : RuntimeConfig} {policy : PlacementPolicy} {tree : τ}
    {resume nodes : Nat} {moves more : List Move}
    (reach : (init config policy tree resume nodes).run moves = some m)
    (hi : i < m.shared.workerCount) (run : m.run more = some m') (keeps : m.KeepsMu i more) :
    more.countP (Move.turns i) ≤ 1 ∧
      (more.countP (Move.turns i) = 1 → m'.NothingDue i) ∧
      ((init config policy tree resume nodes).Resumed m i →
        more.countP (Move.turns i) = 0 ∧ m'.NothingDue i) := by
  have booked := (sound_of_run reach).booked
  have turns := keeps.one_turn booked hi run
  refine ⟨?_, ?_, ?_⟩
  · rcases turns with none | ⟨one, -⟩
    · exact none ▸ Nat.zero_le 1
    · exact one.le
  · intro one
    rcases turns with none | ⟨-, idle⟩
    · cases none.symm.trans one
    · exact idle
  · rintro ⟨earlier, m₁, timeout, numa, reach₁, timed, back⟩
    have idle := (move_step back).nothingDue_of_timed (sound_of_run reach₁).booked timed
      keeps.looping
    exact keeps.no_turn booked hi run idle

/-- A worker that drains at its turn, while a producer goes on, and one that has come back from
its timed wait. -/
theorem mu_returns_one :
    ∃ m m' m₁ : EvaluatorMachine (Finset Int),
      (init { checkpointThresholdOps := 1 } .kDefault ∅ 1 0).run
        [.takeSequence 5 0 false, .ptfoInsert 0, .account 0 0 none, .enter 0] = some m ∧
      m.run [.turn 0 0, .takeSequence 6 0 false, .ptfoInsert 0] = some m' ∧
      m'.worker 0 = .looping ∧ m'.NothingDue 0 ∧
      (init { checkpointThresholdOps := 2, checkpointIntervalUs := 1 } .kDefault ∅ 1 0).run
        [.takeSequence 5 0 false, .ptfoInsert 0, .account 0 0 none, .enter 0, .turn 0 0,
          .timeout 0, .resume 0 0] = some m₁ ∧ m₁.worker 0 = .looping ∧ m₁.NothingDue 0 := by
  obtain ⟨m, m', reach, hi, keeps, run, still⟩ : ∃ m m' : EvaluatorMachine (Finset Int),
      (init { checkpointThresholdOps := 1 } .kDefault ∅ 1 0).run
        [.takeSequence 5 0 false, .ptfoInsert 0, .account 0 0 none, .enter 0] = some m ∧
      0 < m.shared.workerCount ∧
      m.KeepsMu 0 [.turn 0 0, .takeSequence 6 0 false, .ptfoInsert 0] ∧
      m.run [.turn 0 0, .takeSequence 6 0 false, .ptfoInsert 0] = some m' ∧
      m'.worker 0 = .looping :=
    ⟨_, _, rfl, by decide, .cons rfl rfl (.cons rfl rfl (.cons rfl rfl (keepsMu_nil rfl))), rfl,
      rfl⟩
  obtain ⟨m₁, reach₁, resumed, looping⟩ : ∃ m₁ : EvaluatorMachine (Finset Int),
      (init { checkpointThresholdOps := 2, checkpointIntervalUs := 1 } .kDefault ∅ 1 0).run
        [.takeSequence 5 0 false, .ptfoInsert 0, .account 0 0 none, .enter 0, .turn 0 0,
          .timeout 0, .resume 0 0] = some m₁ ∧
      (init { checkpointThresholdOps := 2, checkpointIntervalUs := 1 } .kDefault ∅ 1 0).Resumed
        m₁ 0 ∧ m₁.worker 0 = .looping :=
    ⟨_, rfl, ⟨[.takeSequence 5 0 false, .ptfoInsert 0, .account 0 0 none, .enter 0,
      .turn 0 0, .timeout 0], _, true, 0, rfl, rfl, rfl⟩, rfl⟩
  have turned := mu_returns reach hi run keeps
  have hi₁ : 0 < m₁.shared.workerCount := (sound_of_run reach₁).workerCount ▸ by decide
  have run₁ : m₁.run [] = some m₁ := rfl
  have back := mu_returns reach₁ hi₁ run₁ (keepsMu_nil looping)
  exact ⟨m, m', m₁, reach, run, still, turned.2.1 rfl, reach₁, looping, (back.2.2 resumed).2⟩

/-! ## The workers come to their ends -/

/-- A step of worker `i`: it takes `mu`, or has it. -/
def Move.steps (i : Nat) : Move → Bool
  | .enter j | .resume j _ | .turn j _ => j == i
  | _ => false

/-- The workers have been told to stop, and none sleeps. -/
structure Stopping (m : EvaluatorMachine τ) : Prop where
  stopped : m.shared.stopRequested = true
  awake : ∀ i, (m.worker i).sleeps = false

omit [GlobalTree τ] in
theorem Stopping.put (stopping : m.Stopping) (i : Nat) {phase : WorkerPhase}
    (awake : phase.sleeps = false) : (m.put i phase).Stopping := by
  refine ⟨stopping.stopped, fun j => ?_⟩
  by_cases hji : j = i
  · have here : (m.put i phase).worker i = phase := Function.update_self ..
    rw [hji, here]
    exact awake
  · have there : (m.put i phase).worker j = m.worker j := Function.update_of_ne hji ..
    rw [there]
    exact stopping.awake j

theorem sleeps_woken (phase : WorkerPhase) : phase.woken.sleeps = false := by
  cases phase <;> rfl

theorem left_woken (phase : WorkerPhase) : phase.woken.left ≤ phase.left := by
  cases phase with
  | asleep wait => exact Nat.le_succ 2
  | _ => exact le_rfl

omit [GlobalTree τ] in
theorem Stopping.not_asleep (stopping : m.Stopping) {wait : Wait}
    (asleep : m.worker i = .asleep wait) : False := by
  have awake := stopping.awake i
  rw [asleep] at awake
  cases awake

omit [GlobalTree τ] in
/-- Every wait ends when the workers are told to stop. -/
theorem Stopping.test (stopping : m.Stopping) (i : Nat) (wait : Wait) : m.test i wait = true := by
  unfold EvaluatorMachine.test
  cases wait with
  | stop => exact stopping.stopped
  | timed => rw [Code.test, Code.wakes_eq, stopping.stopped, Bool.true_or]
  | work => rw [Code.test, Code.wakes_eq, stopping.stopped, Bool.true_or, Bool.true_or]

theorem Stopping.turn_eq (stopping : m.Stopping) (i : Nat) (numa : Int) :
    m.turn i numa = m.put i .exited := by
  have leave : Code.turn (m.shared.ownedNodes i) (m.shared.ownedProducers i) m.shared = .leave :=
    if_pos stopping.stopped
  rw [EvaluatorMachine.turn, leave]

theorem Stopping.resume_eq (stopping : m.Stopping) (i : Nat) (wait : Wait) (timeout : Bool)
    (numa : Int) : m.resume i wait timeout numa = m.put i .exited ∨
      m.resume i wait timeout numa = m.put i .looping := by
  rcases m.resume_cases i wait timeout numa with
    ⟨unmet, -, -⟩ | ⟨-, ⟨-, -, same⟩ | ⟨-, running, -⟩ | ⟨-, same⟩⟩
  · rw [stopping.test] at unmet
    cases unmet
  · exact Or.inl same
  · rw [stopping.stopped] at running
    cases running
  · exact Or.inr same

theorem Step.stopping (stopping : m.Stopping) (step : m.Step e m') : m'.Stopping := by
  cases step with
  | takeSequence key p isDone => exact ⟨stopping.stopped, stopping.awake⟩
  | ptfoInsert p => exact ⟨stopping.stopped, stopping.awake⟩
  | account p numa => exact ⟨stopping.stopped, stopping.awake⟩
  | accountWakes p numa j free ready hj asleep => exact (stopping.not_asleep asleep).elim
  | drainPending numa => exact ⟨stopping.stopped, fun j => sleeps_woken _⟩
  | destroy numa => exact ⟨rfl, stopping.awake⟩
  | notifyAll => exact ⟨stopping.stopped, fun j => sleeps_woken _⟩
  | wake j hj asleep => exact (stopping.not_asleep asleep).elim
  | timeout j hj asleep => exact (stopping.not_asleep asleep).elim
  | enter j => exact stopping.put j rfl
  | @resume wait timeout j numa =>
      rcases stopping.resume_eq j wait timeout numa with same | same
      · rw [same]
        exact stopping.put j rfl
      · rw [same]
        exact stopping.put j rfl
  | turn j numa =>
      rw [stopping.turn_eq]
      exact stopping.put j rfl

omit [GlobalTree τ] in
/-- A step of a worker takes one off what it has left. -/
theorem left_put {j : Nat} {phase : WorkerPhase} (steps : e.steps i = true ↔ j = i)
    (less : phase.left < (m.worker j).left) :
    ((m.put j phase).worker i).left + (if e.steps i = true then 1 else 0) ≤ (m.worker i).left := by
  by_cases hji : j = i
  · rw [if_pos (steps.mpr hji)]
    subst hji
    have here : (m.put j phase).worker j = phase := Function.update_self ..
    rw [here]
    exact less
  · rw [if_neg fun h => hji (steps.mp h)]
    have there : (m.put j phase).worker i = m.worker i := Function.update_of_ne (Ne.symm hji) ..
    rw [there]
    exact le_rfl

theorem Step.left (stopping : m.Stopping) (step : m.Step e m') (i : Nat) :
    (m'.worker i).left + (if e.steps i = true then 1 else 0) ≤ (m.worker i).left := by
  cases step with
  | takeSequence key p isDone => exact le_rfl
  | ptfoInsert p => exact le_rfl
  | account p numa => exact le_rfl
  | accountWakes p numa j free ready hj asleep => exact (stopping.not_asleep asleep).elim
  | drainPending numa => exact left_woken _
  | destroy numa => exact le_rfl
  | notifyAll => exact left_woken _
  | wake j hj asleep => exact (stopping.not_asleep asleep).elim
  | timeout j hj asleep => exact (stopping.not_asleep asleep).elim
  | enter j hj free entering =>
      exact left_put beq_iff_eq (by rw [entering]; decide)
  | @resume wait timeout j numa hj free awake =>
      have two : (m.worker j).left = 2 := by
        rw [awake]
        rfl
      rcases stopping.resume_eq j wait timeout numa with same | same
      · rw [same]
        exact left_put beq_iff_eq (by rw [two]; decide)
      · rw [same]
        exact left_put beq_iff_eq (by rw [two]; decide)
  | turn j numa hj looping =>
      rw [stopping.turn_eq]
      exact left_put beq_iff_eq (by rw [looping]; decide)

theorem run_left (stopping : m.Stopping) {more : List Move} (run : m.run more = some m')
    (i : Nat) : (m'.worker i).left + more.countP (Move.steps i) ≤ (m.worker i).left := by
  induction more generalizing m with
  | nil => exact Option.some.inj run ▸ le_rfl
  | cons e more ih =>
      obtain ⟨m₁, step, rest⟩ := run_cons run
      have first := step.left stopping i
      have others := ih (step.stopping stopping) rest
      rw [List.countP_cons]
      omega

theorem Step.notified (step : m.Step e m') (notified : m'.notified = true) :
    m.notified = true ∨ m'.Stopping := by
  cases step with
  | notifyAll stopped => exact Or.inr ⟨stopped, fun j => sleeps_woken _⟩
  | @resume wait timeout j numa =>
      left
      rcases m.resume_cases j wait timeout numa with
        ⟨-, -, same⟩ | ⟨-, ⟨-, -, same⟩ | ⟨-, -, same⟩ | ⟨-, same⟩⟩
      · exact (congrArg EvaluatorMachine.notified same).symm.trans notified
      · exact (congrArg EvaluatorMachine.notified same).symm.trans notified
      · exact (congrArg EvaluatorMachine.notified same).symm.trans notified
      · exact (congrArg EvaluatorMachine.notified same).symm.trans notified
  | turn j numa =>
      left
      unfold EvaluatorMachine.turn at notified
      split at notified
      · exact notified
      · exact notified
      · exact notified
  | _ => exact Or.inl notified

/-- Once the destructor has woken the workers, each of them takes at most two more steps, and
as long as one is not at its end there is a step to take. -/
theorem workers_join {config : RuntimeConfig} {policy : PlacementPolicy} {tree : τ}
    {resume nodes : Nat} {moves more : List Move}
    (reach : (init config policy tree resume nodes).run moves = some m)
    (notified : m.notified = true) (run : m.run more = some m') :
    (∀ i, more.countP (Move.steps i) ≤ 2) ∧
      ((∀ i < m'.shared.workerCount, m'.worker i = .exited) ∨
        ∃ i < m'.shared.workerCount, ∃ e, Move.steps i e = true ∧ (m'.move e).isSome = true) := by
  have stopping : m.Stopping := run_keeps (P := fun m => m.notified = true → m.Stopping)
    (fun stopping step notified => (step.notified notified).elim
      (fun notified => step.stopping (stopping notified)) id)
    (by simp [init]) reach notified
  constructor
  · intro i
    have least : (m.worker i).left ≤ 2 := by
      cases phase : m.worker i with
      | asleep wait => exact (stopping.not_asleep phase).elim
      | _ => simp [WorkerPhase.left]
    have count := run_left stopping run i
    omega
  · have awake : m'.Stopping := run_keeps (fun stopping step => step.stopping stopping) stopping run
    by_cases busy : m'.Free
    · by_cases all : ∀ i < m'.shared.workerCount, m'.worker i = .exited
      · exact Or.inl all
      · obtain ⟨i, hi, live⟩ : ∃ i, i < m'.shared.workerCount ∧ m'.worker i ≠ .exited := by
          simpa using all
        right
        cases phase : m'.worker i with
        | entering =>
            refine ⟨i, hi, .enter i, beq_self_eq_true i, ?_⟩
            rw [move, if_pos ⟨hi, phase, busy⟩]
            rfl
        | looping => exact absurd phase (busy i hi)
        | asleep wait => exact (awake.not_asleep phase).elim
        | awake wait timeout =>
            refine ⟨i, hi, .resume i 0, beq_self_eq_true i, ?_⟩
            rw [move, phase]
            dsimp only
            rw [if_pos ⟨hi, busy⟩]
            rfl
        | exited => exact absurd phase live
    · obtain ⟨i, hi, looping⟩ : ∃ i, i < m'.shared.workerCount ∧ m'.worker i = .looping := by
        simpa [Free] using busy
      refine Or.inr ⟨i, hi, .turn i 0, beq_self_eq_true i, ?_⟩
      rw [move, if_pos ⟨hi, looping⟩]
      rfl

/-- A worker that sleeps when the destructor is called. -/
theorem workers_join_one :
    ∃ m m' : EvaluatorMachine (Finset Int),
      (init {} .kDefault ∅ 1 0).run [.enter 0, .turn 0 0, .destroy 0, .notifyAll] = some m ∧
      m.run [.resume 0 0, .turn 0 0] = some m' ∧ m'.worker 0 = .exited ∧
      ∀ i, [Move.resume 0 0, .turn 0 0].countP (Move.steps i) ≤ 2 := by
  obtain ⟨m, m', reach, run, notified, ends⟩ : ∃ m m' : EvaluatorMachine (Finset Int),
      (init {} .kDefault ∅ 1 0).run [.enter 0, .turn 0 0, .destroy 0, .notifyAll] = some m ∧
      m.run [.resume 0 0, .turn 0 0] = some m' ∧ m.notified = true ∧ m'.worker 0 = .exited :=
    ⟨_, _, rfl, rfl, rfl, rfl⟩
  exact ⟨m, m', reach, run, ends, (workers_join reach notified run).1⟩

/-! ## What is left -/

/-- A section of a call, of the wrapper's users or of its destructor. -/
def Move.ofCall : Move → Bool
  | .takeSequence _ _ _ | .ptfoInsert _ | .account _ _ _ | .drainPending _ | .destroy _ => true
  | _ => false

/-- The actions of a run, and who asked for its full drains. -/
theorem run_calls_eq {moves : List Move} (run : m.run moves = some m') :
    ∃ actions, m'.calls = m.calls.run actions ∧ ∀ numa, Action.drainPending numa ∈ actions →
      Move.drainPending numa ∈ moves ∨ Move.destroy numa ∈ moves := by
  induction moves generalizing m with
  | nil => exact ⟨[], Option.some.inj run ▸ rfl, by simp⟩
  | cons e moves ih =>
      obtain ⟨m₁, step, rest⟩ := run_cons run
      obtain ⟨actions, same, asked⟩ := ih rest
      have asked' : ∀ numa, Action.drainPending numa ∈ actions →
          Move.drainPending numa ∈ e :: moves ∨ Move.destroy numa ∈ e :: moves := fun numa mem =>
        (asked numa mem).imp (List.mem_cons_of_mem _) (List.mem_cons_of_mem _)
      rcases step.calls_eq with still | ⟨a, acts, -, full⟩
      · exact ⟨actions, still ▸ same, asked'⟩
      · refine ⟨a :: actions, ?_, fun numa mem => ?_⟩
        · rw [same, acts]
          rfl
        · rcases List.mem_cons.mp mem with rfl | mem
          · refine (full numa rfl).imp ?_ ?_
            · exact fun h => h ▸ List.mem_cons_self
            · exact fun h => h ▸ List.mem_cons_self
          · exact asked' numa mem

/-- Workers that are told to stop leave the wrapper as it is. -/
theorem Step.impl_eq (step : m.Step e m') (stopped : m.shared.stopRequested = true)
    (other : e.ofCall = false) :
    m'.shared.impl = m.shared.impl ∧ m'.shared.stopRequested = true := by
  cases step with
  | @resume wait timeout j numa =>
      rcases m.resume_cases j wait timeout numa with
        ⟨-, -, same⟩ | ⟨-, ⟨-, -, same⟩ | ⟨-, running, -⟩ | ⟨-, same⟩⟩
      · rw [same]
        exact ⟨rfl, stopped⟩
      · rw [same]
        exact ⟨rfl, stopped⟩
      · rw [stopped] at running
        cases running
      · rw [same]
        exact ⟨rfl, stopped⟩
  | turn j numa =>
      have leave : Code.turn (m.shared.ownedNodes j) (m.shared.ownedProducers j) m.shared =
        .leave := if_pos stopped
      rw [EvaluatorMachine.turn, leave]
      exact ⟨rfl, stopped⟩
  | takeSequence key p isDone => cases other
  | ptfoInsert p => cases other
  | account p numa => cases other
  | accountWakes p numa j => cases other
  | drainPending numa => cases other
  | destroy numa => cases other
  | _ => exact ⟨rfl, stopped⟩

theorem run_impl_eq {more : List Move} (run : m.run more = some m')
    (stopped : m.shared.stopRequested = true) (others : ∀ e ∈ more, e.ofCall = false) :
    m'.shared.impl = m.shared.impl := by
  induction more generalizing m with
  | nil => exact Option.some.inj run ▸ rfl
  | cons e more ih =>
      obtain ⟨m₁, step, rest⟩ := run_cons run
      obtain ⟨same, stopped⟩ := step.impl_eq stopped (others e List.mem_cons_self)
      exact (ih rest stopped fun e mem => others e (List.mem_cons_of_mem _ mem)).trans same

/-- The destructor's drain, after a run in which nobody but the workers has drained: whatever the
workers have drained meanwhile, and whatever they do to their ends, every key that was inserted
and never erased is in the tree, and nothing is buffered any more.  The policy is F3-N, all calls
have returned, and the tables hold the keys of every producer. -/
theorem shutdown_keeps_inserts [LawfulTree τ] {config : RuntimeConfig}
    (valid : validateRuntimeConfig config = .ok ()) (kF3N : config.evaluatorPolicy = .kF3N)
    {policy : PlacementPolicy} {tree : τ} {resume nodes : Nat} {moves more : List Move}
    {m₁ : EvaluatorMachine τ} {numa : Int}
    (reach : (init config policy tree resume nodes).run moves = some m)
    (quiet : ∀ numa, Move.drainPending numa ∉ moves ∧ Move.destroy numa ∉ moves)
    (ample : ∀ p < config.producerThreads, (keysOf m.issued p).card ≤ config.dirCap)
    (idle : ∀ p < config.producerThreads, m.phase p = .idle)
    (destroy : m.move (.destroy numa) = some m₁) (run : m₁.run more = some m')
    (others : ∀ e ∈ more, e.ofCall = false) :
    (∀ key, (∃ i ∈ m.returned, i.key = key) → (∀ i ∈ m.issued, i.key = key → i.isDone = false) →
      m'.shared.impl.globalContains key = true) ∧
    m'.shared.impl.tree.allPending = [] ∧ m'.shared.impl.pendingOperationCount = 0 := by
  obtain ⟨actions, same, asked⟩ := run_calls_eq reach
  have calls : m.calls = (Machine.init config tree resume nodes).run actions := same
  have covered : (Machine.init config tree resume nodes).Covered actions :=
    Machine.covered_of_forall_ne _ fun a mem numa h =>
      (asked numa (h ▸ mem)).elim (quiet numa).1 (quiet numa).2
  have ends : m'.shared.impl = m.shared.impl.drainPending numa := by
    obtain ⟨-, rfl⟩ := of_guard destroy
    exact run_impl_eq run rfl others
  have resolves : config.evaluatorPolicy.resolvesConflicts = true := by
    rw [kF3N]
    rfl
  have issued : m.issued = ((Machine.init config tree resume nodes).run actions).issued :=
    congrArg Machine.issued calls
  have settled : ∀ key, (∀ i ∈ m.issued, i.key = key → i.isDone = false) →
      m.calls.Consistent config (keysOf m.issued) ∧ m.calls.Traced ∧ m.calls.Lasting key := by
    intro key never
    have sound := Machine.covered_run valid resolves ample tree resume nodes
      (fun i mem => mem_keysOf (issued ▸ mem)) covered (fun i mem => never i (issued ▸ mem))
    exact calls ▸ sound
  rw [ends]
  refine ⟨fun key ⟨i, returned, hi⟩ never => ?_, ?_, ?_⟩
  · obtain ⟨con, traced, lasting⟩ := settled key never
    obtain ⟨covers, empty⟩ := con.drainPending_idle idle numa
    have last := lasting.step con traced resolves (fun i mem => mem_keysOf mem) never
      (Machine.step_steps con.threads (.drainPending numa) covers)
    rcases last.returned i returned hi with inTree | ⟨op, mem, -⟩
    · exact inTree
    · have mem : op ∈ (m.shared.impl.drainPending numa).tree.allPending := mem
      have empty : (m.shared.impl.drainPending numa).tree.allPending = [] := empty
      rw [empty] at mem
      cases mem
  · obtain ⟨key, unused⟩ := Infinite.exists_notMem_finset (m.issued.map Issue.key).toFinset
    obtain ⟨con, -, -⟩ := settled key fun i mem h =>
      absurd (List.mem_toFinset.mpr (List.mem_map.mpr ⟨i, mem, h⟩)) unused
    exact (con.drainPending_idle idle numa).2
  · rw [Impl.drainPending, Impl.drainLocked]
    split
    · assumption
    · rfl

/-- A worker drains one of two inserts, the destructor the other. -/
theorem shutdown_keeps_inserts_two :
    ∃ m m₁ m' : EvaluatorMachine (Finset Int),
      (init { hashCapacity := 4, checkpointThresholdOps := 1 } .kDefault ∅ 1 0).run
        [.takeSequence 5 0 false, .ptfoInsert 0, .account 0 0 none, .enter 0, .turn 0 0,
          .turn 0 0, .takeSequence 7 0 false, .ptfoInsert 0, .account 0 0 (some 0)] = some m ∧
      m.move (.destroy 0) = some m₁ ∧
      m₁.run [.resume 0 0, .turn 0 0, .notifyAll] = some m' ∧
      m'.shared.impl.globalContains 5 = true ∧ m'.shared.impl.globalContains 7 = true := by
  obtain ⟨m, m₁, m', reach, destroy, run, idle, issued, returned⟩ :
      ∃ m m₁ m' : EvaluatorMachine (Finset Int),
      (init { hashCapacity := 4, checkpointThresholdOps := 1 } .kDefault ∅ 1 0).run
        [.takeSequence 5 0 false, .ptfoInsert 0, .account 0 0 none, .enter 0, .turn 0 0,
          .turn 0 0, .takeSequence 7 0 false, .ptfoInsert 0, .account 0 0 (some 0)] = some m ∧
      m.move (.destroy 0) = some m₁ ∧
      m₁.run [.resume 0 0, .turn 0 0, .notifyAll] = some m' ∧ m.phase 0 = .idle ∧
      m.issued = [⟨5, 0, false⟩, ⟨7, 0, false⟩] ∧ m.returned = [⟨5, 0, false⟩, ⟨7, 0, false⟩] :=
    ⟨_, _, _, rfl, rfl, rfl, rfl, rfl, rfl⟩
  have keeps := (shutdown_keeps_inserts rfl rfl reach (by simp) (by rw [issued]; decide)
    (fun p hp => by obtain rfl := Nat.lt_one_iff.mp hp; exact idle) destroy run (by decide)).1
  rw [issued, returned] at keeps
  exact ⟨m, m₁, m', reach, destroy, run, keeps 5 (by simp) (by simp), keeps 7 (by simp) (by simp)⟩

end EvaluatorMachine

end F3Tree
