import Mathlib.Logic.Function.Iterate
import Mathlib.Logic.Relation
import Mathlib.Tactic.Common

/-!
# Reads under a version counter

A writer changes a memory store by store.  Before stores of another kind it takes the version
of the memory to the next one.  A reader takes no lock: it reads the version, makes its
loads, and starts anew if the version is another one at the end.

The versions come round after `period` turns, so a pass stands less than that (`Step.turn`).
`Reach.relies` is the rule for such readers: what the stores under the version of a pass keep,
and its loads establish, holds of every pass that is not started anew.
-/

/-- A memory `σ` with the stores `ι` that are made to it, the phases `φ` of a reader, and the
versions `κ`. -/
structure Seqlock (σ ι φ κ : Type) : Type where
  version : σ → κ
  next : κ → κ
  period : Nat
  perform : σ → ι → σ
  /-- The stores that take the version to the next one. -/
  Turns : ι → Prop
  /-- The stores of a call that the writer may make on a memory. -/
  Call : σ → List ι → Prop
  Load : σ → φ → φ → Prop
  /-- The version of the pass that the reader is in. -/
  pass : φ → Option κ
  initial : φ

namespace Seqlock

variable {σ ι φ κ α : Type}

/-- A memory, the stores that the writer's call has still to make, the reader, and the turns
since the reader's pass began. -/
structure Machine (σ ι φ : Type) : Type where
  mem : σ
  pending : List ι
  phase : φ
  turns : Nat

variable (S : Seqlock σ ι φ κ)

/-- The reader in front of its first pass, the writer between two calls. -/
def start (s : σ) : Machine σ ι φ where
  mem := s
  pending := []
  phase := S.initial
  turns := 0

/-- A step of the writer or of the reader. -/
inductive Step (m : Machine σ ι φ) : Machine σ ι φ → Prop
  | call {stores : List ι} : m.pending = [] → S.Call m.mem stores →
    Step m { m with pending := stores }
  | turn {i : ι} {rest : List ι} : m.pending = i :: rest → S.Turns i →
    m.turns + 1 < S.period →
    Step m { m with mem := S.perform m.mem i, pending := rest, turns := m.turns + 1 }
  | store {i : ι} {rest : List ι} : m.pending = i :: rest → ¬ S.Turns i →
    Step m { m with mem := S.perform m.mem i, pending := rest }
  | load {phase : φ} : S.Load m.mem m.phase phase →
    Step m { m with phase := phase, turns := if (S.pass m.phase).isSome then m.turns else 0 }

/-- What any interleaving of the loads and the stores leads to. -/
abbrev Reach : Machine σ ι φ → Machine σ ι φ → Prop :=
  Relation.ReflTransGen S.Step

/-- A load begins a pass, stays in it, or ends it with a look at the version; and less than
`period` turns lead to another version. -/
structure Lawful : Prop where
  initial : S.pass S.initial = none
  period_pos : 0 < S.period
  distinct : ∀ c n, n < S.period → S.next^[n] c = c → n = 0
  load : ∀ {s : σ} {phase phase' : φ}, S.Load s phase phase' →
    S.pass phase = none ∧ S.pass phase' = some (S.version s) ∨
    S.pass phase ≠ none ∧ S.pass phase' = S.pass phase ∨
    ∃ c, S.pass phase = some c ∧ S.pass phase' = none ∧ (S.version s = c ∨ phase' = S.initial)

/-- `course` says where a call stands when it has still to make some stores; `reads` is what the
reader can rely on as long as its pass has the version of the memory. -/
structure Rule (course : σ → List ι → α → Prop) (reads : σ → α → φ → Prop) : Prop where
  initial : ∀ s a, reads s a S.initial
  call : ∀ {s : σ} {a : α} {stores : List ι}, course s [] a → S.Call s stores →
    course s stores a
  turn : ∀ {s : σ} {i : ι} {rest : List ι} {a : α}, course s (i :: rest) a → S.Turns i →
    S.version (S.perform s i) = S.next (S.version s) ∧ ∃ a', course (S.perform s i) rest a'
  store : ∀ {s : σ} {i : ι} {rest : List ι} {a : α}, course s (i :: rest) a → ¬ S.Turns i →
    S.version (S.perform s i) = S.version s ∧ ∃ a', course (S.perform s i) rest a' ∧
      ∀ phase, S.pass phase = some (S.version s) → reads s a phase → reads (S.perform s i) a' phase
  load : ∀ {s : σ} {pending : List ι} {a : α} {phase phase' : φ}, course s pending a →
    S.Load s phase phase' → (∀ c ∈ S.pass phase, S.version s = c) → reads s a phase →
    reads s a phase'
  /-- Between two passes the reader looks at nothing. -/
  outside : ∀ {s s' : σ} {a a' : α} {phase : φ}, S.pass phase = none → reads s a phase →
    reads s' a' phase

/-- The course of the writer, and what the reader can rely on. -/
structure Sound (course : σ → List ι → α → Prop) (reads : σ → α → φ → Prop)
    (m : Machine σ ι φ) (a : α) : Prop where
  course : course m.mem m.pending a
  pass : ∀ c ∈ S.pass m.phase, m.turns < S.period ∧ S.version m.mem = S.next^[m.turns] c
  reads : (S.pass m.phase ≠ none → m.turns = 0) → reads m.mem a m.phase

variable {S} {course : σ → List ι → α → Prop} {reads : σ → α → φ → Prop}
  {m m' : Machine σ ι φ} {a : α}

/-- A pass that has not been turned has the version of the memory. -/
theorem Sound.version (h : S.Sound course reads m a) (still : S.pass m.phase ≠ none → m.turns = 0) :
    ∀ c ∈ S.pass m.phase, S.version m.mem = c := by
  intro c hc
  rw [Option.mem_def] at hc
  rw [(h.pass c hc).2, still (by simp [hc])]
  rfl

theorem Sound.load (h : S.Sound course reads m a) (lawful : S.Lawful) (rule : S.Rule course reads)
    {phase : φ} (load : S.Load m.mem m.phase phase) :
    S.Sound course reads
      { m with phase := phase, turns := if (S.pass m.phase).isSome then m.turns else 0 } a := by
  have still : (S.pass m.phase ≠ none → m.turns = 0) → reads m.mem a phase := fun still =>
    rule.load h.course load (h.version still) (h.reads still)
  rcases lawful.load load with ⟨outside, begins⟩ | ⟨inside, stays⟩ | ⟨c, inside, outside, ends⟩
  · refine ⟨h.course, fun c hc => ?_, fun _ => still fun inside => absurd outside inside⟩
    dsimp only at hc ⊢
    rw [begins, Option.mem_some_iff] at hc
    rw [outside, hc]
    exact ⟨lawful.period_pos, rfl⟩
  · have isSome : (S.pass m.phase).isSome = true := Option.isSome_iff_ne_none.mpr inside
    refine ⟨h.course, fun c hc => ?_, fun h => still ?_⟩
    · dsimp only at hc ⊢
      rw [stays] at hc
      rw [if_pos isSome]
      exact h.pass c hc
    · dsimp only at h
      rwa [stays, if_pos isSome] at h
  · refine ⟨h.course, fun c' hc => ?_, fun _ => ?_⟩
    · rw [outside] at hc
      cases hc
    · rcases ends with same | rfl
      · obtain ⟨bound, version⟩ := h.pass c inside
        exact still fun _ => lawful.distinct c m.turns bound (version.symm.trans same)
      · exact rule.initial m.mem a

theorem Sound.step (h : S.Sound course reads m a) (lawful : S.Lawful) (rule : S.Rule course reads)
    (step : S.Step m m') : ∃ a', S.Sound course reads m' a' := by
  cases step with
  | call idle call =>
      refine ⟨a, rule.call ?_ call, h.pass, h.reads⟩
      rw [← idle]
      exact h.course
  | @turn i rest hpending turns bound =>
      have here := h.course
      rw [hpending] at here
      obtain ⟨version, a', later⟩ := rule.turn here turns
      refine ⟨a', later, fun c hc => ⟨bound, ?_⟩, fun still => ?_⟩
      · rw [version, (h.pass c hc).2, Function.iterate_succ_apply']
      · have outside : S.pass m.phase = none := by
          by_contra inside
          exact absurd (still inside) (Nat.succ_ne_zero m.turns)
        exact rule.outside outside (h.reads fun inside => absurd outside inside)
  | @store i rest hpending turns =>
      have here := h.course
      rw [hpending] at here
      obtain ⟨version, a', later, keeps⟩ := rule.store here turns
      refine ⟨a', later, fun c hc => ?_, fun still => ?_⟩
      · rw [version]
        exact h.pass c hc
      · cases inside : S.pass m.phase with
        | none => exact rule.outside inside (h.reads still)
        | some c => exact keeps m.phase (by rw [inside, h.version still c inside]) (h.reads still)
  | load load => exact ⟨a, h.load lawful rule load⟩

theorem Reach.sound {s : σ} (lawful : S.Lawful) (rule : S.Rule course reads) (begins : course s [] a)
    (run : S.Reach (S.start s) m) : ∃ a', S.Sound course reads m a' := by
  induction run with
  | refl =>
      refine ⟨a, begins, fun c hc => ?_, fun _ => rule.initial s a⟩
      change c ∈ S.pass S.initial at hc
      rw [lawful.initial] at hc
      cases hc
  | tail _ step ih =>
      obtain ⟨a', h⟩ := ih
      exact h.step lawful rule step

/-- What holds of a reader that has ended its last pass. -/
theorem Reach.relies {s : σ} (lawful : S.Lawful) (rule : S.Rule course reads) (begins : course s [] a)
    (run : S.Reach (S.start s) m) (outside : S.pass m.phase = none) :
    ∃ a', reads m.mem a' m.phase := by
  obtain ⟨a', h⟩ := run.sound lawful rule begins
  exact ⟨a', h.reads fun inside => absurd outside inside⟩

end Seqlock
