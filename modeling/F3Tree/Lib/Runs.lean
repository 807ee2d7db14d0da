import Mathlib.Data.List.Infix
import Mathlib.Tactic.Common

/-!
# Runs and their points

A run is the list of its steps, a point of a run a prefix of that list.  What is
said about a run comes in two shapes: a property of every point, and a condition
on every step, which may look at the point where the step is taken (`StepsMeet`).

`points_of_steps` carries a property along the steps that meet a condition;
`points_iff_steps` is its sharp form, for a condition that fails exactly where the
property is first lost.
-/

namespace Runs

variable {ι : Type}

/-- The property holds at every point of the run. -/
def AtPoints (property : List ι → Prop) (run : List ι) : Prop :=
  ∀ before, before <+: run → property before

/-- Every step of the run meets the condition where it is taken. -/
def StepsMeet (condition : List ι → ι → Prop) (run : List ι) : Prop :=
  ∀ before i, before ++ [i] <+: run → condition before i

variable {property : List ι → Prop} {condition : List ι → ι → Prop}

theorem AtPoints.self {run : List ι} (h : AtPoints property run) : property run :=
  h run (List.prefix_refl run)

theorem AtPoints.mono {run run' : List ι} (h : AtPoints property run') (sub : run <+: run') :
    AtPoints property run :=
  fun before point => h before (point.trans sub)

theorem StepsMeet.mono {run run' : List ι} (h : StepsMeet condition run')
    (sub : run <+: run') : StepsMeet condition run :=
  fun before i point => h before i (point.trans sub)

theorem stepsMeet_nil : StepsMeet condition ([] : List ι) := by
  intro before i point
  simp at point

theorem stepsMeet_concat (run : List ι) (i : ι) :
    StepsMeet condition (run ++ [i]) ↔ StepsMeet condition run ∧ condition run i := by
  constructor
  · exact fun meet => ⟨meet.mono (List.prefix_append _ _), meet run i (List.prefix_refl _)⟩
  · rintro ⟨meet, last⟩ before j point
    rcases List.prefix_concat_iff.mp point with heq | point
    · obtain ⟨rfl, hj⟩ := List.append_inj' heq rfl
      rw [List.singleton_inj.mp hj]
      exact last
    · exact meet before j point

/-- Steps that meet the condition wherever they are taken can be appended. -/
theorem StepsMeet.append {run tail : List ι} (meet : StepsMeet condition run)
    (rest : ∀ i ∈ tail, ∀ before, condition before i) : StepsMeet condition (run ++ tail) := by
  induction tail using List.reverseRecOn with
  | nil => rwa [List.append_nil]
  | append_singleton tail i ih =>
      rw [← List.append_assoc, stepsMeet_concat]
      exact ⟨ih fun j mem => rest j (List.mem_append_left _ mem), rest i (by simp) _⟩

/-- Two conditions that agree on a step after steps that met the second. -/
theorem stepsMeet_congr {condition' : List ι → ι → Prop} {run : List ι}
    (step : ∀ before i, before ++ [i] <+: run → StepsMeet condition' before →
      (condition before i ↔ condition' before i)) :
    StepsMeet condition run ↔ StepsMeet condition' run := by
  induction run using List.reverseRecOn with
  | nil => exact iff_of_true stepsMeet_nil stepsMeet_nil
  | append_singleton run i ih =>
      rw [stepsMeet_concat, stepsMeet_concat, ih fun before j point =>
        step before j (point.trans (List.prefix_append _ _))]
      exact and_congr_right (step run i (List.prefix_refl _))

theorem atPoints_concat {run : List ι} {i : ι} :
    AtPoints property (run ++ [i]) ↔ AtPoints property run ∧ property (run ++ [i]) := by
  constructor
  · exact fun h => ⟨h.mono (List.prefix_append _ _), h.self⟩
  · rintro ⟨h, last⟩ before point
    rcases List.prefix_concat_iff.mp point with rfl | point
    · exact last
    · exact h before point

/-- The points of a run whose first step is `i`. -/
theorem atPoints_cons {run : List ι} {i : ι} :
    AtPoints property (i :: run) ↔
      property [] ∧ AtPoints (fun before => property (i :: before)) run := by
  constructor
  · intro h
    refine ⟨h [] List.nil_prefix, fun before point => ?_⟩
    exact h _ ((List.prefix_cons_inj i).mpr point)
  · rintro ⟨start, h⟩ before point
    rcases List.prefix_cons_iff.mp point with rfl | ⟨tail, rfl, hpoint⟩
    · exact start
    · exact h tail hpoint

theorem atPoints_nil : AtPoints property [] ↔ property [] := by
  constructor
  · exact AtPoints.self
  · intro start before point
    rwa [List.prefix_nil.mp point]

/-- The points of two runs, one after the other. -/
theorem atPoints_append {run run' : List ι} :
    AtPoints property (run ++ run') ↔
      AtPoints property run ∧ AtPoints (fun before => property (run ++ before)) run' := by
  induction run generalizing property with
  | nil =>
      rw [List.nil_append, atPoints_nil]
      exact ⟨fun h => ⟨h [] List.nil_prefix, h⟩, And.right⟩
  | cons i run ih =>
      rw [List.cons_append, atPoints_cons, ih, atPoints_cons, and_assoc]
      rfl

/-- Steps that meet the condition carry the property from the start to the end of
the run. -/
theorem points_of_steps (property : List ι → Prop) {run : List ι} (start : property [])
    (step : ∀ before i, before ++ [i] <+: run → property before → condition before i →
      property (before ++ [i]))
    (meet : StepsMeet condition run) : property run := by
  induction run using List.reverseRecOn with
  | nil => exact start
  | append_singleton run i ih =>
      obtain ⟨meet, last⟩ := (stepsMeet_concat _ _).mp meet
      refine step run i (List.prefix_refl _) (ih (fun before j point => ?_) meet) last
      exact step before j (point.trans (List.prefix_append _ _))

/-- If, after steps that met the condition, a step keeps the property exactly when
it meets the condition, then the property holds at every point exactly when every
step meets the condition. -/
theorem points_iff_steps {run : List ι} (start : property [])
    (step : ∀ before i, before ++ [i] <+: run → StepsMeet condition before →
      (property (before ++ [i]) ↔ condition before i)) :
    AtPoints property run ↔ StepsMeet condition run := by
  induction run using List.reverseRecOn with
  | nil =>
      refine iff_of_true (fun before point => ?_) stepsMeet_nil
      rw [List.prefix_nil.mp point]
      exact start
  | append_singleton run i ih =>
      rw [atPoints_concat, stepsMeet_concat, ih fun before j point =>
        step before j (point.trans (List.prefix_append _ _))]
      exact and_congr_right (step run i (List.prefix_refl _))

end Runs
