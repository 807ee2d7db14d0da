import Mathlib.Logic.Function.Basic
import Mathlib.Data.Nat.Find
import Mathlib.Tactic.Common

/-!
# Computations with a step budget

A loop that need not end is a function of a budget, `none` when the budget is used
up.  Such a function is steady when more budget never changes an answer, which follows
along its definition (`Extends`); then it returns at most one answer, and the answer of
a sequence of two is found one after the other.
-/

namespace Fuel

variable {α β : Type}

/-- Some budget is enough for the answer `a`. -/
def Returns (f : Nat → Option α) (a : α) : Prop := ∃ n, f n = some a

/-- More budget keeps an answer. -/
def Steady (f : Nat → Option α) : Prop := ∀ n a, f n = some a → f (n + 1) = some a

theorem Steady.mono {f : Nat → Option α} (steady : Steady f) {n m : Nat} (hle : n ≤ m) {a : α}
    (h : f n = some a) : f m = some a := by
  induction hle with
  | refl => exact h
  | step _ ih => exact steady _ a ih

theorem Steady.unique {f : Nat → Option α} (steady : Steady f) {a b : α} (ha : Returns f a)
    (hb : Returns f b) : a = b := by
  obtain ⟨n, hn⟩ := ha
  obtain ⟨m, hm⟩ := hb
  have hn' := steady.mono (Nat.le_max_left n m) hn
  have hm' := steady.mono (Nat.le_max_right n m) hm
  exact Option.some.inj (hn'.symm.trans hm')

/-! ## Steady computations -/

/-- The second answers what the first answers. -/
def Extends (a b : Option α) : Prop := ∀ x, a = some x → b = some x

theorem Extends.refl (a : Option α) : Extends a a := fun _ h => h

/-- The budget was used up. -/
theorem Extends.of_none (b : Option α) : Extends none b := fun _ h => nomatch h

theorem Extends.bind {a a' : Option α} {g g' : α → Option β} (ha : Extends a a')
    (hg : ∀ x, Extends (g x) (g' x)) : Extends (a.bind g) (a'.bind g') := by
  intro y h
  obtain ⟨x, hx, hy⟩ := Option.bind_eq_some_iff.mp h
  exact Option.bind_eq_some_iff.mpr ⟨x, ha x hx, hg x y hy⟩

/-- A first step that has no loop. -/
theorem Extends.const_bind (a : Option α) {g g' : α → Option β}
    (hg : ∀ x, Extends (g x) (g' x)) : Extends (a.bind g) (a.bind g') :=
  (refl a).bind hg

theorem Extends.map {a a' : Option α} (ha : Extends a a') (f : α → β) :
    Extends (a.map f) (a'.map f) := by
  intro y h
  obtain ⟨x, hx, rfl⟩ := Option.map_eq_some_iff.mp h
  exact Option.map_eq_some_iff.mpr ⟨x, ha x hx, rfl⟩

theorem Extends.ite {a a' b b' : Option α} (c : Prop) [Decidable c] (ha : Extends a a')
    (hb : Extends b b') : Extends (if c then a else b) (if c then a' else b') := by
  by_cases hc : c
  · rwa [if_pos hc, if_pos hc]
  · rwa [if_neg hc, if_neg hc]

theorem steady_const (a : Option α) : Steady fun _ => a :=
  fun _ => Extends.refl a

theorem Steady.bind {f : Nat → Option α} {g : α → Nat → Option β} (hf : Steady f)
    (hg : ∀ a, Steady (g a)) : Steady fun n => (f n).bind fun a => g a n :=
  fun n => Extends.bind (hf n) fun a => hg a n

/-- The budget is not spent where no step depends on it. -/
theorem Steady.const_bind (o : Option α) {g : α → Nat → Option β} (hg : ∀ a, Steady (g a)) :
    Steady fun n => o.bind fun a => g a n :=
  (steady_const o).bind hg

theorem Steady.ite {f g : Nat → Option α} (c : Prop) [Decidable c] (hf : Steady f)
    (hg : Steady g) : Steady fun n => if c then f n else g n :=
  fun n => Extends.ite c (hf n) (hg n)

/-- A budget that two computations share. -/
theorem Returns.both {f : Nat → Option α} {g : Nat → Option β} (hf : Steady f) (hg : Steady g)
    {a : α} {b : β} (ha : Returns f a) (hb : Returns g b) : ∃ n, f n = some a ∧ g n = some b := by
  obtain ⟨n, hn⟩ := ha
  obtain ⟨m, hm⟩ := hb
  exact ⟨max n m, hf.mono (Nat.le_max_left n m) hn, hg.mono (Nat.le_max_right n m) hm⟩

/-- A computation and then the one that its answer leads to. -/
theorem Returns.bind {f : Nat → Option α} {g : α → Nat → Option β} {a : α} {b : β}
    (hf : Steady f) (hg : Steady (g a)) (ha : Returns f a) (hb : Returns (g a) b) :
    Returns (fun n => (f n).bind fun a => g a n) b := by
  obtain ⟨n, hn, hm⟩ := ha.both hf hg hb
  exact ⟨n, Option.bind_eq_some_iff.mpr ⟨a, hn, hm⟩⟩

/-- The answer of a computation that is known to have one. -/
def answer (f : Nat → Option α) (ends : ∃ a, Returns f a) : α :=
  have some_budget : ∃ n, (f n).isSome := by
    obtain ⟨a, n, hn⟩ := ends
    exact ⟨n, hn ▸ rfl⟩
  (f (Nat.find some_budget)).get (Nat.find_spec some_budget)

theorem returns_answer {f : Nat → Option α} (ends : ∃ a, Returns f a) :
    Returns f (answer f ends) :=
  ⟨_, (Option.some_get _).symm⟩

theorem answer_eq {f : Nat → Option α} (steady : Steady f) (ends : ∃ a, Returns f a) {a : α}
    (h : Returns f a) : answer f ends = a :=
  steady.unique (returns_answer ends) h

end Fuel
