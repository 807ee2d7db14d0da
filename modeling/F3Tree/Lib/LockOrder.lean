import Mathlib.Logic.Function.Basic
import Mathlib.Logic.Relation
import Mathlib.Order.Preorder.Finite
import Mathlib.Tactic.Common

/-!
# Locks taken in an order

A program takes and releases locks, reads and changes a shared state, and may be told a
value by its surroundings.  Threads run programs one step at a time, in any interleaving.

A program respects the order of the locks if it only takes a lock above all those that
it holds (`Prog.Ordered`).  Threads whose programs all do so never wait for each other in a
circle (`no_deadlock`).
-/

namespace LockOrder

/-- A program with locks in `ℓ` over a shared state in `σ`. -/
inductive Prog (ℓ σ : Type) : Type → Type 1
  | ret {α : Type} (a : α) : Prog ℓ σ α
  | lock {α : Type} (l : ℓ) (k : Prog ℓ σ α) : Prog ℓ σ α
  | unlock {α : Type} (l : ℓ) (k : Prog ℓ σ α) : Prog ℓ σ α
  | act {α β : Type} (f : σ → β × σ) (k : β → Prog ℓ σ α) : Prog ℓ σ α
  | told {α : Type} (β : Type) (k : β → Prog ℓ σ α) : Prog ℓ σ α
  /-- Repeats `body` for as long as it answers `true`. -/
  | loop {α : Type} (body : Prog ℓ σ Bool) (k : Prog ℓ σ α) : Prog ℓ σ α

namespace Prog

variable {ℓ σ α β : Type}

def bind : {α : Type} → Prog ℓ σ α → (α → Prog ℓ σ β) → Prog ℓ σ β
  | _, .ret a, next => next a
  | _, .lock l k, next => .lock l (k.bind next)
  | _, .unlock l k, next => .unlock l (k.bind next)
  | _, .act f k, next => .act f fun b => (k b).bind next
  | _, .told γ k, next => .told γ fun b => (k b).bind next
  | _, .loop body k, next => .loop body (k.bind next)

instance : Monad (Prog ℓ σ) where
  pure := .ret
  bind := Prog.bind

/-- `lock()` -/
def take (l : ℓ) : Prog ℓ σ Unit := .lock l (.ret ())

/-- `unlock()` -/
def release (l : ℓ) : Prog ℓ σ Unit := .unlock l (.ret ())

/-- One access to the state. -/
def access (f : σ → β × σ) : Prog ℓ σ β := .act f .ret

def get : Prog ℓ σ σ := access fun s => (s, s)

def modify (f : σ → σ) : Prog ℓ σ Unit := access fun s => ((), f s)

/-- A value from outside. -/
def ask (β : Type) : Prog ℓ σ β := .told β .ret

def repeatWhile (body : Prog ℓ σ Bool) : Prog ℓ σ Unit := .loop body (.ret ())

/-- A scope with a lock guard. -/
def guarded (l : ℓ) (body : Prog ℓ σ α) : Prog ℓ σ α := do
  take l
  let a ← body
  release l
  return a

/-- One part for each element of a list. -/
def forEach (body : α → Prog ℓ σ Unit) : List α → Prog ℓ σ Unit
  | [] => pure ()
  | a :: as => do
      body a
      forEach body as

/-! ## Programs alone -/

/-- What a program answers, and the state it leaves, when no other thread runs. -/
inductive Runs : {α : Type} → Prog ℓ σ α → σ → α → σ → Prop
  | ret {α : Type} (a : α) (s : σ) : Runs (.ret a) s a s
  | lock {α : Type} {l : ℓ} {k : Prog ℓ σ α} {s a s'} (rest : Runs k s a s') : Runs (.lock l k) s a s'
  | unlock {α : Type} {l : ℓ} {k : Prog ℓ σ α} {s a s'} (rest : Runs k s a s') :
      Runs (.unlock l k) s a s'
  | act {α β : Type} {f : σ → β × σ} {k : β → Prog ℓ σ α} {s a s'}
      (rest : Runs (k (f s).1) (f s).2 a s') : Runs (.act f k) s a s'
  | told {α β : Type} {k : β → Prog ℓ σ α} {s a s'} (b : β) (rest : Runs (k b) s a s') :
      Runs (.told β k) s a s'
  | loop {α : Type} {body : Prog ℓ σ Bool} {k : Prog ℓ σ α} {s a s'}
      (rest : Runs (body.bind fun again => if again then .loop body k else k) s a s') :
      Runs (.loop body k) s a s'

section Runs

variable {γ : Type} {l : ℓ} {s s' s'' : σ} {a : α} {b : β}

theorem bind_assoc (p : Prog ℓ σ α) (f : α → Prog ℓ σ β) (g : β → Prog ℓ σ γ) :
    (p.bind f).bind g = p.bind fun a => (f a).bind g := by
  induction p with
  | ret a => rfl
  | lock l k ih => exact congrArg (Prog.lock l) (ih f)
  | unlock l k ih => exact congrArg (Prog.unlock l) (ih f)
  | act h k ih => exact congrArg (Prog.act h) (funext fun b => ih b f)
  | told δ k ih => exact congrArg (Prog.told δ) (funext fun b => ih b f)
  | loop body k _ ih => exact congrArg (Prog.loop body) (ih f)

theorem bind_turn (body : Prog ℓ σ Bool) (k : Prog ℓ σ α) (f : α → Prog ℓ σ β) :
    (body.bind fun again => if again then .loop body k else k).bind f =
      body.bind fun again => if again then .loop body (k.bind f) else k.bind f := by
  rw [bind_assoc]
  congr 1
  funext again
  cases again with
  | true => rfl
  | false => rfl

theorem Runs.bind {p : Prog ℓ σ α} {f : α → Prog ℓ σ β} (h : p.Runs s a s')
    (next : (f a).Runs s' b s'') : (p >>= f).Runs s b s'' := by
  change (p.bind f).Runs s b s''
  induction h with
  | ret a s => exact next
  | lock _ ih => exact .lock (ih next)
  | unlock _ ih => exact .unlock (ih next)
  | act _ ih => exact .act (ih next)
  | told b _ ih => exact .told b (ih next)
  | @loop body k s a s' _ ih =>
      have rest := ih next
      rw [bind_turn] at rest
      exact .loop rest

theorem Runs.of_bind {p : Prog ℓ σ α} {f : α → Prog ℓ σ β} (h : (p >>= f).Runs s b s'') :
    ∃ a s', p.Runs s a s' ∧ (f a).Runs s' b s'' := by
  change (p.bind f).Runs s b s'' at h
  generalize hq : p.bind f = q at h
  -- Either `p` is at its end, or it makes the first step of the run.
  induction h generalizing p with
  | ret b s =>
      cases p with
      | ret a => exact ⟨a, s, .ret a s, (show f a = _ from hq) ▸ .ret b s⟩
      | _ => cases hq
  | lock rest ih =>
      cases p with
      | ret a => exact ⟨a, _, .ret a _, (show f a = _ from hq) ▸ .lock rest⟩
      | lock l k =>
          cases hq
          obtain ⟨a, s', front, back⟩ := ih rfl
          exact ⟨a, s', .lock front, back⟩
      | _ => cases hq
  | unlock rest ih =>
      cases p with
      | ret a => exact ⟨a, _, .ret a _, (show f a = _ from hq) ▸ .unlock rest⟩
      | unlock l k =>
          cases hq
          obtain ⟨a, s', front, back⟩ := ih rfl
          exact ⟨a, s', .unlock front, back⟩
      | _ => cases hq
  | act rest ih =>
      cases p with
      | ret a => exact ⟨a, _, .ret a _, (show f a = _ from hq) ▸ .act rest⟩
      | act g k =>
          cases hq
          obtain ⟨a, s', front, back⟩ := ih rfl
          exact ⟨a, s', .act front, back⟩
      | _ => cases hq
  | told c rest ih =>
      cases p with
      | ret a => exact ⟨a, _, .ret a _, (show f a = _ from hq) ▸ .told c rest⟩
      | told γ k =>
          cases hq
          obtain ⟨a, s', front, back⟩ := ih rfl
          exact ⟨a, s', .told c front, back⟩
      | _ => cases hq
  | loop rest ih =>
      cases p with
      | ret a => exact ⟨a, _, .ret a _, (show f a = _ from hq) ▸ .loop rest⟩
      | loop body k =>
          injection hq with _ hbody hk
          subst hbody hk
          obtain ⟨a, s', front, back⟩ := ih (bind_turn body k f)
          exact ⟨a, s', .loop front, back⟩
      | _ => cases hq

theorem runs_bind {p : Prog ℓ σ α} {f : α → Prog ℓ σ β} :
    (p >>= f).Runs s b s'' ↔ ∃ a s', p.Runs s a s' ∧ (f a).Runs s' b s'' := by
  constructor
  · exact Runs.of_bind
  · intro h
    rcases h with ⟨a, s', front, back⟩
    exact front.bind back

theorem runs_pure {a' : α} : (pure a : Prog ℓ σ α).Runs s a' s' ↔ a' = a ∧ s' = s := by
  constructor
  · intro h
    cases h with
    | ret => exact ⟨rfl, rfl⟩
  · intro h
    rcases h with ⟨rfl, rfl⟩
    exact .ret a' s'

theorem runs_access {f : σ → β × σ} :
    (access f : Prog ℓ σ β).Runs s b s' ↔ b = (f s).1 ∧ s' = (f s).2 := by
  constructor
  · intro h
    cases h with
    | act rest => exact runs_pure.mp rest
  · intro h
    exact .act (runs_pure.mpr h)

theorem runs_modify {f : σ → σ} {u : Unit} :
    (modify f : Prog ℓ σ Unit).Runs s u s' ↔ s' = f s :=
  runs_access.trans (and_iff_right rfl)

theorem runs_get_bind {f : σ → Prog ℓ σ β} : (get >>= f).Runs s b s' ↔ (f s).Runs s b s' := by
  constructor
  · intro h
    cases h with
    | act rest => exact rest
  · exact fun h => .act h

theorem runs_ask {β : Type} {b : β} : (ask β : Prog ℓ σ β).Runs s b s' ↔ s' = s := by
  constructor
  · intro h
    cases h with
    | told b rest => exact (runs_pure.mp rest).2
  · intro h
    exact .told b (runs_pure.mpr ⟨rfl, h⟩)

/-- A first part that answers nothing. -/
theorem runs_unit_bind {p : Prog ℓ σ Unit} {f : Unit → Prog ℓ σ β}
    (h : ∀ t, p.Runs s () t ↔ t = s'') : (p >>= f).Runs s b s' ↔ (f ()).Runs s'' b s' := by
  rw [runs_bind]
  constructor
  · intro run
    rcases run with ⟨⟨⟩, t, first, rest⟩
    rw [(h t).mp first] at rest
    exact rest
  · exact fun rest => ⟨(), s'', (h _).mpr rfl, rest⟩

theorem runs_take {u : Unit} : (take l : Prog ℓ σ Unit).Runs s u s' ↔ s' = s := by
  constructor
  · intro h
    cases h with
    | lock rest => exact (runs_pure.mp rest).2
  · exact fun h => .lock (runs_pure.mpr ⟨rfl, h⟩)

theorem runs_release {u : Unit} : (release l : Prog ℓ σ Unit).Runs s u s' ↔ s' = s := by
  constructor
  · intro h
    cases h with
    | unlock rest => exact (runs_pure.mp rest).2
  · exact fun h => .unlock (runs_pure.mpr ⟨rfl, h⟩)

/-- Locks make no difference to a program alone. -/
theorem runs_guarded {body : Prog ℓ σ α} : (guarded l body).Runs s a s' ↔ body.Runs s a s' := by
  unfold guarded
  rw [runs_unit_bind fun _ => runs_take, runs_bind]
  constructor
  · intro h
    rcases h with ⟨a', t, run, rest⟩
    rw [runs_unit_bind fun _ => runs_release, runs_pure] at rest
    rcases rest with ⟨rfl, rfl⟩
    exact run
  · intro h
    refine ⟨a, s', h, ?_⟩
    rw [runs_unit_bind fun _ => runs_release, runs_pure]
    exact ⟨rfl, rfl⟩

theorem runs_forEach {body : α → Prog ℓ σ Unit} {f : σ → α → σ} (as : List α)
    (h : ∀ a s s', (body a).Runs s () s' ↔ s' = f s a) {u : Unit} :
    (forEach body as).Runs s u s' ↔ s' = as.foldl f s := by
  induction as generalizing s with
  | nil => exact runs_pure.trans (and_iff_right rfl)
  | cons a as ih =>
      unfold forEach
      rw [runs_unit_bind (h a s)]
      exact ih

theorem runs_forEach_still {body : α → Prog ℓ σ Unit} (as : List α)
    (h : ∀ a s s', (body a).Runs s () s' ↔ s' = s) {u : Unit} :
    (forEach body as).Runs s u s' ↔ s' = s := by
  rw [runs_forEach as h]
  have still : as.foldl (fun s _ => s) s = s := by
    induction as with
    | nil => rfl
    | cons a as ih => exact ih
  rw [still]

end Runs

/-! ## Programs that respect the order -/

/-- Started with the locks `held`, the program takes locks above all those it holds,
releases locks that it holds, and ends with the locks `held'`. -/
def Ordered [LT ℓ] : {α : Type} → Prog ℓ σ α → Set ℓ → Set ℓ → Prop
  | _, .ret _, held, held' => held = held'
  | _, .lock l k, held, held' => (∀ x ∈ held, x < l) ∧ k.Ordered (insert l held) held'
  | _, .unlock l k, held, held' => l ∈ held ∧ k.Ordered (held \ {l}) held'
  | _, .act _ k, held, held' => ∀ b, (k b).Ordered held held'
  | _, .told _ k, held, held' => ∀ b, (k b).Ordered held held'
  | _, .loop body k, held, held' => body.Ordered held held ∧ k.Ordered held held'

section Ordered

variable [Preorder ℓ] {held held' held'' : Set ℓ} {l : ℓ}

theorem Ordered.bind {p : Prog ℓ σ α} {next : α → Prog ℓ σ β} (h : p.Ordered held held')
    (hnext : ∀ a, (next a).Ordered held' held'') : (p >>= next).Ordered held held'' := by
  change (p.bind next).Ordered held held''
  induction p generalizing held with
  | ret a =>
      cases h
      exact hnext a
  | lock l k ih => exact ⟨h.1, ih h.2 hnext⟩
  | unlock l k ih => exact ⟨h.1, ih h.2 hnext⟩
  | act f k ih => exact fun b => ih b (h b) hnext
  | told γ k ih => exact fun b => ih b (h b) hnext
  | loop body k _ ih => exact ⟨h.1, ih h.2 hnext⟩

theorem ordered_pure (a : α) : (pure a : Prog ℓ σ α).Ordered held held := rfl

theorem ordered_take (above : ∀ x ∈ held, x < l) :
    (take l : Prog ℓ σ Unit).Ordered held (insert l held) := ⟨above, rfl⟩

theorem ordered_release (mem : l ∈ held) :
    (release l : Prog ℓ σ Unit).Ordered held (held \ {l}) := ⟨mem, rfl⟩

theorem ordered_access (f : σ → β × σ) : (access f : Prog ℓ σ β).Ordered held held := fun _ => rfl

theorem ordered_get : (get : Prog ℓ σ σ).Ordered held held := ordered_access _

theorem ordered_modify (f : σ → σ) : (modify f : Prog ℓ σ Unit).Ordered held held :=
  ordered_access _

theorem ordered_ask (β : Type) : (ask β : Prog ℓ σ β).Ordered held held := fun _ => rfl

theorem ordered_repeatWhile {body : Prog ℓ σ Bool} (h : body.Ordered held held) :
    (repeatWhile body).Ordered held held := ⟨h, rfl⟩

theorem diff_insert_above (above : ∀ x ∈ held, x < l) : insert l held \ {l} = held := by
  apply Set.insert_sdiff_self_of_notMem
  exact fun mem => lt_irrefl l (above l mem)

theorem ordered_guarded {body : Prog ℓ σ α} (above : ∀ x ∈ held, x < l)
    (h : body.Ordered (insert l held) (insert l held)) :
    (guarded l body).Ordered held held := by
  apply (ordered_take above).bind
  intro _
  apply h.bind
  intro a
  have done := ordered_release (σ := σ) (Set.mem_insert l held)
  rw [diff_insert_above above] at done
  exact done.bind fun _ => ordered_pure a

theorem ordered_forEach {body : α → Prog ℓ σ Unit} {as : List α}
    (h : ∀ a ∈ as, (body a).Ordered held held) : (forEach body as).Ordered held held := by
  induction as with
  | nil => exact ordered_pure ()
  | cons a as ih =>
      obtain ⟨here, h⟩ := List.forall_mem_cons.mp h
      exact here.bind fun _ => ih h

end Ordered

end Prog

/-! ## Threads -/

/-- The shared state, who holds each lock, and what is left of each thread's program. -/
structure World (ι ℓ σ : Type) : Type 1 where
  state : σ
  owner : ℓ → Option ι
  prog : ι → Prog ℓ σ Unit

section World

variable {ι ℓ σ : Type}

/-- All threads are idle. -/
def World.idle (s : σ) : World ι ℓ σ where
  state := s
  owner := fun _ => none
  prog := fun _ => .ret ()

/-- One step of one thread.  An idle thread may start any of its calls. -/
inductive Step [DecidableEq ι] [DecidableEq ℓ] (calls : ι → Prog ℓ σ Unit → Prop)
    (w : World ι ℓ σ) : World ι ℓ σ → Prop
  | start {t p} (idle : w.prog t = .ret ()) (call : calls t p) :
      Step calls w { w with prog := Function.update w.prog t p }
  | lock {t l k} (left : w.prog t = .lock l k) (free : w.owner l = none) :
      Step calls w { w with
        owner := Function.update w.owner l (some t)
        prog := Function.update w.prog t k }
  | unlock {t l k} (left : w.prog t = .unlock l k) (own : w.owner l = some t) :
      Step calls w { w with
        owner := Function.update w.owner l none
        prog := Function.update w.prog t k }
  | act {t} {β : Type} {f : σ → β × σ} {k} (left : w.prog t = .act f k) :
      Step calls w { w with
        state := (f w.state).2
        prog := Function.update w.prog t (k (f w.state).1) }
  | told {t} {β : Type} {k} (left : w.prog t = .told β k) (b : β) :
      Step calls w { w with prog := Function.update w.prog t (k b) }
  | loop {t body k} (left : w.prog t = .loop body k) :
      Step calls w { w with
        prog := Function.update w.prog t (body.bind fun again => if again then .loop body k else k) }

/-- What runs lead to. -/
def Reachable [DecidableEq ι] [DecidableEq ℓ] (calls : ι → Prog ℓ σ Unit → Prop) (s : σ) (w : World ι ℓ σ) : Prop :=
  Relation.ReflTransGen (Step calls) (.idle s) w

namespace World

/-- The thread is about to take the lock. -/
def Wants (w : World ι ℓ σ) (t : ι) (l : ℓ) : Prop := ∃ k, w.prog t = .lock l k

/-- Each of the threads waits for a lock that another one of them holds. -/
def Deadlocked (w : World ι ℓ σ) (threads : Finset ι) : Prop :=
  threads.Nonempty ∧
    ∀ t ∈ threads, ∃ l, w.Wants t l ∧ ∃ u ∈ threads, u ≠ t ∧ w.owner l = some u

def held (w : World ι ℓ σ) (t : ι) : Set ℓ := {l | w.owner l = some t}

/-- What is left of each program respects the order. -/
def Disciplined [LT ℓ] (w : World ι ℓ σ) : Prop := ∀ t, (w.prog t).Ordered (w.held t) ∅

variable {w w' : World ι ℓ σ} {calls : ι → Prog ℓ σ Unit → Prop} {t u : ι} {l : ℓ}

section Owner

variable [DecidableEq ι] [DecidableEq ℓ]

theorem held_take (free : w.owner l = none) :
    {x | Function.update w.owner l (some t) x = some u} =
      if u = t then insert l (w.held t) else w.held u := by
  ext x
  by_cases hx : x = l
  · subst hx
    by_cases hu : u = t
    · simp [hu]
    · simp [hu, held, free, Ne.symm hu]
  · by_cases hu : u = t
    · simp [hu, held, hx]
    · simp [hu, held, hx]

theorem held_release (own : w.owner l = some t) :
    {x | Function.update w.owner l none x = some u} =
      if u = t then w.held t \ {l} else w.held u := by
  ext x
  by_cases hx : x = l
  · subst hx
    by_cases hu : u = t
    · simp [hu]
    · simp [hu, held, own, Ne.symm hu]
  · by_cases hu : u = t
    · simp [hu, held, hx]
    · simp [hu, held, hx]

end Owner

variable [Preorder ℓ]

/-- Whoever holds a wanted lock wants a lock above it, if any. -/
theorem Disciplined.above (h : w.Disciplined) {l' : ℓ} (own : w.owner l = some t)
    (wants : w.Wants t l') : l < l' := by
  obtain ⟨k, left⟩ := wants
  have now := h t
  rw [left] at now
  exact now.1 l own

variable [DecidableEq ι]

/-- One thread goes on, and the others keep their locks. -/
theorem Disciplined.update {s : σ} {owner : ℓ → Option ι} {p : Prog ℓ σ Unit} {locks : Set ℓ}
    (h : w.Disciplined)
    (owned : ∀ u, {x | owner x = some u} = if u = t then locks else w.held u)
    (left : p.Ordered locks ∅) :
    Disciplined { state := s, owner := owner, prog := Function.update w.prog t p } := by
  intro u
  change (Function.update w.prog t p u).Ordered {x | owner x = some u} ∅
  rw [owned u]
  by_cases hu : u = t
  · subst hu
    rw [Function.update_self, if_pos rfl]
    exact left
  · rw [Function.update_of_ne hu, if_neg hu]
    exact h u

variable [DecidableEq ℓ]

theorem Disciplined.step (ordered : ∀ t p, calls t p → p.Ordered ∅ ∅) (h : w.Disciplined)
    (step : Step calls w w') : w'.Disciplined := by
  have same : ∀ t u, w.held u = if u = t then w.held t else w.held u := by
    intro t u
    split
    · rename_i hu
      rw [hu]
    · rfl
  cases step with
  | @start t p idle call =>
      have none : w.held t = ∅ := by
        have now := h t
        rw [idle] at now
        exact now
      exact h.update (same t) (none ▸ ordered t p call)
  | @lock t l k left free =>
      have now := h t
      rw [left] at now
      exact h.update (fun u => held_take free) now.2
  | @unlock t l k left own =>
      have now := h t
      rw [left] at now
      exact h.update (fun u => held_release own) now.2
  | @act t β f k left =>
      have now := h t
      rw [left] at now
      exact h.update (same t) (now _)
  | @told t β k left b =>
      have now := h t
      rw [left] at now
      exact h.update (same t) (now b)
  | @loop t body k left =>
      have now := h t
      rw [left] at now
      refine h.update (same t) (now.1.bind fun again => ?_)
      cases again with
      | true => exact now
      | false => exact now.2

theorem disciplined_of_reachable (ordered : ∀ t p, calls t p → p.Ordered ∅ ∅) {s : σ}
    (reach : Reachable calls s w) : w.Disciplined := by
  induction reach with
  | refl =>
      intro t
      apply Set.eq_empty_of_forall_notMem
      exact fun l mem => nomatch mem
  | tail _ step ih => exact ih.step ordered step

/-- Threads whose calls respect the order never wait for each other in a circle. -/
theorem no_deadlock (ordered : ∀ t p, calls t p → p.Ordered ∅ ∅) {s : σ}
    (reach : Reachable calls s w) (threads : Finset ι) : ¬ w.Deadlocked threads := by
  intro dead
  have disciplined := disciplined_of_reachable ordered reach
  obtain ⟨⟨t₀, mem₀⟩, waits⟩ := dead
  obtain ⟨l₀, -⟩ := waits t₀ mem₀
  have wanted : ∀ t, ∃ l, t ∈ threads → w.Wants t l ∧ ∃ u ∈ threads, u ≠ t ∧ w.owner l = some u := by
    intro t
    by_cases mem : t ∈ threads
    · obtain ⟨l, hl⟩ := waits t mem
      exact ⟨l, fun _ => hl⟩
    · exact ⟨l₀, fun h => absurd h mem⟩
  choose lock wanted using wanted
  -- A thread that waits for a lock with none above it.
  obtain ⟨t, mem, highest⟩ := threads.exists_maximalFor lock ⟨t₀, mem₀⟩
  obtain ⟨-, u, hu, -, own⟩ := wanted t mem
  have lt : lock t < lock u := disciplined.above own (wanted u hu).1
  exact lt.not_ge (highest hu lt.le)

end World

end World

end LockOrder
