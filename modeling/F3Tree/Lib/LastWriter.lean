import Mathlib.Data.List.MinMax
import Mathlib.Data.List.Sort
import Mathlib.Logic.Function.Basic

/-!
# Stamped writes and the last writer

A `Write` names a key, the value it gives to that key, and a stamp.  `applyAll`
performs a list of writes in list order; `newest` picks, for one key, the write
with the largest stamp, and `resolve` is the value it leaves.

Where the stamps of a key's writes determine the write (`DistinctAt`), the
newest write depends on the set of writes only (`newest_congr`), and the two ways
in which replay machinery resolves a list of writes agree with it: performing
all of them in stamp order (`applyAll_of_sorted`), and performing, in any order,
those that a filter recognises as the newest of their key
(`applyAll_filter_newest_of_mem`).
-/

namespace LastWriter

/-- What a replay needs to know about an operation. -/
class Write (ω : Type) (κ ν : outParam Type) where
  key : ω → κ
  val : ω → ν
  stamp : ω → Nat

open Write

variable {ω κ ν : Type} [Write ω κ ν]

/-- The stamp determines the write among the writes of `k`. -/
def DistinctAt (ws : List ω) (k : κ) : Prop :=
  ∀ w ∈ ws, ∀ w' ∈ ws, key w = k → key w' = k → stamp w = stamp w' → w = w'

/-- The stamp determines the write. -/
def DistinctStamps (ws : List ω) : Prop :=
  ∀ w ∈ ws, ∀ w' ∈ ws, stamp w = stamp w' → w = w'

theorem DistinctStamps.at {ws : List ω} (distinct : DistinctStamps ws) (k : κ) :
    DistinctAt ws k :=
  fun w mem w' mem' _ _ => distinct w mem w' mem'

theorem DistinctStamps.mono {ws ws' : List ω} (distinct : DistinctStamps ws)
    (sub : ∀ w ∈ ws', w ∈ ws) : DistinctStamps ws' :=
  fun w mem w' mem' => distinct w (sub w mem) w' (sub w' mem')

/-- Writes listed with increasing stamps have distinct ones. -/
theorem distinctStamps_of_pairwise {ws : List ω}
    (sorted : ws.Pairwise fun w w' => stamp w < stamp w') : DistinctStamps ws := by
  have apart : ws.Pairwise fun w w' => stamp w = stamp w' → w = w' :=
    sorted.imp fun h heq => absurd heq h.ne
  have flipped : ws.Pairwise (flip fun w w' => stamp w = stamp w' → w = w') :=
    sorted.imp fun h heq => absurd heq h.ne'
  intro w mem w' mem'
  exact apart.forall_of_forall_of_flip (fun _ _ _ => rfl) flipped mem mem'

theorem DistinctAt.mono {ws ws' : List ω} {k : κ} (distinct : DistinctAt ws k)
    (sub : ∀ w ∈ ws', w ∈ ws) : DistinctAt ws' k :=
  fun w mem w' mem' => distinct w (sub w mem) w' (sub w' mem')

/-- A key's value once the newest of some writes is known. -/
def resolve (old : ν) : Option ω → ν
  | none => old
  | some w => val w

@[simp]
theorem resolve_none (old : ν) : resolve old (none : Option ω) = old := rfl

@[simp]
theorem resolve_some (old : ν) (w : ω) : resolve old (some w) = val w := rfl

/-- Resolving twice is resolving once, with the later write first in line. -/
theorem resolve_resolve (old : ν) (earlier later : Option ω) :
    resolve (resolve old earlier) later = resolve old (later.or earlier) := by
  cases later <;> rfl

variable [DecidableEq κ]

/-- Perform the writes in list order. -/
def applyAll (f : κ → ν) (ws : List ω) : κ → ν :=
  ws.foldl (fun f w => Function.update f (key w) (val w)) f

/-- The write of `k` with the largest stamp, the first of them in list order. -/
def newest (ws : List ω) (k : κ) : Option ω :=
  (ws.filter fun w => key w = k).argmax stamp

/-! ## Performing writes -/

@[simp]
theorem applyAll_nil (f : κ → ν) : applyAll f ([] : List ω) = f := rfl

theorem applyAll_cons (f : κ → ν) (w : ω) (ws : List ω) :
    applyAll f (w :: ws) = applyAll (Function.update f (key w) (val w)) ws := rfl

theorem applyAll_append (f : κ → ν) (ws ws' : List ω) :
    applyAll f (ws ++ ws') = applyAll (applyAll f ws) ws' :=
  List.foldl_append

/-- Writes of other keys leave a key alone. -/
theorem applyAll_of_forall_ne {f : κ → ν} {k : κ} {ws : List ω}
    (other : ∀ w ∈ ws, key w ≠ k) : applyAll f ws k = f k := by
  induction ws generalizing f with
  | nil => rfl
  | cons w ws ih =>
      rw [applyAll_cons, ih fun w' mem => other w' (List.mem_cons_of_mem w mem)]
      exact Function.update_of_ne (other w List.mem_cons_self).symm _ _

/-- When all writes of `k` agree, they decide together. -/
theorem applyAll_of_forall_val {f : κ → ν} {k : κ} {v : ν} {ws : List ω}
    (some_write : ∃ w ∈ ws, key w = k) (agree : ∀ w ∈ ws, key w = k → val w = v) :
    applyAll f ws k = v := by
  induction ws generalizing f with
  | nil => simp at some_write
  | cons w ws ih =>
      have agree' : ∀ w' ∈ ws, key w' = k → val w' = v := fun w' mem =>
        agree w' (List.mem_cons_of_mem w mem)
      rw [applyAll_cons]
      by_cases later : ∃ w' ∈ ws, key w' = k
      · exact ih later agree'
      · push Not at later
        rw [applyAll_of_forall_ne later]
        obtain ⟨w', mem, hk⟩ := some_write
        rcases List.mem_cons.mp mem with rfl | mem
        · rw [← hk, Function.update_self]
          exact agree w' List.mem_cons_self hk
        · exact (later w' mem hk).elim

/-- Writes that agree with the value a key has leave it alone. -/
theorem applyAll_of_agree {f : κ → ν} {k : κ} {v : ν} {ws : List ω} (old : f k = v)
    (agree : ∀ w ∈ ws, key w = k → val w = v) : applyAll f ws k = v := by
  by_cases some_write : ∃ w ∈ ws, key w = k
  · exact applyAll_of_forall_val some_write agree
  · push Not at some_write
    rw [applyAll_of_forall_ne some_write, old]

/-! ## The newest write -/

@[simp]
theorem newest_nil (k : κ) : newest ([] : List ω) k = none := rfl

theorem newest_eq_none_iff {ws : List ω} {k : κ} :
    newest ws k = none ↔ ∀ w ∈ ws, key w ≠ k := by
  simp [newest, List.argmax_eq_none, List.filter_eq_nil_iff]

theorem mem_of_newest {ws : List ω} {k : κ} {w : ω} (h : newest ws k = some w) :
    w ∈ ws :=
  (List.mem_filter.mp (List.argmax_mem h)).1

theorem key_of_newest {ws : List ω} {k : κ} {w : ω} (h : newest ws k = some w) :
    key w = k := by
  simpa using (List.mem_filter.mp (List.argmax_mem h)).2

theorem stamp_le_of_newest {ws : List ω} {k : κ} {w w' : ω}
    (h : newest ws k = some w) (mem : w' ∈ ws) (hk : key w' = k) :
    stamp w' ≤ stamp w :=
  List.le_of_mem_argmax (List.mem_filter.mpr ⟨mem, by simpa using hk⟩) h

theorem exists_newest {ws : List ω} {k : κ} {w : ω} (mem : w ∈ ws) (hk : key w = k) :
    ∃ w', newest ws k = some w' := by
  rw [← Option.isSome_iff_exists, ← Option.ne_none_iff_isSome, Ne, newest_eq_none_iff]
  exact fun none => none w mem hk

/-- Under distinct stamps, the newest write is the one no other exceeds. -/
theorem newest_eq_some_iff {ws : List ω} {k : κ} (distinct : DistinctAt ws k) {w : ω} :
    newest ws k = some w ↔
      w ∈ ws ∧ key w = k ∧ ∀ w' ∈ ws, key w' = k → stamp w' ≤ stamp w := by
  constructor
  · exact fun h => ⟨mem_of_newest h, key_of_newest h, fun w' mem hk =>
      stamp_le_of_newest h mem hk⟩
  · rintro ⟨mem, hk, top⟩
    obtain ⟨w', h⟩ := exists_newest mem hk
    have heq : w' = w :=
      distinct w' (mem_of_newest h) w mem (key_of_newest h) hk
        (Nat.le_antisymm (top w' (mem_of_newest h) (key_of_newest h))
          (stamp_le_of_newest h mem hk))
    rw [h, heq]

/-- The newest write depends on the set of the key's writes only. -/
theorem newest_congr {ws ws' : List ω} {k : κ} (distinct : DistinctAt ws k)
    (same : ∀ w, key w = k → (w ∈ ws ↔ w ∈ ws')) : newest ws k = newest ws' k := by
  have distinct' : DistinctAt ws' k := fun w mem w' mem' hk hk' =>
    distinct w ((same w hk).mpr mem) w' ((same w' hk').mpr mem') hk hk'
  rcases h : newest ws' k with _ | w
  · rw [newest_eq_none_iff] at h ⊢
    exact fun w mem hk => h w ((same w hk).mp mem) hk
  · rw [newest_eq_some_iff distinct'] at h
    rw [newest_eq_some_iff distinct]
    exact ⟨(same w h.2.1).mpr h.1, h.2.1, fun w' mem hk =>
      h.2.2 w' ((same w' hk).mp mem) hk⟩

/-- One more write at the end of the list. -/
theorem newest_append_singleton (ws : List ω) (w : ω) (k : κ) :
    newest (ws ++ [w]) k =
      if key w = k then
        match newest ws k with
        | none => some w
        | some w' => if stamp w' < stamp w then some w else some w'
      else newest ws k := by
  rw [newest, List.filter_append]
  by_cases hk : key w = k
  · rw [if_pos hk, List.filter_cons_of_pos (by simpa using hk), List.filter_nil,
      List.argmax_concat, ← newest]
    rcases newest ws k with _ | w' <;> rfl
  · rw [if_neg hk, List.filter_cons_of_neg (by simpa using hk), List.filter_nil,
      List.append_nil]
    rfl

/-- A write with a stamp above all others is the newest of its key. -/
theorem newest_concat {ws : List ω} {w : ω} (above : ∀ w' ∈ ws, stamp w' < stamp w)
    (k : κ) :
    newest (ws ++ [w]) k = if key w = k then some w else newest ws k := by
  rw [newest_append_singleton]
  by_cases hk : key w = k
  · rw [if_pos hk, if_pos hk]
    rcases h : newest ws k with _ | w'
    · rfl
    · exact if_pos (above w' (mem_of_newest h))
  · rw [if_neg hk, if_neg hk]

/-! ## Two ways of resolving a list of writes -/

/-- Performing all writes in stamp order leaves every key with its newest
value. -/
theorem applyAll_of_sorted {ws : List ω}
    (sorted : ws.Pairwise fun w w' => stamp w ≤ stamp w') (f : κ → ν) {k : κ}
    (distinct : DistinctAt ws k) :
    applyAll f ws k = resolve (f k) (newest ws k) := by
  induction ws using List.reverseRecOn with
  | nil => rfl
  | append_singleton ws w ih =>
      rw [List.pairwise_append] at sorted
      rw [newest_append_singleton, applyAll_append, applyAll_cons, applyAll_nil]
      by_cases hk : key w = k
      · rw [if_pos hk, ← hk, Function.update_self]
        rcases top : newest ws (key w) with _ | w'
        · rfl
        · have hle : stamp w' ≤ stamp w :=
            sorted.2.2 w' (mem_of_newest top) w List.mem_cons_self
          rcases hle.lt_or_eq with hlt | heq
          · simp only [if_pos hlt, resolve_some]
          · have same : w' = w :=
              distinct w' (List.mem_append_left _ (mem_of_newest top)) w (by simp)
                ((key_of_newest top).trans hk) hk heq
            simp only [same, lt_irrefl, if_false, resolve_some]
      · rw [if_neg hk, Function.update_of_ne (Ne.symm hk),
          ih sorted.1 (distinct.mono fun w mem => List.mem_append_left _ mem)]

/-- Performing, in any order, just the writes that are the newest of their key
gives a key its newest value when that write is among them. -/
theorem applyAll_filter_newest_of_mem {ws all : List ω} {p : ω → Bool} {k : κ}
    (hp : ∀ w ∈ ws, key w = k → (p w = true ↔ newest all k = some w)) (f : κ → ν)
    {w : ω} (top : newest all k = some w) (mem : w ∈ ws) :
    applyAll f (ws.filter p) k = val w := by
  have hk : key w = k := key_of_newest top
  refine applyAll_of_forall_val
    ⟨w, List.mem_filter.mpr ⟨mem, (hp w mem hk).mpr top⟩, hk⟩ ?_
  intro w' mem' hk'
  obtain ⟨mem', pass⟩ := List.mem_filter.mp mem'
  have top' := (hp w' mem' hk').mp pass
  rw [top, Option.some.injEq] at top'
  rw [top']

/-- The same replay leaves a key alone when its newest write is not among
them. -/
theorem applyAll_filter_newest_of_not_mem {ws all : List ω} {p : ω → Bool} {k : κ}
    (hp : ∀ w ∈ ws, key w = k → (p w = true ↔ newest all k = some w)) (f : κ → ν)
    (notMem : ∀ w, newest all k = some w → w ∉ ws) :
    applyAll f (ws.filter p) k = f k := by
  refine applyAll_of_forall_ne fun w mem hk => ?_
  obtain ⟨mem, pass⟩ := List.mem_filter.mp mem
  exact notMem w ((hp w mem hk).mp pass) mem

end LastWriter
