import Mathlib.Data.List.Basic
import Mathlib.Order.Lattice
import Mathlib.Tactic.Common

/-!
# Cutting a list at a key

A list ordered by key falls at each key `k` into the elements up to `k` and those
above it (`Cut`).  An insertion into the list goes to the cut, and a list that is
glued together from pieces is cut in the piece of the last element up to `k`.
-/

namespace Keyed

variable {α β κ : Type} [LinearOrder κ] {key : α → κ} {k : κ}

/-- `below` are the elements of `l` with a key up to `k`, `above` the others, in
this order. -/
structure Cut (key : α → κ) (k : κ) (l below above : List α) : Prop where
  eq : l = below ++ above
  le : ∀ x ∈ below, key x ≤ k
  lt : ∀ x ∈ above, k < key x

/-- Keys do not decrease along the list. -/
def Ordered (key : α → κ) (l : List α) : Prop := l.Pairwise fun x y => key x ≤ key y

theorem Ordered.cut {l : List α} (ordered : Ordered key l) (k : κ) :
    ∃ below above, Cut key k l below above := by
  induction l with
  | nil => exact ⟨[], [], rfl, by simp, by simp⟩
  | cons x l ih =>
      obtain ⟨first, rest⟩ := List.pairwise_cons.mp ordered
      by_cases hx : key x ≤ k
      · obtain ⟨below, above, rfl, le, lt⟩ := ih rest
        refine ⟨x :: below, above, rfl, fun y mem => ?_, lt⟩
        rcases List.mem_cons.mp mem with rfl | mem
        · exact hx
        · exact le y mem
      · refine ⟨[], x :: l, rfl, by simp, fun y mem => ?_⟩
        rcases List.mem_cons.mp mem with rfl | mem
        · exact lt_of_not_ge hx
        · exact lt_of_lt_of_le (lt_of_not_ge hx) (first y mem)

/-- A list is cut in one way only. -/
theorem Cut.unique {l below above below' above' : List α} (cut : Cut key k l below above)
    (cut' : Cut key k l below' above') : below = below' ∧ above = above' := by
  obtain ⟨rfl, le, lt⟩ := cut
  obtain ⟨heq, le', lt'⟩ := cut'
  induction below generalizing below' with
  | nil =>
      cases below' with
      | nil => exact ⟨rfl, heq⟩
      | cons x below' =>
          rw [List.nil_append, List.cons_append] at heq
          exact absurd (le' x List.mem_cons_self)
            (not_le_of_gt (lt x (heq ▸ List.mem_cons_self)))
  | cons x below ih =>
      cases below' with
      | nil =>
          rw [List.nil_append, List.cons_append] at heq
          exact absurd (le x List.mem_cons_self)
            (not_le_of_gt (lt' x (heq ▸ List.mem_cons_self)))
      | cons y below' =>
          obtain ⟨rfl, tail⟩ := List.cons.inj heq
          obtain ⟨rfl, rfl⟩ := ih (fun z mem => le z (List.mem_cons_of_mem _ mem)) tail
            fun z mem => le' z (List.mem_cons_of_mem _ mem)
          exact ⟨rfl, rfl⟩

omit [LinearOrder κ] in
/-- A list falls in one way only at the first element with a key. -/
theorem first_unique {front back front' back' : List α} {x x' : α}
    (heq : front ++ x :: back = front' ++ x' :: back') (first : ∀ y ∈ front, key y ≠ key x')
    (first' : ∀ y ∈ front', key y ≠ key x) : front = front' ∧ x = x' ∧ back = back' := by
  induction front generalizing front' with
  | nil =>
      cases front' with
      | nil =>
          obtain ⟨rfl, rfl⟩ := List.cons.inj heq
          exact ⟨rfl, rfl, rfl⟩
      | cons y front' =>
          obtain ⟨rfl, -⟩ := List.cons.inj heq
          exact absurd rfl (first' x List.mem_cons_self)
  | cons z front ih =>
      cases front' with
      | nil =>
          obtain ⟨rfl, -⟩ := List.cons.inj heq
          exact absurd rfl (first z List.mem_cons_self)
      | cons y front' =>
          obtain ⟨rfl, tail⟩ := List.cons.inj heq
          obtain ⟨rfl, rest⟩ := ih tail (fun w mem => first w (List.mem_cons_of_mem _ mem))
            fun w mem => first' w (List.mem_cons_of_mem _ mem)
          exact ⟨rfl, rest⟩

theorem Ordered.append {l l' : List α} (ordered : Ordered key l) (ordered' : Ordered key l')
    (le : ∀ x ∈ l, ∀ y ∈ l', key x ≤ key y) : Ordered key (l ++ l') :=
  List.pairwise_append.mpr ⟨ordered, ordered', le⟩

/-- Without a key twice, the elements in front of one lie below it. -/
theorem Ordered.lt_of_nodup {before after : List α} {x : α}
    (ordered : Ordered key (before ++ x :: after))
    (nodup : ((before ++ x :: after).map key).Nodup) : ∀ y ∈ before, key y < key x := by
  intro y mem
  rw [List.map_append] at nodup
  refine lt_of_le_of_ne ((List.pairwise_append.mp ordered).2.2 y mem x List.mem_cons_self) ?_
  exact (List.nodup_append.mp nodup).2.2 _ (List.mem_map_of_mem mem) _
    (List.mem_map_of_mem List.mem_cons_self)

/-- An element put at the cut of its key keeps the order. -/
theorem Cut.ordered_insert {l below above : List α} (ordered : Ordered key l) {x : α}
    (cut : Cut key (key x) l below above) : Ordered key (below ++ x :: above) := by
  obtain ⟨rfl, le, lt⟩ := cut
  obtain ⟨ordered, ordered', across⟩ := List.pairwise_append.mp ordered
  refine List.pairwise_append.mpr
    ⟨ordered, List.pairwise_cons.mpr ⟨fun y mem => (lt y mem).le, ordered'⟩, fun y mem z mem' => ?_⟩
  rcases List.mem_cons.mp mem' with rfl | mem'
  · exact le y mem
  · exact across y mem z mem'

/-- The pieces of a list are cut in the piece of the last element up to `k`. -/
theorem Cut.flatMap {row before after : List β} {home : β} {f : β → List α}
    {below above : List α} (hrow : row = before ++ home :: after)
    (cut : Cut key k (f home) below above)
    (le : ∀ s ∈ before, ∀ x ∈ f s, key x ≤ k) (lt : ∀ s ∈ after, ∀ x ∈ f s, k < key x) :
    Cut key k (row.flatMap f) (before.flatMap f ++ below) (above ++ after.flatMap f) := by
  refine ⟨?_, fun x mem => ?_, fun x mem => ?_⟩
  · rw [hrow, List.flatMap_append, List.flatMap_cons, cut.eq]
    simp only [List.append_assoc]
  · rcases List.mem_append.mp mem with mem | mem
    · obtain ⟨s, hs, hx⟩ := List.mem_flatMap.mp mem
      exact le s hs x hx
    · exact cut.le x mem
  · rcases List.mem_append.mp mem with mem | mem
    · exact cut.lt x mem
    · obtain ⟨s, hs, hx⟩ := List.mem_flatMap.mp mem
      exact lt s hs x hx

/-- The cut at a key that is not below the first one has a last element up to it. -/
theorem Cut.exists_last {x : α} {rest below above : List α}
    (cut : Cut key k (x :: rest) below above) (first : key x ≤ k) :
    ∃ init c, below = init ++ [c] := by
  rcases List.eq_nil_or_concat below with rfl | ⟨init, c, rfl⟩
  · have heq : x :: rest = above := cut.eq
    exact absurd first (not_le_of_gt (cut.lt x (heq ▸ List.mem_cons_self)))
  · exact ⟨init, c, List.concat_eq_append⟩

theorem Cut.split {l before after : List α} {c : α} (cut : Cut key k l (before ++ [c]) after) :
    l = before ++ c :: after := by
  rw [cut.eq, List.append_assoc, List.singleton_append]

theorem Cut.last_le {l before after : List α} {c : α}
    (cut : Cut key k l (before ++ [c]) after) : key c ≤ k :=
  cut.le c (List.mem_append_right _ List.mem_cons_self)

/-- `x` is put behind the last element up to `k`. -/
theorem Cut.mem_behind {l before after : List α} {c x y : α}
    (cut : Cut key k l (before ++ [c]) after) :
    y ∈ before ++ c :: x :: after ↔ y ∈ l ∨ y = x := by
  rw [cut.split]
  simp only [List.mem_append, List.mem_cons]
  tauto

theorem Cut.strict_behind {l before after : List α} {c x : α}
    (cut : Cut key k l (before ++ [c]) after) (strict : l.Pairwise fun y z => key y < key z)
    (ltLast : key c < key x) (ltAfter : ∀ y ∈ after, key x < key y) :
    (before ++ c :: x :: after).Pairwise fun y z => key y < key z := by
  rw [cut.split] at strict
  obtain ⟨left, behind, across⟩ := List.pairwise_append.mp strict
  obtain ⟨ltBehind, behind⟩ := List.pairwise_cons.mp behind
  refine List.pairwise_append.mpr ⟨left, ?_, fun y hy z hz => ?_⟩
  · exact List.pairwise_cons.mpr ⟨List.forall_mem_cons.mpr ⟨ltLast, ltBehind⟩,
      List.pairwise_cons.mpr ⟨ltAfter, behind⟩⟩
  · have hc := across y hy c List.mem_cons_self
    rcases List.mem_cons.mp hz with rfl | hz
    · exact hc
    · rcases List.mem_cons.mp hz with rfl | hz
      · exact hc.trans ltLast
      · exact across y hy z (List.mem_cons_of_mem _ hz)

/-- A map that keeps the keys keeps the cuts. -/
theorem Cut.map {key' : β → κ} {f : α → β} (same : ∀ x, key' (f x) = key x)
    {l below above : List α} (cut : Cut key k l below above) :
    Cut key' k (l.map f) (below.map f) (above.map f) := by
  obtain ⟨rfl, le, lt⟩ := cut
  refine ⟨List.map_append, fun y mem => ?_, fun y mem => ?_⟩
  · obtain ⟨x, hx, rfl⟩ := List.mem_map.mp mem
    exact same x ▸ le x hx
  · obtain ⟨x, hx, rfl⟩ := List.mem_map.mp mem
    exact same x ▸ lt x hx

/-- Nothing lies above the cut at a key that bounds the list. -/
theorem Cut.of_forall_le {l : List α} (le : ∀ x ∈ l, key x ≤ k) : Cut key k l l [] :=
  ⟨(List.append_nil l).symm, le, by simp⟩

/-! ## Insertion at the cut -/

/-- `l'` is `l` with `x` put at the cut of its key. -/
def Inserted (key : α → κ) (x : α) (l l' : List α) : Prop :=
  ∃ below above, Cut key (key x) l below above ∧ l' = below ++ x :: above

namespace Inserted

variable {x : α} {l l' : List α}

theorem unique {l'' : List α} (ins : Inserted key x l l') (ins' : Inserted key x l l'') :
    l' = l'' := by
  obtain ⟨below, above, cut, rfl⟩ := ins
  obtain ⟨below', above', cut', rfl⟩ := ins'
  obtain ⟨rfl, rfl⟩ := cut.unique cut'
  rfl

theorem perm (ins : Inserted key x l l') : l'.Perm (x :: l) := by
  obtain ⟨below, above, ⟨rfl, -, -⟩, rfl⟩ := ins
  exact List.perm_middle

theorem mem_iff (ins : Inserted key x l l') {y : α} : y ∈ l' ↔ y = x ∨ y ∈ l := by
  rw [ins.perm.mem_iff, List.mem_cons]

theorem exists_key_iff (ins : Inserted key x l l') (k : κ) :
    (∃ y ∈ l', key y = k) ↔ k = key x ∨ ∃ y ∈ l, key y = k := by
  simp only [ins.mem_iff]
  constructor
  · rintro ⟨y, rfl | mem, rfl⟩
    · exact Or.inl rfl
    · exact Or.inr ⟨y, mem, rfl⟩
  · rintro (rfl | ⟨y, mem, rfl⟩)
    · exact ⟨_, Or.inl rfl, rfl⟩
    · exact ⟨y, Or.inr mem, rfl⟩

/-- Elements in front that are not above the key stay in front. -/
theorem append_left (ins : Inserted key x l l') (front : List α)
    (le : ∀ y ∈ front, key y ≤ key x) : Inserted key x (front ++ l) (front ++ l') := by
  obtain ⟨below, above, ⟨rfl, le', lt⟩, rfl⟩ := ins
  refine ⟨front ++ below, above, ⟨(List.append_assoc ..).symm, fun y mem => ?_, lt⟩,
    (List.append_assoc ..).symm⟩
  exact (List.mem_append.mp mem).elim (le y) (le' y)

/-- Elements behind that are above the key stay behind. -/
theorem append_right (ins : Inserted key x l l') {back : List α}
    (lt : ∀ y ∈ back, key x < key y) : Inserted key x (l ++ back) (l' ++ back) := by
  obtain ⟨below, above, ⟨rfl, le, lt'⟩, rfl⟩ := ins
  refine ⟨below, above ++ back, ⟨List.append_assoc .., le, fun y mem => ?_⟩, by simp⟩
  exact (List.mem_append.mp mem).elim (lt' y) (lt y)

end Inserted

end Keyed
