import Mathlib.Tactic.Common
import F3Tree.Lib.Probing

/-!
# `HashMapTable`

The per-producer hashtable of `core/hash.h`: open addressing with a shared
tombstone node.  The three operations run the same probe loop; `probe` is that
loop, with `Insert`'s extra `delindex` bookkeeping carried in all three (the
other two never read it).

`init` and `delindex` start at `-1` in the source and are `none` here.  Keys
(`entry_key_t`, 64-bit signed integers) are integers throughout.
-/

namespace F3Tree

/-- One pointer of `HashTable **ht`: null, `DelNode::getNode()`, or a node. -/
inductive HashSlot : Type
  | null
  | delNode
  | node (k : Int) (v : Int)
deriving DecidableEq, Repr

structure HashMapTable : Type where
  capacity : Nat
  ht : Nat → HashSlot
  capacity_pos : 0 < capacity

theorem atLeastOne_pos (cap : Nat) : 0 < if 0 < cap then cap else 1 := by
  split <;> omega

namespace HashMapTable

/-- `init(cap)`. -/
def init (cap : Nat) : HashMapTable where
  capacity := if 0 < cap then cap else 1
  ht := fun _ => .null
  capacity_pos := atLeastOne_pos cap

/-- `HashFunc`: the absolute value of the key, as an unsigned 64-bit number,
modulo the capacity.  `natAbs` is that number for every 64-bit key, the
smallest one included (its negation wraps to itself, which reads as `2 ^ 63`). -/
def hashFunc (t : HashMapTable) (k : Int) : Nat := k.natAbs % t.capacity

/-- The state of a probe loop: `hash_val`, `init`, `delindex`. -/
structure Cursor : Type where
  hashVal : Nat
  init : Option Nat
  delindex : Option Nat

/-- The condition of the `while` loops. -/
def probing (t : HashMapTable) (k : Int) (c : Cursor) : Bool :=
  some c.hashVal != c.init &&
    match t.ht c.hashVal with
    | .null => false
    | .delNode => true
    | .node k' _ => k' != k

/-- The body of the `while` loops. -/
def advance (t : HashMapTable) (c : Cursor) : Cursor where
  hashVal := t.hashFunc (c.hashVal + 1)
  init := if c.init = none then some c.hashVal else c.init
  delindex := if t.ht c.hashVal = .delNode then some c.hashVal else c.delindex

/-- The `while` loop, for at most the given number of turns. -/
def probeLoop (t : HashMapTable) (k : Int) : Nat → Cursor → Cursor
  | 0, c => c
  | n + 1, c => if t.probing k c then t.probeLoop k n (t.advance c) else c

/-- The loop as the operations run it.  It leaves by its own condition within
`capacity` turns (`probing_probe`). -/
def probe (t : HashMapTable) (k : Int) : Cursor :=
  t.probeLoop k t.capacity ⟨t.hashFunc k, none, none⟩

def setSlot (t : HashMapTable) (i : Nat) (s : HashSlot) : HashMapTable :=
  { t with ht := Function.update t.ht i s }

/-- `Insert`. -/
def insert (t : HashMapTable) (k : Int) (v : Int) : HashMapTable :=
  let c := t.probe k
  let t :=
    if t.ht c.hashVal = .null ∨ some c.hashVal = c.init then
      match c.delindex with
      | some d => t.setSlot d (.node k v)
      | none => t.setSlot c.hashVal (.node k v)
    else t
  if c.init ≠ some c.hashVal then
    match t.ht c.hashVal with
    | .null => t
    | .node k' _ => if k' = k then t.setSlot c.hashVal (.node k v) else t
    | .delNode => t.setSlot c.hashVal (.node k v)
  else t

/-- `SearchKey`. -/
def searchKey (t : HashMapTable) (k : Int) : Int :=
  let c := t.probe k
  if t.ht c.hashVal = .null ∨ some c.hashVal = c.init then -1
  else
    match t.ht c.hashVal with
    | .node _ v => v
    | .null | .delNode => -1

/-- `Remove`. -/
def remove (t : HashMapTable) (k : Int) : HashMapTable :=
  let c := t.probe k
  if some c.hashVal ≠ c.init ∧ t.ht c.hashVal ≠ .null then
    t.setSlot c.hashVal .delNode
  else t

/-! ## The probe loop is a linear-probing search -/

/-- What a slot says about keys. -/
def cell (t : HashMapTable) (i : Nat) : Probing.Cell Int :=
  match t.ht i with
  | .null => .free
  | .delNode => .dead
  | .node k _ => .held k

/-- The slot at which the search for `k` stops. -/
def find (t : HashMapTable) (k : Int) : Option Nat :=
  Probing.find t.capacity t.hashFunc t.cell k

theorem hashFunc_lt (t : HashMapTable) (k : Int) : t.hashFunc k < t.capacity :=
  Nat.mod_lt _ t.capacity_pos

theorem hashFunc_succ (t : HashMapTable) (i : Nat) :
    t.hashFunc (i + 1) = (i + 1) % t.capacity := by
  rw [hashFunc]
  congr 1

@[simp]
theorem cell_eq_free {t : HashMapTable} {i : Nat} :
    t.cell i = .free ↔ t.ht i = .null := by
  rw [cell]
  split <;> simp_all

@[simp]
theorem cell_eq_dead {t : HashMapTable} {i : Nat} :
    t.cell i = .dead ↔ t.ht i = .delNode := by
  rw [cell]
  split <;> simp_all

@[simp]
theorem cell_eq_held {t : HashMapTable} {i : Nat} {k : Int} :
    t.cell i = .held k ↔ ∃ v, t.ht i = .node k v := by
  rw [cell]
  split <;> simp_all

/-- The loop condition, once the loop has left its first slot. -/
theorem probing_eq {t : HashMapTable} {k : Int} {c : Cursor} :
    t.probing k c = true ↔
      some c.hashVal ≠ c.init ∧ t.cell c.hashVal ≠ .free ∧
        t.cell c.hashVal ≠ .held k := by
  simp only [probing, cell, Bool.and_eq_true, bne_iff_ne]
  cases t.ht c.hashVal <;> simp

/-- What the loop knows about the slots it has left behind. -/
structure Passed (t : HashMapTable) (k : Int) (passed : List Nat)
    (delindex : Option Nat) : Prop where
  skipped : ∀ j ∈ passed, t.cell j ≠ .free ∧ t.cell j ≠ .held k
  tombstone : ∀ d, delindex = some d → d ∈ passed ∧ t.ht d = .delNode
  noTombstone : delindex = none → ∀ j ∈ passed, t.ht j ≠ .delNode

theorem Passed.step {t : HashMapTable} {k : Int} {passed : List Nat} {c : Cursor}
    (h : t.Passed k passed c.delindex) (free : t.cell c.hashVal ≠ .free)
    (held : t.cell c.hashVal ≠ .held k) :
    t.Passed k (passed ++ [c.hashVal]) (t.advance c).delindex := by
  refine ⟨?_, ?_, ?_⟩
  · intro j mem
    rcases List.mem_append.mp mem with mem | mem
    · exact h.skipped j mem
    · rw [List.mem_singleton.mp mem]
      exact ⟨free, held⟩
  · intro d hd
    by_cases hdel : t.ht c.hashVal = .delNode
    · rw [advance, if_pos hdel, Option.some.injEq] at hd
      subst hd
      exact ⟨by simp, hdel⟩
    · rw [advance, if_neg hdel] at hd
      exact ⟨List.mem_append_left _ (h.tombstone d hd).1, (h.tombstone d hd).2⟩
  · intro hnone j mem
    by_cases hdel : t.ht c.hashVal = .delNode
    · rw [advance, if_pos hdel] at hnone
      cases hnone
    · rw [advance, if_neg hdel] at hnone
      rcases List.mem_append.mp mem with mem | mem
      · exact h.noTombstone hnone j mem
      · rw [List.mem_singleton.mp mem]
        exact hdel

/-- How the probe loop ends: at a slot where the search stops, or back at its
start with every slot passed. -/
def Ends (t : HashMapTable) (k : Int) (c : Cursor) : Prop :=
  ∃ passed rest, Probing.probes t.capacity (t.hashFunc k) = passed ++ rest ∧
    t.Passed k passed c.delindex ∧
    ((∃ rest', rest = c.hashVal :: rest' ∧ some c.hashVal ≠ c.init ∧
        (t.cell c.hashVal = .free ∨ t.cell c.hashVal = .held k)) ∨
      (rest = [] ∧ c.hashVal = t.hashFunc k ∧ c.init = some (t.hashFunc k)))

/-- The loop after its first turn, by induction on the slots still ahead. -/
theorem probeLoop_ends (t : HashMapTable) (k : Int) :
    ∀ (n : Nat) (c : Cursor) (passed : List Nat),
      c.hashVal < t.capacity → c.init = some (t.hashFunc k) →
      Probing.probes t.capacity (t.hashFunc k) =
        passed ++ Probing.probesFrom t.capacity n c.hashVal →
      t.hashFunc k ∈ passed → (c.hashVal + n) % t.capacity = t.hashFunc k →
      t.Passed k passed c.delindex →
      t.Ends k (t.probeLoop k n c)
  | 0, c, passed, hlt, hinit, split, _, turn, h => by
      rw [Nat.add_zero, Nat.mod_eq_of_lt hlt] at turn
      exact ⟨passed, [], split, h, Or.inr ⟨rfl, turn, hinit⟩⟩
  | n + 1, c, passed, hlt, hinit, split, hmem, turn, h => by
      rw [probeLoop]
      have nodup := Probing.nodup_probes t.capacity (t.hashFunc k)
      rw [split, Probing.probesFrom, List.nodup_append] at nodup
      -- The start lies behind, so the current slot is another one.
      have hne : some c.hashVal ≠ c.init := by
        rw [hinit]
        intro eq
        exact nodup.2.2 _ hmem _ List.mem_cons_self (Option.some.inj eq).symm
      by_cases hcond : t.probing k c = true
      · rw [if_pos hcond]
        obtain ⟨-, free, held⟩ := probing_eq.mp hcond
        have hnext : (t.advance c).hashVal = (c.hashVal + 1) % t.capacity :=
          t.hashFunc_succ c.hashVal
        refine t.probeLoop_ends k n (t.advance c) (passed ++ [c.hashVal])
          (t.hashFunc_lt _) ?_ ?_ (List.mem_append_left _ hmem) ?_ (h.step free held)
        · rw [advance, hinit, if_neg (by simp)]
        · rw [hnext, split, Probing.probesFrom, List.append_assoc,
            List.singleton_append]
        · rw [hnext, Nat.mod_add_mod]
          rw [← turn]
          congr 1
          omega
      · rw [if_neg hcond]
        rw [probing_eq, not_and_or, not_and_or, not_not, not_not, not_not] at hcond
        refine ⟨passed, _, split, h, Or.inl ⟨_, rfl, hne, ?_⟩⟩
        exact hcond.resolve_left fun eq => hne eq

theorem probe_ends (t : HashMapTable) (k : Int) : t.Ends k (t.probe k) := by
  have hsucc : t.capacity = t.capacity - 1 + 1 := by
    have := t.capacity_pos
    omega
  have split := Probing.probes_eq_cons (t.hashFunc_lt k)
  rw [probe, hsucc, probeLoop]
  set c : Cursor := ⟨t.hashFunc k, none, none⟩ with hc
  have start : t.Passed k [] c.delindex := ⟨by simp, by simp [hc], by simp⟩
  by_cases hcond : t.probing k c = true
  · rw [if_pos hcond]
    obtain ⟨-, free, held⟩ := probing_eq.mp hcond
    have hnext : (t.advance c).hashVal = (t.hashFunc k + 1) % t.capacity :=
      t.hashFunc_succ (t.hashFunc k)
    refine t.probeLoop_ends k _ (t.advance c) [t.hashFunc k] (t.hashFunc_lt _) ?_ ?_
      List.mem_cons_self ?_ (start.step free held)
    · rw [advance, if_pos rfl]
    · rw [hnext]
      exact split
    · rw [hnext, Nat.mod_add_mod]
      have hturn : t.hashFunc k + 1 + (t.capacity - 1) = t.hashFunc k + t.capacity := by
        omega
      rw [hturn, Probing.walk_turn (t.hashFunc_lt k)]
  · rw [if_neg hcond]
    rw [probing_eq, not_and_or, not_and_or, not_not, not_not, not_not] at hcond
    refine ⟨[], _, rfl, start, Or.inl ⟨_, split, by simp [hc], ?_⟩⟩
    exact hcond.resolve_left (by simp [hc])

/-- The loop has left by its own condition: more turns would change nothing. -/
theorem probing_probe (t : HashMapTable) (k : Int) :
    t.probing k (t.probe k) = false := by
  obtain ⟨passed, rest, -, -, ⟨-, -, -, stop⟩ | ⟨-, hval, hinit⟩⟩ := t.probe_ends k
  · rw [← Bool.not_eq_true, probing_eq]
    rintro ⟨-, free, held⟩
    exact stop.elim free held
  · rw [← Bool.not_eq_true, probing_eq, hval, hinit]
    exact fun h => h.1 rfl

/-! ## What the operations do to the keys -/

/-- The table holds `k` with value `v`. -/
def Holds (t : HashMapTable) (k : Int) (v : Int) : Prop :=
  ∃ i, i < t.capacity ∧ t.ht i = .node k v

/-- No slot of the table holds `k`. -/
def Absent (t : HashMapTable) (k : Int) : Prop :=
  Probing.Absent t.capacity t.cell k

/-- The table's keys are where their searches stop. -/
def Wf (t : HashMapTable) : Prop :=
  Probing.Placed t.capacity t.hashFunc t.cell

/-- Inserting `k` finds neither `k` nor room, so it overwrites `k`'s home slot,
which holds `k'`. -/
def Evicts (t : HashMapTable) (k k' : Int) : Prop :=
  t.Absent k ∧ (∀ i, i < t.capacity → ∃ k'', t.cell i = .held k'') ∧
    t.cell (t.hashFunc k) = .held k'

theorem not_absent_iff {t : HashMapTable} {k : Int} :
    ¬ t.Absent k ↔ ∃ v, t.Holds k v := by
  simp only [Absent, Probing.Absent, not_forall, not_not, cell_eq_held, Holds]
  constructor
  · rintro ⟨i, hi, v, hv⟩
    exact ⟨v, i, hi, hv⟩
  · rintro ⟨v, i, hi, hv⟩
    exact ⟨i, hi, v, hv⟩

theorem wf_init (cap : Nat) : (init cap).Wf := by
  intro i hi k ci
  cases ci

theorem absent_init (cap : Nat) (k : Int) : (init cap).Absent k := by
  intro i hi ci
  cases ci

@[simp]
theorem cell_setSlot_node (t : HashMapTable) (i : Nat) (k : Int) (v : Int) :
    (t.setSlot i (.node k v)).cell = Function.update t.cell i (.held k) := by
  funext j
  by_cases hj : j = i
  · subst hj
    simp [cell, setSlot]
  · simp [cell, setSlot, Function.update_of_ne hj]

@[simp]
theorem setSlot_setSlot (t : HashMapTable) (i : Nat) (s s' : HashSlot) :
    (t.setSlot i s).setSlot i s' = t.setSlot i s' := by
  simp [setSlot]

@[simp]
theorem setSlot_ht (t : HashMapTable) (i : Nat) (s : HashSlot) :
    (t.setSlot i s).ht = Function.update t.ht i s := rfl

/-- `Insert` may write `k` to slot `i`: `k` is there already, or `k` is nowhere,
no free slot precedes `i` on `k`'s probe sequence, and `i` holds no key unless
every slot does and `i` is `k`'s home. -/
def Writable (t : HashMapTable) (k : Int) (i : Nat) : Prop :=
  t.cell i = .held k ∨
    t.Absent k ∧
      (∃ before after,
        Probing.probes t.capacity (t.hashFunc k) = before ++ i :: after ∧
          ∀ j ∈ before, t.cell j ≠ .free) ∧
      ((∀ k', t.cell i ≠ .held k') ∨
        (∀ j, j < t.capacity → ∃ k', t.cell j = .held k') ∧ i = t.hashFunc k)

/-- The slot a tombstone was seen at is writable for an absent key. -/
theorem Passed.writable {t : HashMapTable} {k : Int} {passed rest : List Nat}
    {delindex : Option Nat} {d : Nat} (h : t.Passed k passed delindex)
    (split : Probing.probes t.capacity (t.hashFunc k) = passed ++ rest)
    (absent : t.Absent k) (hd : delindex = some d) : t.Writable k d := by
  obtain ⟨mem, hdel⟩ := h.tombstone d hd
  obtain ⟨before, after, rfl⟩ := List.append_of_mem mem
  refine Or.inr ⟨absent, ⟨before, after ++ rest, by simp [split], ?_⟩, Or.inl ?_⟩
  · exact fun j hj => (h.skipped j (List.mem_append_left _ hj)).1
  · intro k' held
    rw [cell_eq_held, hdel] at held
    obtain ⟨v, hv⟩ := held
    cases hv

theorem lt_of_probes_eq {t : HashMapTable} {k : Int} {passed rest : List Nat}
    (split : Probing.probes t.capacity (t.hashFunc k) = passed ++ rest) {i : Nat}
    (mem : i ∈ passed ++ rest) : i < t.capacity :=
  Probing.lt_of_mem_probes (split ▸ mem)

/-- `Insert` writes the pair to one writable slot and changes nothing else. -/
theorem insert_eq {t : HashMapTable} (wf : t.Wf) (k : Int) (v : Int) :
    ∃ i, i < t.capacity ∧ t.Writable k i ∧ t.insert k v = t.setSlot i (.node k v) := by
  obtain ⟨passed, rest, split, h, ⟨rest', hrest, hne, stop⟩ | ⟨hrest, hval, hinit⟩⟩ :=
    t.probe_ends k
  · have hlt : (t.probe k).hashVal < t.capacity :=
      lt_of_probes_eq split (by simp [hrest])
    rcases stop with free | held
    · have hnull : t.ht (t.probe k).hashVal = .null := cell_eq_free.mp free
      have found : t.find k = some (t.probe k).hashVal :=
        Probing.find_eq_some_iff.mpr
          ⟨Or.inl free, passed, rest', by rw [split, hrest], h.skipped⟩
      have absent : t.Absent k := by
        intro i hi held
        have := wf i hi k held
        rw [show Probing.find _ _ _ _ = _ from found, Option.some.injEq] at this
        rw [← this, free] at held
        cases held
      rcases hd : (t.probe k).delindex with _ | d
      · refine ⟨_, hlt, Or.inr ⟨absent, ⟨passed, rest', by rw [split, hrest],
          fun j mem => (h.skipped j mem).1⟩, Or.inl (by simp [free])⟩, ?_⟩
        simp [insert, hnull, hd, hne.symm]
      · have hdne : (t.probe k).hashVal ≠ d := by
          intro eq
          have := (h.tombstone d hd).2
          rw [← eq, hnull] at this
          cases this
        refine ⟨d, ?_, h.writable split absent hd, ?_⟩
        · exact lt_of_probes_eq split (by simp [(h.tombstone d hd).1])
        · simp [insert, hnull, hd, hne.symm, Function.update_of_ne hdne]
    · obtain ⟨v', hv'⟩ := cell_eq_held.mp held
      refine ⟨_, hlt, Or.inl held, ?_⟩
      simp [insert, hv', hne, hne.symm]
  · have all : ∀ i, i < t.capacity → i ∈ passed := fun i hi => by
      have := Probing.mem_probes (t.hashFunc_lt k) hi
      rwa [split, hrest, List.append_nil] at this
    have absent : t.Absent k := fun i hi held => (h.skipped i (all i hi)).2 held
    rcases hd : (t.probe k).delindex with _ | d
    · refine ⟨t.hashFunc k, t.hashFunc_lt k, Or.inr ⟨absent, ?_, Or.inr ⟨?_, rfl⟩⟩, ?_⟩
      · exact ⟨[], _, Probing.probes_eq_cons (t.hashFunc_lt k), by simp⟩
      · intro j hj
        have hfree := (h.skipped j (all j hj)).1
        have hdead := h.noTombstone hd j (all j hj)
        rcases hcell : t.cell j with _ | _ | k'
        · exact (hfree hcell).elim
        · exact (hdead (cell_eq_dead.mp hcell)).elim
        · exact ⟨k', rfl⟩
      · simp [insert, hval, hinit, hd]
    · refine ⟨d, ?_, h.writable split absent hd, ?_⟩
      · exact lt_of_probes_eq split (by simp [(h.tombstone d hd).1])
      · simp [insert, hval, hinit, hd]

theorem capacity_insert {t : HashMapTable} (wf : t.Wf) (k : Int) (v : Int) :
    (t.insert k v).capacity = t.capacity := by
  obtain ⟨i, -, -, eq⟩ := insert_eq wf k v
  rw [eq]
  rfl

theorem Wf.insert {t : HashMapTable} (wf : t.Wf) (k : Int) (v : Int) :
    (t.insert k v).Wf := by
  obtain ⟨i, hi, writable, eq⟩ := insert_eq wf k v
  rw [eq, Wf, cell_setSlot_node]
  rcases writable with held | ⟨absent, reach, -⟩
  · rw [← held, Function.update_eq_self]
    exact wf
  · exact Probing.Placed.put wf absent reach

theorem holds_insert_self {t : HashMapTable} (wf : t.Wf) (k : Int) (v : Int) :
    (t.insert k v).Holds k v := by
  obtain ⟨i, hi, -, eq⟩ := insert_eq wf k v
  rw [eq]
  exact ⟨i, hi, by simp⟩

/-- Every value in the table after an insertion is the inserted one or was there
before. -/
theorem holds_of_insert {t : HashMapTable} (wf : t.Wf) {k k' : Int} {v v' : Int}
    (h : (t.insert k v).Holds k' v') : (k' = k ∧ v' = v) ∨ t.Holds k' v' := by
  obtain ⟨i, -, -, eq⟩ := insert_eq wf k v
  rw [eq] at h
  obtain ⟨j, hj, hslot⟩ := h
  by_cases hji : j = i
  · rw [setSlot_ht, hji, Function.update_self, HashSlot.node.injEq] at hslot
    exact Or.inl ⟨hslot.1.symm, hslot.2.symm⟩
  · rw [setSlot_ht, Function.update_of_ne hji] at hslot
    exact Or.inr ⟨j, hj, hslot⟩

/-- An insertion loses exactly the key it evicts. -/
theorem absent_insert_iff {t : HashMapTable} (wf : t.Wf) {k k' : Int} (v : Int)
    (hne : k' ≠ k) :
    (t.insert k v).Absent k' ↔ t.Absent k' ∨ t.Evicts k k' := by
  obtain ⟨i, hi, writable, eq⟩ := insert_eq wf k v
  rw [eq, Absent, cell_setSlot_node]
  constructor
  · intro gone
    by_cases absent : t.Absent k'
    · exact Or.inl absent
    right
    simp only [Absent, Probing.Absent, not_forall, not_not] at absent
    obtain ⟨j, hj, cj⟩ := absent
    have hji : j = i := by
      by_contra hji
      exact gone j hj (by rw [Function.update_of_ne hji, cj])
    subst hji
    rcases writable with held | ⟨hk, -, noKey | ⟨full, home⟩⟩
    · rw [cj, Probing.Cell.held.injEq] at held
      exact (hne held).elim
    · exact (noKey k' cj).elim
    · exact ⟨hk, full, home ▸ cj⟩
  · rintro (absent | ⟨hk, full, home⟩) j hj cj
    · by_cases hji : j = i
      · rw [hji, Function.update_self, Probing.Cell.held.injEq] at cj
        exact hne cj.symm
      · rw [Function.update_of_ne hji] at cj
        exact absent j hj cj
    · -- The slot written is the home of `k`, where `k'` was.
      have hih : i = t.hashFunc k := by
        rcases writable with held | ⟨-, -, noKey | ⟨-, hih⟩⟩
        · exact (hk i hi held).elim
        · obtain ⟨k'', hk''⟩ := full i hi
          exact (noKey k'' hk'').elim
        · exact hih
      by_cases hji : j = i
      · rw [hji, Function.update_self, Probing.Cell.held.injEq] at cj
        exact hne cj.symm
      · rw [Function.update_of_ne hji] at cj
        exact hji (hih ▸ wf.unique hj (t.hashFunc_lt k) cj home)

/-- A table whose keys come from a set no larger than the table evicts
nothing. -/
theorem not_evicts_of_card {t : HashMapTable} (wf : t.Wf) {keys : Finset Int}
    (hcard : keys.card ≤ t.capacity) {k : Int} (hk : k ∈ keys)
    (within : ∀ k', ¬ t.Absent k' → k' ∈ keys) (k' : Int) : ¬ t.Evicts k k' := by
  rintro ⟨absent, full, -⟩
  obtain ⟨i, hi, noKey⟩ := Probing.Placed.room wf hcard hk absent fun i hi k' held =>
    within k' fun gone => gone i hi held
  obtain ⟨k'', held⟩ := full i hi
  exact noKey k'' held

theorem searchKey_of_absent {t : HashMapTable} {k : Int} (absent : t.Absent k) :
    t.searchKey k = -1 := by
  obtain ⟨passed, rest, split, h, ⟨rest', hrest, hne, stop⟩ | ⟨hrest, hval, hinit⟩⟩ :=
    t.probe_ends k
  · have hlt : (t.probe k).hashVal < t.capacity :=
      lt_of_probes_eq split (by simp [hrest])
    rcases stop with free | held
    · simp [searchKey, cell_eq_free.mp free]
    · exact (absent _ hlt held).elim
  · simp [searchKey, hval, hinit]

theorem searchKey_of_holds {t : HashMapTable} (wf : t.Wf) {k : Int} {v : Int}
    (holds : t.Holds k v) : t.searchKey k = v := by
  obtain ⟨i, hi, hslot⟩ := holds
  have held : t.cell i = .held k := cell_eq_held.mpr ⟨v, hslot⟩
  have found : t.find k = some i := wf i hi k held
  obtain ⟨passed, rest, split, h, ⟨rest', hrest, hne, stop⟩ | ⟨hrest, hval, hinit⟩⟩ :=
    t.probe_ends k
  · have found' : t.find k = some (t.probe k).hashVal :=
      Probing.find_eq_some_iff.mpr ⟨stop, passed, rest', by rw [split, hrest], h.skipped⟩
    have heq : (t.probe k).hashVal = i := Option.some.inj (found'.symm.trans found)
    rw [searchKey, heq, hslot]
    rw [heq] at hne
    simp [hne]
  · have mem := Probing.mem_probes (t.hashFunc_lt k) hi
    rw [split, hrest, List.append_nil] at mem
    exact ((h.skipped i mem).2 held).elim

/-! ## Tables that never fill -/

/-- A producer's table that holds keys of `keys` only and has room for all of
them. -/
structure Serves (t : HashMapTable) (keys : Finset Int) (tid : Nat) : Prop where
  wf : t.Wf
  room : keys.card ≤ t.capacity
  within : ∀ k, ¬ t.Absent k → k ∈ keys
  value : ∀ k v, t.Holds k v → v = tid

theorem serves_init {cap : Nat} (pos : 0 < cap) {keys : Finset Int} (room : keys.card ≤ cap)
    (tid : Nat) : (init cap).Serves keys tid where
  wf := wf_init cap
  room := room.trans (by simp [init, pos])
  within k h := (h (absent_init cap k)).elim
  value := by
    rintro k v ⟨i, -, hi⟩
    cases hi

/-- A hit is reported by the producer's own id, never by `-1`. -/
theorem Serves.searchKey_ne {t : HashMapTable} {keys : Finset Int} {tid : Nat}
    (serves : t.Serves keys tid) {k : Int} (present : ¬ t.Absent k) : t.searchKey k ≠ -1 := by
  obtain ⟨v, holds⟩ := not_absent_iff.mp present
  rw [searchKey_of_holds serves.wf holds, serves.value k v holds]
  omega

/-- Inserting one of its keys loses none of the others. -/
theorem Serves.insert {t : HashMapTable} {keys : Finset Int} {tid : Nat}
    (serves : t.Serves keys tid) {k : Int} (hk : k ∈ keys) :
    (t.insert k tid).Serves keys tid ∧
      ∀ k', k' = k ∨ ¬ t.Absent k' → ¬ (t.insert k tid).Absent k' := by
  refine ⟨⟨serves.wf.insert k tid, ?_, fun k' present => ?_, fun k' v holds => ?_⟩,
    fun k' h => ?_⟩
  · rw [capacity_insert serves.wf]
    exact serves.room
  · obtain ⟨v, holds⟩ := not_absent_iff.mp present
    rcases holds_of_insert serves.wf holds with ⟨rfl, -⟩ | holds
    · exact hk
    · exact serves.within k' (not_absent_iff.mpr ⟨v, holds⟩)
  · rcases holds_of_insert serves.wf holds with ⟨-, rfl⟩ | holds
    · rfl
    · exact serves.value k' v holds
  · by_cases heq : k' = k
    · rw [heq, not_absent_iff]
      exact ⟨_, holds_insert_self serves.wf k tid⟩
    · rw [absent_insert_iff serves.wf _ heq, not_or]
      exact ⟨h.resolve_left heq,
        not_evicts_of_card serves.wf serves.room hk serves.within k'⟩

end HashMapTable

end F3Tree
