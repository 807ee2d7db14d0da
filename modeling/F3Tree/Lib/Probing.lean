import Mathlib.Data.Finset.Card
import Mathlib.Data.Finset.Range
import Mathlib.Data.Nat.ModEq
import Mathlib.Tactic.Choose

/-!
# Linear probing

A table of `cap` cells is searched for a key from the key's home cell onwards,
one cell at a time and around the end, until a free cell or the key is met.
`probes cap home` lists the cells in that order, and a search is `List.find?`
on it.

`Placed` says that every held key is where its own search stops.  It is the
whole invariant of the scheme: it excludes a second copy of a key
(`Placed.unique`) and a copy cut off from its home by a free cell.  Writing a
new key over any cell that its search may reach keeps it (`Placed.put`), and so
does turning a held cell into a tombstone (`Placed.kill`).
-/

namespace Probing

/-- What one cell says about keys: nothing yet, a tombstone, or one key. -/
inductive Cell (κ : Type) : Type
  | free
  | dead
  | held (k : κ)
deriving DecidableEq

variable {κ : Type}

/-! ## The probe order -/

/-- The cells of a table of `cap` cells, in probe order from `start`. -/
def probes (cap start : Nat) : List Nat :=
  (List.range cap).map fun d => (start + d) % cap

theorem lt_of_mem_probes {cap start i : Nat} (mem : i ∈ probes cap start) :
    i < cap := by
  obtain ⟨d, hd, rfl⟩ := List.mem_map.mp mem
  exact Nat.mod_lt _ (Nat.zero_lt_of_lt (List.mem_range.mp hd))

/-- Every cell lies on every probe sequence. -/
theorem mem_probes {cap start i : Nat} (hstart : start < cap) (hi : i < cap) :
    i ∈ probes cap start := by
  refine List.mem_map.mpr ⟨(i + cap - start) % cap,
    List.mem_range.mpr (Nat.mod_lt _ (by omega)), ?_⟩
  rw [Nat.add_mod_mod]
  have hsum : start + (i + cap - start) = i + cap := by omega
  rw [hsum, Nat.add_mod_right, Nat.mod_eq_of_lt hi]

theorem nodup_probes (cap start : Nat) : (probes cap start).Nodup := by
  refine List.nodup_range.map_on fun d hd e he eq => ?_
  have hmod : d ≡ e [MOD cap] := Nat.ModEq.add_left_cancel' start eq
  exact hmod.eq_of_lt_of_lt (List.mem_range.mp hd) (List.mem_range.mp he)

/-- The first `n` cells met when walking from `i`. -/
def probesFrom (cap : Nat) : Nat → Nat → List Nat
  | 0, _ => []
  | n + 1, i => i :: probesFrom cap n ((i + 1) % cap)

theorem probesFrom_eq (cap : Nat) : ∀ (n i : Nat), i < cap →
    probesFrom cap n i = (List.range n).map fun d => (i + d) % cap
  | 0, _, _ => rfl
  | n + 1, i, hi => by
      have hpos : 0 < cap := Nat.zero_lt_of_lt hi
      rw [probesFrom, probesFrom_eq cap n _ (Nat.mod_lt _ hpos),
        List.range_succ_eq_map, List.map_cons, List.map_map]
      refine List.cons_eq_cons.mpr
        ⟨(Nat.mod_eq_of_lt hi).symm, List.map_congr_left fun d _ => ?_⟩
      rw [Nat.mod_add_mod, Function.comp_apply]
      congr 1
      omega

theorem probes_eq_probesFrom {cap start : Nat} (hstart : start < cap) :
    probes cap start = probesFrom cap cap start :=
  (probesFrom_eq cap cap start hstart).symm

/-- A probe sequence is its first cell and a walk from the next one. -/
theorem probes_eq_cons {cap start : Nat} (hstart : start < cap) :
    probes cap start = start :: probesFrom cap (cap - 1) ((start + 1) % cap) := by
  rw [probes_eq_probesFrom hstart]
  obtain ⟨n, rfl⟩ : ∃ n, cap = n + 1 := ⟨cap - 1, by omega⟩
  rfl

/-- Walking a whole turn ends at the start. -/
theorem walk_turn {cap start : Nat} (hstart : start < cap) :
    (start + cap) % cap = start := by
  rw [Nat.add_mod_right, Nat.mod_eq_of_lt hstart]

/-- The loop of a search: it ends at a cell with `stop`, or when it is back at `start`. -/
def walk (cap start : Nat) (stop : Nat → Bool) : Nat → Nat → Option Nat
  | 0, _ => none
  | n + 1, i =>
      if stop i then some i
      else if (i + 1) % cap = start then none
      else walk cap start stop n ((i + 1) % cap)

/-- The loop from cell `i` on, by induction on the cells left before the start comes around
again. -/
theorem walk_eq_find? {cap start : Nat} (stop : Nat → Bool) :
    ∀ (n i : Nat), 0 < n → (i + n) % cap = start → start ∉ (probesFrom cap n i).tail →
      walk cap start stop n i = (probesFrom cap n i).find? stop
  | 0, _, hn, _, _ => absurd hn (by simp)
  | n + 1, i, _, turn, notBack => by
      rw [probesFrom, List.tail_cons] at notBack
      rw [walk, probesFrom, List.find?_cons]
      cases stop i with
      | true => rfl
      | false =>
          rw [if_neg Bool.false_ne_true]
          rcases Nat.eq_zero_or_pos n with rfl | hpos
          · rw [if_pos turn]
            rfl
          obtain ⟨m, rfl⟩ : ∃ m, n = m + 1 := ⟨n - 1, by omega⟩
          rw [probesFrom] at notBack
          have hne : (i + 1) % cap ≠ start := fun eq => notBack (eq ▸ List.mem_cons_self)
          rw [if_neg hne]
          refine walk_eq_find? stop (m + 1) _ hpos ?_ fun mem =>
            notBack (List.mem_of_mem_tail mem)
          rw [Nat.mod_add_mod, ← turn]
          congr 1
          omega

/-- A whole turn visits the cells in probe order. -/
theorem walk_probes {cap start : Nat} (stop : Nat → Bool) (hstart : start < cap) :
    walk cap start stop cap start = (probes cap start).find? stop := by
  have hcap : 0 < cap := Nat.zero_lt_of_lt hstart
  have hsplit := probes_eq_probesFrom hstart
  rw [hsplit]
  refine walk_eq_find? stop cap start hcap (walk_turn hstart) ?_
  have nodup := nodup_probes cap start
  rw [probes_eq_cons hstart, List.nodup_cons] at nodup
  rw [← hsplit, probes_eq_cons hstart, List.tail_cons]
  exact nodup.1

/-! ## Searching -/

section Search

variable [DecidableEq κ]

/-- A search for `k` stops at a free cell and at `k` itself. -/
def stops (c : Nat → Cell κ) (k : κ) (i : Nat) : Bool :=
  decide (c i = .free ∨ c i = .held k)

/-- The cell at which the search for `k` stops, if it stops. -/
def find (cap : Nat) (home : κ → Nat) (c : Nat → Cell κ) (k : κ) : Option Nat :=
  (probes cap (home k)).find? (stops c k)

/-- Every held key is where its own search stops. -/
def Placed (cap : Nat) (home : κ → Nat) (c : Nat → Cell κ) : Prop :=
  ∀ i, i < cap → ∀ k, c i = .held k → find cap home c k = some i

/-- No cell of the table holds `k`. -/
def Absent (cap : Nat) (c : Nat → Cell κ) (k : κ) : Prop :=
  ∀ i, i < cap → c i ≠ .held k

instance (cap : Nat) (c : Nat → Cell κ) (k : κ) : Decidable (Absent cap c k) :=
  inferInstanceAs (Decidable (∀ i, i < cap → c i ≠ .held k))

variable {cap : Nat} {home : κ → Nat} {c : Nat → Cell κ}

theorem find_eq_some_iff {k : κ} {i : Nat} :
    find cap home c k = some i ↔
      (c i = .free ∨ c i = .held k) ∧
        ∃ before after, probes cap (home k) = before ++ i :: after ∧
          ∀ j ∈ before, c j ≠ .free ∧ c j ≠ .held k := by
  rw [find, List.find?_eq_some_iff_append]
  simp [stops]

theorem lt_of_find {k : κ} {i : Nat} (found : find cap home c k = some i) :
    i < cap :=
  lt_of_mem_probes (List.mem_of_find?_eq_some found)

theorem find_eq_none_iff {k : κ} (hhome : home k < cap) :
    find cap home c k = none ↔
      ∀ i, i < cap → c i ≠ .free ∧ c i ≠ .held k := by
  rw [find, List.find?_eq_none]
  simp only [stops, decide_eq_true_eq, not_or]
  exact ⟨fun all i hi => all i (mem_probes hhome hi),
    fun all i mem => all i (lt_of_mem_probes mem)⟩

theorem Placed.unique (placed : Placed cap home c) {i j : Nat} (hi : i < cap)
    (hj : j < cap) {k : κ} (ci : c i = .held k) (cj : c j = .held k) : i = j :=
  Option.some.inj ((placed i hi k ci).symm.trans (placed j hj k cj))

/-- A key is held exactly when its search stops at a cell that holds it. -/
theorem Placed.not_absent_iff (placed : Placed cap home c) {k : κ} :
    ¬ Absent cap c k ↔ ∃ i, find cap home c k = some i ∧ c i = .held k := by
  constructor
  · intro present
    simp only [Absent, not_forall, not_not] at present
    obtain ⟨i, hi, ci⟩ := present
    exact ⟨i, placed i hi k ci, ci⟩
  · rintro ⟨i, found, ci⟩ absent
    exact absent i (lt_of_find found) ci

/-! ## Updating -/

/-- The search for another key does not notice that a cell it passed, or never
saw, was filled or turned into a tombstone. -/
theorem find_update_of_ne {k : κ} {i j : Nat} {x : Cell κ}
    (found : find cap home c k = some j) (cj : c j = .held k) (hij : i ≠ j)
    (hfree : x ≠ .free) (hheld : x ≠ .held k) :
    find cap home (Function.update c i x) k = some j := by
  obtain ⟨-, before, after, split, skipped⟩ := find_eq_some_iff.mp found
  refine find_eq_some_iff.mpr ⟨Or.inr ?_, before, after, split, ?_⟩
  · rw [Function.update_of_ne hij.symm]
    exact cj
  · intro m mem
    by_cases hm : m = i
    · rw [hm, Function.update_self]
      exact ⟨hfree, hheld⟩
    · rw [Function.update_of_ne hm]
      exact skipped m mem

/-- An absent key may be written over any cell that is preceded by no free cell
on the key's own probe sequence, whatever that cell contained. -/
theorem Placed.put (placed : Placed cap home c) {k : κ} {i : Nat}
    (absent : Absent cap c k)
    (reach : ∃ before after, probes cap (home k) = before ++ i :: after ∧
      ∀ j ∈ before, c j ≠ .free) :
    Placed cap home (Function.update c i (.held k)) := by
  intro j hj k' cj
  by_cases hji : j = i
  · subst hji
    rw [Function.update_self, Cell.held.injEq] at cj
    subst cj
    obtain ⟨before, after, split, skipped⟩ := reach
    have distinct : ∀ m ∈ before, m ≠ j := by
      have nodup := nodup_probes cap (home k)
      rw [split, List.nodup_append] at nodup
      exact fun m mem => nodup.2.2 m mem j List.mem_cons_self
    have inTable : ∀ m ∈ before, m < cap := fun m mem =>
      lt_of_mem_probes (split ▸ List.mem_append_left _ mem)
    refine find_eq_some_iff.mpr
      ⟨Or.inr (Function.update_self ..), before, after, split, fun m mem => ?_⟩
    rw [Function.update_of_ne (distinct m mem)]
    exact ⟨skipped m mem, absent m (inTable m mem)⟩
  · rw [Function.update_of_ne hji] at cj
    have hkk : k ≠ k' := by
      rintro rfl
      exact absent j hj cj
    exact find_update_of_ne (placed j hj k' cj) cj (Ne.symm hji) (by simp) (by simpa)

/-- A tombstone in place of a key breaks no other key's search. -/
theorem Placed.kill (placed : Placed cap home c) {k : κ} {i : Nat} (hi : i < cap)
    (ci : c i = .held k) :
    Placed cap home (Function.update c i .dead) ∧
      Absent cap (Function.update c i .dead) k := by
  constructor
  · intro j hj k' cj
    by_cases hji : j = i
    · rw [hji, Function.update_self] at cj
      cases cj
    · rw [Function.update_of_ne hji] at cj
      exact find_update_of_ne (placed j hj k' cj) cj (Ne.symm hji) (by simp) (by simp)
  · intro j hj cj
    by_cases hji : j = i
    · rw [hji, Function.update_self] at cj
      cases cj
    · rw [Function.update_of_ne hji] at cj
      exact hji (placed.unique hj hi cj ci)

/-- A table whose keys come from a set no larger than the table has room for
every absent key of the set. -/
theorem Placed.room (placed : Placed cap home c) {keys : Finset κ} {k : κ}
    (hcard : keys.card ≤ cap) (hk : k ∈ keys) (absent : Absent cap c k)
    (within : ∀ i, i < cap → ∀ k', c i = .held k' → k' ∈ keys) :
    ∃ i, i < cap ∧ ∀ k', c i ≠ .held k' := by
  by_contra full
  push Not at full
  have : Nonempty κ := ⟨k⟩
  choose! key hkey using full
  have hmaps : ∀ i ∈ Finset.range cap, key i ∈ keys.erase k := by
    intro i mem
    have hi := Finset.mem_range.mp mem
    refine Finset.mem_erase.mpr ⟨?_, within i hi _ (hkey i hi)⟩
    intro eq
    exact absent i hi (eq ▸ hkey i hi)
  have hinj : Set.InjOn key (Finset.range cap) := by
    intro i hi j hj eq
    have hi' := Finset.mem_range.mp hi
    have hj' := Finset.mem_range.mp hj
    exact placed.unique hi' hj' (hkey i hi') (eq ▸ hkey j hj')
  have hle := Finset.card_le_card_of_injOn key hmaps hinj
  rw [Finset.card_range, Finset.card_erase_of_mem hk] at hle
  have := Finset.card_pos.mpr ⟨k, hk⟩
  omega

end Search

end Probing
