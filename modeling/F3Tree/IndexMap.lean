import Mathlib.Data.Set.Card
import F3Tree.BufferedHashIndex

/-!
# The map behind the buffered hash index

What the index is for: a finite map, with its entries in the order of their last updates.
-/

namespace F3Tree

/-- The last update of a key.  Updates are numbered from 1 since the last `clear`. -/
structure Update : Type where
  key : Int
  owner : Int
  state : BufferedEntryState
  number : Nat
deriving DecidableEq, Repr

/-- The entry of the index that an update leaves. -/
def Update.entry (u : Update) : BufferedEntry :=
  ⟨u.key, u.owner, u.state, UInt64.ofNat u.number⟩

structure IndexMap : Type where
  entries : List Update := []
  updates : Nat := 0
deriving DecidableEq, Repr

namespace IndexMap

def lookup (m : IndexMap) (key : Int) : Option Update := m.entries.find? fun u => u.key = key

def stateOf (m : IndexMap) (key : Int) : BufferedEntryState :=
  ((m.lookup key).map Update.state).getD .absent

def ownerOf (m : IndexMap) (key : Int) : Int := ((m.lookup key).map Update.owner).getD (-1)

def lastUpdate (m : IndexMap) (key : Int) : Nat := ((m.lookup key).map Update.number).getD 0

def clearEntry (m : IndexMap) (key : Int) : IndexMap :=
  { m with entries := m.entries.filter fun u => u.key ≠ key }

def put (m : IndexMap) (key owner : Int) (state : BufferedEntryState) : IndexMap where
  entries := (m.clearEntry key).entries ++ [⟨key, owner, state, m.updates + 1⟩]
  updates := m.updates + 1

/-- Keys come once, in the order of their last updates. -/
structure Wf (m : IndexMap) : Prop where
  nodup : (m.entries.map Update.key).Nodup
  stated : ∀ u ∈ m.entries, u.state ≠ .absent
  numbered : m.entries.Pairwise fun u v => u.number < v.number
  bound : ∀ u ∈ m.entries, 0 < u.number ∧ u.number ≤ m.updates

variable {m : IndexMap} {u : Update} {key : Int}

theorem mem_of_lookup (found : m.lookup key = some u) : u ∈ m.entries ∧ u.key = key := by
  have hkey := List.find?_some found
  exact ⟨List.mem_of_find?_eq_some found, of_decide_eq_true hkey⟩

theorem Wf.lookup_eq_some (wf : m.Wf) : m.lookup key = some u ↔ u ∈ m.entries ∧ u.key = key := by
  constructor
  · exact mem_of_lookup
  · rintro ⟨mem, rfl⟩
    cases found : m.lookup u.key with
    | none =>
        have none := List.find?_eq_none.mp found u mem
        simp at none
    | some v =>
        obtain ⟨mem', same⟩ := mem_of_lookup found
        rw [List.inj_on_of_nodup_map wf.nodup mem' mem same]

theorem lookup_eq_none : m.lookup key = none ↔ ∀ u ∈ m.entries, u.key ≠ key := by
  rw [lookup, List.find?_eq_none]
  simp

theorem mem_clearEntry : u ∈ (m.clearEntry key).entries ↔ u ∈ m.entries ∧ u.key ≠ key := by
  rw [clearEntry, List.mem_filter, decide_eq_true_eq]

theorem lookup_clearEntry (m : IndexMap) (key key' : Int) :
    (m.clearEntry key).lookup key' = if key' = key then none else m.lookup key' := by
  split
  · rename_i heq
    exact lookup_eq_none.mpr fun u mem => heq ▸ (mem_clearEntry.mp mem).2
  · rename_i ne
    rw [lookup, clearEntry, List.find?_filter]
    refine congrArg (fun p => m.entries.find? p) (funext fun u => ?_)
    by_cases hu : u.key = key'
    · simp [hu, ne]
    · simp [hu]

theorem lookup_put (owner : Int) (state : BufferedEntryState) (key' : Int) :
    (m.put key owner state).lookup key' =
      if key' = key then some ⟨key, owner, state, m.updates + 1⟩ else m.lookup key' := by
  have old := m.lookup_clearEntry key key'
  rw [lookup] at old ⊢
  rw [put, List.find?_append, old]
  split
  · rename_i heq
    simp [heq]
  · rename_i ne
    have hne : key ≠ key' := fun heq => ne heq.symm
    simp [hne]

theorem Wf.clearEntry (wf : m.Wf) (key : Int) : (m.clearEntry key).Wf where
  nodup := wf.nodup.sublist (List.filter_sublist.map _)
  stated := fun u mem => wf.stated u (mem_clearEntry.mp mem).1
  numbered := wf.numbered.sublist List.filter_sublist
  bound := fun u mem => wf.bound u (mem_clearEntry.mp mem).1

theorem Wf.put (wf : m.Wf) (key owner : Int) {state : BufferedEntryState}
    (hstate : state ≠ .absent) : (m.put key owner state).Wf := by
  have wf' := wf.clearEntry key
  refine ⟨?_, fun u mem => ?_, ?_, fun u mem => ?_⟩
  · rw [IndexMap.put, List.map_append, List.nodup_append]
    refine ⟨wf'.nodup, List.nodup_singleton _, fun k mem k' mem' => ?_⟩
    obtain ⟨u, hu, rfl⟩ := List.mem_map.mp mem
    rw [List.map_singleton, List.mem_singleton] at mem'
    exact mem' ▸ (mem_clearEntry.mp hu).2
  · rcases List.mem_append.mp mem with mem | mem
    · exact wf'.stated u mem
    · exact List.mem_singleton.mp mem ▸ hstate
  · refine List.pairwise_append.mpr ⟨wf'.numbered, List.pairwise_singleton .., fun u mem v mem' => ?_⟩
    obtain rfl := List.mem_singleton.mp mem'
    exact Nat.lt_succ_of_le (wf'.bound u mem).2
  · rcases List.mem_append.mp mem with mem | mem
    · obtain ⟨pos, le⟩ := wf'.bound u mem
      exact ⟨pos, Nat.le_succ_of_le le⟩
    · obtain rfl := List.mem_singleton.mp mem
      exact ⟨Nat.succ_pos _, le_rfl⟩

/-- Clearing takes one entry if there is one. -/
theorem Wf.length_clearEntry (wf : m.Wf) (key : Int) :
    (m.clearEntry key).entries.length + (if m.lookup key = none then 0 else 1) =
      m.entries.length := by
  cases found : m.lookup key with
  | none =>
      have all := lookup_eq_none.mp found
      rw [if_pos rfl, IndexMap.clearEntry, List.filter_eq_self.mpr fun u mem => by simpa using all u mem]
      rfl
  | some u =>
      obtain ⟨mem, rfl⟩ := wf.lookup_eq_some.mp found
      obtain ⟨before, after, split⟩ := List.append_of_mem mem
      have nodup := wf.nodup
      rw [split, List.map_append, List.map_cons, List.nodup_middle, List.nodup_cons,
        ← List.map_append] at nodup
      have others : (before ++ after).filter (fun v => v.key ≠ u.key) = before ++ after := by
        refine List.filter_eq_self.mpr fun v hv => ?_
        have ne : v.key ≠ u.key := fun heq => nodup.1 (heq ▸ List.mem_map_of_mem hv)
        simpa using ne
      rw [List.filter_append] at others
      rw [if_neg (by simp), IndexMap.clearEntry, split, List.filter_append,
        List.filter_cons_of_neg (by simp), others]
      simp only [List.length_append, List.length_cons]
      omega

end IndexMap

end F3Tree
