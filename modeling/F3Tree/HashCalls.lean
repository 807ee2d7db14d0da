import F3Tree.HashMap

/-!
# Calls on a `HashMapTable`

Sequences of `Insert` and `Remove`.  As long as the distinct keys that are in the table
never outnumber its slots, the table is the map that the calls describe (`content`): an
insertion evicts nothing, because a slot without a key is left for it, and a removal
leaves a tombstone that no search takes for its end (`searchKey_run`).
-/

namespace F3Tree

/-- A call on the table. -/
inductive HashCall : Type
  | insert (k : Int) (v : Int)
  | remove (k : Int)
deriving DecidableEq, Repr

namespace HashCall

def perform (t : HashMapTable) : HashCall → HashMapTable
  | insert k v => t.insert k v
  | remove k => t.remove k

/-- What the call makes of a map from keys to values. -/
def write (m : Int → Option Int) : HashCall → Int → Option Int
  | insert k v => Function.update m k (some v)
  | remove k => Function.update m k none

/-- What the call makes of a set of keys. -/
def track (keys : Finset Int) : HashCall → Finset Int
  | insert k _ => Insert.insert k keys
  | remove k => keys.erase k

end HashCall

/-- The value of the last insertion of each key that has not been removed since. -/
def content (calls : List HashCall) : Int → Option Int :=
  calls.foldl HashCall.write fun _ => none

/-- The keys that have a value after the calls. -/
def liveKeys (calls : List HashCall) : Finset Int := calls.foldl HashCall.track ∅

namespace HashMapTable

/-- A table of `cap` slots after the calls. -/
def run (cap : Nat) (calls : List HashCall) : HashMapTable :=
  calls.foldl HashCall.perform (init cap)

/-! ## Removal -/

section Remove

variable {t : HashMapTable} {k k' : Int} {v : Int}

theorem cell_setSlot_delNode (t : HashMapTable) (i : Nat) :
    (t.setSlot i .delNode).cell = Function.update t.cell i .dead := by
  funext j
  by_cases hj : j = i
  · subst hj
    simp [cell, setSlot]
  · simp [cell, setSlot, Function.update_of_ne hj]

/-- `Remove` puts the tombstone in place of the key, if the table has it. -/
theorem remove_eq (wf : t.Wf) (k : Int) :
    (t.Absent k ∧ t.remove k = t) ∨
      ∃ i, i < t.capacity ∧ t.cell i = .held k ∧ t.remove k = t.setSlot i .delNode := by
  obtain ⟨passed, rest, split, h, ⟨rest', hrest, hne, stop⟩ | ⟨hrest, hval, hinit⟩⟩ :=
    t.probe_ends k
  · have hlt : (t.probe k).hashVal < t.capacity :=
      lt_of_probes_eq split (by simp [hrest])
    rcases stop with free | held
    · have hnull : t.ht (t.probe k).hashVal = .null := cell_eq_free.mp free
      have found : t.find k = some (t.probe k).hashVal :=
        Probing.find_eq_some_iff.mpr
          ⟨Or.inl free, passed, rest', by rw [split, hrest], h.skipped⟩
      refine Or.inl ⟨fun i hi held => ?_, if_neg fun h => h.2 hnull⟩
      -- A key behind the free slot would be cut off from its home.
      have heq : (t.probe k).hashVal = i := Option.some.inj (found.symm.trans (wf i hi k held))
      rw [← heq, free] at held
      cases held
    · obtain ⟨v, hv⟩ := cell_eq_held.mp held
      exact Or.inr ⟨_, hlt, held, if_pos ⟨hne, by simp [hv]⟩⟩
  · have all : ∀ i, i < t.capacity → i ∈ passed := fun i hi => by
      have := Probing.mem_probes (t.hashFunc_lt k) hi
      rwa [split, hrest, List.append_nil] at this
    refine Or.inl ⟨fun i hi held => (h.skipped i (all i hi)).2 held, if_neg fun h => h.1 ?_⟩
    rw [hval, hinit]

theorem capacity_remove (wf : t.Wf) (k : Int) : (t.remove k).capacity = t.capacity := by
  rcases remove_eq wf k with ⟨-, same⟩ | ⟨i, -, -, same⟩
  · rw [same]
  · rw [same]
    rfl

theorem Wf.remove (wf : t.Wf) (k : Int) : (t.remove k).Wf := by
  rcases remove_eq wf k with ⟨-, same⟩ | ⟨i, hi, held, same⟩
  · rw [same]
    exact wf
  · rw [same, Wf, cell_setSlot_delNode]
    exact (Probing.Placed.kill wf hi held).1

theorem holds_remove_iff (wf : t.Wf) :
    (t.remove k).Holds k' v ↔ k' ≠ k ∧ t.Holds k' v := by
  rcases remove_eq wf k with ⟨absent, same⟩ | ⟨i, hi, held, same⟩
  · rw [same]
    refine ⟨fun holds => ⟨?_, holds⟩, fun holds => holds.2⟩
    rintro rfl
    exact not_absent_iff.mpr ⟨v, holds⟩ absent
  · rw [same]
    constructor
    · rintro ⟨j, hj, hslot⟩
      by_cases hji : j = i
      · rw [setSlot_ht, hji, Function.update_self] at hslot
        cases hslot
      · rw [setSlot_ht, Function.update_of_ne hji] at hslot
        refine ⟨?_, j, hj, hslot⟩
        rintro rfl
        exact hji (wf.unique hj hi (cell_eq_held.mpr ⟨v, hslot⟩) held)
    · rintro ⟨hne, j, hj, hslot⟩
      have hji : j ≠ i := by
        rintro rfl
        have held' := cell_eq_held.mpr ⟨v, hslot⟩
        rw [held, Probing.Cell.held.injEq] at held'
        exact hne held'.symm
      exact ⟨j, hj, by rw [setSlot_ht, Function.update_of_ne hji, hslot]⟩

theorem Holds.unique (wf : t.Wf) {v' : Int} (h : t.Holds k v) (h' : t.Holds k v') : v = v' := by
  obtain ⟨i, hi, hslot⟩ := h
  obtain ⟨j, hj, hslot'⟩ := h'
  obtain rfl := wf.unique hi hj (cell_eq_held.mpr ⟨v, hslot⟩) (cell_eq_held.mpr ⟨v', hslot'⟩)
  rw [hslot] at hslot'
  exact (HashSlot.node.inj hslot').2

end Remove

/-! ## The table as a map -/

/-- The table holds what the map says. -/
structure Maps (t : HashMapTable) (m : Int → Option Int) : Prop where
  wf : t.Wf
  holds : ∀ k v, t.Holds k v ↔ m k = some v

section Maps

variable {t : HashMapTable} {m : Int → Option Int} {k v : Int}

theorem maps_init (cap : Nat) : (init cap).Maps fun _ => none := by
  refine ⟨wf_init cap, fun k v => iff_of_false ?_ nofun⟩
  rintro ⟨i, -, hslot⟩
  cases hslot

theorem Maps.absent_iff (maps : t.Maps m) : t.Absent k ↔ m k = none := by
  rw [← not_iff_not, not_absent_iff, ← Ne, Option.ne_none_iff_exists']
  exact exists_congr fun v => maps.holds k v

theorem Maps.searchKey (maps : t.Maps m) (k : Int) : t.searchKey k = (m k).getD (-1) := by
  cases hm : m k with
  | none => exact searchKey_of_absent (maps.absent_iff.mpr hm)
  | some v => exact searchKey_of_holds maps.wf ((maps.holds k v).mpr hm)

/-- An insertion that evicts nothing writes its key, and no other. -/
theorem Maps.insert (maps : t.Maps m) (spares : ∀ k', ¬ t.Evicts k k') :
    (t.insert k v).Maps (Function.update m k (some v)) := by
  have wf' := maps.wf.insert k v
  refine ⟨wf', fun k' v' => ?_⟩
  by_cases hkk : k' = k
  · subst hkk
    rw [Function.update_self, Option.some.injEq]
    have here := holds_insert_self maps.wf k' v
    exact ⟨fun holds => here.unique wf' holds, fun heq => heq ▸ here⟩
  · rw [Function.update_of_ne hkk, ← maps.holds]
    refine ⟨fun holds => ?_, fun holds => ?_⟩
    · exact (holds_of_insert maps.wf holds).resolve_left fun h => hkk h.1
    · have stays : ¬ (t.insert k v).Absent k' := by
        rw [absent_insert_iff maps.wf v hkk, not_or]
        exact ⟨not_absent_iff.mpr ⟨v', holds⟩, spares k'⟩
      obtain ⟨w, holds'⟩ := not_absent_iff.mp stays
      have before := (holds_of_insert maps.wf holds').resolve_left fun h => hkk h.1
      exact holds.unique maps.wf before ▸ holds'

theorem Maps.remove (maps : t.Maps m) (k : Int) :
    (t.remove k).Maps (Function.update m k none) := by
  refine ⟨maps.wf.remove k, fun k' v => ?_⟩
  rw [holds_remove_iff maps.wf, maps.holds]
  by_cases hkk : k' = k
  · subst hkk
    simp
  · simp [hkk]

end Maps

/-! ## Runs -/

section Run

variable {cap : Nat} {calls : List HashCall} {call : HashCall}

theorem content_concat (calls : List HashCall) (call : HashCall) :
    content (calls ++ [call]) = call.write (content calls) :=
  List.foldl_append

theorem liveKeys_concat (calls : List HashCall) (call : HashCall) :
    liveKeys (calls ++ [call]) = call.track (liveKeys calls) :=
  List.foldl_append

theorem mem_liveKeys (calls : List HashCall) (k : Int) :
    k ∈ liveKeys calls ↔ content calls k ≠ none := by
  induction calls using List.reverseRecOn with
  | nil => exact iff_of_false (Finset.notMem_empty k) fun h => h rfl
  | append_singleton calls call ih =>
      rw [liveKeys_concat, content_concat]
      cases call with
      | insert k' v =>
          rw [HashCall.track, HashCall.write, Finset.mem_insert, ih]
          by_cases hk : k = k'
          · simp [hk]
          · simp [hk]
      | remove k' =>
          rw [HashCall.track, HashCall.write, Finset.mem_erase, ih]
          by_cases hk : k = k'
          · simp [hk]
          · simp [hk]

/-- One call keeps the map, if its keys fit into the table. -/
theorem Maps.perform {t : HashMapTable} (maps : t.Maps (content calls))
    (room : (liveKeys (calls ++ [call])).card ≤ t.capacity) :
    (call.perform t).Maps (content (calls ++ [call])) ∧
      (call.perform t).capacity = t.capacity := by
  rw [content_concat]
  cases call with
  | insert k v =>
      rw [liveKeys_concat] at room
      refine ⟨maps.insert fun k' => ?_, capacity_insert maps.wf k v⟩
      refine not_evicts_of_card maps.wf room (Finset.mem_insert_self ..) (fun k'' present => ?_) k'
      refine Finset.mem_insert_of_mem ((mem_liveKeys calls k'').mpr fun h => present ?_)
      exact maps.absent_iff.mpr h
  | remove k => exact ⟨maps.remove k, capacity_remove maps.wf k⟩

/-- While the keys fit into the table, it is the map that the calls describe. -/
theorem maps_run (pos : 0 < cap)
    (room : ∀ before, before <+: calls → (liveKeys before).card ≤ cap) :
    (run cap calls).Maps (content calls) ∧ (run cap calls).capacity = cap := by
  induction calls using List.reverseRecOn with
  | nil => exact ⟨maps_init cap, if_pos pos⟩
  | append_singleton calls call ih =>
      obtain ⟨maps, capacity⟩ := ih fun before h => room before (h.trans (List.prefix_append ..))
      have hrun : run cap (calls ++ [call]) = call.perform (run cap calls) := List.foldl_append
      have fits := room _ List.prefix_rfl
      rw [← capacity] at fits
      obtain ⟨maps', capacity'⟩ := maps.perform fits
      rw [hrun]
      exact ⟨maps', capacity'.trans capacity⟩

/-- As long as the keys in the table never outnumber its slots, a search answers the value
of the last insertion of its key, or -1 if there is none or the key has been removed since;
no key lies in two slots, and every probe loop ends within one turn around the table. -/
theorem searchKey_run (pos : 0 < cap)
    (room : ∀ before, before <+: calls → (liveKeys before).card ≤ cap) :
    (∀ k, (run cap calls).searchKey k = (content calls k).getD (-1)) ∧
      (∀ i j k v w, i < cap → j < cap → (run cap calls).ht i = .node k v →
        (run cap calls).ht j = .node k w → i = j) ∧
      ∀ k, (run cap calls).probing k ((run cap calls).probe k) = false := by
  obtain ⟨maps, capacity⟩ := maps_run pos room
  refine ⟨maps.searchKey, fun i j k v w hi hj hslot hslot' => ?_, fun k => probing_probe _ k⟩
  rw [← capacity] at hi hj
  exact maps.wf.unique hi hj (cell_eq_held.mpr ⟨v, hslot⟩) (cell_eq_held.mpr ⟨w, hslot'⟩)

/-- Two keys with one home, the first one removed and both inserted again: the table of two
slots is full, and has held a tombstone in front of a key. -/
theorem searchKey_run_colliding :
    let calls := [.insert 1 5, .insert 3 6, .remove 1, .insert 3 7, .insert (-1) 8]
    (run 2 calls).searchKey 3 = 7 ∧ (run 2 calls).searchKey (-1) = 8 ∧
      (run 2 calls).searchKey 1 = -1 := by
  intro calls
  have room : ∀ before, before <+: calls → (liveKeys before).card ≤ 2 := by
    intro before h
    rw [← List.mem_inits] at h
    revert before
    decide
  obtain ⟨search, -, -⟩ := searchKey_run (by decide : 0 < 2) room
  exact ⟨search 3, search (-1), search 1⟩

end Run

end HashMapTable

end F3Tree
