import F3Tree.IndexMap

/-!
# The buffered hash index refines the map

As long as there are no more keys in use than slots, every call finds its slot and does to the
index what it does to the map (`BufferedHashIndex.Refines`).  A slot that was given to a key
stays with it until the next `clear`, even when its entry is cleared.
-/

namespace F3Tree

namespace BufferedHashIndex

open Probing

/-- What a slot with key `key` has of the map. -/
def Holds (index : BufferedHashIndex) (m : IndexMap) (i : Nat) (key : Int) : Prop :=
  (m.lookup key = none ∧ (index.slot i).entry.state = .absent) ∨
    ∃ u, m.lookup key = some u ∧ (index.slot i).entry = u.entry

/-- The index is the map `m`, and the keys `used` have slots. -/
structure Refines (index : BufferedHashIndex) (m : IndexMap) (used : Finset Int) : Prop where
  wf : m.Wf
  placed : Placed index.slotCount index.normalize index.cell
  held : ∀ key, key ∈ used ↔ ∃ i, i < index.slotCount ∧ index.cell i = .held key
  slots : ∀ i, i < index.slotCount → ∀ key, index.cell i = .held key → index.Holds m i key
  within : ∀ u ∈ m.entries, u.key ∈ used
  next : index.nextSequence = UInt64.ofNat (m.updates + 1)
  size : index.size = m.entries.length

section Refines

variable {index : BufferedHashIndex} {m : IndexMap} {used : Finset Int} {key : Int} {i : Nat}

theorem Refines.lookup_eq_none (h : index.Refines m used) (unused : key ∉ used) :
    m.lookup key = none :=
  IndexMap.lookup_eq_none.mpr fun u mem heq => unused (heq ▸ h.within u mem)

/-- A key has a slot, which `find_slot` finds, or it has none. -/
theorem Refines.findSlot_cases (h : index.Refines m used) (key : Int) :
    (key ∈ used ∧ index.findSlot key < index.slotCount ∧
      index.cell (index.findSlot key) = .held key) ∨
    (key ∉ used ∧ index.findSlot key = index.slotCount) := by
  by_cases mem : key ∈ used
  · obtain ⟨i, hi, held⟩ := (h.held key).mp mem
    have found : index.find key = some i := h.placed i hi key held
    have slot : index.findSlot key = i := by
      rw [findSlot_eq, found]
      exact if_neg (by simp [(cell_eq_held.mp held).1])
    rw [slot]
    exact Or.inl ⟨mem, hi, held⟩
  · refine Or.inr ⟨mem, ?_⟩
    rw [findSlot_eq]
    cases found : index.find key with
    | none => rfl
    | some i =>
        rcases (find_eq_some_iff.mp found).1 with free | held
        · exact if_pos (cell_eq_free.mp free)
        · exact absurd ((h.held key).mpr ⟨i, lt_of_find found, held⟩) mem

theorem Refines.card_le (h : index.Refines m used) : used.card ≤ index.slotCount := by
  have slot : ∀ key ∈ used, ∃ i, i < index.slotCount ∧ index.cell i = .held key := fun key mem =>
    (h.held key).mp mem
  choose! slotOf lt held using slot
  have hinj : Set.InjOn slotOf used := by
    intro key mem key' mem' heq
    have same := (held key mem).symm.trans (heq ▸ held key' mem')
    exact Cell.held.inj same
  have hle := Finset.card_le_card_of_injOn slotOf
    (fun key mem => Finset.mem_coe.mpr (Finset.mem_range.mpr (lt key mem))) hinj
  rwa [Finset.card_range] at hle

/-! ## Calls -/

theorem cell_write (index : BufferedHashIndex) (i : Nat) (key owner : Int)
    (state : BufferedEntryState) :
    (index.write i key owner state).cell = Function.update index.cell i (.held key) := by
  funext j
  by_cases hj : j = i
  · subst hj
    simp [cell, write]
  · simp [cell, write, Function.update_of_ne hj]

theorem Refines.size_write (h : index.Refines m used) (found : index.find key = some i)
    (owner : Int) (state : BufferedEntryState) :
    (index.write i key owner state).size = (m.put key owner state).entries.length := by
  have hi : i < index.slotCount := lt_of_find found
  have length := h.wf.length_clearEntry key
  have isNew : (index.slot i).occupied = false ∨ (index.slot i).entry.state = .absent ↔
      m.lookup key = none := by
    rcases (find_eq_some_iff.mp found).1 with free | held
    · have unused : key ∉ used := fun mem => by
        obtain ⟨j, hj, held⟩ := (h.held key).mp mem
        obtain rfl := Option.some.inj (found.symm.trans (h.placed j hj key held))
        rw [free] at held
        cases held
      exact iff_of_true (Or.inl (cell_eq_free.mp free)) (h.lookup_eq_none unused)
    · have occupied := (cell_eq_held.mp held).1
      rcases h.slots i hi key held with ⟨none, absent⟩ | ⟨u, found, entry⟩
      · exact iff_of_true (Or.inr absent) none
      · have stated := h.wf.stated u (IndexMap.mem_of_lookup found).1
        refine iff_of_false ?_ (by simp [found])
        rw [entry]
        simp [occupied, Update.entry, stated]
  have put : (m.put key owner state).entries.length = (m.clearEntry key).entries.length + 1 :=
    List.length_append
  rw [write, put]
  dsimp only
  by_cases none : m.lookup key = none
  · rw [if_pos (isNew.mpr none), h.size]
    rw [if_pos none] at length
    omega
  · rw [if_neg (mt isNew.mp none), h.size]
    rw [if_neg none] at length
    omega

/-- A key whose search ends at a slot is put there. -/
theorem Refines.write (h : index.Refines m used) (found : index.find key = some i) (owner : Int)
    (state : BufferedEntryState) (hstate : state ≠ .absent) :
    (index.write i key owner state).Refines (m.put key owner state) (insert key used) := by
  have hi : i < index.slotCount := lt_of_find found
  have stop := (find_eq_some_iff.mp found).1
  have cells := index.cell_write i key owner state
  have placed : Placed index.slotCount index.normalize
      (Function.update index.cell i (.held key)) := by
    obtain ⟨-, before, after, split, skipped⟩ := find_eq_some_iff.mp found
    by_cases absent : Absent index.slotCount index.cell key
    · exact h.placed.put absent ⟨before, after, split, fun j mem => (skipped j mem).1⟩
    · obtain ⟨j, found', held⟩ := h.placed.not_absent_iff.mp absent
      obtain rfl := Option.some.inj (found.symm.trans found')
      rw [← held, Function.update_eq_self]
      exact h.placed
  refine ⟨h.wf.put key owner hstate, cells ▸ placed, fun key' => ?_, fun j hj key' held => ?_,
    fun u mem => ?_, ?_, h.size_write found owner state⟩
  · rw [Finset.mem_insert, h.held, cells]
    constructor
    · rintro (rfl | ⟨j, hj, held⟩)
      · exact ⟨i, hi, Function.update_self ..⟩
      · by_cases hji : j = i
        · subst hji
          rcases stop with free | held'
          · rw [free] at held
            cases held
          · refine ⟨j, hj, ?_⟩
            rw [Function.update_self, ← held, held']
        · exact ⟨j, hj, (Function.update_of_ne hji ..).trans held⟩
    · rintro ⟨j, hj, held⟩
      by_cases hji : j = i
      · rw [hji, Function.update_self] at held
        exact Or.inl (Cell.held.inj held).symm
      · rw [Function.update_of_ne hji] at held
        exact Or.inr ⟨j, hj, held⟩
  · have count : (index.write i key owner state).slotCount = index.slotCount := rfl
    rw [cells] at held
    by_cases hji : j = i
    · subst hji
      rw [Function.update_self] at held
      obtain rfl := Cell.held.inj held
      refine Or.inr ⟨_, (IndexMap.lookup_put ..).trans (if_pos rfl), ?_⟩
      have slot : ((index.write j key owner state).slot j).entry =
          ⟨key, owner, state, index.nextSequence⟩ := by
        simp [BufferedHashIndex.write]
      rw [slot, h.next]
      rfl
    · have ne : key' ≠ key := by
        rintro rfl
        exact hji (placed.unique hj hi held (Function.update_self ..))
      rw [Function.update_of_ne hji] at held
      have slot : (index.write i key owner state).slot j = index.slot j :=
        Function.update_of_ne hji ..
      rw [Holds, IndexMap.lookup_put, if_neg ne, slot]
      exact h.slots j hj key' held
  · rcases List.mem_append.mp mem with mem | mem
    · exact Finset.mem_insert_of_mem (h.within u (IndexMap.mem_clearEntry.mp mem).1)
    · exact List.mem_singleton.mp mem ▸ Finset.mem_insert_self ..
  · have next : (index.write i key owner state).nextSequence = index.nextSequence + 1 := rfl
    rw [next, h.next, IndexMap.put, UInt64.ofNat_add (m.updates + 1)]
    rfl

/-- A call gets a slot exactly if there is one for each key in use. -/
theorem Refines.findOrAllocateSlot_lt_iff (h : index.Refines m used) (key : Int) :
    index.findOrAllocateSlot key < index.slotCount ↔
      (insert key used).card ≤ index.slotCount := by
  rw [findOrAllocateSlot_eq]
  cases found : index.find key with
  | some i =>
      have put := h.write found 0 .present (by decide)
      exact iff_of_true (lt_of_find found) put.card_le
  | none =>
      have full := (find_eq_none_iff (index.normalize_lt key)).mp found
      refine iff_of_false (lt_irrefl _) fun hcard => ?_
      have absent : Absent index.slotCount index.cell key := fun i hi => (full i hi).2
      obtain ⟨i, hi, free⟩ := h.placed.room hcard (Finset.mem_insert_self ..) absent
        fun i hi key' held => Finset.mem_insert_of_mem ((h.held key').mpr ⟨i, hi, held⟩)
      refine (full i hi).1 ?_
      cases hcell : index.cell i with
      | free => rfl
      | dead =>
          rw [cell] at hcell
          split at hcell
          · cases hcell
          · cases hcell
      | held key' => exact absurd hcell (free key')

theorem Refines.put (h : index.Refines m used) (room : (insert key used).card ≤ index.slotCount)
    (owner : Int) {state : BufferedEntryState} (hstate : state ≠ .absent) :
    ∃ index', index.put key owner state = some index' ∧
      index'.Refines (m.put key owner state) (insert key used) ∧
      index'.slotCount = index.slotCount := by
  have hlt := (h.findOrAllocateSlot_lt_iff key).mpr room
  have written : index.put key owner state =
      some (index.write (index.findOrAllocateSlot key) key owner state) := if_pos hlt
  rw [findOrAllocateSlot_eq] at hlt written
  cases found : index.find key with
  | none =>
      rw [found] at hlt
      exact absurd hlt (lt_irrefl _)
  | some i =>
      rw [found] at written
      exact ⟨_, written, h.write found owner state hstate, rfl⟩

/-- A cleared entry leaves its slot to the key. -/
theorem cell_clearEntry (index : BufferedHashIndex) (key : Int) :
    (index.clearEntry key).cell = index.cell := by
  rw [BufferedHashIndex.clearEntry]
  dsimp only
  split
  · rfl
  · funext j
    by_cases hj : j = index.findSlot key
    · subst hj
      simp [cell]
    · simp [cell, Function.update_of_ne hj]

theorem Refines.clearEntry_held (h : index.Refines m used) {u : Update}
    (hi : index.findSlot key < index.slotCount)
    (held : index.cell (index.findSlot key) = .held key) (found : m.lookup key = some u)
    (entry : (index.slot (index.findSlot key)).entry = u.entry) :
    (index.clearEntry key).Refines (m.clearEntry key) used := by
  have stated : u.state ≠ .absent := h.wf.stated u (IndexMap.mem_of_lookup found).1
  have cells := index.cell_clearEntry key
  have length := h.wf.length_clearEntry key
  have nonempty : index.size > 0 := by
    rw [h.size]
    exact List.length_pos_of_mem (IndexMap.mem_of_lookup found).1
  have some : ¬ (index.findSlot key = index.slotCount ∨
      (index.slot (index.findSlot key)).entry.state = .absent) := by
    rw [entry]
    exact not_or.mpr ⟨hi.ne, stated⟩
  have cleared : index.clearEntry key = _ := if_neg some
  have count : (index.clearEntry key).slotCount = index.slotCount := by
    rw [cleared]
  have home : (index.clearEntry key).normalize = index.normalize := by
    rw [cleared]
    rfl
  refine ⟨h.wf.clearEntry key, ?_, ?_, fun j hj key' held' => ?_,
    fun v mem => h.within v (IndexMap.mem_clearEntry.mp mem).1, ?_, ?_⟩
  · rw [cells, count, home]
    exact h.placed
  · rw [cells, count]
    exact h.held
  · rw [cells] at held'
    rw [count] at hj
    rw [Holds, IndexMap.lookup_clearEntry]
    by_cases hkey : key' = key
    · subst hkey
      obtain rfl := h.placed.unique hj hi held' held
      refine Or.inl ⟨if_pos rfl, ?_⟩
      rw [cleared]
      dsimp only
      rw [Function.update_self]
    · have ne : j ≠ index.findSlot key := by
        rintro rfl
        exact hkey (Cell.held.inj (held'.symm.trans held))
      have slot : (index.clearEntry key).slot j = index.slot j := by
        rw [cleared]
        exact Function.update_of_ne ne ..
      rw [if_neg hkey, slot]
      exact h.slots j hj key' held'
  · rw [cleared]
    exact h.next
  · rw [cleared]
    dsimp only
    rw [if_pos nonempty, h.size]
    rw [found, if_neg (Option.some_ne_none u)] at length
    omega

theorem Refines.clearEntry (h : index.Refines m used) (key : Int) :
    (index.clearEntry key).Refines (m.clearEntry key) used := by
  have unchanged : m.lookup key = none → m.clearEntry key = m := fun none => by
    rw [IndexMap.clearEntry, List.filter_eq_self.mpr fun u mem => by
      simpa using IndexMap.lookup_eq_none.mp none u mem]
  rcases h.findSlot_cases key with ⟨-, hi, held⟩ | ⟨unused, missed⟩
  · rcases h.slots _ hi key held with ⟨none, absent⟩ | ⟨u, found, entry⟩
    · rw [BufferedHashIndex.clearEntry, if_pos (Or.inr absent), unchanged none]
      exact h
    · exact h.clearEntry_held hi held found entry
  · rw [BufferedHashIndex.clearEntry, if_pos (Or.inl missed), unchanged (h.lookup_eq_none unused)]
    exact h

theorem Refines.clear (index : BufferedHashIndex) : index.clear.Refines {} ∅ where
  wf := ⟨List.nodup_nil, by simp, List.Pairwise.nil, by simp⟩
  placed := fun i _ key held => by cases held
  held := fun key => by
    refine iff_of_false (Finset.notMem_empty key) ?_
    rintro ⟨i, -, held⟩
    cases held
  slots := fun i _ key held => by cases held
  within := by simp
  next := rfl
  size := rfl

end Refines

end BufferedHashIndex

end F3Tree
