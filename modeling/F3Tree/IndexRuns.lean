import F3Tree.IndexRefines

/-!
# Runs of the buffered hash index

The keys in use are those updated since the last `clear` (`usedKeys`), whether their entries
are still there or not.  While there is a slot for each of them the index answers as the map
(`agrees_run`), and no longer (`inBounds_iff`): then an update gets the number of slots as
the index of its slot.
-/

namespace F3Tree

inductive IndexCall : Type
  | upsert (key owner : Int)
  | erase (key owner : Int)
  | clearEntry (key : Int)
  | clear
deriving DecidableEq, Repr

namespace IndexCall

def perform (index : BufferedHashIndex) : IndexCall → Option BufferedHashIndex
  | upsert key owner => index.upsert key owner
  | erase key owner => index.erase key owner
  | clearEntry key => some (index.clearEntry key)
  | clear => some index.clear

/-- What a call does to the map. -/
def update (m : IndexMap) : IndexCall → IndexMap
  | upsert key owner => m.put key owner .present
  | erase key owner => m.put key owner .tombstone
  | clearEntry key => m.clearEntry key
  | clear => {}

/-- The key that a call needs a slot for. -/
def slotKey? : IndexCall → Option Int
  | upsert key _ => some key
  | erase key _ => some key
  | clearEntry _ => none
  | clear => none

/-- The keys that have a slot after a call. -/
def use (used : Finset Int) : IndexCall → Finset Int
  | upsert key _ => insert key used
  | erase key _ => insert key used
  | clearEntry _ => used
  | clear => ∅

end IndexCall

def mapOf (calls : List IndexCall) : IndexMap := calls.foldl IndexCall.update {}

/-- The keys of the updates since the last `clear`. -/
def usedKeys (calls : List IndexCall) : Finset Int := calls.foldl IndexCall.use ∅

/-- There is a slot for each key in use, at any time. -/
def Fits (slots : Nat) (calls : List IndexCall) : Prop :=
  ∀ before, before <+: calls → (usedKeys before).card ≤ slots

theorem mapOf_concat (calls : List IndexCall) (call : IndexCall) :
    mapOf (calls ++ [call]) = call.update (mapOf calls) :=
  List.foldl_concat ..

theorem usedKeys_concat (calls : List IndexCall) (call : IndexCall) :
    usedKeys (calls ++ [call]) = call.use (usedKeys calls) :=
  List.foldl_concat ..

theorem fits_concat {slots : Nat} {calls : List IndexCall} {call : IndexCall} :
    Fits slots (calls ++ [call]) ↔
      Fits slots calls ∧ (call.use (usedKeys calls)).card ≤ slots := by
  constructor
  · intro fits
    refine ⟨fun before h => fits before (h.trans (List.prefix_append ..)), ?_⟩
    rw [← usedKeys_concat]
    exact fits _ List.prefix_rfl
  · rintro ⟨fits, room⟩ before h
    rcases List.prefix_concat_iff.mp h with rfl | h
    · rw [usedKeys_concat]
      exact room
    · exact fits before h

theorem usedKeys_subset {keys : Finset Int} {calls : List IndexCall}
    (within : ∀ call ∈ calls, ∀ key, call.slotKey? = some key → key ∈ keys) :
    usedKeys calls ⊆ keys := by
  induction calls using List.reverseRecOn with
  | nil => exact Finset.empty_subset keys
  | append_singleton calls call ih =>
      have before := ih fun c mem => within c (List.mem_append_left _ mem)
      have here := within call (List.mem_append_right _ List.mem_cons_self)
      rw [usedKeys_concat]
      cases call with
      | upsert key owner => exact Finset.insert_subset (here key rfl) before
      | erase key owner => exact Finset.insert_subset (here key rfl) before
      | clearEntry key => exact before
      | clear => exact Finset.empty_subset keys

/-- No more keys than slots. -/
theorem fits_of_keys {slots : Nat} (keys : Finset Int) (few : keys.card ≤ slots)
    {calls : List IndexCall}
    (within : ∀ call ∈ calls, ∀ key, call.slotKey? = some key → key ∈ keys) :
    Fits slots calls := by
  intro before h
  have subset := usedKeys_subset fun call mem => within call (h.subset mem)
  exact (Finset.card_le_card subset).trans few

namespace BufferedHashIndex

/-- The index after a run of calls, unless one writes behind the last slot. -/
def run (index : BufferedHashIndex) (calls : List IndexCall) : Option BufferedHashIndex :=
  calls.foldlM IndexCall.perform index

theorem run_concat (index : BufferedHashIndex) (calls : List IndexCall) (call : IndexCall) :
    index.run (calls ++ [call]) = (index.run calls).bind call.perform := by
  rw [run, List.foldlM_append, run]
  refine congrArg (Option.bind _) (funext fun index' => ?_)
  exact Option.bind_fun_some (call.perform index')

/-! ## What the index answers -/

/-- The index answers as the map, and lists what it holds once each. -/
structure Represents (index : BufferedHashIndex) (m : IndexMap) : Prop where
  state : ∀ key, index.stateFor key = m.stateOf key
  contains : ∀ key, index.contains key = decide (m.stateOf key = .present)
  hasEntry : ∀ key, index.hasEntry key = decide (m.stateOf key ≠ .absent)
  owner : ∀ key, index.ownerFor key = m.ownerOf key
  size : index.size = {key | index.stateFor key ≠ .absent}.ncard
  once : (index.entries.map BufferedEntry.key).Nodup
  listed : ∀ key, key ∈ index.entries.map BufferedEntry.key ↔ index.stateFor key ≠ .absent
  read : ∀ e ∈ index.entries, e.state = index.stateFor e.key ∧ e.owner = index.ownerFor e.key

/-- Sequences are distinct and ordered like the last updates of the keys. -/
def Ordered (index : BufferedHashIndex) (m : IndexMap) : Prop :=
  (index.entries.map BufferedEntry.sequence).Nodup ∧
    ∀ e ∈ index.entries, ∀ e' ∈ index.entries,
      e.sequence < e'.sequence ↔ m.lastUpdate e.key < m.lastUpdate e'.key

section Answers

variable {index : BufferedHashIndex} {m : IndexMap} {used : Finset Int} {key : Int}

/-- The slot of a key, if it has one, has what the map has of it. -/
theorem Refines.answer (h : index.Refines m used) (key : Int) :
    (m.lookup key = none ∧ (index.findSlot key = index.slotCount ∨
      (index.slot (index.findSlot key)).entry.state = .absent)) ∨
    ∃ u, m.lookup key = some u ∧ u.state ≠ .absent ∧ index.findSlot key ≠ index.slotCount ∧
      (index.slot (index.findSlot key)).entry = u.entry := by
  rcases h.findSlot_cases key with ⟨-, hi, held⟩ | ⟨unused, missed⟩
  · rcases h.slots _ hi key held with ⟨none, absent⟩ | ⟨u, found, entry⟩
    · exact Or.inl ⟨none, Or.inr absent⟩
    · exact Or.inr ⟨u, found, h.wf.stated u (IndexMap.mem_of_lookup found).1, hi.ne, entry⟩
  · exact Or.inl ⟨h.lookup_eq_none unused, Or.inl missed⟩

theorem Refines.stateFor (h : index.Refines m used) (key : Int) :
    index.stateFor key = m.stateOf key := by
  rw [BufferedHashIndex.stateFor, IndexMap.stateOf]
  rcases h.answer key with ⟨none, absent⟩ | ⟨u, found, -, hit, entry⟩
  · rw [none]
    split
    · rfl
    · rename_i hit
      exact absent.resolve_left hit
  · rw [found, if_neg hit, entry]
    rfl

theorem Refines.ownerFor (h : index.Refines m used) (key : Int) :
    index.ownerFor key = m.ownerOf key := by
  rw [BufferedHashIndex.ownerFor, IndexMap.ownerOf]
  rcases h.answer key with ⟨none, absent⟩ | ⟨u, found, stated, hit, entry⟩
  · rw [none, if_pos absent]
    rfl
  · have some : ¬ (index.findSlot key = index.slotCount ∨
        (index.slot (index.findSlot key)).entry.state = .absent) := by
      rw [entry]
      exact not_or.mpr ⟨hit, stated⟩
    rw [found, if_neg some, entry]
    rfl

theorem mem_entries {e : BufferedEntry} :
    e ∈ index.entries ↔ ∃ i, i < index.slotCount ∧ index.cell i = .held e.key ∧
      e.state ≠ .absent ∧ (index.slot i).entry = e := by
  simp only [entries, List.mem_filterMap, List.mem_range]
  constructor
  · rintro ⟨i, hi, hslot⟩
    split at hslot
    · cases hslot
    · rename_i some
      rw [not_or, Bool.not_eq_false] at some
      obtain rfl := Option.some.inj hslot
      exact ⟨i, hi, cell_eq_held.mpr ⟨some.1, rfl⟩, some.2, rfl⟩
  · rintro ⟨i, hi, held, stated, rfl⟩
    refine ⟨i, hi, if_neg (not_or.mpr ⟨?_, stated⟩)⟩
    simp [(cell_eq_held.mp held).1]

theorem Refines.mem_entries_iff (h : index.Refines m used) {e : BufferedEntry} :
    e ∈ index.entries ↔ ∃ u ∈ m.entries, u.entry = e := by
  rw [mem_entries]
  constructor
  · rintro ⟨i, hi, held, stated, rfl⟩
    rcases h.slots i hi _ held with ⟨-, absent⟩ | ⟨u, found, entry⟩
    · exact absurd absent stated
    · exact ⟨u, (IndexMap.mem_of_lookup found).1, entry.symm⟩
  · rintro ⟨u, mem, rfl⟩
    obtain ⟨i, hi, held⟩ := (h.held u.key).mp (h.within u mem)
    have found : m.lookup u.key = some u := h.wf.lookup_eq_some.mpr ⟨mem, rfl⟩
    refine ⟨i, hi, held, h.wf.stated u mem, ?_⟩
    rcases h.slots i hi _ held with ⟨none, -⟩ | ⟨v, found', entry⟩
    · rw [found] at none
      cases none
    · obtain rfl := Option.some.inj (found.symm.trans found')
      exact entry

theorem Refines.nodup_entries (h : index.Refines m used) :
    (index.entries.map BufferedEntry.key).Nodup := by
  rw [List.Nodup, List.pairwise_map, entries, List.pairwise_filterMap]
  refine List.nodup_range.imp_of_mem fun {i j} hi hj ne e he e' he' same => ?_
  have held : ∀ {k : Nat} {e : BufferedEntry},
      (if (index.slot k).occupied = false ∨ (index.slot k).entry.state = .absent then none
        else some (index.slot k).entry) = some e → index.cell k = .held e.key := by
    intro k e hslot
    split at hslot
    · cases hslot
    · rename_i some
      rw [not_or, Bool.not_eq_false] at some
      obtain rfl := Option.some.inj hslot
      exact cell_eq_held.mpr ⟨some.1, rfl⟩
  exact ne (h.placed.unique (List.mem_range.mp hi) (List.mem_range.mp hj) (held he)
    (same ▸ held he'))

/-- The entries are those of the map. -/
theorem Refines.entries_perm (h : index.Refines m used) :
    index.entries.Perm (m.entries.map Update.entry) := by
  have nodup : (m.entries.map Update.entry).Nodup := by
    refine .of_map BufferedEntry.key ?_
    rw [List.map_map]
    exact h.wf.nodup
  refine (List.perm_ext_iff_of_nodup (.of_map BufferedEntry.key h.nodup_entries) nodup).mpr
    fun e => ?_
  rw [h.mem_entries_iff, List.mem_map]

theorem Refines.represents (h : index.Refines m used) : index.Represents m := by
  have state := h.stateFor
  have listed : ∀ key, key ∈ index.entries.map BufferedEntry.key ↔ index.stateFor key ≠ .absent := by
    intro key
    have perm := h.entries_perm.map BufferedEntry.key
    rw [perm.mem_iff, List.map_map, state, IndexMap.stateOf]
    cases found : m.lookup key with
    | none =>
        refine iff_of_false (fun mem => ?_) (by simp)
        obtain ⟨u, mem, hkey⟩ := List.mem_map.mp mem
        exact IndexMap.lookup_eq_none.mp found u mem hkey
    | some u =>
        obtain ⟨mem, rfl⟩ := IndexMap.mem_of_lookup found
        exact iff_of_true (List.mem_map.mpr ⟨u, mem, rfl⟩) (h.wf.stated u mem)
  refine ⟨state, fun key => ?_, fun key => ?_, h.ownerFor, ?_, h.nodup_entries, listed,
    fun e mem => ?_⟩
  · rw [BufferedHashIndex.contains, state]
  · rw [BufferedHashIndex.hasEntry, state]
  · have keys : {key | index.stateFor key ≠ .absent} =
        ((index.entries.map BufferedEntry.key).toFinset : Set Int) := by
      ext key
      rw [Finset.mem_coe, List.mem_toFinset, listed]
      rfl
    rw [keys, Set.ncard_coe_finset, List.toFinset_card_of_nodup h.nodup_entries, List.length_map,
      h.entries_perm.length_eq, List.length_map, h.size]
  · obtain ⟨u, hu, rfl⟩ := h.mem_entries_iff.mp mem
    have found : m.lookup u.key = some u := h.wf.lookup_eq_some.mpr ⟨hu, rfl⟩
    have key : u.entry.key = u.key := rfl
    rw [state, h.ownerFor, IndexMap.stateOf, IndexMap.ownerOf, key, found]
    exact ⟨rfl, rfl⟩

/-- Before the counter wraps around, sequences are the numbers of the updates. -/
theorem Refines.ordered (h : index.Refines m used) (few : m.updates < 2 ^ 64) :
    index.Ordered m := by
  have number : ∀ u ∈ m.entries, u.entry.sequence.toNat = u.number := fun u mem =>
    UInt64.toNat_ofNat_of_lt ((h.wf.bound u mem).2.trans_lt few)
  constructor
  · rw [(h.entries_perm.map BufferedEntry.sequence).nodup_iff, List.map_map]
    refine List.pairwise_map.mpr (h.wf.numbered.imp_of_mem fun {u v} hu hv lt same => ?_)
    have same : u.entry.sequence.toNat = v.entry.sequence.toNat := congrArg UInt64.toNat same
    rw [number u hu, number v hv] at same
    exact lt.ne same
  · intro e mem e' mem'
    obtain ⟨u, hu, rfl⟩ := h.mem_entries_iff.mp mem
    obtain ⟨v, hv, rfl⟩ := h.mem_entries_iff.mp mem'
    have last : ∀ w ∈ m.entries, m.lastUpdate w.entry.key = w.number := fun w hw => by
      have found : m.lookup w.entry.key = some w := h.wf.lookup_eq_some.mpr ⟨hw, rfl⟩
      rw [IndexMap.lastUpdate, found]
      rfl
    rw [UInt64.lt_iff_toNat_lt, number u hu, number v hv, last u hu, last v hv]

end Answers

/-! ## In every run -/

section Runs

variable {index : BufferedHashIndex} {m : IndexMap} {used : Finset Int} {capacity : Nat}
  {calls : List IndexCall}

theorem Refines.perform (h : index.Refines m used) (call : IndexCall)
    (room : (call.use used).card ≤ index.slotCount) :
    ∃ index', call.perform index = some index' ∧ index'.Refines (call.update m) (call.use used) ∧
      index'.slotCount = index.slotCount := by
  cases call with
  | upsert key owner => exact h.put room owner (by decide)
  | erase key owner => exact h.put room owner (by decide)
  | clearEntry key =>
      refine ⟨index.clearEntry key, rfl, h.clearEntry key, ?_⟩
      rw [BufferedHashIndex.clearEntry]
      dsimp only
      split <;> rfl
  | clear => exact ⟨index.clear, rfl, .clear index, rfl⟩

theorem refines_run (fits : Fits (slotsFor capacity) calls) :
    ∃ index, (init capacity).run calls = some index ∧
      index.Refines (mapOf calls) (usedKeys calls) ∧ index.slotCount = slotsFor capacity := by
  induction calls using List.reverseRecOn with
  | nil => exact ⟨init capacity, rfl, .clear (init capacity), rfl⟩
  | append_singleton calls call ih =>
      obtain ⟨fits, room⟩ := fits_concat.mp fits
      obtain ⟨index, run, h, count⟩ := ih fits
      obtain ⟨index', performed, h', count'⟩ := h.perform call (count.symm ▸ room)
      refine ⟨index', ?_, ?_, count'.trans count⟩
      · rw [run_concat, run]
        exact performed
      · rw [mapOf_concat, usedKeys_concat]
        exact h'

/-- After every call the index is the map, as long as there is a slot for each key in use. -/
theorem agrees_run (fits : Fits (slotsFor capacity) calls) {before : List IndexCall}
    (done : before <+: calls) :
    ∃ index, (init capacity).run before = some index ∧ index.Represents (mapOf before) ∧
      ((mapOf before).updates < 2 ^ 64 → index.Ordered (mapOf before)) := by
  obtain ⟨index, run, h, -⟩ := refines_run fun b hb => fits b (hb.trans done)
  exact ⟨index, run, h.represents, h.ordered⟩

/-- Two slots for two keys, one of them negative. -/
theorem agrees_run_two :
    ∃ index, (init 2).run [.upsert (-3) 7, .erase 4 1, .upsert (-3) 2, .clearEntry 4] =
        some index ∧
      index.stateFor (-3) = .present ∧ index.ownerFor (-3) = 2 ∧ index.hasEntry 4 = false := by
  have fits : Fits (slotsFor 2) [.upsert (-3) 7, .erase 4 1, .upsert (-3) 2, .clearEntry 4] :=
    fits_of_keys {-3, 4} (by decide) (by simp [IndexCall.slotKey?])
  obtain ⟨index, run, represents, -⟩ := agrees_run fits List.prefix_rfl
  exact ⟨index, run, represents.state _, represents.owner _, represents.hasEntry _⟩

/-! ## Slots that do not come back -/

/-- Every update gets a slot. -/
def InBounds (capacity : Nat) (calls : List IndexCall) : Prop :=
  ∀ before call, before ++ [call] <+: calls → ∀ key, call.slotKey? = some key →
    ∃ index, (init capacity).run before = some index ∧
      index.findOrAllocateSlot key < index.slotCount

theorem InBounds.of_prefix {before : List IndexCall} (h : InBounds capacity calls)
    (done : before <+: calls) : InBounds capacity before :=
  fun b call hb => h b call (hb.trans done)

/-- Every update gets a slot if and only if there is always one for each key updated since the
last `clear`, whether its entry has been cleared or not. -/
theorem inBounds_iff (capacity : Nat) (calls : List IndexCall) :
    InBounds capacity calls ↔ Fits (slotsFor capacity) calls := by
  constructor
  · intro bounds
    induction calls using List.reverseRecOn with
    | nil =>
        intro before h
        obtain rfl := List.prefix_nil.mp h
        exact Nat.zero_le _
    | append_singleton calls call ih =>
        have fits := ih (bounds.of_prefix (List.prefix_append ..))
        obtain ⟨index, run, h, count⟩ := refines_run fits
        refine fits_concat.mpr ⟨fits, ?_⟩
        have room : ∀ key, call.slotKey? = some key →
            (insert key (usedKeys calls)).card ≤ slotsFor capacity := fun key hkey => by
          obtain ⟨index', run', hlt⟩ := bounds calls call List.prefix_rfl key hkey
          obtain rfl := Option.some.inj (run.symm.trans run')
          exact count ▸ (h.findOrAllocateSlot_lt_iff key).mp hlt
        cases call with
        | upsert key owner => exact room key rfl
        | erase key owner => exact room key rfl
        | clearEntry key => exact fits calls List.prefix_rfl
        | clear => exact Nat.zero_le _
  · intro fits before call done key hkey
    have fits := fits_concat.mp fun b hb => fits b (hb.trans done)
    obtain ⟨index, run, h, count⟩ := refines_run fits.1
    refine ⟨index, run, (h.findOrAllocateSlot_lt_iff key).mpr (count ▸ ?_)⟩
    cases call with
    | upsert key' owner => exact Option.some.inj hkey ▸ fits.2
    | erase key' owner => exact Option.some.inj hkey ▸ fits.2
    | clearEntry key' => cases hkey
    | clear => cases hkey

/-- The entry of 1 is cleared, and there is still no slot for 2. -/
theorem overruns :
    let calls : List IndexCall := [.upsert 1 0, .clearEntry 1, .upsert 2 0]
    (∀ before, before <+: calls → (mapOf before).entries.length ≤ 1) ∧
      (∃ index, (init 1).run [.upsert 1 0, .clearEntry 1] = some index ∧
        index.findOrAllocateSlot 2 = index.slotCount) ∧ ¬ InBounds 1 calls := by
  intro calls
  have short : ∀ before ∈ calls.inits, (mapOf before).entries.length ≤ 1 := by decide
  obtain ⟨index, run, full⟩ : ∃ index, (init 1).run [.upsert 1 0, .clearEntry 1] = some index ∧
      index.findOrAllocateSlot 2 = index.slotCount := ⟨_, rfl, rfl⟩
  refine ⟨fun before h => short before ((List.mem_inits ..).mpr h), ⟨index, run, full⟩,
    fun bounds => ?_⟩
  obtain ⟨index', run', hlt⟩ := bounds [.upsert 1 0, .clearEntry 1] (.upsert 2 0) List.prefix_rfl
    2 rfl
  obtain rfl := Option.some.inj (run.symm.trans run')
  exact hlt.ne full

/-! ## The counter wraps around -/

theorem mapOf_replicate {n : Nat} (some : 0 < n) :
    mapOf (.upsert 0 0 :: List.replicate n (.upsert 1 0)) =
      ⟨[⟨0, 0, .present, 1⟩, ⟨1, 0, .present, n + 1⟩], n + 1⟩ := by
  induction n, some using Nat.le_induction with
  | base => rfl
  | succ n _ ih =>
      rw [List.replicate_succ', ← List.cons_append, mapOf_concat, ih]
      rfl

/-- After `2 ^ 64` updates the sequence of the last one is 0. -/
theorem sequences_wrap :
    let calls : List IndexCall := .upsert 0 0 :: List.replicate (2 ^ 64 - 1) (.upsert 1 0)
    Fits 2 calls ∧
      ∃ index, (init 2).run calls = some index ∧ ¬ index.Ordered (mapOf calls) := by
  intro calls
  have map := mapOf_replicate (by decide : 0 < 2 ^ 64 - 1)
  have fits : Fits (slotsFor 2) calls := by
    refine fits_of_keys {0, 1} (by decide) fun call mem => ?_
    rcases List.mem_cons.mp mem with rfl | mem
    · simp [IndexCall.slotKey?]
    · obtain rfl := List.eq_of_mem_replicate mem
      simp [IndexCall.slotKey?]
  obtain ⟨index, run, h, -⟩ := refines_run fits
  refine ⟨fits, index, run, fun ordered => ?_⟩
  rw [map] at h ordered
  have first := h.mem_entries_iff.mpr ⟨_, List.mem_cons_self, rfl⟩
  have last := h.mem_entries_iff.mpr
    ⟨_, List.mem_cons_of_mem _ List.mem_cons_self, rfl⟩
  have later := (ordered.2 _ first _ last).mpr (by decide)
  exact absurd later (by decide)

end Runs

end BufferedHashIndex

end F3Tree
