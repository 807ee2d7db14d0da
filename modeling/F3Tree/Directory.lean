import Mathlib.Data.Int.Order.Basic
import Mathlib.Tactic.Common
import F3Tree.HashMap

/-!
# Lookup directories

`future_lookup_directory[tid]` of `core/btree.h`: for each key a producer has
buffered, the state and sequence number of its last operation.  The slots are
probed as in the hashtable, but a full directory refuses a new key instead of
evicting an old one, and slots are only ever freed all at once.
-/

namespace F3Tree

inductive FutureEntryState : Type
  | absent
  | present
  | tombstone
deriving DecidableEq, Repr

/-- The state an operation leaves its key in. -/
def stateOf (isDelete : Bool) : FutureEntryState :=
  if isDelete then .tombstone else .present

structure FutureLookupEntry : Type where
  key : Int
  owner : Int
  state : FutureEntryState
  sequence : Nat
deriving DecidableEq, Repr

structure FutureLookupSlot : Type where
  occupied : Bool := false
  key : Int := 0
  owner : Int := -1
  state : FutureEntryState := .absent
  sequence : Nat := 0
deriving DecidableEq, Repr

/-- An entry as `future_collect_lookup_entries` reads it off a slot. -/
def FutureLookupSlot.entry (slot : FutureLookupSlot) : FutureLookupEntry :=
  ⟨slot.key, slot.owner, slot.state, slot.sequence⟩

/-- One `future_lookup_directory[tid]`. -/
structure LookupDirectory : Type where
  size : Nat
  slot : Nat → FutureLookupSlot
  size_pos : 0 < size

namespace LookupDirectory

/-- The directory as the constructor leaves it. -/
def empty (cap : Nat) : LookupDirectory where
  size := if 0 < cap then cap else 1
  slot := fun _ => {}
  size_pos := atLeastOne_pos cap

/-- The slot `future_lookup_index` tries first.  The source's two remainders are
`tmod` on both sides of the addition. -/
def homeIndex (dir : LookupDirectory) (key : Int) : Nat :=
  ((key.tmod dir.size + dir.size).tmod dir.size).toNat

/-- The `do` loop of `future_lookup_index`, for at most the given number of
turns; `dir.size` is the answer for "not found" and "full". -/
def lookupLoop (dir : LookupDirectory) (key : Int) (allocateSlot : Bool)
    (start : Nat) : Nat → Nat → Nat
  | 0, _ => dir.size
  | n + 1, index =>
      if (dir.slot index).occupied = false then
        if allocateSlot then index else dir.size
      else if (dir.slot index).key = key then index
      else if (index + 1) % dir.size = start then dir.size
      else dir.lookupLoop key allocateSlot start n ((index + 1) % dir.size)

/-- `future_lookup_index`. -/
def futureLookupIndex (dir : LookupDirectory) (key : Int) (allocateSlot : Bool) :
    Nat :=
  dir.lookupLoop key allocateSlot (dir.homeIndex key) dir.size (dir.homeIndex key)

def setSlot (dir : LookupDirectory) (i : Nat) (s : FutureLookupSlot) :
    LookupDirectory :=
  { dir with slot := Function.update dir.slot i s }

/-- The directory update at the end of `future_insert`.  A full directory is left
as it is. -/
def record (dir : LookupDirectory) (key : Int) (tid : Nat) (isDone : Bool)
    (sequence : Nat) : LookupDirectory :=
  let lookupIndex := dir.futureLookupIndex key true
  if lookupIndex ≠ dir.size then
    dir.setSlot lookupIndex
      { occupied := true, key := key, owner := tid, state := stateOf isDone,
        sequence := sequence }
  else dir

/-- The directory update of the recovery pass: as `record`, but an entry of the key
gives way to a higher sequence number only. -/
def recover (dir : LookupDirectory) (key : Int) (tid : Nat) (isDelete : Bool)
    (sequence : Nat) : LookupDirectory :=
  let lookupIndex := dir.futureLookupIndex key true
  if lookupIndex ≠ dir.size then
    let slot := dir.slot lookupIndex
    if slot.occupied = false ∨ sequence > slot.sequence then
      dir.setSlot lookupIndex
        { occupied := true, key := key, owner := tid, state := stateOf isDelete,
          sequence := sequence }
    else dir
  else dir

/-- Every slot reset to `future_lookup_slot()`. -/
def clear (dir : LookupDirectory) : LookupDirectory :=
  { dir with slot := fun _ => {} }

/-- The slots of one directory that `future_collect_lookup_entries` keeps. -/
def collect (dir : LookupDirectory) : List FutureLookupEntry :=
  (List.range dir.size).filterMap fun i =>
    let slot := dir.slot i
    if slot.occupied = false ∨ slot.state = .absent then none
    else some slot.entry

/-! ## The probe loop is a linear-probing search -/

/-- What a slot says about keys. -/
def cell (dir : LookupDirectory) (i : Nat) : Probing.Cell Int :=
  if (dir.slot i).occupied then .held (dir.slot i).key else .free

/-- The slot at which the search for `key` stops. -/
def find (dir : LookupDirectory) (key : Int) : Option Nat :=
  Probing.find dir.size dir.homeIndex dir.cell key

theorem homeIndex_lt (dir : LookupDirectory) (key : Int) :
    dir.homeIndex key < dir.size := by
  have hpos : (0 : Int) < dir.size := by exact_mod_cast dir.size_pos
  have hlow := Int.lt_tmod_of_pos key hpos
  have hlt := Int.tmod_lt_of_pos (key.tmod dir.size + dir.size) hpos
  have hnonneg := Int.tmod_nonneg (a := key.tmod dir.size + dir.size) dir.size (by omega)
  rw [homeIndex]
  omega

@[simp]
theorem cell_eq_free {dir : LookupDirectory} {i : Nat} :
    dir.cell i = .free ↔ (dir.slot i).occupied = false := by
  rw [cell]
  split <;> simp_all

@[simp]
theorem cell_eq_held {dir : LookupDirectory} {i : Nat} {key : Int} :
    dir.cell i = .held key ↔ (dir.slot i).occupied = true ∧ (dir.slot i).key = key := by
  rw [cell]
  split <;> simp_all

/-- The answer of the probe loop once the search has stopped. -/
def answer (dir : LookupDirectory) (allocateSlot : Bool) : Option Nat → Nat
  | some i => if (dir.slot i).occupied = false ∧ allocateSlot = false then dir.size else i
  | none => dir.size

theorem lookupLoop_eq (dir : LookupDirectory) (key : Int) (allocateSlot : Bool)
    (start : Nat) : ∀ n i : Nat, dir.lookupLoop key allocateSlot start n i =
      dir.answer allocateSlot
        (Probing.walk dir.size start (Probing.stops dir.cell key) n i)
  | 0, _ => rfl
  | n + 1, i => by
      rw [lookupLoop, Probing.walk]
      by_cases hocc : (dir.slot i).occupied = false
      · have hstop : Probing.stops dir.cell key i = true := by
          simp [Probing.stops, hocc]
        rw [if_pos hstop, if_pos hocc]
        cases allocateSlot <;> simp [answer, hocc]
      rw [if_neg hocc]
      by_cases hkey : (dir.slot i).key = key
      · have hstop : Probing.stops dir.cell key i = true := by
          simp [Probing.stops, hkey, hocc]
        rw [if_pos hstop, if_pos hkey]
        simp [answer, hocc]
      have hgo : ¬ Probing.stops dir.cell key i = true := by
        simp [Probing.stops, hocc, hkey]
      rw [if_neg hkey, if_neg hgo]
      split
      · rfl
      · exact dir.lookupLoop_eq key allocateSlot start n _

theorem futureLookupIndex_eq (dir : LookupDirectory) (key : Int)
    (allocateSlot : Bool) :
    dir.futureLookupIndex key allocateSlot = dir.answer allocateSlot (dir.find key) := by
  rw [futureLookupIndex, lookupLoop_eq, Probing.walk_probes _ (dir.homeIndex_lt key)]
  rfl

/-! ## What the operations do to the entries -/

/-- Every key is where its search stops, and an occupied slot has a state. -/
structure Wf (dir : LookupDirectory) : Prop where
  placed : Probing.Placed dir.size dir.homeIndex dir.cell
  stated : ∀ i, (dir.slot i).occupied = true → (dir.slot i).state ≠ .absent

theorem mem_collect {dir : LookupDirectory} (wf : dir.Wf) {e : FutureLookupEntry} :
    e ∈ dir.collect ↔
      ∃ i, i < dir.size ∧ (dir.slot i).occupied = true ∧ (dir.slot i).entry = e := by
  simp only [collect, List.mem_filterMap, List.mem_range]
  constructor
  · rintro ⟨i, hi, hslot⟩
    split at hslot
    · cases hslot
    · rename_i h
      rw [not_or, Bool.not_eq_false] at h
      exact ⟨i, hi, h.1, Option.some.inj hslot⟩
  · rintro ⟨i, hi, hocc, rfl⟩
    have hne : ¬ ((dir.slot i).occupied = false ∨ (dir.slot i).state = .absent) := by
      simp [hocc, wf.stated i hocc]
    exact ⟨i, hi, if_neg hne⟩

theorem wf_empty (cap : Nat) : (empty cap).Wf where
  placed := by
    intro i _ key held
    cases held
  stated := by
    intro i hocc
    cases hocc

theorem Wf.clear {dir : LookupDirectory} : dir.clear.Wf where
  placed := by
    intro i _ key held
    cases held
  stated := by
    intro i hocc
    cases hocc

theorem collect_clear (dir : LookupDirectory) : dir.clear.collect = [] := by
  simp [collect, LookupDirectory.clear]

theorem collect_empty (cap : Nat) : (empty cap).collect = [] := by
  simp [collect, empty]

/-- A full directory refuses a new key. -/
theorem record_of_full {dir : LookupDirectory} {key : Int}
    (full : dir.find key = none) (tid : Nat) (isDone : Bool) (sequence : Nat) :
    dir.record key tid isDone sequence = dir := by
  have hindex : dir.futureLookupIndex key true = dir.size := by
    rw [futureLookupIndex_eq, full]
    rfl
  simp [record, hindex]

theorem record_eq {dir : LookupDirectory} {key : Int} {i : Nat}
    (found : dir.find key = some i) (tid : Nat) (isDone : Bool) (sequence : Nat) :
    dir.record key tid isDone sequence =
      dir.setSlot i ⟨true, key, tid, stateOf isDone, sequence⟩ := by
  have hindex : dir.futureLookupIndex key true = i := by
    rw [futureLookupIndex_eq, found]
    simp [answer]
  have hlt : i ≠ dir.size := (Probing.lt_of_find found).ne
  simp [record, hindex, hlt]

@[simp]
theorem size_record (dir : LookupDirectory) (key : Int) (tid : Nat) (isDone : Bool)
    (sequence : Nat) : (dir.record key tid isDone sequence).size = dir.size := by
  rw [record]
  split <;> rfl

theorem cell_setSlot_occupied (dir : LookupDirectory) (i : Nat) {slot : FutureLookupSlot}
    (hocc : slot.occupied = true) :
    (dir.setSlot i slot).cell = Function.update dir.cell i (.held slot.key) := by
  funext j
  by_cases hj : j = i
  · subst hj
    simp [cell, setSlot, hocc]
  · simp [cell, setSlot, Function.update_of_ne hj]

theorem Wf.record {dir : LookupDirectory} (wf : dir.Wf) (key : Int) (tid : Nat)
    (isDone : Bool) (sequence : Nat) : (dir.record key tid isDone sequence).Wf := by
  rcases found : dir.find key with _ | i
  · rw [record_of_full found]
    exact wf
  rw [record_eq found]
  constructor
  · rw [cell_setSlot_occupied _ _ rfl]
    obtain ⟨stop, before, after, split, skipped⟩ := Probing.find_eq_some_iff.mp found
    by_cases absent : Probing.Absent dir.size dir.cell key
    · exact wf.placed.put absent ⟨before, after, split, fun j mem => (skipped j mem).1⟩
    · obtain ⟨j, found', held⟩ := wf.placed.not_absent_iff.mp absent
      rw [show Probing.find _ _ _ _ = _ from found, Option.some.injEq] at found'
      rw [found', ← held, Function.update_eq_self]
      exact wf.placed
  · intro j hocc
    by_cases hj : j = i
    · subst hj
      simp only [setSlot, Function.update_self, stateOf]
      split <;> simp
    · simp only [setSlot, Function.update_of_ne hj] at hocc ⊢
      exact wf.stated j hocc

/-- A directory that has a slot for the key replaces the key's entry and keeps
the others. -/
theorem mem_collect_record {dir : LookupDirectory} (wf : dir.Wf) {key : Int}
    (room : dir.find key ≠ none) (tid : Nat) (isDone : Bool) (sequence : Nat)
    {e : FutureLookupEntry} :
    e ∈ (dir.record key tid isDone sequence).collect ↔
      e = ⟨key, tid, stateOf isDone, sequence⟩ ∨ e ∈ dir.collect ∧ e.key ≠ key := by
  obtain ⟨i, found⟩ := Option.ne_none_iff_exists'.mp room
  have hi : i < dir.size := Probing.lt_of_find found
  have stop := (Probing.find_eq_some_iff.mp found).1
  rw [mem_collect (wf.record key tid isDone sequence), mem_collect wf, record_eq found]
  constructor
  · rintro ⟨j, hj, hocc, rfl⟩
    by_cases hji : j = i
    · subst hji
      left
      simp [setSlot, FutureLookupSlot.entry]
    · right
      simp only [setSlot, Function.update_of_ne hji] at hocc ⊢
      refine ⟨⟨j, hj, hocc, rfl⟩, fun hkey => ?_⟩
      have held : dir.cell j = .held key := cell_eq_held.mpr ⟨hocc, hkey⟩
      have found' := wf.placed j hj key held
      rw [show Probing.find _ _ _ _ = _ from found, Option.some.injEq] at found'
      exact hji found'.symm
  · rintro (rfl | ⟨⟨j, hj, hocc, rfl⟩, hkey⟩)
    · exact ⟨i, hi, by simp [setSlot], by simp [setSlot, FutureLookupSlot.entry]⟩
    · have hji : j ≠ i := by
        rintro rfl
        rcases stop with free | held
        · rw [cell_eq_free, hocc] at free
          cases free
        · exact hkey (cell_eq_held.mp held).2
      exact ⟨j, hj, by simpa [setSlot, Function.update_of_ne hji] using hocc,
        by simp [setSlot, Function.update_of_ne hji]⟩

/-- The recovery pass keeps an entry of the key that is at least as new, and
otherwise records as `future_insert` does. -/
theorem recover_eq {dir : LookupDirectory} (wf : dir.Wf) {key : Int}
    (room : dir.find key ≠ none) (tid : Nat) (isDelete : Bool) (sequence : Nat) :
    (∃ e ∈ dir.collect, e.key = key ∧ sequence ≤ e.sequence) ∧
        dir.recover key tid isDelete sequence = dir ∨
      (∀ e ∈ dir.collect, e.key = key → e.sequence < sequence) ∧
        dir.recover key tid isDelete sequence = dir.record key tid isDelete sequence := by
  obtain ⟨i, found⟩ := Option.ne_none_iff_exists'.mp room
  have hi : i < dir.size := Probing.lt_of_find found
  have stop := (Probing.find_eq_some_iff.mp found).1
  have hindex : dir.futureLookupIndex key true = i := by
    rw [futureLookupIndex_eq, found]
    simp [answer]
  -- An entry of the key sits in the slot where its search stops.
  have here : ∀ e ∈ dir.collect, e.key = key →
      (dir.slot i).occupied = true ∧ e = (dir.slot i).entry := by
    intro e mem hk
    obtain ⟨j, hj, hocc, rfl⟩ := (mem_collect wf).mp mem
    have found' := wf.placed j hj key (cell_eq_held.mpr ⟨hocc, hk⟩)
    rw [show Probing.find _ _ _ _ = _ from found, Option.some.injEq] at found'
    subst found'
    exact ⟨hocc, rfl⟩
  rw [recover, hindex, if_pos hi.ne, record_eq found]
  by_cases newer : (dir.slot i).occupied = false ∨ sequence > (dir.slot i).sequence
  · right
    refine ⟨fun e mem hk => ?_, if_pos newer⟩
    obtain ⟨hocc, rfl⟩ := here e mem hk
    exact newer.resolve_left (by simp [hocc])
  · left
    rw [not_or, Bool.not_eq_false] at newer
    have held : dir.cell i = .held key :=
      stop.resolve_left (by simp [newer.1])
    refine ⟨⟨(dir.slot i).entry, (mem_collect wf).mpr ⟨i, hi, newer.1, rfl⟩,
      (cell_eq_held.mp held).2, Nat.not_lt.mp newer.2⟩, if_neg ?_⟩
    simp [newer.1, newer.2]

/-- A directory refuses a key exactly when it holds other keys in every slot. -/
theorem find_eq_none_iff {dir : LookupDirectory} {key : Int} :
    dir.find key = none ↔
      ∀ i, i < dir.size → (dir.slot i).occupied = true ∧ (dir.slot i).key ≠ key := by
  rw [find, Probing.find_eq_none_iff (dir.homeIndex_lt key)]
  refine forall₂_congr fun i _ => ?_
  cases hocc : (dir.slot i).occupied <;> simp [hocc]

/-- A directory whose keys come from a set no larger than the directory has a
slot for every key of the set. -/
theorem find_ne_none_of_card {dir : LookupDirectory} (wf : dir.Wf)
    {keys : Finset Int} (hcard : keys.card ≤ dir.size) {key : Int}
    (hkey : key ∈ keys) (within : ∀ e ∈ dir.collect, e.key ∈ keys) :
    dir.find key ≠ none := by
  intro full
  rw [find_eq_none_iff] at full
  have absent : Probing.Absent dir.size dir.cell key := fun i hi held =>
    (full i hi).2 (cell_eq_held.mp held).2
  obtain ⟨i, hi, noKey⟩ := wf.placed.room hcard hkey absent fun i hi k' held => by
    obtain ⟨hocc, rfl⟩ := cell_eq_held.mp held
    exact within _ ((mem_collect wf).mpr ⟨i, hi, hocc, rfl⟩)
  exact noKey _ (cell_eq_held.mpr ⟨(full i hi).1, rfl⟩)

/-- A directory that holds keys of `keys` only and has room for all of them. -/
structure Serves (dir : LookupDirectory) (keys : Finset Int) : Prop where
  wf : dir.Wf
  room : keys.card ≤ dir.size
  within : ∀ e ∈ dir.collect, e.key ∈ keys

theorem serves_empty {cap : Nat} (pos : 0 < cap) {keys : Finset Int}
    (room : keys.card ≤ cap) : (empty cap).Serves keys where
  wf := wf_empty cap
  room := room.trans (by simp [empty, pos])
  within := by simp [collect_empty]

theorem Serves.clear {dir : LookupDirectory} {keys : Finset Int} (serves : dir.Serves keys) :
    dir.clear.Serves keys where
  wf := .clear
  room := serves.room
  within := by simp [collect_clear]

theorem Serves.find_ne_none {dir : LookupDirectory} {keys : Finset Int}
    (serves : dir.Serves keys) {key : Int} (hkey : key ∈ keys) : dir.find key ≠ none :=
  find_ne_none_of_card serves.wf serves.room hkey serves.within

theorem Serves.record {dir : LookupDirectory} {keys : Finset Int} (serves : dir.Serves keys)
    {key : Int} (hkey : key ∈ keys) (tid : Nat) (isDone : Bool) (sequence : Nat) :
    (dir.record key tid isDone sequence).Serves keys where
  wf := serves.wf.record key tid isDone sequence
  room := by
    rw [size_record]
    exact serves.room
  within e mem := by
    rw [mem_collect_record serves.wf (serves.find_ne_none hkey)] at mem
    rcases mem with rfl | ⟨mem, -⟩
    · exact hkey
    · exact serves.within e mem

theorem Serves.recover {dir : LookupDirectory} {keys : Finset Int} (serves : dir.Serves keys)
    {key : Int} (hkey : key ∈ keys) (tid : Nat) (isDelete : Bool) (sequence : Nat) :
    (dir.recover key tid isDelete sequence).Serves keys := by
  rcases recover_eq serves.wf (serves.find_ne_none hkey) tid isDelete sequence with
    ⟨-, h⟩ | ⟨-, h⟩
  · rw [h]
    exact serves
  · rw [h]
    exact serves.record hkey tid isDelete sequence

/-! ## The keys of a directory -/

/-- The keys a directory has entries for. -/
def keys (dir : LookupDirectory) : Finset Int :=
  (dir.collect.map FutureLookupEntry.key).toFinset

theorem mem_keys {dir : LookupDirectory} {key : Int} :
    key ∈ dir.keys ↔ ∃ e ∈ dir.collect, e.key = key := by
  simp [keys]

theorem mem_keys_iff_slot {dir : LookupDirectory} (wf : dir.Wf) {key : Int} :
    key ∈ dir.keys ↔
      ∃ i, i < dir.size ∧ (dir.slot i).occupied = true ∧ (dir.slot i).key = key := by
  rw [mem_keys]
  constructor
  · rintro ⟨e, mem, rfl⟩
    obtain ⟨i, hi, hocc, rfl⟩ := (mem_collect wf).mp mem
    exact ⟨i, hi, hocc, rfl⟩
  · rintro ⟨i, hi, hocc, rfl⟩
    exact ⟨_, (mem_collect wf).mpr ⟨i, hi, hocc, rfl⟩, rfl⟩

/-- A directory refuses a key exactly when it has no entry for the key and every
slot belongs to another one. -/
theorem find_eq_none_iff_keys {dir : LookupDirectory} (wf : dir.Wf) {key : Int} :
    dir.find key = none ↔ key ∉ dir.keys ∧ dir.size ≤ dir.keys.card := by
  constructor
  · intro full
    rw [find_eq_none_iff] at full
    refine ⟨fun mem => ?_, ?_⟩
    · obtain ⟨i, hi, -, hkey⟩ := (mem_keys_iff_slot wf).mp mem
      exact (full i hi).2 hkey
    · have inj : Set.InjOn (fun i => (dir.slot i).key) (Finset.range dir.size) := by
        intro i hi j hj hij
        rw [Finset.mem_coe, Finset.mem_range] at hi hj
        exact wf.placed.unique hi hj (cell_eq_held.mpr ⟨(full i hi).1, rfl⟩)
          (cell_eq_held.mpr ⟨(full j hj).1, hij.symm⟩)
      rw [← Finset.card_range dir.size, ← Finset.card_image_of_injOn inj]
      refine Finset.card_le_card fun key' mem => ?_
      obtain ⟨i, hi, rfl⟩ := Finset.mem_image.mp mem
      rw [Finset.mem_range] at hi
      exact (mem_keys_iff_slot wf).mpr ⟨i, hi, (full i hi).1, rfl⟩
  · rintro ⟨notMem, hcard⟩
    rw [find_eq_none_iff]
    -- The keys sit in distinct slots, so they leave none free.
    have onto : ∀ i, i < dir.size → (dir.slot i).occupied = true := by
      intro i hi
      by_contra hfree
      have sub : dir.keys ⊆
          ((Finset.range dir.size).erase i).image fun j => (dir.slot j).key := by
        intro key' mem
        obtain ⟨j, hj, hocc, rfl⟩ := (mem_keys_iff_slot wf).mp mem
        refine Finset.mem_image.mpr ⟨j, Finset.mem_erase.mpr ⟨?_, Finset.mem_range.mpr hj⟩, rfl⟩
        rintro rfl
        exact hfree hocc
      have hle := (Finset.card_le_card sub).trans Finset.card_image_le
      rw [Finset.card_erase_of_mem (Finset.mem_range.mpr hi), Finset.card_range] at hle
      have := dir.size_pos
      omega
    intro i hi
    exact ⟨onto i hi, fun hkey =>
      notMem ((mem_keys_iff_slot wf).mpr ⟨i, hi, onto i hi, hkey⟩)⟩

theorem keys_record {dir : LookupDirectory} (wf : dir.Wf) {key : Int}
    (room : dir.find key ≠ none) (tid : Nat) (isDone : Bool) (sequence : Nat) :
    (dir.record key tid isDone sequence).keys = insert key dir.keys := by
  ext key'
  rw [Finset.mem_insert, mem_keys, mem_keys]
  constructor
  · rintro ⟨e, mem, rfl⟩
    rw [mem_collect_record wf room] at mem
    rcases mem with rfl | ⟨mem, -⟩
    · exact Or.inl rfl
    · exact Or.inr ⟨e, mem, rfl⟩
  · intro h
    by_cases hkey : key' = key
    · exact ⟨_, (mem_collect_record wf room ..).mpr (Or.inl rfl), hkey.symm⟩
    · obtain ⟨e, mem, rfl⟩ := h.resolve_left hkey
      exact ⟨e, (mem_collect_record wf room ..).mpr (Or.inr ⟨mem, hkey⟩), rfl⟩

end LookupDirectory

end F3Tree
