import Mathlib.Data.Int.Order.Basic
import Mathlib.Tactic.Common
import F3Tree.Lib.Probing

/-!
# The buffered hash index

`BufferedHashIndex` of `src/buffered_hash_index.cpp`: slots probed from the remainder of the
key on.  `clear_entry` makes an entry absent and leaves its slot to the key, so slots are
only freed by `clear`.

`find_or_allocate_slot` answers the number of slots when there is none left, and `upsert`
and `erase` then write behind the last slot; here they answer `none`.
-/

namespace F3Tree

inductive BufferedEntryState : Type
  | absent
  | present
  | tombstone
deriving DecidableEq, Repr

structure BufferedEntry : Type where
  key : Int := 0
  owner : Int := -1
  state : BufferedEntryState := .absent
  sequence : UInt64 := 0
deriving DecidableEq, Repr

/-- `BufferedHashIndex::Slot`, with the fields of an entry as one. -/
structure BufferedSlot : Type where
  occupied : Bool := false
  entry : BufferedEntry := {}
deriving DecidableEq, Repr

structure BufferedHashIndex : Type where
  /-- `slots_.size()`, which is also what `capacity` answers. -/
  slotCount : Nat
  slot : Nat → BufferedSlot
  size : Nat
  nextSequence : UInt64
  slotCount_pos : 0 < slotCount

namespace BufferedHashIndex

/-- How many slots the constructor makes. -/
def slotsFor (capacity : Nat) : Nat := if capacity = 0 then 1 else capacity

theorem slotsFor_pos (capacity : Nat) : 0 < slotsFor capacity := by
  unfold slotsFor
  split
  · exact Nat.one_pos
  · exact Nat.pos_of_ne_zero ‹_›

/-- The constructor. -/
def init (capacity : Nat) : BufferedHashIndex where
  slotCount := slotsFor capacity
  slot := fun _ => {}
  size := 0
  nextSequence := 1
  slotCount_pos := slotsFor_pos capacity

/-! ## Slots -/

/-- `normalize`.  There is always a slot, so the divisor is not replaced. -/
def normalize (index : BufferedHashIndex) (key : Int) : Nat :=
  let mod : Int := index.slotCount
  let normalized := key.tmod mod
  (if normalized < 0 then normalized + mod else normalized).toNat

/-- The loop of `find_slot`, for at most the given number of turns. -/
def findLoop (index : BufferedHashIndex) (key : Int) (start : Nat) : Nat → Nat → Nat
  | 0, _ => index.slotCount
  | n + 1, i =>
      if (index.slot i).occupied = false then index.slotCount
      else if (index.slot i).entry.key = key then i
      else if (i + 1) % index.slotCount = start then index.slotCount
      else index.findLoop key start n ((i + 1) % index.slotCount)

/-- `find_slot` -/
def findSlot (index : BufferedHashIndex) (key : Int) : Nat :=
  index.findLoop key (index.normalize key) index.slotCount (index.normalize key)

/-- The loop of `find_or_allocate_slot`. -/
def allocateLoop (index : BufferedHashIndex) (start : Nat) : Nat → Nat → Nat
  | 0, _ => index.slotCount
  | n + 1, i =>
      if (index.slot i).occupied = false then i
      else if (i + 1) % index.slotCount = start then index.slotCount
      else index.allocateLoop start n ((i + 1) % index.slotCount)

/-- `find_or_allocate_slot` -/
def findOrAllocateSlot (index : BufferedHashIndex) (key : Int) : Nat :=
  if index.findSlot key ≠ index.slotCount then index.findSlot key
  else index.allocateLoop (index.normalize key) index.slotCount (index.normalize key)

/-! ## Calls -/

/-- The writes of `upsert` and `erase` to the slot `i`. -/
def write (index : BufferedHashIndex) (i : Nat) (key owner : Int) (state : BufferedEntryState) :
    BufferedHashIndex :=
  { index with
    slot := Function.update index.slot i ⟨true, key, owner, state, index.nextSequence⟩
    nextSequence := index.nextSequence + 1
    size :=
      if (index.slot i).occupied = false ∨ (index.slot i).entry.state = .absent then
        index.size + 1
      else index.size }

/-- The body that `upsert` and `erase` share. -/
def put (index : BufferedHashIndex) (key owner : Int) (state : BufferedEntryState) :
    Option BufferedHashIndex :=
  let i := index.findOrAllocateSlot key
  if i < index.slotCount then some (index.write i key owner state) else none

/-- `upsert` -/
def upsert (index : BufferedHashIndex) (key owner : Int) : Option BufferedHashIndex :=
  index.put key owner .present

/-- `erase` -/
def erase (index : BufferedHashIndex) (key owner : Int) : Option BufferedHashIndex :=
  index.put key owner .tombstone

/-- `state_for` -/
def stateFor (index : BufferedHashIndex) (key : Int) : BufferedEntryState :=
  let i := index.findSlot key
  if i = index.slotCount then .absent else (index.slot i).entry.state

/-- `owner_for` -/
def ownerFor (index : BufferedHashIndex) (key : Int) : Int :=
  let i := index.findSlot key
  if i = index.slotCount ∨ (index.slot i).entry.state = .absent then -1
  else (index.slot i).entry.owner

/-- `contains` -/
def contains (index : BufferedHashIndex) (key : Int) : Bool :=
  decide (index.stateFor key = .present)

/-- `has_entry` -/
def hasEntry (index : BufferedHashIndex) (key : Int) : Bool :=
  decide (index.stateFor key ≠ .absent)

/-- `entries` -/
def entries (index : BufferedHashIndex) : List BufferedEntry :=
  (List.range index.slotCount).filterMap fun i =>
    if (index.slot i).occupied = false ∨ (index.slot i).entry.state = .absent then none
    else some (index.slot i).entry

/-- `clear_entry` -/
def clearEntry (index : BufferedHashIndex) (key : Int) : BufferedHashIndex :=
  let i := index.findSlot key
  if i = index.slotCount ∨ (index.slot i).entry.state = .absent then index
  else
    let entry : BufferedEntry :=
      { (index.slot i).entry with owner := -1, state := .absent, sequence := 0 }
    { index with
      slot := Function.update index.slot i { index.slot i with entry := entry }
      size := if index.size > 0 then index.size - 1 else index.size }

/-- `clear` -/
def clear (index : BufferedHashIndex) : BufferedHashIndex :=
  { index with slot := fun _ => {}, size := 0, nextSequence := 1 }

/-! ## The loops are linear-probing searches -/

/-- What a slot says about keys. -/
def cell (index : BufferedHashIndex) (i : Nat) : Probing.Cell Int :=
  if (index.slot i).occupied then .held (index.slot i).entry.key else .free

/-- The slot at which the search for `key` stops. -/
def find (index : BufferedHashIndex) (key : Int) : Option Nat :=
  Probing.find index.slotCount index.normalize index.cell key

theorem normalize_lt (index : BufferedHashIndex) (key : Int) :
    index.normalize key < index.slotCount := by
  have hpos : (0 : Int) < index.slotCount := by exact_mod_cast index.slotCount_pos
  have hlow := Int.lt_tmod_of_pos key hpos
  have hlt := Int.tmod_lt_of_pos key hpos
  rw [normalize]
  split
  · omega
  · omega

@[simp]
theorem cell_eq_free {index : BufferedHashIndex} {i : Nat} :
    index.cell i = .free ↔ (index.slot i).occupied = false := by
  rw [cell]
  split <;> simp_all

@[simp]
theorem cell_eq_held {index : BufferedHashIndex} {i : Nat} {key : Int} :
    index.cell i = .held key ↔
      (index.slot i).occupied = true ∧ (index.slot i).entry.key = key := by
  rw [cell]
  split <;> simp_all

theorem findLoop_eq (index : BufferedHashIndex) (key : Int) (start : Nat) :
    ∀ n i : Nat, index.findLoop key start n i =
      match Probing.walk index.slotCount start (Probing.stops index.cell key) n i with
      | some j => if (index.slot j).occupied = false then index.slotCount else j
      | none => index.slotCount
  | 0, _ => rfl
  | n + 1, i => by
      rw [findLoop, Probing.walk]
      by_cases hocc : (index.slot i).occupied = false
      · have hstop : Probing.stops index.cell key i = true := by
          simp [Probing.stops, hocc]
        rw [if_pos hstop, if_pos hocc]
        exact (if_pos hocc).symm
      rw [if_neg hocc]
      by_cases hkey : (index.slot i).entry.key = key
      · have hstop : Probing.stops index.cell key i = true := by
          simp [Probing.stops, hkey, hocc]
        rw [if_pos hstop, if_pos hkey]
        exact (if_neg hocc).symm
      have hgo : ¬ Probing.stops index.cell key i = true := by
        simp [Probing.stops, hocc, hkey]
      rw [if_neg hkey, if_neg hgo]
      split
      · rfl
      · exact index.findLoop_eq key start n _

theorem findSlot_eq (index : BufferedHashIndex) (key : Int) :
    index.findSlot key =
      match index.find key with
      | some i => if (index.slot i).occupied = false then index.slotCount else i
      | none => index.slotCount := by
  rw [findSlot, findLoop_eq, Probing.walk_probes _ (index.normalize_lt key)]
  rfl

/-- Without a slot of the key, the second loop ends where the first one did. -/
theorem allocateLoop_eq (index : BufferedHashIndex) (key : Int) (start : Nat) :
    ∀ n i : Nat, index.findLoop key start n i = index.slotCount → i < index.slotCount →
      index.allocateLoop start n i =
        (Probing.walk index.slotCount start (Probing.stops index.cell key) n i).getD
          index.slotCount
  | 0, _, _, _ => rfl
  | n + 1, i, missed, hi => by
      rw [findLoop] at missed
      rw [allocateLoop, Probing.walk]
      by_cases hocc : (index.slot i).occupied = false
      · have hstop : Probing.stops index.cell key i = true := by
          simp [Probing.stops, hocc]
        rw [if_pos hstop, if_pos hocc]
        rfl
      rw [if_neg hocc] at missed ⊢
      by_cases hkey : (index.slot i).entry.key = key
      · rw [if_pos hkey] at missed
        exact absurd missed hi.ne
      have hgo : ¬ Probing.stops index.cell key i = true := by
        simp [Probing.stops, hocc, hkey]
      rw [if_neg hkey] at missed
      rw [if_neg hgo]
      split
      · rfl
      · rename_i hne
        rw [if_neg hne] at missed
        exact index.allocateLoop_eq key start n _ missed (Nat.mod_lt _ index.slotCount_pos)

theorem findOrAllocateSlot_eq (index : BufferedHashIndex) (key : Int) :
    index.findOrAllocateSlot key = (index.find key).getD index.slotCount := by
  have hlt := index.normalize_lt key
  rw [findOrAllocateSlot]
  by_cases missed : index.findSlot key = index.slotCount
  · rw [if_neg (not_not.mpr missed), index.allocateLoop_eq key _ _ _ missed hlt,
      Probing.walk_probes _ hlt]
    rfl
  · rw [if_pos missed]
    rw [findSlot_eq] at missed ⊢
    cases found : index.find key with
    | none => exact absurd (by rw [found]) missed
    | some i =>
        rw [found] at missed
        have occupied : ¬ (index.slot i).occupied = false := fun free => missed (if_pos free)
        exact if_neg occupied

end BufferedHashIndex

end F3Tree
