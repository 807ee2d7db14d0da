import Mathlib.Logic.Relation
import F3Tree.TreeRun

/-!
# Insertions by several threads

`btree_insert` by any number of threads on one tree, without a lock around the call.  A
step of a thread is one `linear_search`, or what one call of `store` does under the lock
of its page (`storeLocked`): the look at the sibling, the insertion, and a split together
with its `setNewRoot`.  Everything else, the read of the root, the way from a split to the
insertion of its separator, and the step to the sibling, whose pointer is read again after
the lock is given back, lies between two steps, where the other threads may take any number
of theirs.

A thread that has promoted a split key has nothing left to do when the separator is in:
`btree_insert_internal` is the last call of `store`, so a phase needs no stack.
-/

namespace F3Tree

open Fuel

/-- What a call of `store` does next when it gives the lock of its page back: it returns
null, since the page is deleted; goes on with the sibling; returns the page with the
record; or inserts the split key one level up before it returns. -/
inductive Stored : Type
  | deleted
  | hop
  | done (ret : Int)
  | promote (ret splitKey sibling : Int) (level : Nat)
deriving DecidableEq, Repr

namespace BTree

/-- `p->store(…)` from `hdr.mtx.lock()` to `hdr.mtx.unlock()`. -/
def storeLocked (t : BTree) (p key right : Int) : Option (BTree × Stored) :=
  let this := t.page p
  if this.hdr.isDeleted then some (t, .deleted)
  else if this.hdr.siblingPtr ≠ 0 ∧ key > (t.page this.hdr.siblingPtr).firstKey then
    some (t, .hop)
  else do
    let numEntries ← this.count
    if numEntries < cardinality - 1 then
      return (t.write p (this.insertKey key right numEntries).1, .done p)
    else
      let sibling := t.fresh
      let (t', splitKey, ret) := t.splitPage p key right numEntries
      let level := (t'.page p).hdr.level + 1
      if t.root = p then
        let root := t'.fresh
        return ((t'.new (Page.newRoot p splitKey sibling level)).setNewRoot root, .done ret)
      else return (t', .promote ret splitKey sibling level)

/-- A call of `store` is its locked sections, one after another. -/
theorem store_eq_storeLocked (fuel : Nat) (t : BTree) (p key right : Int) :
    store (fuel + 1) t p key right = (t.storeLocked p key right).bind fun r =>
      match r.2 with
      | .deleted => some (r.1, 0)
      | .hop => store fuel r.1 (r.1.page p).hdr.siblingPtr key right
      | .done ret => some (r.1, ret)
      | .promote ret splitKey sibling level =>
          (btreeInsertInternal fuel r.1 splitKey sibling level).map (·, ret) := by
  rw [store, storeLocked]
  split
  · rfl
  · split
    · rfl
    · cases (t.page p).count with
      | none => rfl
      | some numEntries =>
          simp only [Option.bind_eq_bind, Option.bind_some]
          split
          · rfl
          · split
            · rfl
            · exact (Option.map_eq_bind ..).symm

end BTree

/-! ## Threads -/

/-- An insertion that a thread has to complete, by the function that it has called. -/
inductive Insertion : Type
  | btreeInsert (key right : Int)
  | btreeInsertInternal (key right : Int) (level : Nat)
deriving DecidableEq, Repr

namespace Insertion

def key : Insertion → Int
  | btreeInsert key _ => key
  | btreeInsertInternal key _ _ => key

def right : Insertion → Int
  | btreeInsert _ right => right
  | btreeInsertInternal _ right _ => right

/-- The condition of the loop that descends from the root. -/
def more : Insertion → Page → Bool
  | btreeInsert _ _ => BTree.aboveLeaves
  | btreeInsertInternal _ _ level => BTree.aboveLevel level

/-- `if (level > root->hdr.level) return;`, which only `btree_insert_internal` has. -/
def tooHigh (t : BTree) : Insertion → Bool
  | btreeInsert _ _ => false
  | btreeInsertInternal _ _ level => level > (t.page t.root).hdr.level

end Insertion

/-- Where a thread stands. -/
inductive InsertPhase : Type
  | idle
  | called (i : Insertion)
  /-- In front of `p = root`. -/
  | entered (i : Insertion)
  | descending (i : Insertion) (p : Int)
  | storing (i : Insertion) (p : Int)
  /-- In front of `hdr.sibling_ptr->store(…)`. -/
  | hopping (i : Insertion) (p : Int)
deriving DecidableEq, Repr

namespace BTree

/-- The next step of a thread. -/
def advance (t : BTree) : InsertPhase → Option (BTree × InsertPhase)
  | .idle => none
  | .called i => some (t, if i.tooHigh t then .idle else .entered i)
  | .entered i => some (t, .descending i t.root)
  | .descending i p =>
      if i.more (t.page p) then do
        let next ← t.linearSearch (t.page p) i.key
        return (t, .descending i next)
      else some (t, .storing i p)
  | .storing i p => do
      let (t', stored) ← t.storeLocked p i.key i.right
      match stored with
      | .deleted => return (t', .called i)
      | .hop => return (t', .hopping i p)
      | .done _ => return (t', .idle)
      | .promote _ splitKey sibling level =>
          return (t', .called (.btreeInsertInternal splitKey sibling level))
  | .hopping i p => some (t, .storing i (t.page p).hdr.siblingPtr)

end BTree

/-- The tree together with the threads, one for each element of `ι`.  `inserted` lists the
keys of the calls so far. -/
structure InsertMachine (ι : Type) : Type where
  tree : BTree
  phase : ι → InsertPhase
  inserted : List Int

namespace InsertMachine

variable {ι : Type} [DecidableEq ι]

def init (ι : Type) (alloc : Allocator) : InsertMachine ι where
  tree := .empty alloc
  phase := fun _ => .idle
  inserted := []

/-- A thread begins a call with a key that no call has had, or goes on with its call. -/
inductive Step (m : InsertMachine ι) : InsertMachine ι → Prop
  | call (i : ι) (key : Int) : m.phase i = .idle → TreeKey key → key ∉ m.inserted →
    Step m
      { m with
        phase := Function.update m.phase i (.called (.btreeInsert key key))
        inserted := m.inserted ++ [key] }
  | advance (i : ι) {tree : BTree} {phase : InsertPhase} :
    m.tree.advance (m.phase i) = some (tree, phase) →
    Step m { m with tree := tree, phase := Function.update m.phase i phase }

/-- What any interleaving of the threads leads to. -/
abbrev Reach : InsertMachine ι → InsertMachine ι → Prop := Relation.ReflTransGen Step

end InsertMachine

end F3Tree
