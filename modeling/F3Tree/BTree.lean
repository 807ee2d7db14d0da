import Mathlib.Logic.Function.Basic
import F3Tree.Lib.Fuel
import F3Tree.Page

/-!
# The global tree

`class btree` of `core/btree.h`, as one caller at a time sees it: pages on a heap,
the root, and what `root_ref` keeps of the root for the next process.  Locks,
flushes and the parameters nobody passes (`left`, `invalid_sibling`) are left out.

The loops run on a budget of steps; `none` means that the budget was used up, or
that a page was read outside its records.
-/

namespace F3Tree

/-- The addresses that page allocations return, the same page never twice. -/
structure Allocator : Type where
  addr : Nat → Int
  injective : Function.Injective addr
  ne_null : ∀ n, addr n ≠ 0

/-- One page after another. -/
def Allocator.bump (base : Nat) : Allocator where
  addr n := base + 1 + n
  injective _ _ h := by
    have := Int.add_left_cancel h
    omega
  ne_null n := by omega

/-- Pages of 512 bytes, one behind the other. -/
def BTree.pagesAt (base : Nat) : Allocator where
  addr n := base + 512 * (n + 1)
  injective _ _ h := by
    have := Int.add_left_cancel h
    omega
  ne_null n := by omega

/-- The fields of `root_ref` that are about the tree. -/
structure RootRef : Type where
  rootPage : Int
  height : Nat
deriving DecidableEq, Repr

structure BTree : Type where
  alloc : Allocator
  /-- How many pages have been allocated. -/
  allocated : Nat
  page : Int → Page
  root : Int
  height : Nat
  rootRef : RootRef

namespace BTree

/-- The constructor without a pool, or on a fresh one. -/
def empty (alloc : Allocator) : BTree where
  alloc := alloc
  allocated := 1
  page := fun _ => Page.new 0
  root := alloc.addr 0
  height := 1
  rootRef := { rootPage := alloc.addr 0, height := 1 }

/-- The constructor on an existing pool, after the process that used `t`. -/
def reopen (t : BTree) : BTree :=
  { t with root := t.rootRef.rootPage, height := t.rootRef.height }

/-- The address of the next page that is allocated. -/
def fresh (t : BTree) : Int := t.alloc.addr t.allocated

/-- `new page(…)` -/
def new (t : BTree) (p : Page) : BTree :=
  { t with allocated := t.allocated + 1, page := Function.update t.page t.fresh p }

def write (t : BTree) (at' : Int) (p : Page) : BTree :=
  { t with page := Function.update t.page at' p }

def setNewRoot (t : BTree) (newRoot : Int) : BTree :=
  { t with root := newRoot, height := t.height + 1 }

/-! ## Search -/

/-- `p->linear_search(key)`, which includes the look at the sibling. -/
def linearSearch (t : BTree) (p : Page) (key : Int) : Option Int :=
  let sib := p.hdr.siblingPtr
  if p.hdr.leftmostPtr = 0 then do
    let ret ← p.searchLeaf key
    if ret ≠ 0 then return ret
    else if sib ≠ 0 ∧ key ≥ (t.page sib).firstKey then return sib
    else return 0
  else do
    let ret ← p.searchInternal key
    if sib ≠ 0 ∧ key ≥ (t.page sib).firstKey then return sib
    else if ret ≠ 0 then return ret
    else return p.hdr.leftmostPtr

/-- `while (more(p)) p = p->linear_search(key)` -/
def descend (t : BTree) (more : Page → Bool) (key : Int) : Nat → Int → Option Int
  | 0, _ => none
  | fuel + 1, p =>
      if more (t.page p) then do
        let next ← t.linearSearch (t.page p) key
        descend t more key fuel next
      else some p

/-- `p->hdr.leftmost_ptr != NULL` -/
def aboveLeaves (p : Page) : Bool := p.hdr.leftmostPtr ≠ 0

/-- `p->hdr.level > level` -/
def aboveLevel (level : Nat) (p : Page) : Bool := level < p.hdr.level

/-- The loop over sibling leaves that `btree_search` and `btree_delete` share: the
page it ends with, null past the last one, and the last answer. -/
def chase (t : BTree) (key : Int) : Nat → Int → Option (Int × Int)
  | 0, _ => none
  | fuel + 1, p => do
      let found ← t.linearSearch (t.page p) key
      if found = (t.page p).hdr.siblingPtr then
        if found = 0 then return (0, found)
        else chase t key fuel found
      else return (p, found)

/-- `btree_search`, null for `NULL`. -/
def btreeSearch (t : BTree) (key : Int) (fuel : Nat) : Option Int := do
  let leaf ← t.descend aboveLeaves key fuel t.root
  let (_, found) ← t.chase key fuel leaf
  return found

/-! ## Insertion -/

/-- The part of `store` that splits the page `p` and puts the record into one of the
halves: the tree afterwards, the split key, and the page with the new record. -/
def splitPage (t : BTree) (p key right : Int) (numEntries : Nat) : BTree × Int × Int :=
  let sibling := t.fresh
  let s := (t.page p).split numEntries sibling
  let halves := s.insert key right
  ((t.new halves.2).write p halves.1, s.splitKey, if key < s.splitKey then p else sibling)

mutual

/-- `p->store(…)`: the tree afterwards, and the page with the new record or null. -/
def store : Nat → BTree → Int → Int → Int → Option (BTree × Int)
  | 0, _, _, _, _ => none
  | fuel + 1, t, p, key, right => do
      let this := t.page p
      if this.hdr.isDeleted then return (t, 0)
      else if this.hdr.siblingPtr ≠ 0 ∧ key > (t.page this.hdr.siblingPtr).firstKey then
        store fuel t this.hdr.siblingPtr key right
      else
        let numEntries ← this.count
        if numEntries < cardinality - 1 then
          return (t.write p (this.insertKey key right numEntries).1, p)
        else
          let sibling := t.fresh
          let (t', splitKey, ret) := t.splitPage p key right numEntries
          let level := (t'.page p).hdr.level + 1
          if t.root = p then
            let root := t'.fresh
            return ((t'.new (Page.newRoot p splitKey sibling level)).setNewRoot root, ret)
          else
            let t'' ← btreeInsertInternal fuel t' splitKey sibling level
            return (t'', ret)

def btreeInsertInternal : Nat → BTree → Int → Int → Nat → Option BTree
  | 0, _, _, _, _ => none
  | fuel + 1, t, key, right, level =>
      if level > (t.page t.root).hdr.level then some t
      else do
        let p ← t.descend (aboveLevel level) key fuel t.root
        let (t', ret) ← store fuel t p key right
        if ret = 0 then btreeInsertInternal fuel t' key right level
        else return t'

end

/-- `btree_insert` -/
def btreeInsert (key right : Int) : Nat → BTree → Option BTree
  | 0, _ => none
  | fuel + 1, t => do
      let leaf ← t.descend aboveLeaves key fuel t.root
      let (t', ret) ← store fuel t leaf key right
      if ret = 0 then btreeInsert key right fuel t'
      else return t'

/-! ## Deletion -/

/-- `btree_delete`; a delete that finds no record in the page it ends with starts
anew. -/
def btreeDelete (key : Int) : Nat → BTree → Option BTree
  | 0, _ => none
  | fuel + 1, t => do
      let leaf ← t.descend aboveLeaves key fuel t.root
      let (p, _) ← t.chase key fuel leaf
      if p = 0 then return t
      else
        let (page, ret) ← (t.page p).removeKey key
        if ret then return t.write p page
        else btreeDelete key fuel (t.write p page)

/-! ## Budgets -/

open Fuel

section Steady

variable {t : BTree} {key : Int}

theorem steady_descend (t : BTree) (more : Page → Bool) (key p : Int) :
    Steady fun fuel => t.descend more key fuel p := by
  intro fuel
  induction fuel generalizing p with
  | zero => exact Extends.of_none _
  | succ fuel ih =>
      simp only [descend]
      exact Extends.ite _ (.const_bind _ ih) (.refl _)

theorem steady_chase (t : BTree) (key p : Int) : Steady fun fuel => t.chase key fuel p := by
  intro fuel
  induction fuel generalizing p with
  | zero => exact Extends.of_none _
  | succ fuel ih =>
      simp only [chase]
      exact Extends.const_bind _ fun found => .ite _ (.ite _ (.refl _) (ih found)) (.refl _)

theorem steady_btreeSearch (t : BTree) (key : Int) : Steady (t.btreeSearch key) :=
  (steady_descend t _ key _).bind fun leaf => (steady_chase t key leaf).bind fun _ =>
    steady_const _

theorem steady_store_insert (fuel : Nat) :
    (∀ t p key right, Extends (store fuel t p key right) (store (fuel + 1) t p key right)) ∧
    ∀ t key right level, Extends (btreeInsertInternal fuel t key right level)
      (btreeInsertInternal (fuel + 1) t key right level) := by
  induction fuel with
  | zero => exact ⟨fun _ _ _ _ => .of_none _, fun _ _ _ _ => .of_none _⟩
  | succ fuel ih =>
      obtain ⟨ihStore, ihInsert⟩ := ih
      constructor
      · intro t p key right
        rw [store, store]
        -- A page that is deleted, one that the key lies beyond, one with room, and a full one.
        refine .ite _ (.refl _) (.ite _ (ihStore _ _ _ _) (.const_bind _ fun _ => ?_))
        refine .ite _ (.refl _) (.ite _ (.refl _) ?_)
        exact (ihInsert _ _ _ _).bind fun _ => .refl _
      · intro t key right level
        rw [btreeInsertInternal, btreeInsertInternal]
        refine .ite _ (.refl _) (.bind (steady_descend t _ key _ fuel) fun p => ?_)
        exact (ihStore _ _ _ _).bind fun r => .ite _ (ihInsert _ _ _ _) (.refl _)

theorem steady_store (t : BTree) (p key right : Int) :
    Steady fun fuel => store fuel t p key right :=
  fun fuel => (steady_store_insert fuel).1 t p key right

theorem steady_btreeInsert (key right : Int) (t : BTree) :
    Steady fun fuel => btreeInsert key right fuel t := by
  intro fuel
  induction fuel generalizing t with
  | zero => exact Extends.of_none _
  | succ fuel ih =>
      simp only [btreeInsert]
      exact Extends.bind (steady_descend t _ key _ fuel) fun p =>
        Extends.bind (steady_store t p key right fuel) fun r => .ite _ (ih r.1) (.refl _)

theorem steady_btreeDelete (key : Int) (t : BTree) :
    Steady fun fuel => btreeDelete key fuel t := by
  intro fuel
  induction fuel generalizing t with
  | zero => exact Extends.of_none _
  | succ fuel ih =>
      simp only [btreeDelete]
      exact Extends.bind (steady_descend t _ key _ fuel) fun p =>
        Extends.bind (steady_chase t key p fuel) fun r => .ite _ (.refl _) <|
          .const_bind _ fun removed => .ite _ (.refl _) (ih _)

end Steady

end BTree

end F3Tree
