import F3Tree.BTree

/-!
# The delete that rebalances

`page::remove_rebalancing` and `btree::btree_delete_internal` of `core/btree.h`.  A page
that falls short of records takes some from its left sibling, gives its own to it, or
shares them out again with a new page.  The leftmost child of a page has no left sibling
there; the code then calls `remove` on the sibling to the right, with the first key of that
sibling (`rebalance`).

As in the rest of the tree, locks and flushes are left out, and `none` also stands for a
step through a null or unset pointer.
-/

namespace F3Tree

namespace Page

/-- The records up to the first null `ptr`. -/
def upToNull : List Entry → Option (List Entry)
  | [] => none
  | e :: rest => if e.ptr = 0 then some [] else (upToNull rest).map (e :: ·)

/-- `insert_key` for one record after another. -/
def insertAll (p : Page) (numEntries : Nat) (records : List Entry) : Page × Nat :=
  records.foldl (fun acc e => acc.1.insertKey e.key e.ptr acc.2) (p, numEntries)

/-- The page loses its records from `m` on. -/
def cutOff (p : Page) (m : Nat) : Page where
  hdr := { p.hdr with lastIndex := (m : Int) - 1 }
  records := setPtr p.records m 0

def setSibling (p : Page) (sibling : Int) : Page :=
  { p with hdr := { p.hdr with siblingPtr := sibling } }

def setDeleted (p : Page) : Page :=
  { p with hdr := { p.hdr with isDeleted := true } }

/-- Redistribution from the left: the page, its left sibling and the new separator. -/
def takeFromLeft (p left : Page) (numEntries leftNumEntries m : Nat) (deletedKey : Int) :
    Page × Page × Int :=
  let records := left.records.take leftNumEntries
  if p.hdr.leftmostPtr = 0 then
    let p := (p.insertAll numEntries (records.drop m).reverse).1
    (p, left.cutOff m, p.firstKey)
  else
    let middle := left.records.getD m {}
    let (p, numEntries) := p.insertKey deletedKey p.hdr.leftmostPtr numEntries
    let p := (p.insertAll numEntries (records.drop (m + 1)).reverse).1
    ({ p with hdr := { p.hdr with leftmostPtr := middle.ptr } }, left.cutOff m, middle.key)

/-- Redistribution to the left: the left sibling, the page in the place of this one, and the
new separator. -/
def giveToLeft (p left : Page) (numEntries leftNumEntries m : Nat) (deletedKey : Int) :
    Option (Page × Page × Int) := do
  let numDistEntries := numEntries - m
  let rest ← upToNull (p.records.drop numDistEntries)
  let newSibling := (new p.hdr.level).setSibling p.hdr.siblingPtr
  if p.hdr.leftmostPtr = 0 then
    let left := (left.insertAll leftNumEntries (p.records.take numDistEntries)).1
    let newSibling := (migrate rest newSibling).1
    return (left, newSibling, newSibling.firstKey)
  else if numDistEntries = 0 then none
  else
    let middle := p.records.getD (numDistEntries - 1) {}
    let (left, leftNumEntries) := left.insertKey deletedKey p.hdr.leftmostPtr leftNumEntries
    let left := (left.insertAll leftNumEntries (p.records.take (numDistEntries - 1))).1
    let newSibling := { newSibling with hdr := { newSibling.hdr with leftmostPtr := middle.ptr } }
    return (left, (migrate rest newSibling).1, middle.key)

/-- The left sibling with all records of the page. -/
def merge (p left : Page) (leftNumEntries : Nat) (deletedKey : Int) : Option Page := do
  let records ← upToNull p.records
  let (left, leftNumEntries) :=
    if p.hdr.leftmostPtr = 0 then (left, leftNumEntries)
    else left.insertKey deletedKey p.hdr.leftmostPtr leftNumEntries
  return (left.insertAll leftNumEntries records).1.setSibling p.hdr.siblingPtr

end Page

/-- What `btree_delete_internal` writes through its pointers; `left_sibling` starts unset. -/
structure FromParent : Type where
  deletedKey : Int := 0
  isLeftmostNode : Bool := false
  leftSibling : Option Int := none

namespace BTree

/-- `remove` -/
def remove (t : BTree) (p key : Int) : Option (BTree × Bool) := do
  let (page, ret) ← (t.page p).removeKey key
  return (t.write p page, ret)

/-! ## In the parent -/

/-- The loop of `btree_delete_internal` behind the child `prev`: the separator in front of
the child `ptr`, and the child to its left. -/
def separatorOf (ptr : Int) : Int → List Entry → Option (Option (Int × Int))
  | _, [] => none
  | prev, e :: rest =>
      if e.ptr = 0 then some none
      else if e.ptr = ptr ∧ prev ≠ e.ptr then some (some (e.key, prev))
      else separatorOf ptr e.ptr rest

def btreeDeleteInternal (t : BTree) (key ptr : Int) (level fuel : Nat) :
    Option (BTree × FromParent) :=
  if level > (t.page t.root).hdr.level then some (t, {})
  else do
    let p ← t.descend (aboveLevel level) key fuel t.root
    if (t.page p).hdr.leftmostPtr = ptr then return (t, { isLeftmostNode := true })
    else
      match ← separatorOf ptr (t.page p).hdr.leftmostPtr (t.page p).records with
      | none => return (t, {})
      | some (deletedKey, leftSibling) =>
          let (t', _) ← t.remove p deletedKey
          return (t', { deletedKey := deletedKey, leftSibling := leftSibling })

/-! ## Beside the page -/

/-- `while (left_sibling->hdr.sibling_ptr != this)` -/
def leftOf (t : BTree) (p : Int) : Nat → Int → Option Int
  | 0, _ => none
  | fuel + 1, left =>
      if left = 0 then none
      else if (t.page left).hdr.siblingPtr = p then some left
      else leftOf t p fuel (t.page left).hdr.siblingPtr

/-- The separator of the child `right` goes over the page `left`. -/
def insertSeparator (t : BTree) (left key right : Int) (level fuel : Nat) : Option BTree :=
  if left = t.root then
    some ((t.new (Page.newRoot left key right level)).setNewRoot t.fresh)
  else btreeInsertInternal fuel t key right level

/-- The page `p` and its left sibling share out their records, or `p` is given up. -/
def balance (t : BTree) (p left deletedKey : Int) (fuel : Nat) : Option BTree := do
  let this := t.page p
  let leftPage := t.page left
  let numEntries ← this.count
  let leftNumEntries ← leftPage.count
  let level := this.hdr.level + 1
  let total := numEntries + leftNumEntries + if this.hdr.leftmostPtr = 0 then 0 else 1
  if total > cardinality - 1 then
    let m := total / 2
    if numEntries < leftNumEntries then
      let (this', left', parentKey) :=
        this.takeFromLeft leftPage numEntries leftNumEntries m deletedKey
      ((t.write p this').write left left').insertSeparator left parentKey p level fuel
    else
      let (left', newSibling, parentKey) ←
        this.giveToLeft leftPage numEntries leftNumEntries m deletedKey
      let newPtr := t.fresh
      let t' := ((t.new newSibling).write p this.setDeleted).write left (left'.setSibling newPtr)
      t'.insertSeparator left parentKey newPtr level fuel
  else
    let left' ← this.merge leftPage leftNumEntries deletedKey
    return (t.write p this.setDeleted).write left left'

/-- What is left to do when the page `p` has fallen short of records. -/
def rebalance (t : BTree) (p key : Int) (fuel : Nat) : Option (BTree × Bool) := do
  let (t, fromParent) ← t.btreeDeleteInternal key p ((t.page p).hdr.level + 1) fuel
  if fromParent.isLeftmostNode then
    let sibling := (t.page p).hdr.siblingPtr
    if sibling = 0 then none
    else
      let (t', _) ← t.remove sibling (t.page sibling).firstKey
      return (t', true)
  else
    let leftSibling ← fromParent.leftSibling
    let left ← t.leftOf p fuel leftSibling
    let t' ← t.balance p left fromParent.deletedKey fuel
    return (t', true)

/-- `num_entries_before - 1 >= (int)((cardinality - 1) * 0.5)` -/
def enough (numEntriesBefore : Nat) : Bool :=
  ((cardinality - 1) / 2 : Nat) ≤ (numEntriesBefore : Int) - 1

/-- `p->remove_rebalancing(bt, key, only_rebalance)` -/
def removeRebalancing (t : BTree) (p key : Int) (onlyRebalance : Bool) (fuel : Nat) :
    Option (BTree × Bool) :=
  let this := t.page p
  if this.hdr.isDeleted then some (t, false)
  else if onlyRebalance then t.rebalance p key fuel
  else do
    let numEntriesBefore ← this.count
    if p = t.root then
      let t' :=
        if 0 < this.hdr.level ∧ numEntriesBefore = 1 ∧ this.hdr.siblingPtr = 0 then
          { t.write p this.setDeleted with root := this.hdr.leftmostPtr }
        else t
      let (t', _) ← t'.remove p key
      return (t', true)
    else
      let (t', ret) ← t.remove p key
      if enough numEntriesBefore then
        return (t', if this.hdr.leftmostPtr = 0 then ret else true)
      else t'.rebalance p key fuel

/-! ## Budgets -/

open Fuel

section Steady

variable (t : BTree) (p key : Int)

theorem steady_btreeDeleteInternal (ptr : Int) (level : Nat) :
    Steady (t.btreeDeleteInternal key ptr level) :=
  .ite _ (steady_const _) <| (steady_descend t _ key _).bind fun _ =>
    .ite _ (steady_const _) (steady_const _)

theorem steady_leftOf (left : Int) : Steady fun fuel => t.leftOf p fuel left := by
  intro fuel
  induction fuel generalizing left with
  | zero => exact Extends.of_none _
  | succ fuel ih =>
      simp only [leftOf]
      exact Extends.ite _ (.refl _) (.ite _ (.refl _) (ih _))

theorem steady_insertSeparator (left right : Int) (level : Nat) :
    Steady (t.insertSeparator left key right level) :=
  .ite _ (steady_const _) fun fuel => (steady_store_insert fuel).2 t key right level

theorem steady_balance (left deletedKey : Int) : Steady (t.balance p left deletedKey) :=
  .const_bind _ fun _ => .const_bind _ fun _ =>
    .ite _
      (.ite _ (steady_insertSeparator _ _ _ _ _)
        (.const_bind _ fun _ => steady_insertSeparator _ _ _ _ _))
      (steady_const _)

theorem steady_rebalance : Steady (t.rebalance p key) :=
  (steady_btreeDeleteInternal t key p _).bind fun _ =>
    .ite _ (steady_const _) <| .const_bind _ fun _ => (steady_leftOf _ p _).bind fun _ =>
      (steady_balance _ p _ _).bind fun _ => steady_const _

theorem steady_removeRebalancing (onlyRebalance : Bool) :
    Steady (t.removeRebalancing p key onlyRebalance) :=
  .ite _ (steady_const _) <| .ite _ (steady_rebalance t p key) <| .const_bind _ fun _ =>
    .ite _ (steady_const _) <| .const_bind _ fun _ =>
      .ite _ (steady_const _) (steady_rebalance _ p key)

end Steady

end BTree

end F3Tree
