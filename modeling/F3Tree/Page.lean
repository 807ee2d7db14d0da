import F3Tree.Ptfo

/-!
# Pages

`class page` of `core/btree.h`: a header and an array of `cardinality` records.
The live records are those in front of the first null `ptr`; what lies behind is
left over from earlier contents.  A page is a leaf when its `leftmost_ptr` is
null, and then the `ptr` of a record is its value.

A read outside the array gives `none`.
-/

namespace F3Tree

/-- `LONG_MAX` -/
def longMax : Int := 2 ^ 63 - 1

/-- The least `entry_key_t`. -/
def longMin : Int := -2 ^ 63

/-- A record.  `ptr` is an `entry_ptr_t`: a value, a page address, or null (`0`). -/
structure Entry : Type where
  key : Int := longMax
  ptr : Int := 0
deriving DecidableEq, Repr

structure Header : Type where
  leftmostPtr : Int := 0
  siblingPtr : Int := 0
  level : Nat := 0
  switchCounter : UInt8 := 0
  isDeleted : Bool := false
  lastIndex : Int := -1
deriving DecidableEq, Repr

structure Page : Type where
  hdr : Header
  records : List Entry
deriving DecidableEq, Repr

/-- `IS_FORWARD(c)` -/
def isForward (c : UInt8) : Bool := c % 2 == 0

/-- `records[i].ptr = ptr` -/
def setPtr (records : List Entry) (i : Nat) (ptr : Int) : List Entry :=
  records.modify i fun e => { e with ptr := ptr }

namespace Page

/-- `page(level)` -/
def new (level : Nat) : Page where
  hdr := { level := level }
  records := List.replicate cardinality {}

/-- `page(left, key, right, level)`, the new root when the tree grows. -/
def newRoot (left key right : Int) (level : Nat) : Page where
  hdr := { leftmostPtr := left, level := level, lastIndex := 0 }
  records := setPtr ((List.replicate cardinality {}).set 0 ⟨key, right⟩) 1 0

/-- `records[0].key` -/
def firstKey (p : Page) : Int := (p.records.headD {}).key

/-- The records in front of the first null `ptr`. -/
def live (p : Page) : List Entry := p.records.takeWhile fun e => e.ptr ≠ 0

/-! ## `count` -/

/-- The inner loop of `count`, for at most `steps` records. -/
def countLoop (p : Page) (forward : Bool) : Nat → Int → Option Int
  | 0, _ => none
  | steps + 1, count =>
      if count < 0 then some count
      else
        match p.records[count.toNat]? with
        | none => none
        | some e =>
            if e.ptr = 0 then some count
            else countLoop p forward steps (if forward then count + 1 else count - 1)

def count (p : Page) : Option Nat := do
  let count ← p.countLoop (isForward p.hdr.switchCounter) (cardinality + 1)
    (p.hdr.lastIndex + 1)
  if count < 0 then
    let count ← p.countLoop true (cardinality + 1) 0
    return count.toNat
  else
    return count.toNat

/-! ## `insert_key` -/

/-- The shifting loop of `insert_key`, `i` records left to look at. -/
def shiftRight (key ptr : Int) : Nat → List Entry → List Entry
  | 0, records => records.set 0 ⟨key, ptr⟩
  | i + 1, records =>
      let e := records.getD i {}
      if key < e.key then shiftRight key ptr i (records.set (i + 1) e)
      else records.set (i + 1) ⟨key, ptr⟩

/-- `insert_key`, which also counts `num_entries` up. -/
def insertKey (p : Page) (key ptr : Int) (numEntries : Nat) : Page × Nat :=
  let switchCounter :=
    if isForward p.hdr.switchCounter then p.hdr.switchCounter else p.hdr.switchCounter + 1
  let records :=
    if numEntries = 0 then setPtr (p.records.set 0 ⟨key, ptr⟩) 1 0
    else
      shiftRight key ptr numEntries
        (setPtr p.records (numEntries + 1) (p.records.getD numEntries {}).ptr)
  ({ hdr := { p.hdr with switchCounter := switchCounter, lastIndex := numEntries }
     records := records }, numEntries + 1)

/-! ## `remove_key` -/

/-- The loop of `remove_key` once it shifts. -/
def shiftLeft : List Entry → Option (List Entry)
  | [] => none
  | e :: rest =>
      if e.ptr = 0 then some (e :: rest)
      else
        match rest with
        | [] => none
        | next :: _ => (shiftLeft rest).map (next :: ·)

/-- The loop of `remove_key` before it finds the key, and whether it does. -/
def removeLoop (key : Int) : List Entry → Option (List Entry × Bool)
  | [] => none
  | e :: rest =>
      if e.ptr = 0 then some (e :: rest, false)
      else if e.key = key then (shiftLeft (e :: rest)).map (·, true)
      else (removeLoop key rest).map fun r => (e :: r.1, r.2)

def removeKey (p : Page) (key : Int) : Option (Page × Bool) := do
  let switchCounter :=
    if isForward p.hdr.switchCounter then p.hdr.switchCounter + 1 else p.hdr.switchCounter
  let (records, shift) ← removeLoop key p.records
  let lastIndex := if shift then p.hdr.lastIndex - 1 else p.hdr.lastIndex
  return ({ hdr := { p.hdr with switchCounter := switchCounter, lastIndex := lastIndex }
            records := records }, shift)

/-! ## `linear_search`, up to the look at the sibling -/

/-- A leaf from left to right, behind the record `prev`. -/
def leafForward (key : Int) : Entry → List Entry → Option Int
  | _, [] => none
  | prev, e :: rest =>
      if e.ptr = 0 then some 0
      else if e.key = key ∧ prev.ptr ≠ e.ptr then some e.ptr
      else leafForward key e rest

/-- A leaf from right to left, down to `records[1]`. -/
def leafBackward (key : Int) (records : List Entry) : Nat → Int
  | 0 => 0
  | i + 1 =>
      let e := records.getD (i + 1) {}
      if e.key = key ∧ (records.getD i {}).ptr ≠ e.ptr ∧ e.ptr ≠ 0 then e.ptr
      else leafBackward key records i

/-- The value of `key` in a leaf, null if there is none. -/
def searchLeaf (p : Page) (key : Int) : Option Int :=
  match p.records with
  | [] => none
  | first :: rest =>
      if isForward p.hdr.switchCounter then
        if first.key = key ∧ first.ptr ≠ 0 then some first.ptr
        else leafForward key first rest
      else do
        let numEntries ← p.count
        let ret := leafBackward key p.records (numEntries - 1)
        if ret = 0 ∧ first.key = key ∧ first.ptr ≠ 0 then return first.ptr
        else return ret

/-- An internal page from left to right, behind the record `prev`. -/
def internalForward (key : Int) : Entry → List Entry → Option Int
  | _, [] => none
  | prev, e :: rest =>
      if e.ptr = 0 then some prev.ptr
      else if key < e.key ∧ prev.ptr ≠ e.ptr then some prev.ptr
      else internalForward key e rest

/-- An internal page from right to left. -/
def internalBackward (key leftmost : Int) (records : List Entry) : Nat → Int
  | 0 => 0
  | i + 1 =>
      let e := records.getD i {}
      let prev := if i = 0 then leftmost else (records.getD (i - 1) {}).ptr
      if key ≥ e.key ∧ prev ≠ e.ptr then e.ptr
      else internalBackward key leftmost records i

/-- The child of an internal page to follow for `key`, null for the leftmost one
when nothing else is found. -/
def searchInternal (p : Page) (key : Int) : Option Int :=
  match p.records with
  | [] => none
  | first :: rest =>
      if isForward p.hdr.switchCounter then
        if key < first.key ∧ p.hdr.leftmostPtr ≠ first.ptr then some p.hdr.leftmostPtr
        else internalForward key first rest
      else do
        let numEntries ← p.count
        return internalBackward key p.hdr.leftmostPtr p.records numEntries

/-! ## The split of a full page -/

/-- The pages after a split, before the new record goes in. -/
structure Split : Type where
  left : Page
  sibling : Page
  siblingCnt : Nat
  splitKey : Int

/-- Moves records to the end of a page. -/
def migrate (records : List Entry) (p : Page) : Page × Nat :=
  records.foldl (fun acc e => acc.1.insertKey e.key e.ptr acc.2) (p, 0)

/-- The split that `store` makes of a page with `numEntries` records, with the
sibling at `siblingPtr`. -/
def split (p : Page) (numEntries : Nat) (siblingPtr : Int) : Split :=
  let m := numEntries / 2
  let records := p.records.take numEntries
  let middle := p.records.getD m {}
  let isLeaf := p.hdr.leftmostPtr = 0
  let moved := migrate (if isLeaf then records.drop m else records.drop (m + 1))
    (new p.hdr.level)
  let switchCounter :=
    if isForward p.hdr.switchCounter then p.hdr.switchCounter + 2
    else p.hdr.switchCounter + 1
  { left :=
      { hdr :=
          { p.hdr with
            siblingPtr := siblingPtr, switchCounter := switchCounter, lastIndex := (m : Int) - 1 }
        records := setPtr p.records m 0 }
    sibling :=
      { moved.1 with
        hdr :=
          { moved.1.hdr with
            leftmostPtr := if isLeaf then moved.1.hdr.leftmostPtr else middle.ptr
            siblingPtr := p.hdr.siblingPtr } }
    siblingCnt := moved.2
    splitKey := middle.key }

/-- The halves with the new record in one of them. -/
def Split.insert (s : Split) (key right : Int) : Page × Page :=
  if key < s.splitKey then
    ((s.left.insertKey key right (s.left.hdr.lastIndex + 1).toNat).1, s.sibling)
  else (s.left, (s.sibling.insertKey key right s.siblingCnt).1)

end Page

end F3Tree
