import F3Tree.Fast
import F3Tree.Midway
import F3Tree.Rebalance

/-!
# The stores of a call

What `btree_insert` and `btree_delete` write, store by store in their order: the records of
a page, and for a split the new page, the pointer to it, the terminator in the middle of the
old page, and the root.  A call is its stores one after another (`Rows.traced`), and above
the leaves it writes no leaf.
-/

namespace F3Tree

open Keyed Fuel Runs

/-- A store of a call on the tree.  `new` is an allocation together with the constructor of
the page, `root` is `setNewRoot`. -/
inductive TreeStore
  | new (p : Page)
  | page (p : Int) (s : PageStore)
  | leftmost (p : Int) (ptr : Int)
  | sibling (p : Int) (ptr : Int)
  | root (p : Int)
deriving DecidableEq, Repr

namespace Page

def setLeftmost (p : Page) (ptr : Int) : Page := { p with hdr := { p.hdr with leftmostPtr := ptr } }

end Page

namespace BTree

def perform (t : BTree) : TreeStore → BTree
  | .new p => t.new p
  | .page p s => t.write p ((t.page p).perform s)
  | .leftmost p ptr => t.write p ((t.page p).setLeftmost ptr)
  | .sibling p ptr => t.write p ((t.page p).setSibling ptr)
  | .root p => t.setNewRoot p

def performs (t : BTree) (stores : List TreeStore) : BTree := stores.foldl perform t

/-! ## The stores of `store` -/

/-- The stores that move records to the end of the page `q` at `sibling`. -/
def migrateStores (sibling : Int) : List Entry → Page × Nat → List TreeStore
  | [], _ => []
  | e :: records, q =>
      (q.1.insertKeyStores e.key e.ptr q.2).map (.page sibling) ++
        migrateStores sibling records (q.1.insertKey e.key e.ptr q.2)

/-- The stores of a split to the new page. -/
def siblingStores (t : BTree) (p : Int) (numEntries : Nat) : List TreeStore :=
  let this := t.page p
  let m := numEntries / 2
  let records := this.records.take numEntries
  let isLeaf := this.hdr.leftmostPtr = 0
  .new (.new this.hdr.level) ::
    migrateStores t.fresh (if isLeaf then records.drop m else records.drop (m + 1))
      (.new this.hdr.level, 0) ++
    (if isLeaf then [] else [.leftmost t.fresh (this.records.getD m {}).ptr]) ++
    [.sibling t.fresh this.hdr.siblingPtr]

/-- The stores of a split to the old page. -/
def cutStores (t : BTree) (p : Int) (numEntries : Nat) : List TreeStore :=
  let switchCounter := (t.page p).hdr.switchCounter
  let m := numEntries / 2
  [.sibling p t.fresh,
    .page p (.switchCounter
      (if isForward switchCounter then switchCounter + 2 else switchCounter + 1)),
    .page p (.ptr m 0), .page p (.lastIndex ((m : Int) - 1))]

/-- The stores of the insertion into one of the halves. -/
def halfStores (halves : Page.Split) (p sibling key right : Int) : List TreeStore :=
  if key < halves.splitKey then
    (halves.left.insertKeyStores key right (halves.left.hdr.lastIndex + 1).toNat).map (.page p)
  else (halves.sibling.insertKeyStores key right halves.siblingCnt).map (.page sibling)

def splitStores (t : BTree) (p key right : Int) (numEntries : Nat) : List TreeStore :=
  t.siblingStores p numEntries ++ t.cutStores p numEntries ++
    halfStores ((t.page p).split numEntries t.fresh) p t.fresh key right

/-- The stores of `p->store(…)` from `hdr.mtx.lock()` to `hdr.mtx.unlock()`. -/
def lockedStores (t : BTree) (p key right : Int) : Option (List TreeStore) :=
  let this := t.page p
  if this.hdr.isDeleted then some []
  else if this.hdr.siblingPtr ≠ 0 ∧ key > (t.page this.hdr.siblingPtr).firstKey then some []
  else do
    let numEntries ← this.count
    if numEntries < cardinality - 1 then
      return (this.insertKeyStores key right numEntries).map (.page p)
    else
      let (t', splitKey, _) := t.splitPage p key right numEntries
      let level := (t'.page p).hdr.level + 1
      if t.root = p then
        return t.splitStores p key right numEntries ++
          [.new (Page.newRoot p splitKey t.fresh level), .root t'.fresh]
      else return t.splitStores p key right numEntries

mutual

/-- The stores of `p->store(…)`. -/
def storeStores : Nat → BTree → Int → Int → Int → Option (List TreeStore)
  | 0, _, _, _, _ => none
  | fuel + 1, t, p, key, right => do
      let stores ← t.lockedStores p key right
      let (t', stored) ← t.storeLocked p key right
      match stored with
      | .deleted | .done _ => return stores
      | .hop =>
          let more ← storeStores fuel t' (t'.page p).hdr.siblingPtr key right
          return stores ++ more
      | .promote _ splitKey sibling level =>
          let more ← insertInternalStores fuel t' splitKey sibling level
          return stores ++ more

/-- The stores of `btree_insert_internal`. -/
def insertInternalStores : Nat → BTree → Int → Int → Nat → Option (List TreeStore)
  | 0, _, _, _, _ => none
  | fuel + 1, t, key, right, level =>
      if level > (t.page t.root).hdr.level then some []
      else do
        let p ← t.descend (aboveLevel level) key fuel t.root
        let stores ← storeStores fuel t p key right
        let (t', ret) ← store fuel t p key right
        if ret = 0 then
          let more ← insertInternalStores fuel t' key right level
          return stores ++ more
        else return stores

end

/-- The stores of `btree_insert`. -/
def insertStores (key right : Int) : Nat → BTree → Option (List TreeStore)
  | 0, _ => none
  | fuel + 1, t => do
      let leaf ← t.descend aboveLeaves key fuel t.root
      let stores ← storeStores fuel t leaf key right
      let (t', ret) ← store fuel t leaf key right
      if ret = 0 then
        let more ← insertStores key right fuel t'
        return stores ++ more
      else return stores

/-- The stores of `btree_delete`. -/
def deleteStores (key : Int) : Nat → BTree → Option (List TreeStore)
  | 0, _ => none
  | fuel + 1, t => do
      let leaf ← t.descend aboveLeaves key fuel t.root
      let (p, _) ← t.chase key fuel leaf
      if p = 0 then return []
      else
        let (page, ret) ← (t.page p).removeKey key
        let stores := ((t.page p).removeKeyStores key).map (.page p)
        if ret then return stores
        else
          let more ← deleteStores key fuel (t.write p page)
          return stores ++ more

end BTree

def TreeOp.stores : TreeOp → Nat → BTree → Option (List TreeStore)
  | insert key, fuel, t => t.insertStores key key fuel
  | delete key, fuel, t => t.deleteStores key fuel

namespace BTree

/-! ## Stores one after another -/

section Performs

variable {t : BTree} {stores : List TreeStore} {p key right : Int} {numEntries : Nat}

theorem performs_cons (t : BTree) (s : TreeStore) (stores : List TreeStore) :
    t.performs (s :: stores) = (t.perform s).performs stores := rfl

theorem performs_append (t : BTree) (stores stores' : List TreeStore) :
    t.performs (stores ++ stores') = (t.performs stores).performs stores' :=
  List.foldl_append

@[simp] theorem page_write (t : BTree) (p : Int) (q : Page) : (t.write p q).page p = q :=
  Function.update_self ..

@[simp] theorem page_new (t : BTree) (q : Page) : (t.new q).page t.fresh = q :=
  Function.update_self ..

theorem write_write (t : BTree) (p : Int) (q q' : Page) :
    (t.write p q).write p q' = t.write p q' :=
  congrArg (fun page => { t with page := page }) (Function.update_idem ..)

theorem write_page (t : BTree) (p : Int) : t.write p (t.page p) = t :=
  congrArg (fun page => { t with page := page }) (Function.update_eq_self ..)

theorem write_new (t : BTree) (q q' : Page) : (t.new q).write t.fresh q' = t.new q' :=
  congrArg (fun page => { t with allocated := t.allocated + 1, page := page })
    (Function.update_idem ..)

/-- Two pages are written in either order. -/
theorem write_comm {p' : Int} (ne : p ≠ p') (t : BTree) (q q' : Page) :
    (t.write p q).write p' q' = (t.write p' q').write p q :=
  congrArg (fun page => { t with page := page }) (Function.update_comm ne ..)

/-- Stores to one page. -/
theorem performs_page (t : BTree) (p : Int) (stores : List PageStore) :
    t.performs (stores.map (.page p)) = t.write p ((t.page p).performs stores) := by
  induction stores generalizing t with
  | nil => exact (t.write_page p).symm
  | cons s stores ih =>
      rw [List.map_cons, performs_cons, ih, perform, page_write, write_write]
      rfl

/-- The points of stores to one page. -/
theorem atPoints_page {property : List TreeStore → Prop} {stores : List PageStore} :
    AtPoints property (stores.map (.page p)) ↔
      AtPoints (fun before => property (before.map (.page p))) stores := by
  constructor
  · exact fun h before point => h _ (point.map _)
  · intro h before point
    obtain ⟨before', point', rfl⟩ := List.prefix_map_iff.mp point
    exact h before' point'

theorem performs_migrateStores {sibling : Int} (records : List Entry) (q : Page × Nat)
    (here : t.page sibling = q.1) : t.performs (migrateStores sibling records q) =
      t.write sibling (records.foldl (fun acc e => acc.1.insertKey e.key e.ptr acc.2) q).1 := by
  induction records generalizing t q with
  | nil => exact (here ▸ t.write_page sibling).symm
  | cons e records ih =>
      rw [migrateStores, performs_append, performs_page, here, performs_insertKeyStores,
        ih _ (page_write ..), write_write]
      rfl

/-- The new page is complete before anything points to it. -/
theorem performs_siblingStores (t : BTree) (p : Int) (numEntries : Nat) :
    t.performs (t.siblingStores p numEntries) =
      t.new ((t.page p).split numEntries t.fresh).sibling := by
  unfold siblingStores
  dsimp only
  rw [List.append_assoc, List.cons_append, performs_cons, performs_append, perform,
    performs_migrateStores _ (.new (t.page p).hdr.level, 0) (page_new ..), write_new]
  by_cases leaf : (t.page p).hdr.leftmostPtr = 0
  · simp only [if_pos leaf, List.nil_append]
    rw [performs_cons, perform, page_new, write_new]
    simp only [Page.split, if_pos leaf]
    rfl
  · simp only [if_neg leaf, List.singleton_append]
    rw [performs_cons, perform, page_new, write_new, performs_cons, perform, page_new, write_new]
    simp only [Page.split, if_neg leaf]
    rfl

/-- The new page at `t.fresh` and the old one. -/
def halved (t : BTree) (p : Int) (halves : Page × Page) : BTree := (t.new halves.2).write p halves.1

theorem performs_cutStores (t : BTree) (p : Int) (numEntries : Nat) (ne : p ≠ t.fresh) :
    (t.new ((t.page p).split numEntries t.fresh).sibling).performs (t.cutStores p numEntries) =
      t.halved p (((t.page p).split numEntries t.fresh).left,
        ((t.page p).split numEntries t.fresh).sibling) := by
  have here : (t.new ((t.page p).split numEntries t.fresh).sibling).page p = t.page p :=
    Function.update_of_ne ne ..
  unfold cutStores
  dsimp only
  simp only [performs_cons, perform, page_write, write_write, here]
  rfl

theorem performs_halfStores (halves : Page.Split) (key right : Int) (ne : p ≠ t.fresh) :
    (t.halved p (halves.left, halves.sibling)).performs
      (halfStores halves p t.fresh key right) = t.halved p (halves.insert key right) := by
  unfold halfStores Page.Split.insert halved
  split
  · rw [performs_page, page_write, write_write, performs_insertKeyStores]
  · have there : ((t.new halves.sibling).write p halves.left).page t.fresh = halves.sibling :=
      (Function.update_of_ne ne.symm ..).trans (page_new ..)
    rw [performs_page, there, performs_insertKeyStores, write_comm ne, write_new]

theorem performs_splitStores (t : BTree) (p key right : Int) (numEntries : Nat)
    (ne : p ≠ t.fresh) : t.performs (t.splitStores p key right numEntries) =
      (t.splitPage p key right numEntries).1 := by
  rw [splitStores, performs_append, performs_append, performs_siblingStores,
    performs_cutStores t p numEntries ne, performs_halfStores _ key right ne]
  rfl

/-- The stores of a locked section make what the section makes. -/
theorem performs_lockedStores {t' : BTree} {stored : Stored} (ne : p ≠ t.fresh)
    (h : t.storeLocked p key right = some (t', stored)) :
    ∃ stores, t.lockedStores p key right = some stores ∧ t.performs stores = t' := by
  unfold storeLocked at h
  unfold lockedStores
  dsimp only at h ⊢
  split at h
  · rename_i deleted
    obtain ⟨rfl, -⟩ := Prod.mk.inj (Option.some.inj h)
    exact ⟨[], if_pos deleted, rfl⟩
  rename_i alive
  rw [if_neg alive]
  split at h
  · rename_i hop
    obtain ⟨rfl, -⟩ := Prod.mk.inj (Option.some.inj h)
    exact ⟨[], if_pos hop, rfl⟩
  rename_i here
  rw [if_neg here]
  obtain ⟨numEntries, count, h⟩ := Option.bind_eq_some_iff.mp h
  rw [count]
  simp only [Option.bind_eq_bind, Option.bind_some]
  split at h
  · rename_i room
    obtain ⟨rfl, -⟩ := Prod.mk.inj (Option.some.inj h)
    exact ⟨_, if_pos room, by rw [performs_page, performs_insertKeyStores]⟩
  rename_i full
  rw [if_neg full]
  have split := t.performs_splitStores p key right numEntries ne
  split at h
  · rename_i root
    obtain ⟨rfl, -⟩ := Prod.mk.inj (Option.some.inj h)
    refine ⟨_, if_pos root, ?_⟩
    rw [performs_append, split]
    rfl
  · rename_i inner
    obtain ⟨rfl, -⟩ := Prod.mk.inj (Option.some.inj h)
    exact ⟨_, if_neg inner, split⟩

end Performs

/-! ## Budgets -/

section Steady

variable {t : BTree} {key : Int}

theorem steady_storeStores_insert (fuel : Nat) :
    (∀ t p key right,
      Fuel.Extends (storeStores fuel t p key right) (storeStores (fuel + 1) t p key right)) ∧
    ∀ t key right level, Fuel.Extends (insertInternalStores fuel t key right level)
      (insertInternalStores (fuel + 1) t key right level) := by
  induction fuel with
  | zero => exact ⟨fun _ _ _ _ => .of_none _, fun _ _ _ _ => .of_none _⟩
  | succ fuel ih =>
      obtain ⟨ihStore, ihInsert⟩ := ih
      constructor
      · intro t p key right
        rw [storeStores, storeStores]
        refine .const_bind _ fun stores => .const_bind _ fun r => ?_
        obtain ⟨t', stored⟩ := r
        cases stored with
        | deleted => exact .refl _
        | done ret => exact .refl _
        | hop => exact (ihStore _ _ _ _).bind fun _ => .refl _
        | promote ret splitKey sibling level => exact (ihInsert _ _ _ _).bind fun _ => .refl _
      · intro t key right level
        rw [insertInternalStores, insertInternalStores]
        refine .ite _ (.refl _) (.bind (steady_descend t _ key _ fuel) fun p => ?_)
        refine (ihStore _ _ _ _).bind fun stores => .bind (steady_store t p key right fuel) ?_
        exact fun r => .ite _ ((ihInsert _ _ _ _).bind fun _ => .refl _) (.refl _)

theorem steady_storeStores (t : BTree) (p key right : Int) :
    Steady fun fuel => storeStores fuel t p key right :=
  fun fuel => (steady_storeStores_insert fuel).1 t p key right

theorem steady_insertStores (key right : Int) (t : BTree) :
    Steady fun fuel => insertStores key right fuel t := by
  intro fuel
  induction fuel generalizing t with
  | zero => exact Fuel.Extends.of_none _
  | succ fuel ih =>
      simp only [insertStores]
      refine Fuel.Extends.bind (steady_descend t _ key _ fuel) fun p => ?_
      refine Fuel.Extends.bind (steady_storeStores t p key right fuel) fun stores => ?_
      refine Fuel.Extends.bind (steady_store t p key right fuel) fun r => ?_
      exact .ite _ (Fuel.Extends.bind (ih r.1) fun _ => .refl _) (.refl _)

theorem steady_deleteStores (key : Int) (t : BTree) :
    Steady fun fuel => deleteStores key fuel t := by
  intro fuel
  induction fuel generalizing t with
  | zero => exact Fuel.Extends.of_none _
  | succ fuel ih =>
      simp only [deleteStores]
      refine Fuel.Extends.bind (steady_descend t _ key _ fuel) fun p => ?_
      refine Fuel.Extends.bind (steady_chase t key p fuel) fun r => .ite _ (.refl _) ?_
      refine .const_bind _ fun removed => .ite _ (.refl _) ?_
      exact Fuel.Extends.bind (ih _) fun _ => .refl _

end Steady

/-! ## The pages that are spared -/

/-- The store is to `p`, or to a page that has not been allocated in `t`. -/
def Spares (t : BTree) (p : Int) : TreeStore → Prop
  | .new _ | .root _ => True
  | .page q _ | .leftmost q _ | .sibling q _ => q = p ∨ ¬ t.Allocated q

section Spares

variable {t u : BTree} {stores : List TreeStore} {p q key right : Int} {numEntries : Nat}

/-- A store to `p` or to a new page leaves the other pages. -/
theorem keeps_perform {s : TreeStore} (spares : t.Spares p s) (alloc : u.alloc = t.alloc)
    (le : t.allocated ≤ u.allocated) :
    (u.perform s).alloc = t.alloc ∧ t.allocated ≤ (u.perform s).allocated ∧
      (u.perform s).rootRef = u.rootRef ∧
      ∀ q, t.Allocated q → q ≠ p → (u.perform s).page q = u.page q := by
  have other : ∀ {q' : Int} {page : Page}, q' = p ∨ ¬ t.Allocated q' →
      ∀ q, t.Allocated q → q ≠ p → (u.write q' page).page q = u.page q := by
    intro q' page spares q hq ne
    refine Function.update_of_ne ?_ ..
    rintro rfl
    exact spares.elim ne fun new => new hq
  cases s with
  | new page =>
      refine ⟨alloc, le.trans (Nat.le_succ _), rfl, fun q hq _ => Function.update_of_ne ?_ ..⟩
      rintro rfl
      obtain ⟨i, hi, heq⟩ := hq
      rw [fresh, alloc] at heq
      have := t.alloc.injective heq
      omega
  | root page => exact ⟨alloc, le, rfl, fun _ _ _ => rfl⟩
  | page q' s => exact ⟨alloc, le, rfl, other spares⟩
  | leftmost q' ptr => exact ⟨alloc, le, rfl, other spares⟩
  | sibling q' ptr => exact ⟨alloc, le, rfl, other spares⟩

/-- Stores to `p` and to new pages leave the other pages. -/
theorem keeps_performs {P : Page → Prop} (spares : ∀ s ∈ stores, t.Spares p s)
    (hP : ∀ q, t.Allocated q → P (t.page q) → q ≠ p) : Keeps t (t.performs stores) P := by
  have run : ∀ u : BTree, u.alloc = t.alloc → t.allocated ≤ u.allocated →
      (u.performs stores).alloc = t.alloc ∧ t.allocated ≤ (u.performs stores).allocated ∧
        (u.performs stores).rootRef = u.rootRef ∧
        ∀ q, t.Allocated q → q ≠ p → (u.performs stores).page q = u.page q := by
    induction stores with
    | nil => exact fun u alloc le => ⟨alloc, le, rfl, fun _ _ _ => rfl⟩
    | cons s stores ih =>
        intro u alloc le
        obtain ⟨hs, rest⟩ := List.forall_mem_cons.mp spares
        obtain ⟨alloc', le', rootRef, pages⟩ := keeps_perform hs alloc le
        obtain ⟨alloc'', le'', rootRef', pages'⟩ := ih rest _ alloc' le'
        exact ⟨alloc'', le'', rootRef'.trans rootRef, fun q hq ne =>
          (pages' q hq ne).trans (pages q hq ne)⟩
  obtain ⟨alloc, le, rootRef, pages⟩ := run t rfl le_rfl
  exact ⟨alloc, le, rootRef, fun q hq holds => pages q hq (hP q hq holds)⟩

theorem spares_page (stores : List PageStore) (hq : q = p ∨ ¬ t.Allocated q) :
    ∀ s ∈ stores.map (TreeStore.page q), t.Spares p s := by
  intro s mem
  obtain ⟨s', -, rfl⟩ := List.mem_map.mp mem
  exact hq

theorem spares_migrateStores (new : ¬ t.Allocated q) (records : List Entry) (r : Page × Nat) :
    ∀ s ∈ migrateStores q records r, t.Spares p s := by
  induction records generalizing r with
  | nil => exact fun s mem => absurd mem List.not_mem_nil
  | cons e records ih =>
      exact List.forall_mem_append.mpr ⟨spares_page _ (Or.inr new), ih _⟩

/-- The old page is not written before the new one is complete. -/
theorem spares_siblingStores (t : BTree) (p q : Int) (numEntries : Nat) :
    ∀ s ∈ t.siblingStores p numEntries, t.Spares q s := by
  have new := t.fresh_not_allocated
  refine List.forall_mem_append.mpr ⟨List.forall_mem_append.mpr ⟨?_, ?_⟩, ?_⟩
  · exact List.forall_mem_cons.mpr ⟨trivial, spares_migrateStores new _ _⟩
  · split
    · exact fun s mem => absurd mem List.not_mem_nil
    · exact List.forall_mem_singleton.mpr (Or.inr new)
  · exact List.forall_mem_singleton.mpr (Or.inr new)

theorem spares_splitStores (t : BTree) (p key right : Int) (numEntries : Nat) :
    ∀ s ∈ t.splitStores p key right numEntries, t.Spares p s := by
  refine List.forall_mem_append.mpr ⟨List.forall_mem_append.mpr ⟨?_, ?_⟩, ?_⟩
  · exact t.spares_siblingStores p p numEntries
  · intro s mem
    simp only [cutStores, List.mem_cons, List.not_mem_nil, or_false] at mem
    rcases mem with rfl | rfl | rfl | rfl
    all_goals exact Or.inl rfl
  · unfold halfStores
    split
    · exact spares_page _ (Or.inl rfl)
    · exact spares_page _ (Or.inr t.fresh_not_allocated)

theorem spares_lockedStores (h : t.lockedStores p key right = some stores) :
    ∀ s ∈ stores, t.Spares p s := by
  unfold lockedStores at h
  dsimp only at h
  split at h
  · obtain rfl := Option.some.inj h
    exact fun s mem => absurd mem List.not_mem_nil
  split at h
  · obtain rfl := Option.some.inj h
    exact fun s mem => absurd mem List.not_mem_nil
  obtain ⟨numEntries, -, h⟩ := Option.bind_eq_some_iff.mp h
  have split := t.spares_splitStores p key right numEntries
  split at h
  · obtain rfl := Option.some.inj h
    exact spares_page _ (Or.inl rfl)
  split at h
  · obtain rfl := Option.some.inj h
    refine List.forall_mem_append.mpr ⟨split, ?_⟩
    exact List.forall_mem_cons.mpr ⟨trivial, List.forall_mem_singleton.mpr trivial⟩
  · obtain rfl := Option.some.inj h
    exact split

end Spares

/-! ## The whole call -/

section Traces

variable {t t' : BTree} {n l : Nat} {key right : Int} {row before after : List Entry} {s : Entry}

/-- What `store` writes under the lock of the page `p`, and what it writes later: nothing of
the level `l` of the page, or below. -/
structure Traced (t : BTree) (l : Nat) (p key right : Int) (t' : BTree)
    (locked later : List TreeStore) : Prop where
  written : t.lockedStores p key right = some locked
  returns : ∃ ret ≠ 0, Returns (fun fuel => store fuel t p key right) (t', ret)
  stores : Returns (fun fuel => storeStores fuel t p key right) (locked ++ later)
  completes : t.performs (locked ++ later) = t'
  above : AtPoints (fun before => Keeps (t.performs locked) ((t.performs locked).performs before)
    fun page => page.hdr.level < l + 1) later

/-- A call of `store` that ends under the lock. -/
theorem traced_done {p ret : Int} (l : Nat) (fresh : p ≠ t.fresh) (ne : ret ≠ 0)
    (h : t.storeLocked p key right = some (t', .done ret)) :
    ∃ locked, t.Traced l p key right t' locked [] := by
  obtain ⟨locked, written, made⟩ := performs_lockedStores fresh h
  have store : store 1 t p key right = some (t', ret) := by
    rw [store_eq_storeLocked, h]
    rfl
  have stores : storeStores 1 t p key right = some locked := by
    rw [storeStores, written, h]
    rfl
  refine ⟨locked, written, ⟨ret, ne, 1, store⟩, ⟨1, by simpa using stores⟩, by simpa using made, ?_⟩
  exact atPoints_nil.mpr ⟨rfl, le_rfl, rfl, fun _ _ _ => rfl⟩

/-- The stores of `btree_insert_internal` are those of `store` on the home page. -/
theorem Rows.insertInternalStores_returns (h : t.Rows n l row) (hkey : longMin ≤ key)
    (home : Cut Entry.key key row (before ++ [s]) after) {ret : Int} {stores : List TreeStore}
    (hstore : Returns (fun fuel => BTree.store fuel t s.ptr key right) (t', ret)) (hret : ret ≠ 0)
    (hstores : Returns (fun fuel => storeStores fuel t s.ptr key right) stores) :
    Returns (fun fuel => insertInternalStores fuel t key right l) stores := by
  obtain ⟨fuel, hstore, hstores⟩ :=
    hstore.both (steady_store _ _ _ _) (steady_storeStores _ _ _ _) hstores
  obtain ⟨fuel', hdescend⟩ := h.thin.descends_level hkey home
  have hdescend := (steady_descend _ _ _ _).mono (Nat.le_max_right fuel fuel') hdescend
  have hstore := (steady_store _ _ _ _).mono (Nat.le_max_left fuel fuel') hstore
  have hstores := (steady_storeStores _ _ _ _).mono (Nat.le_max_left fuel fuel') hstores
  refine ⟨max fuel fuel' + 1, ?_⟩
  have level : ¬ l > (t.page t.root).hdr.level := by
    rw [h.root]
    omega
  dsimp only at hdescend hstore hstores ⊢
  rw [insertInternalStores, if_neg level, hdescend]
  simp only [Option.bind_eq_bind, Option.bind_some, hstores, hstore]
  exact if_neg hret

/-- A record that goes into a page with room, or into the halves of the root. -/
theorem Rows.traced_here (h : t.Rows n l row)
    (home : Cut Entry.key key row (before ++ [s]) after) (right : Int)
    (here : (t.page s.ptr).live.length < cardinality - 1 ∨ t.root = s.ptr) :
    ∃ t' locked, t.Traced l s.ptr key right t' locked [] := by
  obtain ⟨-, ⟨ok, alloc⟩, -⟩ := row_split.mp (home.split ▸ h.isRow)
  have stays := h.isRow.stays home
  have fresh : s.ptr ≠ t.fresh := fun heq => t.fresh_not_allocated (heq ▸ alloc)
  have stored : t.storeLocked s.ptr key right = _ := storeLocked_eq right ok.alive ok.count_eq
    fun hop => stays ⟨hop.1, hop.2.le⟩
  dsimp only at stored
  rcases Nat.lt_or_ge (t.page s.ptr).live.length (cardinality - 1) with room | full
  · rw [if_pos room] at stored
    exact ⟨_, traced_done l fresh (Allocator.ne_null_of alloc) stored⟩
  · rw [if_neg full.not_gt, if_pos (here.resolve_left full.not_gt)] at stored
    obtain ⟨-, -, ret⟩ := h.isRow.put_splitPage h.upward.nodup home right
      (Nat.le_antisymm (Nat.le_sub_one_of_lt ok.length_live) full)
    exact ⟨_, traced_done l fresh ret stored⟩

/-- `store` on the home page of a key. -/
theorem Rows.traced (h : t.Rows n l row) (hkey : longMin ≤ key)
    (home : Cut Entry.key key row (before ++ [s]) after) (right : Int) :
    ∃ t' locked later, t.Traced l s.ptr key right t' locked later := by
  induction n generalizing l t row key right s before after with
  | zero =>
      have root : t.root = s.ptr := by
        have mem : s ∈ [(⟨longMin, t.root⟩ : Entry)] := h.upward ▸ home.split ▸ by simp
        rw [List.mem_singleton.mp mem]
      obtain ⟨t', locked, traced⟩ := h.traced_here home right (Or.inr root)
      exact ⟨t', locked, [], traced⟩
  | succ n ih =>
      rcases Nat.lt_or_ge (t.page s.ptr).live.length (cardinality - 1) with room | full
      · obtain ⟨t', locked, traced⟩ := h.traced_here home right (Or.inl room)
        exact ⟨t', locked, [], traced⟩
      obtain ⟨-, ⟨ok, alloc⟩, -⟩ := row_split.mp (home.split ▸ h.isRow)
      have stays := h.isRow.stays home
      have fresh : s.ptr ≠ t.fresh := fun heq => t.fresh_not_allocated (heq ▸ alloc)
      have size := Nat.le_antisymm (Nat.le_sub_one_of_lt ok.length_live) full
      have notRoot : t.root ≠ s.ptr := fun heq => by
        have := h.root
        rw [heq, ok.level] at this
        omega
      obtain ⟨put, keeps, ret⟩ := h.isRow.put_splitPage h.upward.nodup home right size
      obtain ⟨sp, -⟩ := h.isRow.split home size
      have level := put.levels h.isRow home fun p => keeps.allocated_of
      have stored : t.storeLocked s.ptr key right = _ := storeLocked_eq right ok.alive ok.count_eq
        fun hop => stays ⟨hop.1, hop.2.le⟩
      dsimp only at stored
      rw [if_neg full.not_gt, if_neg notRoot, (level s (by simp)).2] at stored
      obtain ⟨locked, written, made⟩ := performs_lockedStores fresh stored
      -- The new slot goes to the row above, found again from the root.
      obtain ⟨-, upper, hupper, upward, -⟩ := h.upward
      obtain ⟨hupper', -⟩ := keeps.isRow hupper fun p hp => by omega
      have rows' : Rows _ n (l + 1) upper :=
        ⟨hupper', keeps.upward rfl upward fun p hp => by omega⟩
      have least := (h.upward.least s (home.split ▸ by simp)).trans sp.least
      obtain ⟨before', s', after', home'⟩ := rows'.upward.home least
      obtain ⟨t', locked', later', traced⟩ := ih rows' least home' t.fresh
      obtain ⟨ret', ne', store'⟩ := traced.returns
      obtain ⟨fuel, inserted⟩ :=
        rows'.thin.btreeInsertInternal_returns least home' store' ne'
      obtain ⟨fuel', stores'⟩ := rows'.insertInternalStores_returns least home' store' ne'
        traced.stores
      refine ⟨t', locked, locked' ++ later', written, ⟨_, ret, fuel + 1, ?_⟩, ⟨fuel' + 1, ?_⟩,
        ?_, ?_⟩
      · exact (store_eq_storeLocked fuel t s.ptr key right).trans
          ((congrArg (Option.bind · _) stored).trans (congrArg (Option.map _) inserted))
      · dsimp only
        rw [storeStores, written, stored]
        exact congrArg (Option.bind · fun more => some (locked ++ more)) stores'
      · rw [performs_append, made]
        exact traced.completes
      · rw [made]
        obtain ⟨-, ⟨ok', -⟩, -⟩ := row_split.mp (home'.split ▸ hupper')
        have spared := spares_lockedStores traced.written
        have low : ∀ before, before <+: locked' → Keeps _ _ fun page => page.hdr.level < l + 1 :=
          fun before point => keeps_performs (fun st mem => spared st (point.subset mem))
            fun q _ hq heq => by
              rw [heq, ok'.level] at hq
              omega
        refine atPoints_append.mpr ⟨low, fun before point => ?_⟩
        dsimp only
        rw [performs_append]
        exact (low locked' (List.prefix_refl _)).trans
          ((traced.above before point).mono fun page hpage => by omega)

/-- An insertion writes its record into the home leaf, and then above the leaves. -/
theorem Rows.insertStores (h : t.Rows n 0 row) (hkey : longMin ≤ key)
    (home : Cut Entry.key key row (before ++ [s]) after) (right : Int)
    (returns : Returns (fun fuel => BTree.btreeInsert key right fuel t) t') :
    ∃ locked later, t.Traced 0 s.ptr key right t' locked later ∧
      Returns (fun fuel => BTree.insertStores key right fuel t) (locked ++ later) := by
  obtain ⟨t₁, locked, later, traced⟩ := h.traced hkey home right
  obtain ⟨ret, ne, store⟩ := traced.returns
  obtain ⟨fuel, hstore, hstores⟩ :=
    store.both (steady_store _ _ _ _) (steady_storeStores _ _ _ _) traced.stores
  obtain ⟨fuel', hdescend⟩ := h.descends hkey home
  have hdescend := (steady_descend _ _ _ _).mono (Nat.le_max_right fuel fuel') hdescend
  have hstore := (steady_store _ _ _ _).mono (Nat.le_max_left fuel fuel') hstore
  have hstores := (steady_storeStores _ _ _ _).mono (Nat.le_max_left fuel fuel') hstores
  have insert : BTree.btreeInsert key right (max fuel fuel' + 1) t = some t₁ := by
    rw [BTree.btreeInsert, hdescend]
    simp only [Option.bind_eq_bind, Option.bind_some, hstore]
    exact if_neg ne
  obtain rfl := (steady_btreeInsert key right t).unique returns ⟨_, insert⟩
  refine ⟨locked, later, traced, max fuel fuel' + 1, ?_⟩
  dsimp only at hdescend hstore hstores ⊢
  rw [BTree.insertStores, hdescend]
  simp only [Option.bind_eq_bind, Option.bind_some, hstores, hstore]
  exact if_neg ne

/-- A deletion of a key that is there writes its leaf. -/
theorem Rows.deleteStores (h : t.Rows n 0 row) (hkey : longMin ≤ key)
    (home : Cut Entry.key key row (before ++ [s]) after) (has : t.Has s key)
    (distinct : key ≠ (t.page s.ptr).hdr.siblingPtr)
    (returns : Returns (fun fuel => BTree.btreeDelete key fuel t) t') :
    ∃ p, (t.page s.ptr).removeKey key = some (p, true) ∧ t' = t.write s.ptr p ∧
      Returns (fun fuel => BTree.deleteStores key fuel t)
        (((t.page s.ptr).removeKeyStores key).map (.page s.ptr)) := by
  obtain ⟨-, ⟨-, alloc⟩, -⟩ := row_split.mp (home.split ▸ h.isRow)
  obtain ⟨p, removed, deleted⟩ := h.btreeDelete_found hkey home has distinct
  obtain ⟨fuel, hdescend, hchase⟩ := (h.descends hkey home).both (steady_descend _ _ _ _)
    (steady_chase _ _ _) ⟨1, h.isRow.chase_found home has distinct⟩
  refine ⟨p, removed, (steady_btreeDelete key t).unique returns deleted, fuel + 1, ?_⟩
  dsimp only at hdescend hchase ⊢
  rw [BTree.deleteStores, hdescend]
  simp only [Option.bind_eq_bind, Option.bind_some, hchase,
    if_neg (Allocator.ne_null_of alloc), removed]
  rfl

theorem steady_stores (op : TreeOp) (t : BTree) : Steady fun fuel => op.stores fuel t := by
  cases op with
  | insert key => exact steady_insertStores key key t
  | delete key => exact steady_deleteStores key t

end Traces

end BTree

end F3Tree
