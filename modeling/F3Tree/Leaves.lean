import F3Tree.Guarded
import F3Tree.Linked

/-!
# The leaves in the middle of insertions

A leaf is split in the step that puts the record into one of its halves, and a key goes to
the leaf of its place as long as no key is inserted twice.  So at any time the leaves form
one row in the order of their keys (`Leaves`), however far the levels above are behind.

A walk along the siblings of the leaves, from anywhere on the left, comes to the leaf of a
key (`Leaves.chase`).
-/

namespace F3Tree

open Keyed Fuel

namespace BTree

/-! ## The chain of the leaves -/

/-- The walk of `printAll` down to the leftmost leaf. -/
def leftmostLeaf (t : BTree) : Nat → Int → Option Int
  | 0, _ => none
  | fuel + 1, p =>
      if (t.page p).hdr.leftmostPtr = 0 then some p
      else leftmostLeaf t fuel (t.page p).hdr.leftmostPtr

/-- The keys of the pages from `p` on, sibling after sibling. -/
def chainKeys (t : BTree) : Nat → Int → Option (List Int)
  | 0, _ => none
  | fuel + 1, p =>
      if p = 0 then some []
      else (chainKeys t fuel (t.page p).hdr.siblingPtr).map
        fun keys => (t.page p).live.map Entry.key ++ keys

/-- The keys that the leaf chain lists. -/
def leafChain (t : BTree) (fuel : Nat) : Option (List Int) := do
  let leaf ← t.leftmostLeaf fuel t.root
  t.chainKeys fuel leaf

theorem steady_leftmostLeaf (t : BTree) (p : Int) : Steady fun fuel => t.leftmostLeaf fuel p := by
  intro fuel
  induction fuel generalizing p with
  | zero => exact Extends.of_none _
  | succ fuel ih =>
      simp only [leftmostLeaf]
      exact Extends.ite _ (.refl _) (ih _)

theorem steady_chainKeys (t : BTree) (p : Int) : Steady fun fuel => t.chainKeys fuel p := by
  intro fuel
  induction fuel generalizing p with
  | zero => exact Extends.of_none _
  | succ fuel ih =>
      simp only [chainKeys]
      exact Extends.ite _ (.refl _) (.map (ih _) _)

theorem Row.chainKeys {t : BTree} {row before after : List Entry} {s : Entry}
    (h : t.Row 0 row none) (hrow : row = before ++ s :: after) :
    Returns (fun fuel => t.chainKeys fuel s.ptr) ((t.contents (s :: after)).map Entry.key) := by
  induction after generalizing before s with
  | nil =>
      obtain ⟨-, ⟨ok, alloc⟩, -⟩ := row_split.mp (hrow ▸ h)
      have sibling : (t.page s.ptr).hdr.siblingPtr = 0 := ok.sibling
      refine ⟨2, ?_⟩
      dsimp only
      rw [BTree.chainKeys, if_neg (Allocator.ne_null_of alloc), sibling, BTree.chainKeys, if_pos rfl,
        contents, List.flatMap_singleton, ok.entries_leaf]
      simp
  | cons x after ih =>
      obtain ⟨-, ⟨ok, alloc⟩, -⟩ := row_split.mp (hrow ▸ h)
      have sibling : (t.page s.ptr).hdr.siblingPtr = x.ptr := ok.sibling
      have split : row = (before ++ [s]) ++ x :: after := by simp [hrow]
      obtain ⟨fuel, hrest⟩ := ih split
      have hcons : t.contents (s :: x :: after) =
          (t.page s.ptr).live ++ t.contents (x :: after) := by
        rw [contents_cons, ok.entries_leaf]
      refine ⟨fuel + 1, ?_⟩
      dsimp only at hrest ⊢
      rw [BTree.chainKeys, if_neg (Allocator.ne_null_of alloc), sibling, hrest, hcons,
        List.map_append]
      rfl

/-! ## The row of the leaves -/

structure Leaves (t : BTree) (least : Int → Int) (row : List Entry) : Prop where
  isRow : t.Row 0 row none
  nodup : (row.map Entry.ptr).Nodup
  single : t.Single row
  head : ∃ p, row.head? = some ⟨longMin, p⟩
  strict : row.Pairwise fun x y => x.key < y.key
  /-- A leaf but the first has the key that it was split off with. -/
  own : ∀ x ∈ row, longMin < x.key → t.Held x.key row
  slot : ∀ x ∈ row, least x.ptr = x.key
  all : ∀ p, t.Allocated p → (t.page p).hdr.level = 0 → ∃ x ∈ row, x.ptr = p

section Leaves

variable {t t' : BTree} {least least' : Int → Int} {row row' before after : List Entry}
  {s : Entry} {key p : Int}

theorem Leaves.bound (h : t.Leaves least row) (mem : s ∈ row) : longMin ≤ s.key := by
  obtain ⟨p, hhead⟩ := h.head
  have strict := h.strict
  cases row with
  | nil => cases hhead
  | cons x rest =>
      obtain rfl := Option.some.inj hhead
      rcases List.mem_cons.mp mem with rfl | mem
      · exact le_rfl
      · exact ((List.pairwise_cons.mp strict).1 s mem).le

/-- Slots lie in the order of their keys, so the leaf of a slot is the home of its key. -/
theorem Leaves.cut (h : t.Leaves least row) (hrow : row = before ++ s :: after) :
    Cut Entry.key s.key row (before ++ [s]) after := by
  have strict := h.strict
  rw [hrow] at strict
  obtain ⟨-, behind, across⟩ := List.pairwise_append.mp strict
  refine ⟨by simp [hrow], fun x mem => ?_, (List.pairwise_cons.mp behind).1⟩
  rcases List.mem_append.mp mem with mem | mem
  · exact (across x mem s List.mem_cons_self).le
  · exact List.mem_singleton.mp mem ▸ le_rfl

theorem Leaves.exists_home (h : t.Leaves least row) (hkey : longMin ≤ key) :
    ∃ before s after, Cut Entry.key key row (before ++ [s]) after := by
  obtain ⟨below, above, cut⟩ := h.isRow.ordered.cut key
  obtain ⟨p, hhead⟩ := h.head
  obtain ⟨rest, rfl⟩ := List.head?_eq_some_iff.mp hhead
  obtain ⟨before, s, rfl⟩ := cut.exists_last hkey
  exact ⟨before, s, above, cut⟩

theorem Leaves.firstKey_eq (h : t.Leaves least row) (mem : s ∈ row) (hlt : longMin < s.key) :
    (t.page s.ptr).firstKey = s.key := by
  obtain ⟨before, after, hrow⟩ := List.append_of_mem mem
  obtain ⟨_, ok, -⟩ := h.isRow.pageOk mem
  exact ok.firstKey_eq ((held_iff (h.cut hrow)).mp (h.own s mem hlt))

/-- The leaf that keeps a key that is not held, instead of passing it to its sibling, is the
home leaf of the key. -/
theorem Leaves.home (h : t.Leaves least row) (hp : t.Allocated p)
    (hlevel : (t.page p).hdr.level = 0) (hkey : least p ≤ key) (new : ¬ t.Held key row)
    (stays : ¬ ((t.page p).hdr.siblingPtr ≠ 0 ∧
      key > (t.page (t.page p).hdr.siblingPtr).firstKey)) :
    ∃ before s after, Cut Entry.key key row (before ++ [s]) after ∧ s.ptr = p := by
  obtain ⟨s, mem, rfl⟩ := h.all p hp hlevel
  rw [h.slot s mem] at hkey
  obtain ⟨before, after, hrow⟩ := List.append_of_mem mem
  obtain ⟨-, ⟨ok, -⟩, hafter⟩ := row_split.mp (hrow ▸ h.isRow)
  have cut := h.cut hrow
  refine ⟨before, s, after, ⟨cut.eq, fun x hx => (cut.le x hx).trans hkey, fun x hx => ?_⟩, rfl⟩
  cases after with
  | nil => exact absurd hx List.not_mem_nil
  | cons y after =>
      have hy : y ∈ row := hrow ▸ by simp
      have hlt : longMin < y.key := (h.bound mem).trans_lt (cut.lt y List.mem_cons_self)
      have sibling : (t.page s.ptr).hdr.siblingPtr = y.ptr := ok.sibling
      rw [sibling, h.firstKey_eq hy hlt] at stays
      have hle : key ≤ y.key := not_lt.mp fun hlt =>
        stays ⟨Allocator.ne_null_of hafter.2.1, hlt⟩
      have ne : key ≠ y.key := by
        rintro rfl
        exact new (h.own y hy hlt)
      refine lt_of_lt_of_le (lt_of_le_of_ne hle ne) ?_
      rcases List.mem_cons.mp hx with rfl | hx
      · exact le_rfl
      · exact (List.pairwise_cons.mp hafter.ordered).1 x hx

/-- The leaves stay when only other pages change. -/
theorem Leaves.congr (h : t.Leaves least row) (ext : Extends t t' least least')
    (same : ∀ p, t.Allocated p → (t.page p).hdr.level = 0 → t'.page p = t.page p)
    (all : ∀ p, t'.Allocated p → (t'.page p).hdr.level = 0 → t.Allocated p) :
    t'.Leaves least' row ∧ ∀ k, t'.Held k row ↔ t.Held k row := by
  have pages : ∀ x ∈ row, t'.page x.ptr = t.page x.ptr := fun x mem => by
    obtain ⟨_, ok, alloc⟩ := h.isRow.pageOk mem
    exact same _ alloc ok.level
  have live : ∀ x ∈ row, (t'.page x.ptr).live = (t.page x.ptr).live := fun x mem =>
    congrArg Page.live (pages x mem)
  have held := held_same live
  refine ⟨⟨h.isRow.congr pages ext.allocated, h.nodup, h.single.same (contents_congr pages) held,
    h.head, h.strict, fun x mem hlt => ?_, fun x mem => ?_, fun p hp hlevel => ?_⟩, held⟩
  · exact (held _).mpr (h.own x mem hlt)
  · obtain ⟨_, -, alloc⟩ := h.isRow.pageOk mem
    exact (ext.least _ alloc).trans (h.slot x mem)
  · have hp' := all p hp hlevel
    exact h.all p hp' ((ext.level p hp').symm.trans hlevel)

/-- The leaf of a key that is not held takes it, and is split if it is full. -/
theorem Leaves.put (h : t.Leaves least row)
    (home : Cut Entry.key key row (before ++ [s]) after) (hkey : TreeKey key)
    (new : ¬ t.Held key row) (put : Put t t' key key before s after row')
    (allocated : ∀ p, t.Allocated p → t'.Allocated p)
    (slot : ∀ x ∈ row', least' x.ptr = x.key)
    (all : ∀ p, t'.Allocated p → (t'.page p).hdr.level = 0 → ∃ x ∈ row', x.ptr = p) :
    t'.Leaves least' row' ∧ ∀ k, t'.Held k row' ↔ k = key ∨ t.Held k row := by
  obtain ⟨-, most, ne⟩ := hkey
  obtain ⟨isRow, ins⟩ := put.isRow h.isRow home most ne (fun _ => rfl) allocated
  have held := put.held h.isRow home most ne rfl
  have old : ∀ x ∈ row, longMin < x.key → t'.Held x.key row' := fun x mem hlt =>
    (held x.key).mpr (Or.inr (h.own x mem hlt))
  have strict := put.strict h.isRow home h.single h.strict
  have own : ∀ x ∈ row', longMin < x.key → t'.Held x.key row' := by
    cases put with
    | room => exact home.split ▸ old
    | full halves full split =>
        obtain ⟨sp, -⟩ := h.isRow.split home full
        have mem : s ∈ row := home.split ▸ by simp
        obtain ⟨-, ⟨ok, -⟩, -⟩ := row_split.mp (home.split ▸ h.isRow)
        rw [← split] at sp
        obtain ⟨e, he, hsplit⟩ := sp.leaf rfl
        have has : t.Has s halves.splitKey :=
          ⟨e, sp.live_eq ok rfl ▸ List.mem_append_right _ he, hsplit⟩
        have hsplit : t.Held halves.splitKey row :=
          (h.single.held_iff h.isRow).mpr (h.isRow.exists_iff.mpr ⟨s, mem, has⟩)
        intro x hx
        rcases home.mem_behind.mp hx with hx | rfl
        · exact old x hx
        · exact fun _ => (held _).mpr (Or.inr hsplit)
  refine ⟨⟨isRow, put.nodup h.isRow home h.nodup, h.single.insert new ins held, ?_, strict, own,
    slot, all⟩, held⟩
  rw [put.head home]
  exact h.head

/-- A leaf that is not to the right of a key is its home, or sends a search on to the next. -/
theorem Leaves.home_or_next (h : t.Leaves least row) {left right : List Entry} {x : Entry}
    (hrow : row = left ++ x :: right) (hle : x.key ≤ key) :
    Cut Entry.key key row (left ++ [x]) right ∨ ∃ y right', right = y :: right' ∧ y.key ≤ key ∧
      (t.page x.ptr).hdr.siblingPtr = y.ptr ∧ y.ptr ≠ 0 ∧
      t.linearSearch (t.page x.ptr) key = some y.ptr := by
  have cut := h.cut hrow
  cases right with
  | nil => exact Or.inl ⟨cut.eq, fun y mem => (cut.le y mem).trans hle, by simp⟩
  | cons y right =>
      have hx : x ∈ row := hrow ▸ by simp
      have hy : y ∈ row := hrow ▸ by simp
      have split : row = (left ++ [x]) ++ y :: right := by simp [hrow]
      obtain ⟨-, ⟨ok, -⟩, hbehind⟩ := row_split.mp (hrow ▸ h.isRow)
      have hxy : x.key < y.key := cut.lt y List.mem_cons_self
      rcases lt_or_ge key y.key with hlt | hge
      · refine Or.inl ⟨cut.eq, fun z mem => (cut.le z mem).trans hle, fun z mem => ?_⟩
        rcases List.mem_cons.mp mem with rfl | mem
        · exact hlt
        · exact hlt.trans ((h.cut split).lt z mem)
      · -- The key lies behind, so the leaf does not have it.
        have hfirst := (h.bound hx).trans_lt hxy
        have sibling : (t.page x.ptr).hdr.siblingPtr = y.ptr := ok.sibling
        have ne : y.ptr ≠ 0 := Allocator.ne_null_of hbehind.2.1
        have absent : ¬ t.Has x key := by
          intro has
          have hkey : key = y.key := by
            obtain ⟨e, mem, rfl⟩ := has
            exact le_antisymm ((ok.below y rfl).2.1 e mem) hge
          have hasY : t.Has y y.key := (held_iff (h.cut split)).mp (h.own y hy hfirst)
          have same := h.single.leaf_unique h.isRow hx hy has (hkey ▸ hasY)
          exact absurd (congrArg Entry.key same) hxy.ne'
        refine Or.inr ⟨y, right, rfl, hge, sibling, ne, ?_⟩
        rw [linearSearch_leaf ok, if_neg absent, sibling, h.firstKey_eq hy hfirst,
          if_pos ⟨ne, hge⟩]

/-- The walk from any leaf on the left comes to the home leaf of the key. -/
theorem Leaves.chase (h : t.Leaves least row)
    (home : Cut Entry.key key row (before ++ [s]) after) {left right : List Entry} {x : Entry}
    (hrow : row = left ++ x :: right) (hle : x.key ≤ key) :
    ∃ q, Returns (fun fuel => t.chase key fuel x.ptr)
      (q, if t.Has s key ∧ key ≠ (t.page s.ptr).hdr.siblingPtr then key else 0) := by
  induction right generalizing left x with
  | nil =>
      rcases h.home_or_next hrow hle with here | ⟨y, right, heq, -⟩
      · obtain ⟨-, heq⟩ := List.append_inj' (here.unique home).1 rfl
        obtain rfl := List.singleton_inj.mp heq
        exact h.isRow.chase_home home
      · exact nomatch heq
  | cons y right ih =>
      rcases h.home_or_next hrow hle with here | ⟨y, right, heq, hge, sibling, ne, search⟩
      · obtain ⟨-, heq⟩ := List.append_inj' (here.unique home).1 rfl
        obtain rfl := List.singleton_inj.mp heq
        exact h.isRow.chase_home home
      · obtain ⟨rfl, rfl⟩ := List.cons.inj heq
        have split : row = (left ++ [x]) ++ y :: right := by simp [hrow]
        obtain ⟨q, fuel, hq⟩ := ih split hge
        refine ⟨q, fuel + 1, ?_⟩
        dsimp only at hq ⊢
        rw [BTree.chase, search, ← hq]
        simp only [Option.bind_eq_bind, Option.bind_some]
        rw [if_pos sibling.symm, if_neg ne]

end Leaves

end BTree

end F3Tree
