import Mathlib.Data.List.Pairwise
import F3Tree.Rebalanced

/-!
# A leaf that falls short

`rebalance` looks up the parent of the short leaf.  If the leaf is the leftmost child there,
the sibling to its right loses a key of its own (`Tidy.rebalance_leftmost`); otherwise the
leaf shares with its left sibling, and nothing is lost (`Tidy.rebalance_left`).
-/

namespace F3Tree

open Keyed Fuel

namespace BTree

/-- The page is the leftmost child of its parent. -/
def LeftmostChild (t : BTree) (p : Int) : Prop :=
  ∃ u ∈ t.level (t.depth - 1), (t.page u).hdr.leftmostPtr = p

instance (t : BTree) (p : Int) : Decidable (t.LeftmostChild p) :=
  inferInstanceAs (Decidable (∃ u ∈ t.level (t.depth - 1), (t.page u).hdr.leftmostPtr = p))

section ShortLeaf

variable {t : BTree} {n : Nat} {row before after : List Entry} {s : Entry} {key : Int}

/-- The parent of a leaf. -/
structure Parent (t : BTree) (n : Nat) (key : Int) (before : List Entry) (s : Entry)
    (after upper before' : List Entry) (u : Entry) (after' init above : List Entry) : Prop where
  rows : t.ThinRows n 1 upper
  contents : t.contents upper = before ++ s :: after
  home : Cut Entry.key key upper (before' ++ [u]) after'
  entries : (t.page u.ptr).entries u.key = init ++ s :: above
  before_eq : before = t.contents before' ++ init
  after_eq : after = above ++ t.contents after'

theorem Tidy.parent (h : t.Tidy (n + 1) row) (hkey : longMin ≤ key)
    (home : Cut Entry.key key row (before ++ [s]) after) :
    ∃ upper before' u after' init above,
      t.Parent n key before s after upper before' u after' init above := by
  obtain ⟨-, upper, isRow, upward, rfl⟩ := h.rows.upward
  obtain ⟨before', u, after', home'⟩ := upward.home hkey
  obtain ⟨init, above, cut, hbefore, hafter⟩ := isRow.home_child home' home
  exact ⟨upper, before', u, after', init, above, ⟨isRow, upward⟩, home.split, home', cut.split,
    hbefore, hafter⟩

variable {upper before' after' init above : List Entry} {u w : Entry} {p : Int}

/-- A page is the child of one page only. -/
theorem slot_once (nodup : ((t.contents upper).map Entry.ptr).Nodup) (hu : u ∈ upper)
    (hw : w ∈ upper) (memU : p ∈ ((t.page u.ptr).entries u.key).map Entry.ptr)
    (memW : p ∈ ((t.page w.ptr).entries w.key).map Entry.ptr) : w = u := by
  rw [BTree.contents, List.map_flatMap, List.nodup_flatMap] at nodup
  by_contra ne
  have symm : Std.Symm (Function.onFun List.Disjoint fun w : Entry =>
      ((t.page w.ptr).entries w.key).map Entry.ptr) := ⟨fun _ _ disj => disj.symm⟩
  exact nodup.2.forall hw hu ne memW memU

theorem Parent.mem (h : t.Parent n key before s after upper before' u after' init above) :
    u ∈ upper := by
  rw [h.home.split]
  exact List.mem_append_right _ List.mem_cons_self

theorem Parent.slots (h : t.Parent n key before s after upper before' u after' init above) :
    ⟨u.key, (t.page u.ptr).hdr.leftmostPtr⟩ :: (t.page u.ptr).live = init ++ s :: above := by
  obtain ⟨_, thin, -⟩ := h.rows.isRow.pageThin h.mem
  rw [← h.entries, Page.entries, if_neg (thin.internal Nat.one_pos)]

/-- The leaf comes first in its parent if and only if it is a leftmost child. -/
theorem Parent.leftmostChild_iff (tidy : t.Tidy (n + 1) (before ++ s :: after))
    (h : t.Parent n key before s after upper before' u after' init above) :
    t.LeftmostChild s.ptr ↔ init = [] := by
  have level : t.level (t.depth - 1) = upper.map Entry.ptr := by
    rw [tidy.rows.depth_eq]
    exact h.rows.upward.level_eq
  have slots := h.slots
  constructor
  · rintro ⟨q, hq, leftmost⟩
    rw [level, List.mem_map] at hq
    obtain ⟨w, hw, rfl⟩ := hq
    cases init with
    | nil => rfl
    | cons e init =>
        -- The slot of the leaf stands in one page only, and there once.
        exfalso
        obtain ⟨-, hlive⟩ := List.cons.inj slots
        have nodup := tidy.rows.upward.nodup
        rw [← h.contents] at nodup
        have once := h.rows.isRow.nodup_children nodup h.mem
        obtain ⟨_, thinW, -⟩ := h.rows.isRow.pageThin hw
        have mem : s.ptr ∈ ((t.page u.ptr).entries u.key).map Entry.ptr :=
          List.mem_map_of_mem (h.entries ▸ by simp)
        have memW : s.ptr ∈ ((t.page w.ptr).entries w.key).map Entry.ptr := by
          rw [Page.entries, if_neg (thinW.internal Nat.one_pos), List.map_cons, leftmost]
          exact List.mem_cons_self
        obtain rfl := slot_once nodup h.mem hw mem memW
        rw [leftmost, hlive] at once
        simp at once
  · rintro rfl
    obtain ⟨hs, -⟩ := List.cons.inj slots
    exact ⟨u.ptr, level ▸ List.mem_map_of_mem h.mem, congrArg Entry.ptr hs⟩

/-- The separator in front of a leaf that is no leftmost child is taken away. -/
theorem Parent.prune (tidy : t.Tidy (n + 1) (before ++ s :: after)) (hkey : longMin ≤ key)
    (h : t.Parent n key before s after upper before' u after' init above) (notFirst : init ≠ []) :
    ∃ before₀ x t₂, before = before₀ ++ [x] ∧
      Returns (t.btreeDeleteInternal key s.ptr 1)
        (t₂, { deletedKey := s.key, leftSibling := x.ptr }) ∧
      Pruned t t₂ n before₀ x s after := by
  obtain ⟨init₀, x, rfl⟩ := (List.eq_nil_or_concat init).resolve_left notFirst
  rw [List.concat_eq_append] at h
  obtain ⟨front, hfront, hlive⟩ : ∃ front,
      ⟨u.key, (t.page u.ptr).hdr.leftmostPtr⟩ :: front = init₀ ++ [x] ∧
        (t.page u.ptr).live = front ++ s :: above := by
    have slots := h.slots
    cases hinit : init₀ ++ [x] with
    | nil => simp at hinit
    | cons e front =>
        rw [hinit, List.cons_append] at slots
        obtain ⟨rfl, hlive⟩ := List.cons.inj slots
        exact ⟨front, rfl, hlive⟩
  have left : Page.childOf (t.page u.ptr).hdr.leftmostPtr front = x.ptr :=
    Page.childOf_slots hfront
  have nodup := tidy.rows.upward.nodup
  rw [← h.contents] at nodup
  have first : ∀ e ∈ front, e.key ≠ s.key := fun e mem => by
    have hbefore : e ∈ before := by
      rw [h.before_eq, ← hfront]
      simp [mem]
    exact ((List.pairwise_append.mp tidy.parted).2.2 e hbefore s List.mem_cons_self).1.ne
  obtain ⟨p, returns, thin, remains, entries⟩ :=
    h.rows.deletes_separator nodup hkey h.home hlive first
  obtain ⟨isRow, keeps, others, contents⟩ :=
    h.rows.isRow.write h.rows.upward.nodup h.home.split thin
  rw [left] at returns
  refine ⟨t.contents before' ++ init₀, x, _, by rw [h.before_eq, List.append_assoc], returns,
    ?_, keeps, rfl, ?_⟩
  · rwa [h.before_eq, ← List.append_assoc, List.append_assoc _ [x]] at tidy
  obtain ⟨-, behind⟩ := List.forall_mem_append.mp others
  have here : (t.write u.ptr p).page u.ptr = p := Function.update_self ..
  have slots : p.entries u.key = init₀ ++ x :: above := by
    rw [entries, ← List.cons_append, hfront, List.append_assoc, List.singleton_append]
  obtain ⟨_, full, -⟩ := h.rows.isRow.pageThin h.mem
  have size := full.length_live
  rw [hlive, List.length_append, List.length_cons] at size
  refine ⟨upper, before', u, after', isRow, keeps.thinOver rfl h.rows.upward fun p hp => by omega,
    h.home.split, ?_, ?_, fun y mem => ?_, ?_⟩
  · rw [contents, slots, h.after_eq]
    simp only [List.append_assoc, List.cons_append]
  · rw [here, slots]
    exact List.mem_append_right _ List.mem_cons_self
  · rw [contents_congr behind] at mem
    exact h.after_eq ▸ List.mem_append_right _ mem
  · rw [here, remains, List.length_append]
    omega

/-! ## What is left to do -/

/-- A leaf other than the root has pages over it. -/
theorem Tidy.exists_succ (tidy : t.Tidy n (before ++ s :: after)) (notRoot : s.ptr ≠ t.root) :
    ∃ m, n = m + 1 := by
  refine Nat.exists_eq_succ_of_ne_zero fun hn => notRoot ?_
  subst hn
  have alone : before ++ s :: after = [⟨longMin, t.root⟩] := tidy.rows.upward
  have mem : s ∈ [(⟨longMin, t.root⟩ : Entry)] := alone ▸ by simp
  rw [List.mem_singleton.mp mem]

theorem LeftmostChild.ne_root (h : t.LeftmostChild s.ptr)
    (tidy : t.Tidy n (before ++ s :: after)) : s.ptr ≠ t.root := by
  intro root
  obtain ⟨_, ok, alloc⟩ := tidy.leaf (s := s) (by simp)
  have leaf : t.depth = 0 := (congrArg (fun p => (t.page p).hdr.level) root.symm).trans ok.level
  obtain ⟨u, mem, leftmost⟩ := h
  rw [leaf] at mem
  rw [List.mem_singleton.mp mem, ← root, (ok.leaf rfl).1] at leftmost
  exact Allocator.ne_null_of alloc leftmost.symm

/-- A leaf that is no leftmost child shares with its left sibling. -/
theorem Tidy.rebalance_left (tidy : t.Tidy n (before ++ s :: after)) (hkey : longMin ≤ key)
    (home : Cut Entry.key key (before ++ s :: after) (before ++ [s]) after)
    (notRoot : s.ptr ≠ t.root) (notLeftmost : ¬ t.LeftmostChild s.ptr)
    (short : (t.page s.ptr).live.length < (cardinality - 1) / 2) :
    ∃ before₀ x t' row', before = before₀ ++ [x] ∧ Returns (t.rebalance s.ptr key) (t', true) ∧
      Shared t t' before₀ x s after row' ∧ t'.Tidy n row' ∧
      (t'.contents row').Perm (t.contents (before ++ s :: after)) := by
  obtain ⟨m, rfl⟩ := tidy.exists_succ notRoot
  obtain ⟨upper, before', u, after', init, above, parent⟩ := tidy.parent hkey home
  have notFirst : init ≠ [] := fun hinit =>
    notLeftmost ((parent.leftmostChild_iff tidy).mpr hinit)
  obtain ⟨before₀, x, t₂, rfl, deleted, pruned⟩ := parent.prune tidy hkey notFirst
  rw [List.append_assoc, List.singleton_append] at tidy ⊢
  obtain ⟨okLeft, ok, allocX, -⟩ := tidy.pair
  have found : t₂.leftOf s.ptr 1 x.ptr = some x.ptr := by
    unfold leftOf
    rw [if_neg (Allocator.ne_null_of allocX), pruned.page (by simp), okLeft.sibling]
    exact if_pos rfl
  obtain ⟨t', row', balanced, shared, tidy', same⟩ : ∃ t' row',
      Returns (t₂.balance s.ptr x.ptr s.key) t' ∧ Shared t t' before₀ x s after row' ∧
        t'.Tidy (m + 1) row' ∧
        (t'.contents row').Perm (t.contents (before₀ ++ x :: s :: after)) := by
    by_cases room :
        (t.page s.ptr).live.length + (t.page x.ptr).live.length ≤ cardinality - 1
    · exact pruned.merge room s.key
    · exact pruned.redistribute (not_le.mp room) short s.key
  have shares : Returns (fun fuel => (t₂.leftOf s.ptr fuel x.ptr).bind fun left =>
      t₂.balance s.ptr left s.key fuel) t' :=
    .bind (steady_leftOf t₂ s.ptr x.ptr) (steady_balance t₂ s.ptr x.ptr s.key) ⟨1, found⟩ balanced
  obtain ⟨fuel, hdeleted, hshares⟩ := deleted.both (steady_btreeDeleteInternal t key s.ptr 1)
    ((steady_leftOf t₂ s.ptr x.ptr).bind fun _ => steady_balance t₂ s.ptr _ s.key) shares
  obtain ⟨left, hleft, hbalance⟩ := Option.bind_eq_some_iff.mp hshares
  refine ⟨before₀, x, t', row', rfl, ⟨fuel, ?_⟩, shared, tidy', same⟩
  rw [rebalance, ok.level, hdeleted]
  simp only [Option.bind_eq_bind, Option.bind_some, Bool.false_eq_true, if_false, hleft, hbalance]
  rfl

/-- A leaf that is a leftmost child is found to be one. -/
theorem Tidy.finds_leftmost (tidy : t.Tidy n (before ++ s :: after)) (hkey : longMin ≤ key)
    (home : Cut Entry.key key (before ++ s :: after) (before ++ [s]) after)
    (leftmost : t.LeftmostChild s.ptr) :
    Returns (t.btreeDeleteInternal key s.ptr 1) (t, { isLeftmostNode := true }) := by
  obtain ⟨m, rfl⟩ := tidy.exists_succ (leftmost.ne_root tidy)
  obtain ⟨upper, before', u, after', init, above, parent⟩ := tidy.parent hkey home
  obtain rfl := (parent.leftmostChild_iff tidy).mp leftmost
  obtain ⟨first, -⟩ := List.cons.inj parent.slots
  have returns := parent.rows.finds_leftmost hkey parent.home
  rwa [show (t.page u.ptr).hdr.leftmostPtr = s.ptr from congrArg Entry.ptr first] at returns

/-- A leftmost child without a leaf to the right stops the program. -/
theorem Tidy.rebalance_last (tidy : t.Tidy n (before ++ s :: after)) (hkey : longMin ≤ key)
    (home : Cut Entry.key key (before ++ s :: after) (before ++ [s]) after)
    (leftmost : t.LeftmostChild s.ptr) (last : (t.page s.ptr).hdr.siblingPtr = 0) (fuel : Nat) :
    t.rebalance s.ptr key fuel = none := by
  obtain ⟨_, ok, -⟩ := tidy.leaf (s := s) (by simp)
  rw [rebalance, ok.level]
  cases hdeleted : t.btreeDeleteInternal key s.ptr (0 + 1) fuel with
  | none => rfl
  | some r =>
      obtain rfl := (steady_btreeDeleteInternal t key s.ptr 1).unique ⟨fuel, hdeleted⟩
        (tidy.finds_leftmost hkey home leftmost)
      exact if_pos last

/-- The leaf to the right of a leftmost child loses its first key. -/
theorem Tidy.rebalance_leftmost (tidy : t.Tidy n (before ++ s :: after)) (hkey : longMin ≤ key)
    (home : Cut Entry.key key (before ++ s :: after) (before ++ [s]) after)
    (leftmost : t.LeftmostChild s.ptr) {sibling : Int} (right : sibling ≠ 0)
    (hsibling : (t.page s.ptr).hdr.siblingPtr = sibling) {t' : BTree} {found : Bool}
    (removed : t.remove sibling (t.page sibling).firstKey = some (t', found)) :
    Returns (t.rebalance s.ptr key) (t', true) := by
  obtain ⟨_, ok, -⟩ := tidy.leaf (s := s) (by simp)
  obtain ⟨fuel, hdeleted⟩ := tidy.finds_leftmost hkey home leftmost
  refine ⟨fuel, ?_⟩
  rw [rebalance, ok.level, hdeleted]
  simp only [Option.bind_eq_bind, Option.bind_some, if_true, hsibling, if_neg right, removed]
  rfl

end ShortLeaf

end BTree

end F3Tree
