import F3Tree.ShortLeaf

/-!
# The delete that rebalances, exactly

`remove_rebalancing` first takes the key out of the leaf (`Taken`).  A leaf that then falls
short of records is rebalanced, with its left sibling (`Taken.removesOnly_left`) or, as a
leftmost child, at the cost of its right one (`Taken.removesOnly_leftmost`).

`Tidy.removesOnly_iff` says for which trees and keys the call takes out its key and no
other, so that a search still finds every key that is left (`Rebalances`).
-/

namespace F3Tree

open Keyed Fuel

namespace BTree

section Taken

variable {t t₁ : BTree} {n : Nat} {row before after : List Entry} {s y : Entry} {key : Int}

/-! ## One leaf is written -/

/-- A leaf loses records. -/
theorem Tidy.writeLeaf (tidy : t.Tidy n (before ++ s :: after)) {p : Page}
    (ok : PageOk p 0 s after.head?) (sub : p.live.Sublist (t.page s.ptr).live) :
    (t.write s.ptr p).Tidy n (before ++ s :: after) ∧
      Keeps t (t.write s.ptr p) (fun p => p.hdr.level ≠ 0) ∧
      ∀ y ∈ before ++ after, (t.write s.ptr p).page y.ptr = t.page y.ptr := by
  obtain ⟨isRow, keeps, others, contents⟩ :=
    tidy.rows.isRow.write tidy.rows.upward.nodup rfl ok.thin
  have here : (t.write s.ptr p).page s.ptr = p := Function.update_self ..
  have leaf := (row_split.mp tidy.rows.isRow.leaves).2.1.1
  refine ⟨⟨⟨isRow, keeps.thinOver rfl tidy.rows.upward fun p hp => hp.ne'⟩, ?_, ?_⟩, keeps, others⟩
  · refine tidy.nodup.sublist (List.Sublist.map _ ?_)
    rw [contents, contents_append, contents_cons, ok.entries_leaf, leaf.entries_leaf]
    exact (sub.append_right _).append_left _
  · refine tidy.parted.congr fun y mem e he => ?_
    rcases List.mem_append.mp mem with hy | hy
    · exact others y (List.mem_append_left _ hy) ▸ he
    · rcases List.mem_cons.mp hy with rfl | hy
      · exact sub.mem (here ▸ he)
      · exact others y (List.mem_append_right _ hy) ▸ he

/-- `t₁` is `t` without the key, which the leaf `s` had. -/
structure Taken (t t₁ : BTree) (n : Nat) (row : List Entry) (s : Entry) (key : Int) : Prop where
  tidy : t₁.Tidy n row
  root : t₁.root = t.root
  keeps : Keeps t t₁ fun p => p.hdr.level ≠ 0
  others : ∀ y ∈ row, y.ptr ≠ s.ptr → t₁.page y.ptr = t.page y.ptr
  sibling : (t₁.page s.ptr).hdr.siblingPtr = (t.page s.ptr).hdr.siblingPtr
  perm : ∃ e, e.key = key ∧ (t.page s.ptr).live.Perm (e :: (t₁.page s.ptr).live) ∧
    (t.contents row).Perm (e :: t₁.contents row)

/-- A key that the leaf has is taken out. -/
theorem Tidy.taken (tidy : t.Tidy n (before ++ s :: after)) (has : t.Has s key) :
    ∃ t₁, t.remove s.ptr key = some (t₁, true) ∧ Taken t t₁ n (before ++ s :: after) s key := by
  obtain ⟨-, ⟨ok, alloc⟩, -⟩ := row_split.mp tidy.rows.isRow.leaves
  obtain ⟨p, front, e, back, removed, ok', hlive, -, hkey, remains⟩ := ok.removeKey_mem has
  have sub : p.live.Sublist (t.page s.ptr).live := by
    rw [remains, hlive]
    exact (List.sublist_cons_self e back).append_left front
  obtain ⟨tidy', keeps, others⟩ := tidy.writeLeaf ok' sub
  have here : (t.write s.ptr p).page s.ptr = p := Function.update_self ..
  have lost : (t.page s.ptr).live.Perm (e :: p.live) := by
    rw [remains, hlive]
    exact List.perm_middle
  refine ⟨_, by rw [remove, removed]; rfl, tidy', rfl, keeps, fun y _ ne =>
    Function.update_of_ne ne .., here.symm ▸ ok'.sibling.trans ok.sibling.symm, e, hkey,
    here.symm ▸ lost, ?_⟩
  obtain ⟨left, behind⟩ := List.forall_mem_append.mp others
  rw [contents_append, contents_append, contents_cons, contents_cons, contents_congr left,
    contents_congr behind, here, ok.entries_leaf, ok'.entries_leaf]
  exact ((lost.append_right _).append_left _).trans List.perm_middle

/-- Nothing is lost with a key that the leaf does not have. -/
theorem Tidy.remove_absent (tidy : t.Tidy n (before ++ s :: after)) (absent : ¬ t.Has s key) :
    ∃ t', t.remove s.ptr key = some (t', false) ∧ t'.Tidy n (before ++ s :: after) ∧
      t'.leafKeys = t.leafKeys ∧
      (t'.Findable (before ++ s :: after) ↔ t.Findable (before ++ s :: after)) := by
  obtain ⟨-, ⟨ok, -⟩, -⟩ := row_split.mp tidy.rows.isRow.leaves
  obtain ⟨p, removed, ok', remains, sibling⟩ := ok.removeKey_not_mem absent
  obtain ⟨tidy', keeps, others⟩ := tidy.writeLeaf ok' (remains ▸ List.Sublist.refl _)
  have here : (t.write s.ptr p).page s.ptr = p := Function.update_self ..
  have same := written_same others here remains sibling
  refine ⟨_, by rw [remove, removed]; rfl, tidy', ?_, forall₂_congr fun y hy => ?_⟩
  · rw [tidy'.rows.leafKeys_eq, tidy.rows.leafKeys_eq, tidy'.contents_eq, tidy.contents_eq]
    exact congrArg _ (List.flatMap_congr fun y hy => (same y hy).1)
  · rw [(same y hy).1, (same y hy).2]

theorem Taken.mem_live (h : Taken t t₁ n row s key) (tidy : t.Tidy n row) (mem : y ∈ row)
    {e : Entry} :
    e ∈ (t₁.page y.ptr).live ↔ e ∈ (t.page y.ptr).live ∧ e.key ≠ key := by
  obtain ⟨e₀, hkey, lost, contents⟩ := h.perm
  have nodup := (contents.map Entry.key).nodup_iff.mp tidy.nodup
  rw [List.map_cons, hkey] at nodup
  have ne : e ∈ (t₁.page y.ptr).live → e.key ≠ key := fun he same => by
    refine (List.nodup_cons.mp nodup).1 (same ▸ List.mem_map_of_mem ?_)
    exact h.tidy.contents_eq ▸ List.mem_flatMap.mpr ⟨y, mem, he⟩
  by_cases here : y.ptr = s.ptr
  · rw [here] at ne ⊢
    rw [lost.mem_iff, List.mem_cons]
    constructor
    · exact fun he => ⟨Or.inr he, ne he⟩
    · rintro ⟨rfl | he, other⟩
      · exact absurd hkey other
      · exact he
  · rw [h.others y mem here] at ne ⊢
    exact ⟨fun he => ⟨he, ne he⟩, And.left⟩

theorem Taken.sibling_eq (h : Taken t t₁ n row s key) (mem : y ∈ row) :
    (t₁.page y.ptr).hdr.siblingPtr = (t.page y.ptr).hdr.siblingPtr := by
  by_cases here : y.ptr = s.ptr
  · rw [here, h.sibling]
  · rw [h.others y mem here]

theorem Taken.leafKeys (h : Taken t t₁ n row s key) (tidy : t.Tidy n row) :
    t.leafKeys.Perm (key :: t₁.leafKeys) := by
  obtain ⟨e, rfl, -, contents⟩ := h.perm
  rw [tidy.rows.leafKeys_eq, h.tidy.rows.leafKeys_eq]
  exact contents.map Entry.key

theorem Taken.length_live (h : Taken t t₁ n row s key) :
    (t.page s.ptr).live.length = (t₁.page s.ptr).live.length + 1 := by
  obtain ⟨e, -, lost, -⟩ := h.perm
  exact lost.length_eq

/-- The pages over the leaves stay. -/
theorem Taken.leftmostChild_iff (h : Taken t t₁ (n + 1) row s key) (tidy : t.Tidy (n + 1) row)
    {p : Int} : t₁.LeftmostChild p ↔ t.LeftmostChild p := by
  obtain ⟨-, upper, isRow, upward, -⟩ := tidy.rows.upward
  have upward₁ := h.keeps.thinOver h.root upward fun p hp => by omega
  rw [LeftmostChild, LeftmostChild, tidy.rows.depth_eq, h.tidy.rows.depth_eq, Nat.add_sub_cancel,
    upward.level_eq, upward₁.level_eq]
  refine exists_congr fun u => and_congr_right fun hu => ?_
  obtain ⟨w, mem, rfl⟩ := List.mem_map.mp hu
  obtain ⟨_, thin, alloc⟩ := isRow.pageThin mem
  rw [h.keeps.pages _ alloc (by rw [thin.level]; exact Nat.one_ne_zero)]

end Taken

/-! ## What the call does -/

/-- The page is not the root, and with one record less it has too few. -/
def FallsShort (t : BTree) (p : Int) : Prop :=
  p ≠ t.root ∧ (t.page p).live.length ≤ (cardinality - 1) / 2

instance (t : BTree) (p : Int) : Decidable (t.FallsShort p) :=
  inferInstanceAs (Decidable (_ ∧ _))

/-- How many records the left sibling keeps when `p` has fallen short of records. -/
def kept (t : BTree) (p left : Int) : Nat :=
  let total := (t.page p).live.length - 1 + (t.page left).live.length
  if cardinality - 1 < total then total / 2 else 0

/-- The record of the left sibling `left` comes to lie in front of the leaf that is to the
right of `p`. -/
def Joins (t : BTree) (p left : Int) (e : Entry) : Prop :=
  t.FallsShort p ∧ ¬ t.LeftmostChild p ∧ (t.page left).hdr.siblingPtr = p ∧
    e ∈ (t.page left).live.drop (t.kept p left)

/-- The call for the key can do no harm. -/
structure Rebalances (t : BTree) (p key : Int) : Prop where
  /-- The leaf to the right of a leftmost child has nothing to lose. -/
  right : t.FallsShort p → t.LeftmostChild p →
    (t.page p).hdr.siblingPtr ≠ 0 ∧ (t.page (t.page p).hdr.siblingPtr).live = []
  /-- No other key is the address of the leaf that lies to the right of it afterwards. -/
  apart : ∀ y ∈ t.level t.depth, ∀ e ∈ (t.page y).live, e.key ≠ key →
    (t.Joins p y e → e.key ≠ (t.page p).hdr.siblingPtr) ∧
      (¬ t.Joins p y e → e.key ≠ (t.page y).hdr.siblingPtr)

/-- The call takes out its key and no other, and leaves a tidy tree in which a search finds
every key. -/
def RemovesOnly (t : BTree) (p key : Int) : Prop :=
  ∃ t' ret, Returns (t.removeRebalancing p key false) (t', ret) ∧
    t.leafKeys.Perm (key :: t'.leafKeys) ∧ (∀ k ∈ t'.leafKeys, Returns (t'.btreeSearch k) k) ∧
    ∃ n row, t'.Tidy n row

section Calls

variable {t t₁ t' : BTree} {n n' : Nat} {row row' before after : List Entry} {x s y : Entry}
  {key : Int} {ret : Bool}

theorem Tidy.removeRebalancing_eq (tidy : t.Tidy n row) (mem : s ∈ row)
    (removed : t.remove s.ptr key = some (t₁, true)) (fuel : Nat) :
    t.removeRebalancing s.ptr key false fuel =
      if t.FallsShort s.ptr then t₁.rebalance s.ptr key fuel else some (t₁, true) := by
  obtain ⟨_, ok, -⟩ := tidy.leaf mem
  have enough_iff : enough (t.page s.ptr).live.length = true ↔
      ¬ (t.page s.ptr).live.length ≤ (cardinality - 1) / 2 := by
    rw [enough, decide_eq_true_iff]
    have hcard := cardinality_eq
    omega
  rw [removeRebalancing, ok.alive, ok.count_eq]
  simp only [Bool.false_eq_true, if_false, Option.bind_eq_bind, Option.bind_some]
  by_cases root : s.ptr = t.root
  · rw [if_pos root, if_neg (by rw [ok.level]; exact fun h => absurd h.1 (lt_irrefl 0)), removed,
      if_neg fun short => short.1 root]
    rfl
  · rw [if_neg root, removed]
    simp only [Option.bind_some, (ok.leaf rfl).1, if_true]
    by_cases short : (t.page s.ptr).live.length ≤ (cardinality - 1) / 2
    · rw [if_neg fun h => enough_iff.mp h short, if_pos ⟨root, short⟩]
    · rw [if_pos (enough_iff.mpr short), if_neg fun h => short h.2]
      rfl

theorem removesOnly_iff_of_returns {p : Int}
    (returns : Returns (t.removeRebalancing p key false) (t', ret)) :
    t.RemovesOnly p key ↔ t.leafKeys.Perm (key :: t'.leafKeys) ∧
      (∀ k ∈ t'.leafKeys, Returns (t'.btreeSearch k) k) ∧ ∃ n row, t'.Tidy n row := by
  constructor
  · rintro ⟨t₂, ret₂, returns₂, done⟩
    obtain ⟨rfl, -⟩ := Prod.mk.inj
      ((steady_removeRebalancing t p key false).unique returns₂ returns)
    exact done
  · exact fun done => ⟨t', ret, returns, done⟩

/-- Where the other keys stay, the call depends on the searches. -/
theorem removesOnly_iff_findable {p : Int}
    (returns : Returns (t.removeRebalancing p key false) (t', ret))
    (perm : t.leafKeys.Perm (key :: t'.leafKeys)) (tidy' : t'.Tidy n' row') :
    t.RemovesOnly p key ↔ t'.Findable row' := by
  rw [removesOnly_iff_of_returns returns, ← tidy'.found_iff]
  exact ⟨fun done => done.2.1, fun found => ⟨perm, found, n', row', tidy'⟩⟩

/-- The condition, in the tree without the key. -/
theorem Taken.rebalances_iff (h : Taken t t₁ n row s key) (tidy : t.Tidy n row) (mem : s ∈ row)
    (right : t.FallsShort s.ptr → t.LeftmostChild s.ptr →
      (t.page s.ptr).hdr.siblingPtr ≠ 0 ∧ (t.page (t.page s.ptr).hdr.siblingPtr).live = []) :
    t.Rebalances s.ptr key ↔ ∀ y ∈ row, ∀ e ∈ (t₁.page y.ptr).live,
      (t.Joins s.ptr y.ptr e → e.key ≠ (t₁.page s.ptr).hdr.siblingPtr) ∧
        (¬ t.Joins s.ptr y.ptr e → e.key ≠ (t₁.page y.ptr).hdr.siblingPtr) := by
  have leaves : t.level t.depth = row.map Entry.ptr := by
    rw [tidy.rows.depth_eq, tidy.rows.upward.level_eq]
  constructor
  · rintro ⟨-, apart⟩ y hy e he
    rw [h.sibling_eq mem, h.sibling_eq hy]
    obtain ⟨he, ne⟩ := (h.mem_live tidy hy).mp he
    exact apart _ (leaves ▸ List.mem_map_of_mem hy) e he ne
  · intro apart
    refine ⟨right, fun p hp e he ne => ?_⟩
    rw [leaves] at hp
    obtain ⟨y, hy, rfl⟩ := List.mem_map.mp hp
    rw [← h.sibling_eq mem, ← h.sibling_eq hy]
    exact apart y hy e ((h.mem_live tidy hy).mpr ⟨he, ne⟩)

theorem Taken.rebalances_iff_findable (h : Taken t t₁ n row s key) (tidy : t.Tidy n row)
    (mem : s ∈ row) (right : t.FallsShort s.ptr → t.LeftmostChild s.ptr ∧
      (t.page s.ptr).hdr.siblingPtr ≠ 0 ∧ (t.page (t.page s.ptr).hdr.siblingPtr).live = []) :
    t.Rebalances s.ptr key ↔ t₁.Findable row := by
  have stays : ∀ y e, ¬ t.Joins s.ptr y e := fun y e joins => joins.2.1 (right joins.1).1
  rw [h.rebalances_iff tidy mem fun short _ => (right short).2]
  exact ⟨fun apart y hy e he => (apart y hy e he).2 (stays _ e),
    fun apart y hy e he => ⟨fun joins => absurd joins (stays _ e), fun _ => apart y hy e he⟩⟩

/-! ## Leaves that share -/

/-- Only the left sibling of a leaf points to it. -/
theorem Tidy.left_unique (tidy : t.Tidy n (before ++ x :: s :: after))
    (mem : y ∈ before ++ x :: s :: after) (h : (t.page y.ptr).hdr.siblingPtr = s.ptr) : y = x := by
  have nodup := tidy.rows.upward.nodup
  obtain ⟨-, -, -, allocS, -⟩ := tidy.pair
  obtain ⟨front, back, hrow⟩ := List.append_of_mem mem
  have ok := (row_split.mp (hrow ▸ tidy.rows.isRow.leaves)).2.1.1
  rw [ok.sibling] at h
  cases back with
  | nil => exact absurd h.symm (Allocator.ne_null_of allocS)
  | cons s' back =>
      have same : s'.ptr = s.ptr := h
      have hrow' : before ++ x :: s :: after = (before ++ [x]) ++ s :: after := by simp
      have hrow'' : before ++ x :: s :: after = (front ++ [y]) ++ s' :: back := by simp [hrow]
      obtain ⟨hfront, -⟩ := first_unique (hrow'.symm.trans hrow'')
        (fun z hz => same ▸ ne_of_nodup nodup hrow' z (List.mem_append_left _ hz))
        fun z hz => same ▸ ne_of_nodup nodup hrow'' z (List.mem_append_left _ hz)
      exact (List.singleton_inj.mp (List.append_inj' hfront rfl).2).symm

theorem findable_append {row row' : List Entry} :
    t.Findable (row ++ row') ↔ t.Findable row ∧ t.Findable row' :=
  List.forall_mem_append

theorem findable_cons :
    t.Findable (y :: row) ↔
      (∀ e ∈ (t.page y.ptr).live, e.key ≠ (t.page y.ptr).hdr.siblingPtr) ∧ t.Findable row :=
  List.forall_mem_cons

theorem findable_congr (pages : ∀ y ∈ row, t'.page y.ptr = t.page y.ptr) :
    t'.Findable row ↔ t.Findable row :=
  forall₂_congr fun y hy => by rw [pages y hy]

/-- Of the records of the left sibling those from `m` on come to lie next to the leaf that
was to the right of `s`. -/
theorem Shared.findable_iff (shared : Shared t t' before x s after row')
    (tidy : t.Tidy n (before ++ x :: s :: after)) (tidy' : t'.Tidy n' row') {m : Nat}
    (hm : m = if cardinality - 1 < (t.page s.ptr).live.length + (t.page x.ptr).live.length then
      ((t.page s.ptr).live.length + (t.page x.ptr).live.length) / 2 else 0) :
    t'.Findable row' ↔ t.Findable (before ++ s :: after) ∧ ∀ e ∈ (t.page x.ptr).live,
      (e ∈ (t.page x.ptr).live.drop m → e.key ≠ (t.page s.ptr).hdr.siblingPtr) ∧
        (e ∉ (t.page x.ptr).live.drop m → e.key ≠ s.ptr) := by
  obtain ⟨-, ok, -⟩ := tidy.pair
  cases shared with
  | merged few others perm =>
      rw [if_neg (not_lt.mpr few)] at hm
      subst hm
      obtain ⟨front, behind⟩ := List.forall_mem_append.mp others
      have sibling : (t'.page x.ptr).hdr.siblingPtr = (t.page s.ptr).hdr.siblingPtr :=
        (row_split.mp tidy'.rows.isRow.leaves).2.1.1.sibling.trans ok.sibling.symm
      have here : (∀ e ∈ (t'.page x.ptr).live, e.key ≠ (t'.page x.ptr).hdr.siblingPtr) ↔
          (∀ e ∈ (t.page s.ptr).live, e.key ≠ (t.page s.ptr).hdr.siblingPtr) ∧
            ∀ e ∈ (t.page x.ptr).live, e.key ≠ (t.page s.ptr).hdr.siblingPtr := by
        simp only [sibling, perm.mem_iff, List.forall_mem_append]
      rw [findable_append, findable_cons, findable_append, findable_cons, findable_congr front,
        findable_congr behind, here, List.drop_zero]
      constructor
      · rintro ⟨hfront, ⟨hs, hx⟩, hbehind⟩
        exact ⟨⟨hfront, hs, hbehind⟩, fun e he => ⟨fun _ => hx e he, fun no => absurd he no⟩⟩
      · rintro ⟨⟨hfront, hs, hbehind⟩, hx⟩
        exact ⟨hfront, ⟨hs, fun e he => (hx e he).1 he⟩, hbehind⟩
  | redistributed m' key many half others stay perm =>
      rw [if_pos many, ← half] at hm
      subst hm
      obtain ⟨front, behind⟩ := List.forall_mem_append.mp others
      obtain ⟨okX, okS, -⟩ := tidy'.pair
      have siblingX : (t'.page x.ptr).hdr.siblingPtr = s.ptr := okX.sibling
      have siblingS : (t'.page s.ptr).hdr.siblingPtr = (t.page s.ptr).hdr.siblingPtr :=
        okS.sibling.trans ok.sibling.symm
      -- The records that stay are none of those that move.
      have nodup : ((t.page x.ptr).live.take m ++ (t.page x.ptr).live.drop m).Nodup := by
        rw [List.take_append_drop]
        exact tidy.nodup_live.of_map
      have hx : (∀ e ∈ (t.page x.ptr).live.take m, e.key ≠ s.ptr) ∧
          (∀ e ∈ (t.page x.ptr).live.drop m, e.key ≠ (t.page s.ptr).hdr.siblingPtr) ↔
          ∀ e ∈ (t.page x.ptr).live,
            (e ∈ (t.page x.ptr).live.drop m → e.key ≠ (t.page s.ptr).hdr.siblingPtr) ∧
              (e ∉ (t.page x.ptr).live.drop m → e.key ≠ s.ptr) := by
        constructor
        · rintro ⟨low, high⟩ e he
          refine ⟨high e, fun no => low e ?_⟩
          rw [← List.take_append_drop m (t.page x.ptr).live] at he
          exact (List.mem_append.mp he).resolve_right no
        · refine fun both => ⟨fun e he => ?_, fun e he => ?_⟩
          · exact (both e (List.mem_of_mem_take he)).2 fun moved =>
              (List.nodup_append.mp nodup).2.2 e he e moved rfl
          · exact (both e (List.mem_of_mem_drop he)).1 he
      rw [findable_append, findable_cons, findable_cons, findable_append, findable_cons,
        findable_congr front, findable_congr behind, ← hx]
      simp only [siblingX, siblingS, stay, perm.mem_iff, List.forall_mem_append]
      tauto

theorem Taken.joins_iff (h : Taken t t₁ n (before ++ x :: s :: after) s key)
    (tidy : t.Tidy n (before ++ x :: s :: after)) (short : t.FallsShort s.ptr)
    (notLeftmost : ¬ t.LeftmostChild s.ptr) (mem : y ∈ before ++ x :: s :: after) {m : Nat}
    (hm : m = if cardinality - 1 < (t₁.page s.ptr).live.length + (t₁.page x.ptr).live.length then
      ((t₁.page s.ptr).live.length + (t₁.page x.ptr).live.length) / 2 else 0) {e : Entry} :
    t.Joins s.ptr y.ptr e ↔ y = x ∧ e ∈ (t₁.page x.ptr).live.drop m := by
  obtain ⟨okLeft, -, -, -, ne⟩ := tidy.pair
  have same : t₁.page x.ptr = t.page x.ptr := h.others x (by simp) ne
  have hkept : t.kept s.ptr x.ptr = m := by
    rw [kept, hm, h.length_live, Nat.add_sub_cancel, same]
  constructor
  · rintro ⟨-, -, left, moved⟩
    obtain rfl := tidy.left_unique mem left
    exact ⟨rfl, same.symm ▸ hkept ▸ moved⟩
  · rintro ⟨rfl, moved⟩
    exact ⟨short, notLeftmost, okLeft.sibling, hkept.symm ▸ same ▸ moved⟩

/-! ## The outcomes -/

/-- A leaf that is no leftmost child shares with its left sibling. -/
theorem Taken.removesOnly_left (h : Taken t t₁ n (before ++ s :: after) s key)
    (tidy : t.Tidy n (before ++ s :: after)) (has : t.Has s key) (short : t.FallsShort s.ptr)
    (notLeftmost : ¬ t.LeftmostChild s.ptr)
    (runs : ∀ fuel, t.removeRebalancing s.ptr key false fuel = t₁.rebalance s.ptr key fuel) :
    t.RemovesOnly s.ptr key ↔ t.Rebalances s.ptr key := by
  have mem : s ∈ before ++ s :: after := by simp
  have hcard := cardinality_eq
  have few := h.length_live
  obtain ⟨m, rfl⟩ := tidy.exists_succ short.1
  obtain ⟨before₀, x, t', row', rfl, ⟨fuel, returns⟩, shared, tidy', same⟩ :=
    h.tidy.rebalance_left (tidy.least_of_has mem has) (tidy.home rfl has)
      (fun root => short.1 (root.trans h.root))
      (fun leftmost => notLeftmost ((h.leftmostChild_iff tidy).mp leftmost))
      (by have := short.2; omega)
  have perm : t.leafKeys.Perm (key :: t'.leafKeys) := by
    refine (h.leafKeys tidy).trans (List.Perm.cons key ?_)
    rw [h.tidy.rows.leafKeys_eq, tidy'.rows.leafKeys_eq]
    exact (same.map Entry.key).symm
  rw [removesOnly_iff_findable ⟨fuel, (runs fuel).trans returns⟩ perm tidy',
    h.rebalances_iff tidy mem fun _ leftmost => absurd leftmost notLeftmost]
  rw [List.append_assoc, List.singleton_append] at h tidy ⊢
  rw [shared.findable_iff h.tidy tidy' rfl]
  obtain ⟨okLeft, -⟩ := h.tidy.pair
  have sibling : (t₁.page x.ptr).hdr.siblingPtr = s.ptr := okLeft.sibling
  have joins := fun y hy e => h.joins_iff (y := y) tidy short notLeftmost hy rfl (e := e)
  have ne : ∀ y ∈ before₀ ++ s :: after, y ≠ x := fun y hy heq =>
    ne_of_nodup h.tidy.rows.upward.nodup rfl y hy (congrArg Entry.ptr heq)
  have mem_iff : ∀ y, y ∈ before₀ ++ x :: s :: after ↔ y = x ∨ y ∈ before₀ ++ s :: after := by
    intro y
    simp only [List.mem_append, List.mem_cons]
    tauto
  constructor
  · rintro ⟨apart, left⟩ y hy e he
    rw [joins y hy]
    rcases (mem_iff y).mp hy with rfl | hy'
    · obtain ⟨moved, stays⟩ := left e he
      exact ⟨fun joined => moved joined.2, fun no => sibling ▸ stays fun there => no ⟨rfl, there⟩⟩
    · exact ⟨fun joined => absurd joined.1 (ne y hy'), fun _ => apart y hy' e he⟩
  · intro apart
    refine ⟨fun y hy e he => ?_, fun e he => ?_⟩
    · have hy' := (mem_iff y).mpr (Or.inr hy)
      exact (apart y hy' e he).2 fun joined => ne y hy ((joins y hy' e).mp joined).1
    · have hx := (mem_iff x).mpr (Or.inl rfl)
      obtain ⟨moved, stays⟩ := apart x hx e he
      rw [joins x hx, sibling] at stays
      rw [joins x hx] at moved
      exact ⟨fun there => moved ⟨rfl, there⟩, fun no => stays fun joined => no joined.2⟩

/-- Behind a leftmost child there must be a leaf without a record. -/
theorem Taken.removesOnly_leftmost (h : Taken t t₁ n (before ++ s :: after) s key)
    (tidy : t.Tidy n (before ++ s :: after)) (has : t.Has s key) (short : t.FallsShort s.ptr)
    (leftmost : t.LeftmostChild s.ptr)
    (runs : ∀ fuel, t.removeRebalancing s.ptr key false fuel = t₁.rebalance s.ptr key fuel) :
    t.RemovesOnly s.ptr key ↔ t.Rebalances s.ptr key := by
  have mem : s ∈ before ++ s :: after := by simp
  have hkey := tidy.least_of_has mem has
  have home := tidy.home rfl has
  obtain ⟨m, rfl⟩ := tidy.exists_succ short.1
  have leftmost₁ := (h.leftmostChild_iff tidy).mpr leftmost
  have sibling := (row_split.mp tidy.rows.isRow.leaves).2.1.1.sibling
  cases after with
  | nil =>
      -- The program stops.
      refine iff_of_false ?_ fun rebalances => (rebalances.right short leftmost).1 sibling
      rintro ⟨t', ret, ⟨fuel, returns⟩, -⟩
      rw [runs, h.tidy.rebalance_last hkey home leftmost₁ (h.sibling.trans sibling)] at returns
      cases returns
  | cons y after =>
      have sibling : (t.page s.ptr).hdr.siblingPtr = y.ptr := sibling
      have split : before ++ s :: y :: after = (before ++ [s]) ++ y :: after := by simp
      have hy : y ∈ before ++ s :: y :: after := by simp
      obtain ⟨_, okY, allocY⟩ := h.tidy.leaf hy
      have ne : y.ptr ≠ s.ptr :=
        ne_of_nodup tidy.rows.upward.nodup rfl y (List.mem_append_right _ List.mem_cons_self)
      have same : t₁.page y.ptr = t.page y.ptr := h.others y hy ne
      have rebalanced : ∀ {t' found}, t₁.remove y.ptr (t₁.page y.ptr).firstKey = some (t', found) →
          Returns (t.removeRebalancing s.ptr key false) (t', true) := fun removed => by
        obtain ⟨fuel, returns⟩ := h.tidy.rebalance_leftmost hkey home leftmost₁
          (Allocator.ne_null_of allocY) (h.sibling.trans sibling) removed
        exact ⟨fuel, (runs fuel).trans returns⟩
      have tidy₁ := split ▸ h.tidy
      by_cases empty : (t.page y.ptr).live = []
      · have absent : ¬ t₁.Has y (t₁.page y.ptr).firstKey := by
          rintro ⟨e, he, -⟩
          rw [same, empty] at he
          exact List.not_mem_nil he
        obtain ⟨t', removed, tidy', keys, apart⟩ := tidy₁.remove_absent absent
        rw [removesOnly_iff_findable (rebalanced removed) (keys ▸ h.leafKeys tidy) tidy', apart,
          ← split]
        exact (h.rebalances_iff_findable tidy mem fun _ => ⟨leftmost,
          sibling ▸ Allocator.ne_null_of allocY, sibling ▸ empty⟩).symm
      · obtain ⟨e, es, hlive, hfirst⟩ := okY.firstKey_mem (same.symm ▸ empty)
        have first : t₁.Has y (t₁.page y.ptr).firstKey := ⟨e, hlive ▸ by simp, hfirst.symm⟩
        obtain ⟨t', removed, lost⟩ := tidy₁.taken first
        refine iff_of_false ?_ fun rebalances =>
          empty (sibling ▸ (rebalances.right short leftmost).2)
        rw [removesOnly_iff_of_returns (rebalanced removed)]
        rintro ⟨perm, -⟩
        have one := perm.length_eq.symm.trans (h.leafKeys tidy).length_eq
        have two := (lost.leafKeys tidy₁).length_eq
        simp only [List.length_cons] at one two
        omega

/-- On a leaf that has the key, the call takes out its key and nothing else exactly when the
sibling to the right of a leftmost child has nothing to lose, and no other key comes to be the
address of the leaf to its right. -/
theorem Tidy.removesOnly_iff (tidy : t.Tidy n row) (mem : s ∈ row) (has : t.Has s key) :
    t.RemovesOnly s.ptr key ↔ t.Rebalances s.ptr key := by
  obtain ⟨before, after, rfl⟩ := List.append_of_mem mem
  obtain ⟨t₁, removed, taken⟩ := tidy.taken has
  have runs := tidy.removeRebalancing_eq mem removed
  by_cases short : t.FallsShort s.ptr
  · simp only [if_pos short] at runs
    by_cases leftmost : t.LeftmostChild s.ptr
    · exact taken.removesOnly_leftmost tidy has short leftmost runs
    · exact taken.removesOnly_left tidy has short leftmost runs
  · have returns : Returns (t.removeRebalancing s.ptr key false) (t₁, true) :=
      ⟨0, (runs 0).trans (if_neg short)⟩
    rw [removesOnly_iff_findable returns (taken.leafKeys tidy) taken.tidy]
    exact (taken.rebalances_iff_findable tidy mem fun h => absurd h short).symm

/-- Keys that are no page addresses do not get in the way. -/
theorem Tidy.rebalances (tidy : t.Tidy n row) (mem : s ∈ row)
    (distinct : ∀ k ∈ t.leafKeys, ¬ t.Allocated k)
    (right : t.FallsShort s.ptr → t.LeftmostChild s.ptr →
      (t.page s.ptr).hdr.siblingPtr ≠ 0 ∧ (t.page (t.page s.ptr).hdr.siblingPtr).live = []) :
    t.Rebalances s.ptr key := by
  refine ⟨right, fun p hp e he _ => ?_⟩
  rw [tidy.rows.depth_eq, tidy.rows.upward.level_eq] at hp
  obtain ⟨y, hy, rfl⟩ := List.mem_map.mp hp
  have isRow := tidy.rows.isRow.leaves
  have has : t.Has y e.key := ⟨e, he, rfl⟩
  have ne : e.key ≠ 0 := isRow.ne_zero hy has
  have apart := distinct e.key (tidy.mem_leafKeys.mpr ⟨y, hy, has⟩)
  obtain ⟨_, _, here⟩ := List.append_of_mem mem
  obtain ⟨_, _, there⟩ := List.append_of_mem hy
  exact ⟨fun _ => isRow.apart here ne apart, fun _ => isRow.apart there ne apart⟩

/-! ### Runs on fixed calls -/

/-- Insertions of the keys from 1 on. -/
def ascending (count : Nat) : List TreeOp := (List.range count).map fun i => .insert (i + 1)

/-- The second leaf, of 13 records, goes into the first one. -/
theorem removesOnly_merge :
    ∃ t n row s, Run (empty (.bump 100000)) SetCall (ascending 41) t ∧ t.Tidy n row ∧ s ∈ row ∧
      t.Has s 15 ∧ t.FallsShort s.ptr ∧ t.RemovesOnly s.ptr 15 := by
  have checked : (setCalls 6 (ascending 41) (empty (.bump 100000))).any (fun t =>
      decide (100002 ∈ t.level t.depth ∧ (∃ e ∈ (t.page 100002).live, e.key = 15) ∧
        t.FallsShort 100002 ∧ ¬ t.LeftmostChild 100002 ∧ ∀ k ∈ t.leafKeys, k ≤ 100000)) = true := by
    decide +kernel
  obtain ⟨t, run, leaf, has, short, notLeftmost, low⟩ := exists_set_run checked
  have keys : ∀ op ∈ ascending 41, op.key ≤ 100000 := by decide
  obtain ⟨n, row, tidy⟩ := run.tidy fun op mem =>
    run.not_allocated (fun _ _ call => call.1) (keys op mem)
  rw [tidy.rows.depth_eq, tidy.rows.upward.level_eq] at leaf
  obtain ⟨s, mem, hs⟩ := List.mem_map.mp leaf
  rw [← hs] at short notLeftmost has
  have rebalances : t.Rebalances s.ptr 15 :=
    tidy.rebalances mem (fun k hk => run.not_allocated (fun _ _ call => call.1) (low k hk))
      fun _ leftmost => absurd leftmost notLeftmost
  exact ⟨t, n, row, s, run, tidy, mem, has, short, (tidy.removesOnly_iff mem has).mpr rebalances⟩

/-- With the key 5 the first leaf of two falls short, and the second one loses its key 14. -/
theorem leftmost_takes_two :
    ∃ t n row s, Run (empty (.bump 100000)) SetCall (ascending 28) t ∧ t.Tidy n row ∧ s ∈ row ∧
      t.Has s 5 ∧ (∃ t', Returns (t.removeRebalancing s.ptr 5 false) (t', true) ∧
        14 ∈ t.leafKeys ∧ 14 ∉ t'.leafKeys) ∧ ¬ t.RemovesOnly s.ptr 5 := by
  have checked : (setCalls 6 (ascending 28) (empty (.bump 100000))).any (fun t =>
      decide (100001 ∈ t.level t.depth ∧ (∃ e ∈ (t.page 100001).live, e.key = 5) ∧
        14 ∈ t.leafKeys) &&
      (t.removeRebalancing 100001 5 false 6).any fun r => decide (r.2 = true ∧ 14 ∉ r.1.leafKeys))
      = true := by
    decide +kernel
  obtain ⟨t, ht, holds⟩ := (Option.any_eq_true _ _).mp checked
  obtain ⟨before, after⟩ := (Bool.and_eq_true ..).mp holds
  obtain ⟨leaf, has, key⟩ := of_decide_eq_true before
  obtain ⟨⟨t', ret⟩, returns, lost⟩ := (Option.any_eq_true _ _).mp after
  obtain ⟨rfl, lost⟩ := of_decide_eq_true lost
  have run : Run (empty (.bump 100000)) SetCall (ascending 28) t := Run.nil.setCalls ht
  have keys : ∀ op ∈ ascending 28, op.key ≤ 100000 := by decide
  obtain ⟨n, row, tidy⟩ := run.tidy fun op mem =>
    run.not_allocated (fun _ _ call => call.1) (keys op mem)
  rw [tidy.rows.depth_eq, tidy.rows.upward.level_eq] at leaf
  obtain ⟨s, mem, hs⟩ := List.mem_map.mp leaf
  rw [← hs] at has returns
  refine ⟨t, n, row, s, run, tidy, mem, has, ⟨t', ⟨6, returns⟩, key, lost⟩, fun only => ?_⟩
  obtain ⟨perm, -⟩ := (removesOnly_iff_of_returns ⟨6, returns⟩).mp only
  rcases List.mem_cons.mp (perm.mem_iff.mp key) with same | kept
  · exact absurd same (by decide)
  · exact lost kept

end Calls

end BTree

end F3Tree
