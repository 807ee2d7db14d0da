import F3Tree.Separators

/-!
# Rebalancing with the left sibling

Once the separator in front of a short leaf is gone, the rows above hold the slots of the
leaves without it (`Gap`).  The leaf then disappears into its left sibling, or gets a slot
again further to the left (`Shared`); in both cases the tree is tidy afterwards and has the
same records (`Pruned.merge`, `Pruned.redistribute`).
-/

namespace F3Tree

open Keyed Fuel

namespace BTree

/-! ## The rows above -/

/-- The rows over the leaves hold the slots of `before`, `x` and `after`; the parent of `x` has
room for one behind `x`. -/
def Gap (t : BTree) (n : Nat) (before : List Entry) (x : Entry) (after : List Entry) : Prop :=
  ∃ upper before' u after', t.ThinRow 1 upper none ∧ t.ThinOver n 1 upper ∧
    upper = before' ++ u :: after' ∧ t.contents upper = before ++ x :: after ∧
    x ∈ (t.page u.ptr).entries u.key ∧ (∀ y ∈ t.contents after', y ∈ after) ∧
    (t.page u.ptr).live.length < cardinality - 1

section Gap

variable {t t' : BTree} {n : Nat} {before after : List Entry} {x s : Entry} {key right : Int}

theorem Gap.keeps (gap : t.Gap n before x after) (keeps : Keeps t t' fun p => p.hdr.level ≠ 0)
    (root : t'.root = t.root) : t'.Gap n before x after := by
  obtain ⟨upper, before', u, after', isRow, upward, hupper, contents, mem, behind, room⟩ := gap
  have above : ∀ p : Page, p.hdr.level = 1 → p.hdr.level ≠ 0 := fun p hp => by omega
  obtain ⟨isRow', contents'⟩ := keeps.thinRow isRow above
  obtain ⟨-, ⟨thin, alloc⟩, hafter⟩ := thinRow_split.mp (hupper ▸ isRow)
  have same := keeps.pages _ alloc (above _ thin.level)
  refine ⟨upper, before', u, after', isRow', keeps.thinOver root upward fun p hp => by omega,
    hupper, contents'.trans contents, same ▸ mem, ?_, same ▸ room⟩
  rwa [(keeps.thinRow hafter above).2]

theorem Gap.upward (gap : t.Gap n before x after)
    (nodup : ((before ++ x :: after).map Entry.ptr).Nodup) :
    t.ThinOver (n + 1) 0 (before ++ x :: after) := by
  obtain ⟨upper, before', u, after', isRow, upward, hupper, contents, -⟩ := gap
  exact ⟨nodup, upper, isRow, upward, contents⟩

theorem Gap.ordered (gap : t.Gap n before x after) :
    Ordered Entry.key (before ++ x :: after) := by
  obtain ⟨upper, before', u, after', isRow, -, -, contents, -⟩ := gap
  exact contents ▸ isRow.ordered_contents

/-- A slot fits behind `x`. -/
theorem Gap.cut (gap : t.Gap n before x after) (least : x.key ≤ key)
    (lt : ∀ y ∈ after, key < y.key) :
    Cut Entry.key key (before ++ x :: after) (before ++ [x]) after := by
  obtain ⟨-, -, across⟩ := List.pairwise_append.mp gap.ordered
  refine ⟨by simp, fun y mem => ?_, lt⟩
  rcases List.mem_append.mp mem with mem | mem
  · exact (across y mem x List.mem_cons_self).trans least
  · exact List.mem_singleton.mp mem ▸ least

theorem Gap.inserts (gap : t.Gap n before x after) (least : x.key ≤ key)
    (start : longMin ≤ x.key) (most : key ≤ longMax) (lt : ∀ y ∈ after, key < y.key)
    (hright : right ≠ 0) (nodup : ((before ++ x :: ⟨key, right⟩ :: after).map Entry.ptr).Nodup) :
    ∃ t', Returns (fun fuel => btreeInsertInternal fuel t key right 1) t' ∧
      Keeps t t' (fun p => p.hdr.level ≠ 1) ∧
      t'.ThinOver (n + 1) 0 (before ++ x :: ⟨key, right⟩ :: after) := by
  have cut := gap.cut least lt
  obtain ⟨upper, before', u, after', isRow, upward, hupper, contents, mem, behind, room⟩ := gap
  obtain ⟨-, ⟨thin, -⟩, hafter⟩ := thinRow_split.mp (hupper ▸ isRow)
  have hu : u.key ≤ key := (thin.range_entries mem).1.trans least
  have ordered := isRow.ordered
  rw [hupper] at ordered
  have home : Cut Entry.key key upper (before' ++ [u]) after' := by
    refine ⟨by simp [hupper], fun y hy => ?_, fun y hy => ?_⟩
    · rcases List.mem_append.mp hy with hy | hy
      · exact ((List.pairwise_append.mp ordered).2.2 y hy u List.mem_cons_self).trans hu
      · exact List.mem_singleton.mp hy ▸ hu
    · -- The leftmost child of a page has the slot of the page.
      obtain ⟨_, thin', -⟩ := hafter.pageThin hy
      have first : (⟨y.key, (t.page y.ptr).hdr.leftmostPtr⟩ : Entry) ∈ t.contents after' := by
        refine List.mem_flatMap.mpr ⟨y, hy, ?_⟩
        rw [Page.entries, if_neg (thin'.internal Nat.one_pos)]
        exact List.mem_cons_self
      have below := lt _ (behind _ first)
      exact below
  obtain ⟨p, returns, isRow', keeps, ins⟩ :=
    ThinRows.inserts_separator ⟨isRow, upward⟩ upward.nodup (start.trans least) most hright home
      room
  rw [contents] at ins
  have slots := ins.unique ⟨before ++ [x], after, cut, rfl⟩
  rw [List.append_assoc, List.singleton_append] at slots
  exact ⟨_, returns, keeps, nodup, upper, isRow',
    keeps.thinOver rfl upward fun p hp => by omega, slots⟩

end Gap

/-! ## The leaves -/

/-- What becomes of the short leaf `s` and its left sibling `x`. -/
inductive Shared (t t' : BTree) (before : List Entry) (x s : Entry) (after : List Entry) :
    List Entry → Prop
  | merged : (t.page s.ptr).live.length + (t.page x.ptr).live.length ≤ cardinality - 1 →
    (∀ y ∈ before ++ after, t'.page y.ptr = t.page y.ptr) →
    (t'.page x.ptr).live.Perm ((t.page s.ptr).live ++ (t.page x.ptr).live) →
    Shared t t' before x s after (before ++ x :: after)
  | redistributed (m : Nat) (key : Int) :
    cardinality - 1 < (t.page s.ptr).live.length + (t.page x.ptr).live.length →
    m = ((t.page s.ptr).live.length + (t.page x.ptr).live.length) / 2 →
    (∀ y ∈ before ++ after, t'.page y.ptr = t.page y.ptr) →
    (t'.page x.ptr).live = (t.page x.ptr).live.take m →
    (t'.page s.ptr).live.Perm ((t.page x.ptr).live.drop m ++ (t.page s.ptr).live) →
    Shared t t' before x s after (before ++ x :: ⟨key, s.ptr⟩ :: after)

section Shared

variable {t t' : BTree} {n : Nat} {before after : List Entry} {x s : Entry} {key : Int}

/-- The records of two leaves and those around them. -/
theorem Row.contents_pair (h : t.Row 0 (before ++ x :: s :: after) none) :
    t.contents (before ++ x :: s :: after) = t.contents before ++
      ((t.page x.ptr).live ++ ((t.page s.ptr).live ++ t.contents after)) := by
  obtain ⟨-, ⟨okLeft, -⟩, ok, -, -⟩ := row_split.mp h
  rw [contents_append, contents_cons, contents_cons, okLeft.entries_leaf, ok.entries_leaf]

/-- The leaves around two that share keep their records below the slots of the two. -/
theorem Parted.pair (h : t.Parted (before ++ x :: s :: after)) :
    t.Parted before ∧ t.Parted after ∧
      (∀ w ∈ before, w.key < x.key ∧ ∀ e ∈ (t.page w.ptr).live, e.key < x.key) ∧
      x.key < s.key ∧ (∀ e ∈ (t.page x.ptr).live, e.key < s.key) ∧
      ∀ y ∈ after, s.key < y.key ∧ ∀ e ∈ (t.page s.ptr).live, e.key < y.key := by
  obtain ⟨front, tail, across⟩ := List.pairwise_append.mp h
  obtain ⟨hx, tail⟩ := List.pairwise_cons.mp tail
  obtain ⟨hs, tail⟩ := List.pairwise_cons.mp tail
  obtain ⟨lt, live⟩ := hx s List.mem_cons_self
  exact ⟨front, tail, fun w hw => across w hw x List.mem_cons_self, lt, live, hs⟩

theorem Tidy.merged (h : t.Tidy n (before ++ x :: s :: after))
    (others : ∀ y ∈ before ++ after, t'.page y.ptr = t.page y.ptr)
    (left : PageOk (t'.page x.ptr) 0 x after.head?)
    (perm : (t'.page x.ptr).live.Perm ((t.page s.ptr).live ++ (t.page x.ptr).live))
    (allocated : ∀ p, t.Allocated p → t'.Allocated p)
    (upward : t'.ThinOver n 0 (before ++ x :: after)) :
    t'.Tidy n (before ++ x :: after) ∧
      (t'.contents (before ++ x :: after)).Perm (t.contents (before ++ x :: s :: after)) := by
  have row := h.rows.isRow.leaves
  obtain ⟨hbefore, ⟨-, alloc⟩, ok, -, hafter⟩ := row_split.mp row
  obtain ⟨front, behind⟩ := List.forall_mem_append.mp others
  have contents : t'.contents (before ++ x :: after) =
      t.contents before ++ ((t'.page x.ptr).live ++ t.contents after) := by
    rw [contents_append, contents_cons, contents_congr front, contents_congr behind,
      left.entries_leaf]
  have same : (t'.contents (before ++ x :: after)).Perm
      (t.contents (before ++ x :: s :: after)) := by
    rw [contents, row.contents_pair, ← List.append_assoc (t.page x.ptr).live]
    exact ((perm.trans List.perm_append_comm).append_right _).append_left _
  obtain ⟨partedFront, partedBehind, ltX, lt, ltS, ltAfter⟩ := h.parted.pair
  refine ⟨⟨⟨Row.thin (row_split.mpr ⟨hbefore.congr front allocated, ⟨left, allocated _ alloc⟩,
    hafter.congr behind allocated⟩), upward⟩, (same.map _).nodup_iff.mpr h.nodup, ?_⟩, same⟩
  refine List.pairwise_append.mpr ⟨partedFront.congr fun w hw e he => front w hw ▸ he,
    List.pairwise_cons.mpr ⟨fun y hy => ⟨lt.trans (ltAfter y hy).1, fun e he => ?_⟩,
      partedBehind.congr fun y hy e he => behind y hy ▸ he⟩, fun w hw y hy => ?_⟩
  · rcases List.mem_append.mp (perm.mem_iff.mp he) with he | he
    · exact (ltAfter y hy).2 e he
    · exact (ltS e he).trans (ltAfter y hy).1
  · rw [front w hw]
    have hle : x.key ≤ y.key := by
      rcases List.mem_cons.mp hy with rfl | hy
      · exact le_rfl
      · exact (lt.trans (ltAfter y hy).1).le
    exact ⟨(ltX w hw).1.trans_le hle, fun e he => ((ltX w hw).2 e he).trans_le hle⟩

theorem Tidy.redistributed (h : t.Tidy n (before ++ x :: s :: after))
    (others : ∀ y ∈ before ++ after, t'.page y.ptr = t.page y.ptr) {kept moved : List Entry}
    (hleft : (t.page x.ptr).live = kept ++ moved)
    (left : PageOk (t'.page x.ptr) 0 x (some ⟨key, s.ptr⟩)) (stay : (t'.page x.ptr).live = kept)
    (right : PageOk (t'.page s.ptr) 0 ⟨key, s.ptr⟩ after.head?)
    (perm : (t'.page s.ptr).live.Perm (moved ++ (t.page s.ptr).live))
    (hkey : x.key < key ∧ (∀ e ∈ kept, e.key < key) ∧ key < s.key)
    (allocated : ∀ p, t.Allocated p → t'.Allocated p)
    (upward : t'.ThinOver n 0 (before ++ x :: ⟨key, s.ptr⟩ :: after)) :
    t'.Tidy n (before ++ x :: ⟨key, s.ptr⟩ :: after) ∧
      (t'.contents (before ++ x :: ⟨key, s.ptr⟩ :: after)).Perm
        (t.contents (before ++ x :: s :: after)) := by
  have row := h.rows.isRow.leaves
  obtain ⟨hbefore, ⟨-, alloc⟩, -, allocS, hafter⟩ := row_split.mp row
  obtain ⟨front, behind⟩ := List.forall_mem_append.mp others
  obtain ⟨ltKey, ltKept, keyLt⟩ := hkey
  have row' : t'.Row 0 (before ++ x :: ⟨key, s.ptr⟩ :: after) none := by
    refine row_split.mpr ⟨hbefore.congr front allocated, ⟨left, allocated _ alloc⟩, ?_,
      allocated _ allocS, hafter.congr behind allocated⟩
    rwa [Option.or_none]
  have same : (t'.contents (before ++ x :: ⟨key, s.ptr⟩ :: after)).Perm
      (t.contents (before ++ x :: s :: after)) := by
    rw [row'.contents_pair, row.contents_pair, contents_congr front, contents_congr behind, stay,
      hleft, List.append_assoc kept]
    refine List.Perm.append_left _ (List.Perm.append_left _ ?_)
    rw [← List.append_assoc]
    exact perm.append_right _
  obtain ⟨partedFront, partedBehind, ltX, lt, ltS, ltAfter⟩ := h.parted.pair
  refine ⟨⟨⟨row'.thin, upward⟩, (same.map _).nodup_iff.mpr h.nodup, ?_⟩, same⟩
  have behindKey : ∀ y ∈ after, key < y.key := fun y hy => keyLt.trans (ltAfter y hy).1
  refine List.pairwise_append.mpr ⟨partedFront.congr fun w hw e he => front w hw ▸ he,
    List.pairwise_cons.mpr ⟨fun y hy => ?_, List.pairwise_cons.mpr ⟨fun y hy =>
      ⟨behindKey y hy, fun e he => ?_⟩, partedBehind.congr fun y hy e he => behind y hy ▸ he⟩⟩,
    fun w hw y hy => ?_⟩
  · rw [stay]
    rcases List.mem_cons.mp hy with rfl | hy
    · exact ⟨ltKey, ltKept⟩
    · have hlt := behindKey y hy
      exact ⟨ltKey.trans hlt, fun e he => (ltKept e he).trans hlt⟩
  · rcases List.mem_append.mp (perm.mem_iff.mp he) with he | he
    · have mem : e ∈ (t.page x.ptr).live := hleft ▸ List.mem_append_right _ he
      exact (ltS e mem).trans (ltAfter y hy).1
    · exact (ltAfter y hy).2 e he
  · rw [front w hw]
    have hle : x.key ≤ y.key := by
      rcases List.mem_cons.mp hy with rfl | hy
      · exact le_rfl
      · rcases List.mem_cons.mp hy with rfl | hy
        · exact ltKey.le
        · exact (ltKey.trans (behindKey y hy)).le
    exact ⟨(ltX w hw).1.trans_le hle, fun e he => ((ltX w hw).2 e he).trans_le hle⟩

/-! ## The two leaves -/

/-- In `t₂` the separator in front of the leaf `s` of `t` is gone. -/
structure Pruned (t t₂ : BTree) (n : Nat) (before : List Entry) (x s : Entry)
    (after : List Entry) : Prop where
  tidy : t.Tidy (n + 1) (before ++ x :: s :: after)
  keeps : Keeps t t₂ fun p => p.hdr.level ≠ 1
  root : t₂.root = t.root
  gap : t₂.Gap n before x after

theorem Tidy.pair (h : t.Tidy n (before ++ x :: s :: after)) :
    PageOk (t.page x.ptr) 0 x (some s) ∧ PageOk (t.page s.ptr) 0 s after.head? ∧
      t.Allocated x.ptr ∧ t.Allocated s.ptr ∧ x.ptr ≠ s.ptr := by
  obtain ⟨-, ⟨okLeft, allocX⟩, ok, allocS, -⟩ := row_split.mp h.rows.isRow.leaves
  have neS : ∀ y ∈ (before ++ [x]) ++ after, y.ptr ≠ s.ptr :=
    ne_of_nodup h.rows.upward.nodup (by simp)
  rw [Option.or_none] at ok
  exact ⟨okLeft, ok, allocX, allocS, neS x (by simp)⟩

theorem Tidy.nodup_live (h : t.Tidy n (before ++ x :: after)) :
    ((t.page x.ptr).live.map Entry.key).Nodup :=
  h.rows.isRow.leaves.nodup_live h.nodup (by simp)

/-- The page is a leaf, not a page one level up. -/
theorem not_above {p : Page} (leaf : p.hdr.level = 0) : p.hdr.level ≠ 1 := by
  rw [leaf]
  exact Nat.zero_ne_one

section Pruned

variable {t₂ : BTree}

theorem Pruned.page (h : Pruned t t₂ n before x s after) {y : Entry}
    (mem : y ∈ before ++ x :: s :: after) : t₂.page y.ptr = t.page y.ptr := by
  obtain ⟨_, ok, alloc⟩ := h.tidy.leaf mem
  exact h.keeps.pages _ alloc (not_above ok.level)

/-- Both leaves are written. -/
theorem Pruned.writeBoth (h : Pruned t t₂ n before x s after) (p q : Page) :
    ∃ t₃, t₃ = (t₂.write s.ptr p).write x.ptr q ∧ t₃.Gap n before x after ∧
      t₃.root = t.root ∧ (∀ p, t.Allocated p → t₃.Allocated p) ∧ t₃.page s.ptr = p ∧
      t₃.page x.ptr = q ∧ ∀ y ∈ before ++ after, t₃.page y.ptr = t.page y.ptr := by
  obtain ⟨okLeft, ok, -, -, ne⟩ := h.tidy.pair
  have neX := ne_of_nodup h.tidy.rows.upward.nodup rfl
  have neS : ∀ y ∈ (before ++ [x]) ++ after, y.ptr ≠ s.ptr :=
    ne_of_nodup h.tidy.rows.upward.nodup (by simp)
  have sameX : t₂.page x.ptr = t.page x.ptr := h.page (by simp)
  have sameS : t₂.page s.ptr = t.page s.ptr := h.page (by simp)
  have sameX' : (t₂.write s.ptr p).page x.ptr = t.page x.ptr :=
    (Function.update_of_ne ne ..).trans sameX
  have keeps : Keeps t₂ ((t₂.write s.ptr p).write x.ptr q) fun p => p.hdr.level ≠ 0 :=
    (t₂.keeps_write p (sameS ▸ ok.level)).trans
      ((t₂.write s.ptr p).keeps_write q (sameX' ▸ okLeft.level))
  refine ⟨_, rfl, h.gap.keeps keeps rfl, h.root,
    fun p hp => keeps.allocated_of (h.keeps.allocated_of hp), ?_, Function.update_self ..,
    fun y mem => ?_⟩
  · exact (Function.update_of_ne ne.symm ..).trans (Function.update_self ..)
  · have mem' : y ∈ before ++ x :: s :: after ∧ y ∈ (before ++ [x]) ++ after ∧
        y ∈ before ++ s :: after := by
      simp only [List.mem_append, List.mem_cons] at mem ⊢
      tauto
    exact ((Function.update_of_ne (neX y mem'.2.2) ..).trans
      (Function.update_of_ne (neS y mem'.2.1) ..)).trans (h.page mem'.1)

/-- The leaves have few records together. -/
theorem Pruned.merge (h : Pruned t t₂ n before x s after)
    (room : (t.page s.ptr).live.length + (t.page x.ptr).live.length ≤ cardinality - 1)
    (deletedKey : Int) :
    ∃ t' row', Returns (t₂.balance s.ptr x.ptr deletedKey) t' ∧
      Shared t t' before x s after row' ∧ t'.Tidy (n + 1) row' ∧
      (t'.contents row').Perm (t.contents (before ++ x :: s :: after)) := by
  obtain ⟨okLeft, ok, -⟩ := h.tidy.pair
  obtain ⟨-, -, -, -, ltS, ltAfter⟩ := h.tidy.parted.pair
  have sameX : t₂.page x.ptr = t.page x.ptr := h.page (by simp)
  have sameS : t₂.page s.ptr = t.page s.ptr := h.page (by simp)
  obtain ⟨left, merged, okLeft', perm⟩ := ok.merge okLeft (by omega)
    (fun e he y hy => (ltAfter y (List.mem_of_mem_head? hy)).2 e he) ltS deletedKey
  obtain ⟨t₃, rfl, gap, -, allocated, -, atX, others⟩ :=
    h.writeBoth (t.page s.ptr).setDeleted left
  have slots := h.tidy.rows.upward.nodup.sublist
    (((List.sublist_cons_self s after).cons_cons x).append_left before |>.map Entry.ptr)
  obtain ⟨tidy, same⟩ := h.tidy.merged others (atX.symm ▸ okLeft') (atX.symm ▸ perm) allocated
    (gap.upward slots)
  refine ⟨_, _, ⟨0, ?_⟩, .merged room others (atX.symm ▸ perm), tidy, same⟩
  rw [BTree.balance, sameS, sameX, ok.count_eq, okLeft.count_eq]
  simp only [Option.bind_eq_bind, Option.bind_some, if_pos (ok.leaf rfl).1]
  rw [if_neg (by omega), merged]
  rfl

/-- Both leaves are written, and the leaf `s` gets a slot again. -/
theorem Pruned.inserts (h : Pruned t t₂ n before x s after) {p q : Page} (leafP : p.hdr.level = 0)
    (leafQ : q.hdr.level = 0) (least : x.key ≤ key) (most : key ≤ longMax)
    (lt : ∀ y ∈ after, key < y.key) :
    ∃ t', Returns (((t₂.write s.ptr p).write x.ptr q).insertSeparator x.ptr key s.ptr 1) t' ∧
      t'.page s.ptr = p ∧ t'.page x.ptr = q ∧
      (∀ y ∈ before ++ after, t'.page y.ptr = t.page y.ptr) ∧
      (∀ p, t.Allocated p → t'.Allocated p) ∧
      t'.ThinOver (n + 1) 0 (before ++ x :: ⟨key, s.ptr⟩ :: after) := by
  obtain ⟨okLeft, -, allocX, allocS, -⟩ := h.tidy.pair
  obtain ⟨t₃, ht₃, gap, root, allocated, hereS, hereX, rest⟩ := h.writeBoth p q
  obtain ⟨t', inserted, keeps, upward⟩ := gap.inserts least (h.tidy.least (by simp)) most lt
    (Allocator.ne_null_of allocS) (by simpa using h.tidy.rows.upward.nodup)
  have notRoot : x.ptr ≠ t₃.root := fun heq => by
    have level := h.tidy.rows.root
    rw [← root, ← heq, okLeft.level] at level
    omega
  -- The separator goes into a page over the leaves.
  have stays : ∀ a, t.Allocated a → (t₃.page a).hdr.level = 0 → t'.page a = t₃.page a :=
    fun a alloc leaf => keeps.pages a (allocated a alloc) (not_above leaf)
  refine ⟨t', ?_, (stays _ allocS (hereS ▸ leafP)).trans hereS,
    (stays _ allocX (hereX ▸ leafQ)).trans hereX, fun y mem => ?_,
    fun p hp => keeps.allocated_of (allocated p hp), upward⟩
  · obtain ⟨fuel, returns⟩ := inserted
    exact ⟨fuel, ht₃ ▸ (if_neg notRoot).trans returns⟩
  · have mem' : y ∈ before ++ x :: s :: after := by
      simp only [List.mem_append, List.mem_cons] at mem ⊢
      tauto
    obtain ⟨_, okY, alloc⟩ := h.tidy.leaf mem'
    exact (stays _ alloc (rest y mem ▸ okY.level)).trans (rest y mem)

/-- The left sibling has more records than fit in one leaf with those of the short one. -/
theorem Pruned.redistribute (h : Pruned t t₂ n before x s after)
    (many : cardinality - 1 < (t.page s.ptr).live.length + (t.page x.ptr).live.length)
    (short : (t.page s.ptr).live.length < (cardinality - 1) / 2) (deletedKey : Int) :
    ∃ t' row', Returns (t₂.balance s.ptr x.ptr deletedKey) t' ∧
      Shared t t' before x s after row' ∧ t'.Tidy (n + 1) row' ∧
      (t'.contents row').Perm (t.contents (before ++ x :: s :: after)) := by
  have hcard := cardinality_eq
  obtain ⟨okLeft, ok, -⟩ := h.tidy.pair
  obtain ⟨-, -, -, -, ltS, ltAfter⟩ := h.tidy.parted.pair
  have nodupLeft := h.tidy.nodup_live
  have sameX : t₂.page x.ptr = t.page x.ptr := h.page (by simp)
  have sameS : t₂.page s.ptr = t.page s.ptr := h.page (by simp)
  have size := okLeft.length_live
  obtain ⟨m, hm⟩ : ∃ m, m =
      ((t.page s.ptr).live.length + (t.page x.ptr).live.length) / 2 := ⟨_, rfl⟩
  -- The left sibling keeps its first `m` records, at least one.
  obtain ⟨e, moved, hdrop⟩ : ∃ e moved, (t.page x.ptr).live.drop m = e :: moved :=
    List.exists_cons_of_length_pos (by rw [List.length_drop]; omega)
  have hleft : (t.page x.ptr).live = (t.page x.ptr).live.take m ++ e :: moved := by
    rw [← hdrop, List.take_append_drop]
  have hlength : ((t.page x.ptr).live.take m).length = m := by
    rw [List.length_take]
    omega
  have hmoved := congrArg List.length hleft
  rw [List.length_append, List.length_cons, hlength] at hmoved
  obtain ⟨e₀, kept, hkept⟩ := List.exists_cons_of_length_pos
    (by omega : 0 < ((t.page x.ptr).live.take m).length)
  obtain ⟨right, taken, okRight, perm, okLeft', stay⟩ := ok.takeFromLeft okLeft hleft
    (by simp [hkept]) (by omega) ltS nodupLeft deletedKey
  rw [hlength] at taken okLeft' stay
  have he : e ∈ (t.page x.ptr).live := hleft ▸ by simp
  have heS : e.key < s.key := ltS e he
  have ltKept : ∀ e' ∈ (t.page x.ptr).live.take m, e'.key < e.key := by
    have ordered := okLeft.ordered
    rw [hleft] at ordered nodupLeft
    exact ordered.lt_of_nodup nodupLeft
  have he₀ : e₀ ∈ (t.page x.ptr).live := hleft ▸ by simp [hkept]
  have ltKey : x.key < e.key := (okLeft.range e₀ (okLeft.mem_records he₀)).1.trans_lt
    (ltKept e₀ (by simp [hkept]))
  obtain ⟨t', ⟨fuel, inserted⟩, atS, atX, others, allocated, upward⟩ :=
    h.inserts okRight.level okLeft'.level ltKey.le (okLeft.range e (okLeft.mem_records he)).2
      fun y hy => heS.trans (ltAfter y hy).1
  obtain ⟨tidy, same⟩ := h.tidy.redistributed others hleft (atX.symm ▸ okLeft') (atX ▸ stay)
    (atS.symm ▸ okRight) (atS ▸ perm) ⟨ltKey, ltKept, heS⟩ allocated upward
  refine ⟨_, _, ⟨fuel, ?_⟩, .redistributed m e.key many hm others (atX ▸ stay)
    (atS ▸ hdrop ▸ perm), tidy, same⟩
  rw [BTree.balance, sameS, sameX, ok.count_eq, okLeft.count_eq]
  simp only [Option.bind_eq_bind, Option.bind_some, if_pos (ok.leaf rfl).1, Nat.add_zero]
  rw [if_pos many, if_pos (by omega), ← hm, taken]
  dsimp only
  rw [ok.level]
  exact inserted

end Pruned

end Shared

end BTree

end F3Tree
