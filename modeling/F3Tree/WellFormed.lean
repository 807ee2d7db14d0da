import F3Tree.TreeRun

/-!
# The form of the tree

The representation invariant, read off the program state: the pages are those that the
root leads to through child pointers, level by level (`level`), and the keys of a
subtree those of all its pages (`keysBelow`).  The rows of `Rows` have this form
(`Rows.wellFormed`), so every tree that completed calls lead to has it
(`wellFormed_run`).
-/

namespace F3Tree

open Keyed Fuel

namespace Page

/-- The children of a page, from left to right. -/
def children (p : Page) : List Int :=
  if p.hdr.leftmostPtr = 0 then [] else p.hdr.leftmostPtr :: p.live.map Entry.ptr

/-- The records of a page, and how it counts them. -/
structure Sound (p : Page) : Prop where
  size : p.records.length = cardinality
  few : p.live.length ≤ cardinality - 1
  ordered : (p.live.map Entry.key).Pairwise (· ≤ ·)
  live : ∀ e ∈ p.live, e.ptr ≠ 0
  /-- The first null pointer is at `last_index + 1`. -/
  lastIndex : (p.live.length : Int) = p.hdr.lastIndex + 1
  stop : ∃ z, p.records[p.live.length]? = some z ∧ z.ptr = 0
  count : p.count = some p.live.length

/-- The keys below each child of a page lie between the separators around it. -/
def Separated (p : Page) (below : Int → List Int) : Prop :=
  (∀ e ∈ p.live.head?, ∀ k ∈ below p.hdr.leftmostPtr, k ≤ e.key) ∧
    ∀ front e back, p.live = front ++ e :: back → ∀ k ∈ below e.ptr,
      e.key ≤ k ∧ ∀ n ∈ back.head?, k ≤ n.key

end Page

namespace BTree

/-- The pages that are `depth` steps below the root, from left to right. -/
def level (t : BTree) : Nat → List Int
  | 0 => [t.root]
  | depth + 1 => (level t depth).flatMap fun p => (t.page p).children

/-- The keys in the pages of the subtree of `p`, which is `height` steps high. -/
def keysBelow (t : BTree) : Nat → Int → List Int
  | 0, p => (t.page p).live.map Entry.key
  | height + 1, p =>
      (t.page p).live.map Entry.key ++ (t.page p).children.flatMap (keysBelow t height)

/-- How many steps the leaves are below the root. -/
def depth (t : BTree) : Nat := (t.page t.root).hdr.level

/-- The keys of the leaf records, from left to right. -/
def leafKeys (t : BTree) : List Int :=
  (t.level t.depth).flatMap fun p => (t.page p).live.map Entry.key

structure WellFormed (t : BTree) : Prop where
  sound : ∀ d ≤ t.depth, ∀ p ∈ t.level d, (t.page p).Sound
  levels : ∀ d ≤ t.depth, ∀ p ∈ t.level d, (t.page p).hdr.level = t.depth - d
  leaves : ∀ p ∈ t.level t.depth, (t.page p).hdr.leftmostPtr = 0
  internal : ∀ d < t.depth, ∀ p ∈ t.level d,
    (t.page p).hdr.leftmostPtr ≠ 0 ∧ (t.page p).live ≠ []
  separated : ∀ d < t.depth, ∀ p ∈ t.level d,
    (t.page p).Separated (t.keysBelow (t.depth - (d + 1)))
  distinct : ∀ d ≤ t.depth, (t.level d).Nodup
  /-- The sibling chain of a level lists its pages. -/
  chain : ∀ d ≤ t.depth, ∀ front p back, t.level d = front ++ p :: back →
    (t.page p).hdr.siblingPtr = back.head?.getD 0

end BTree

/-! ## The rows have this form -/

theorem PageOk.sound {p : Page} {l : Nat} {s : Entry} {next : Option Entry}
    (ok : PageOk p l s next) : p.Sound := by
  obtain ⟨z, rest, holds, -⟩ := ok.holds
  refine ⟨ok.size, Nat.le_sub_one_of_lt ok.length_live, ?_, holds.live, ?_, ⟨z, ?_, holds.stop⟩,
    ok.count_eq⟩
  · exact List.pairwise_map.mpr ok.ordered
  · rw [holds.lastIndex]
    omega
  · rw [holds.records, List.getElem?_append_right le_rfl, Nat.sub_self]
    rfl

namespace BTree

section WellFormed

variable {t : BTree} {n l : Nat} {row : List Entry}

/-- The keys below each page of a row lie between its slot and the next one. -/
def Spans (t : BTree) (l : Nat) (row : List Entry) : Prop :=
  ∀ before s after, row = before ++ s :: after → ∀ k ∈ t.keysBelow l s.ptr,
    s.key ≤ k ∧ ∀ x ∈ after.head?, k ≤ x.key

theorem PageOk.keys {p : Page} {s : Entry} {next : Option Entry} (ok : PageOk p l s next) :
    ∀ k ∈ p.live.map Entry.key, s.key ≤ k ∧ ∀ x ∈ next, k ≤ x.key := by
  intro k mem
  obtain ⟨e, he, rfl⟩ := List.mem_map.mp mem
  exact ⟨(ok.range e (ok.mem_records he)).1, fun x hx => (ok.below x hx).2.1 e he⟩

theorem Row.spans_leaf (h : t.Row 0 row none) : t.Spans 0 row := by
  rintro before s after rfl
  exact PageOk.keys (row_split.mp h).2.1.1

/-- The children of an internal page are the pages of the slots that it holds. -/
theorem map_ptr_entries {p : Page} {s : Entry} {next : Option Entry}
    (ok : PageThin p (l + 1) s next) : (p.entries s.key).map Entry.ptr = p.children := by
  have internal := ok.internal (Nat.succ_pos l)
  rw [Page.entries, Page.children, if_neg internal, if_neg internal]
  rfl

theorem Row.spans_internal (h : t.Row (l + 1) row none) (below : t.Spans l (t.contents row)) :
    t.Spans (l + 1) row := by
  rintro before s after rfl
  obtain ⟨-, ⟨ok, -⟩, hafter⟩ := row_split.mp h
  intro k mem
  rcases List.mem_append.mp mem with mem | mem
  · exact PageOk.keys ok k mem
  · rw [← map_ptr_entries ok.thin, List.mem_flatMap] at mem
    obtain ⟨c, hc, mem⟩ := mem
    obtain ⟨e, he, rfl⟩ := List.mem_map.mp hc
    obtain ⟨front, back, hentries⟩ := List.append_of_mem he
    have split : t.contents (before ++ s :: after) =
        (t.contents before ++ front) ++ e :: (back ++ t.contents after) := by
      rw [contents_append, contents, contents, List.flatMap_cons, hentries]
      simp only [List.append_assoc, List.cons_append]
      rfl
    obtain ⟨hle, hnext⟩ := below _ e _ split k mem
    refine ⟨(ok.range_entries he).1.trans hle, fun x hx => ?_⟩
    cases back with
    | nil =>
        -- The next child belongs to the next page, and has its slot.
        cases after with
        | nil => cases hx
        | cons x' after =>
            obtain rfl := Option.mem_some_iff.mp hx
            have internal := (hafter.1.internal (Nat.succ_pos l)).1
            have head : (t.contents (x' :: after)).head? =
                some ⟨x'.key, (t.page x'.ptr).hdr.leftmostPtr⟩ := by
              rw [contents, List.flatMap_cons, Page.entries, if_neg internal]
              rfl
            exact hnext ⟨x'.key, (t.page x'.ptr).hdr.leftmostPtr⟩ head
    | cons e' back =>
        have he' : e' ∈ (t.page s.ptr).entries s.key := hentries ▸ by simp
        exact (hnext e' rfl).trans ((ok.range_entries he').2 x hx)

theorem Row.separated (h : t.Row (l + 1) row none) (spans : t.Spans l (t.contents row))
    {s : Entry} (mem : s ∈ row) : (t.page s.ptr).Separated (t.keysBelow l) := by
  obtain ⟨before, after, rfl⟩ := List.append_of_mem mem
  obtain ⟨-, ⟨ok, -⟩, -⟩ := row_split.mp h
  have internal := (ok.internal (Nat.succ_pos l)).1
  have split : t.contents (before ++ s :: after) = t.contents before ++
      ⟨s.key, (t.page s.ptr).hdr.leftmostPtr⟩ ::
        ((t.page s.ptr).live ++ t.contents after) := by
    rw [contents_append, contents, contents, List.flatMap_cons, Page.entries, if_neg internal]
    rfl
  constructor
  · intro e he k mem
    refine (spans _ _ _ split k mem).2 e ?_
    rw [List.head?_append, Option.mem_def.mp he]
    rfl
  · intro front e back hlive k mem
    have split' : t.contents (before ++ s :: after) =
        (t.contents before ++ ⟨s.key, (t.page s.ptr).hdr.leftmostPtr⟩ :: front) ++
          e :: (back ++ t.contents after) := by
      rw [split, hlive]
      simp only [List.append_assoc, List.cons_append]
    obtain ⟨hle, hnext⟩ := spans _ e _ split' k mem
    refine ⟨hle, fun x hx => hnext x ?_⟩
    rw [List.head?_append, Option.mem_def.mp hx]
    rfl

/-- The level under a row is what the row holds. -/
theorem ThinOver.level_eq (h : t.ThinOver n l row) : t.level n = row.map Entry.ptr := by
  induction n generalizing l row with
  | zero =>
      obtain rfl := h
      rfl
  | succ n ih =>
      obtain ⟨-, upper, hupper, upward, rfl⟩ := h
      rw [level, ih upward, contents, List.map_flatMap, List.flatMap_map]
      refine List.flatMap_congr fun s mem => ?_
      obtain ⟨_, ok, -⟩ := hupper.pageThin mem
      exact (map_ptr_entries ok).symm

theorem Over.level_eq (h : t.Over n l row) : t.level n = row.map Entry.ptr :=
  h.thin.level_eq

theorem ThinRows.depth_eq (h : t.ThinRows n 0 row) : t.depth = n :=
  h.root.trans (Nat.zero_add n)

theorem ThinRows.leafKeys_eq (h : t.ThinRows n 0 row) :
    t.leafKeys = (t.contents row).map Entry.key := by
  rw [leafKeys, h.depth_eq, h.upward.level_eq, h.isRow.leaves.contents_leaf, List.flatMap_map,
    List.map_flatMap]

/-- What a row has when the row below it has it, all rows have. -/
theorem Rows.each {P : Nat → List Entry → Prop} (h : t.Rows n l row) (start : P l row)
    (step : ∀ l upper, t.Row (l + 1) upper none → P l (t.contents upper) → P (l + 1) upper) :
    ∀ d ≤ n, ∃ r, t.Row (l + (n - d)) r none ∧ P (l + (n - d)) r ∧
      t.level d = r.map Entry.ptr ∧ (r.map Entry.ptr).Nodup := by
  induction n generalizing l row with
  | zero =>
      intro d hd
      obtain rfl := Nat.le_zero.mp hd
      exact ⟨row, h.isRow, start, h.upward.level_eq, h.upward.nodup⟩
  | succ n ih =>
      have here := h.upward.level_eq
      obtain ⟨hrow, nodup, upper, hupper, upward, rfl⟩ := h
      intro d hd
      rcases Nat.lt_or_eq_of_le hd with hd | rfl
      · obtain ⟨r, hr⟩ := ih ⟨hupper, upward⟩ (step l upper hupper start) d (Nat.le_of_lt_succ hd)
        rw [show l + (n + 1 - d) = l + 1 + (n - d) by omega]
        exact ⟨r, hr⟩
      · rw [Nat.sub_self]
        exact ⟨_, hrow, start, here, nodup⟩

/-- The form of one row, and of what lies below it. -/
def Formed (t : BTree) (l : Nat) (row : List Entry) : Prop :=
  t.Spans l row ∧ ∀ l', l = l' + 1 → t.Spans l' (t.contents row)

theorem Rows.wellFormed (h : t.Rows n 0 row) :
    t.WellFormed ∧ t.leafKeys = (t.contents row).map Entry.key := by
  have root : t.depth = n := h.thin.depth_eq
  have rows : ∀ d ≤ n, ∃ r, t.Row (n - d) r none ∧ t.Formed (n - d) r ∧
      t.level d = r.map Entry.ptr ∧ (r.map Entry.ptr).Nodup := fun d hd => by
    have := h.each (P := t.Formed) ⟨h.isRow.spans_leaf, by simp⟩ (fun l upper hupper below =>
      ⟨hupper.spans_internal below.1, fun l' hl => by
        obtain rfl := Nat.succ_inj.mp hl
        exact below.1⟩) d hd
    rwa [Nat.zero_add] at this
  have page : ∀ d ≤ n, ∀ p ∈ t.level d, ∃ s next, PageOk (t.page p) (n - d) s next :=
    fun d hd p mem => by
      obtain ⟨r, hr, -, level, -⟩ := rows d hd
      rw [level] at mem
      obtain ⟨s, hs, rfl⟩ := List.mem_map.mp mem
      obtain ⟨next, ok, -⟩ := hr.pageOk hs
      exact ⟨s, next, ok⟩
  refine ⟨⟨?_, ?_, ?_, ?_, ?_, ?_, ?_⟩, ?_⟩
  · intro d hd p mem
    obtain ⟨s, next, ok⟩ := page d (root ▸ hd) p mem
    exact ok.sound
  · intro d hd p mem
    obtain ⟨s, next, ok⟩ := page d (root ▸ hd) p mem
    exact root ▸ ok.level
  · intro p mem
    obtain ⟨s, next, ok⟩ := page n le_rfl p (root ▸ mem)
    exact (ok.leaf (Nat.sub_self n)).1
  · intro d hd p mem
    rw [root] at hd
    obtain ⟨s, next, ok⟩ := page d hd.le p mem
    exact ok.internal (Nat.sub_pos_of_lt hd)
  · intro d hd p mem
    rw [root] at hd ⊢
    obtain ⟨r, hr, ⟨-, below⟩, level, -⟩ := rows d hd.le
    have height : n - d = n - (d + 1) + 1 := by omega
    have spans := below _ height
    rw [level] at mem
    obtain ⟨s, hs, rfl⟩ := List.mem_map.mp mem
    rw [height] at hr
    exact hr.separated spans hs
  · intro d hd
    obtain ⟨r, -, -, level, nodup⟩ := rows d (root ▸ hd)
    exact level ▸ nodup
  · intro d hd front p back split
    obtain ⟨r, hr, -, level, -⟩ := rows d (root ▸ hd)
    rw [level] at split
    obtain ⟨before, rest, rfl, rfl, hrest⟩ := List.map_eq_append_iff.mp split
    obtain ⟨s, after, rfl, rfl, rfl⟩ := List.map_eq_cons_iff.mp hrest
    obtain ⟨-, ⟨ok, -⟩, -⟩ := row_split.mp hr
    rw [ok.sibling, List.head?_map]
  · exact h.thin.leafKeys_eq

end WellFormed

/-! ## The trees that calls lead to -/

section Run

variable {alloc : Allocator} {ops : List TreeOp} {t : BTree}

/-- After any completed calls on keys other than 0, repeated or not, the tree has its form; a
further insertion adds one key to the leaves, and a further deletion takes at most one, its
own. -/
theorem wellFormed_run (run : Run (empty alloc) (fun _ op => TreeKey op.key) ops t) :
    t.WellFormed ∧
      (∀ key t', TreeKey key → Returns (fun fuel => t.btreeInsert key key fuel) t' →
        t'.leafKeys.Perm (key :: t.leafKeys)) ∧
      ∀ key t', TreeKey key → Returns (fun fuel => t.btreeDelete key fuel) t' →
        t'.leafKeys.Perm t.leafKeys ∨ t.leafKeys.Perm (key :: t'.leafKeys) := by
  obtain ⟨n, row, rows, -⟩ := run.rows (fun _ _ => id) (rows_empty alloc).1
  obtain ⟨formed, keys⟩ := rows.wellFormed
  refine ⟨formed, fun key t' hkey returns => ?_, fun key t' hkey ⟨fuel, run⟩ => ?_⟩
  · obtain ⟨t₁, n', row', returns', rows', -, ins, -⟩ := rows.inserts hkey
    obtain rfl := (steady_btreeInsert key key t).unique returns returns'
    rw [rows'.wellFormed.2, keys]
    exact ins.perm.map Entry.key
  · obtain ⟨rows', -, change, -⟩ := rows.deletes hkey run
    rw [rows'.wellFormed.2, keys]
    rcases change with same | ⟨front, back, hfront, hback⟩
    · exact Or.inl (same ▸ List.Perm.refl _)
    · right
      rw [hfront, hback]
      exact (List.perm_middle).map Entry.key

/-- Insertions of one key that split the only leaf, and deletions that empty the second one. -/
def repeatsAndEmpties : List TreeOp :=
  List.replicate 28 (.insert 5) ++ List.replicate 15 (.delete 5)

/-- One key over and over, on two leaves. -/
theorem wellFormed_run_repeated :
    ∃ t, Run (empty (.bump 0)) (fun _ op => TreeKey op.key) repeatsAndEmpties t ∧
      (t.level t.depth).length = 2 ∧ t.WellFormed ∧
      ∀ t', Returns (fun fuel => t.btreeInsert 5 5 fuel) t' →
        t'.leafKeys.Perm (5 :: t.leafKeys) := by
  have checked : (calls (fun _ op => decide (TreeKey op.key)) 6 repeatsAndEmpties
      (empty (.bump 0))).any (fun t => decide ((t.level t.depth).length = 2)) = true := by
    decide +kernel
  obtain ⟨t, run, leaves⟩ := exists_run (fun _ _ => of_decide_eq_true) checked
  obtain ⟨formed, inserts, -⟩ := wellFormed_run run
  exact ⟨t, run, leaves, formed, fun t' => inserts 5 t' (by decide)⟩

end Run

end BTree

end F3Tree
