import F3Tree.WellFormed

/-!
# The two directions of a search

The parity of `switch_counter`, which the last insertion, deletion or split has left,
decides whether `linear_search` reads a page from left to right or from right to left.
Whichever it is, the answer is the same (`linearSearch_run`): the loops differ in where
they start and what ends them, but both skip a record with the `ptr` of the record in
front of it, and in the pages of the tree such records have one key.
-/

namespace F3Tree

open Keyed Fuel

namespace Page

/-- The page with another `switch_counter`. -/
def turned (p : Page) (c : UInt8) : Page := { p with hdr := { p.hdr with switchCounter := c } }

/-- The child of the rightmost separator that is not above the key, or the leftmost one. -/
def childFor (p : Page) (key : Int) : Int :=
  ((p.live.filter fun e => e.key ≤ key).getLast?.map Entry.ptr).getD p.hdr.leftmostPtr

end Page

namespace BTree

/-- What a search in a page should answer: in a leaf the value of the key, the right sibling
if the key may be there, or null; in an internal page the right sibling or a child. -/
def found (t : BTree) (p : Page) (key : Int) : Int :=
  let sib := p.hdr.siblingPtr
  let beyond := sib ≠ 0 ∧ key ≥ (t.page sib).firstKey
  if p.hdr.leftmostPtr = 0 then
    match p.live.find? fun e => e.key = key with
    | some e => e.ptr
    | none => if beyond then sib else 0
  else if beyond then sib else p.childFor key

end BTree

section PageOk

variable {t : BTree} {p : Page} {l : Nat} {s : Entry} {next : Option Entry}

theorem PageOk.turned (ok : PageOk p l s next) (c : UInt8) : PageOk (p.turned c) l s next := by
  obtain ⟨z, rest, holds, second⟩ := ok.holds
  exact ⟨⟨z, rest, ⟨holds.records, holds.live, holds.stop, holds.lastIndex⟩, second⟩, ok.size,
    ok.alive, ok.level, ok.sibling, ok.ordered, ok.range, ok.below, ok.leaf, ok.internal⟩

theorem Page.childOf_cut {below above : List Entry} {key : Int}
    (cut : Cut Entry.key key p.live below above) :
    Page.childOf p.hdr.leftmostPtr below = p.childFor key := by
  have hfilter : (p.live.filter fun e => e.key ≤ key) = below := by
    rw [cut.eq, List.filter_append,
      List.filter_eq_self.mpr fun e mem => decide_eq_true (cut.le e mem),
      List.filter_eq_nil_iff.mpr fun e mem => by simpa using cut.lt e mem, List.append_nil]
  rw [Page.childFor, hfilter]
  rfl

/-- A search in a leaf. -/
theorem PageOk.linearSearch_leaf (ok : PageOk p 0 s next) (key : Int) :
    t.linearSearch p key = some (t.found p key) := by
  obtain ⟨z, rest, holds, second⟩ := ok.holds
  obtain ⟨leaf, values⟩ := ok.leaf rfl
  unfold BTree.linearSearch BTree.found
  rw [if_pos leaf, if_pos leaf, holds.searchLeaf_eq values second key]
  simp only [Option.bind_eq_bind, Option.bind_some]
  cases hfind : p.live.find? fun e => e.key = key with
  | none =>
      have absent : ¬ ∃ e ∈ p.live, e.key = key := by
        rintro ⟨e, mem, hkey⟩
        simpa [hkey] using List.find?_eq_none.mp hfind e mem
      rw [if_neg absent, if_neg (not_not.mpr rfl)]
      exact (apply_ite some _ _ _).symm
  | some e =>
      have mem := List.mem_of_find?_eq_some hfind
      have hkey : e.key = key := by simpa using List.find?_some hfind
      have value : e.ptr = key := (values e mem).trans hkey
      have ne : key ≠ 0 := value ▸ holds.live e mem
      have has : ∃ e ∈ p.live, e.key = key := ⟨e, mem, hkey⟩
      rw [if_pos has, if_pos ne, ← value]
      rfl

/-- A search in an internal page, whose children are distinct. -/
theorem PageOk.linearSearch_internal (ok : PageOk p (l + 1) s next) (nodup : p.children.Nodup)
    (key : Int) : t.linearSearch p key = some (t.found p key) := by
  obtain ⟨z, rest, holds, -⟩ := ok.holds
  obtain ⟨internal, nonempty⟩ := ok.internal (Nat.succ_pos l)
  obtain ⟨below, above, cut⟩ := ok.ordered.cut key
  rw [Page.children, if_neg internal] at nodup
  obtain ⟨ret, search, hret⟩ := holds.searchInternal_eq nonempty nodup cut
  unfold BTree.linearSearch BTree.found
  rw [if_neg internal, if_neg internal, search, ← Page.childOf_cut cut, ← hret]
  simp only [Option.bind_eq_bind, Option.bind_some]
  split
  · rfl
  · split
    · rfl
    · rfl

end PageOk

namespace BTree

section Run

variable {alloc : Allocator} {ops : List TreeOp} {t : BTree} {d : Nat} {p : Int}

theorem found_turned (t : BTree) (p : Page) (c : UInt8) (key : Int) :
    t.found (p.turned c) key = t.found p key := rfl

/-- The pages of the tree are those of its rows, and their children are distinct. -/
theorem Rows.pageOk_level {n : Nat} {row : List Entry} (h : t.Rows n 0 row) (hd : d ≤ t.depth)
    (mem : p ∈ t.level d) :
    ∃ s next, PageOk (t.page p) (t.depth - d) s next ∧ t.Allocated p ∧
      (t.page p).children.Nodup := by
  have root : t.depth = n := h.root.trans (Nat.zero_add n)
  obtain ⟨r, hr, -, level, -⟩ :=
    h.each (P := fun _ _ => True) trivial (fun _ _ _ _ => trivial) d (root ▸ hd)
  rw [Nat.zero_add] at hr
  have hp := mem
  rw [level] at hp
  obtain ⟨s, hs, rfl⟩ := List.mem_map.mp hp
  obtain ⟨next, ok, alloc⟩ := hr.pageOk hs
  refine ⟨s, next, root ▸ ok, alloc, ?_⟩
  rcases Nat.lt_or_eq_of_le hd with inner | rfl
  · -- The children of the page are part of the level below it.
    have all := h.wellFormed.1.distinct (d + 1) inner
    rw [BTree.level] at all
    exact (List.nodup_flatMap.mp all).1 s.ptr mem
  · rw [root, Nat.sub_self] at ok
    rw [Page.children, if_pos (ok.leaf rfl).1]
    exact List.nodup_nil

/-- In every page of a tree that insertions and deletions of keys other than 0 lead to, on every
level, a search answers the same, whichever way it reads the page. -/
theorem linearSearch_run (run : Run (empty alloc) (fun _ op => TreeKey op.key) ops t)
    (hd : d ≤ t.depth) (mem : p ∈ t.level d) (key : Int) (c : UInt8) :
    t.linearSearch ((t.page p).turned c) key = some (t.found (t.page p) key) := by
  obtain ⟨n, row, rows, -⟩ := run.rows (fun _ _ => id) (rows_empty alloc).1
  obtain ⟨s, next, ok, -, nodup⟩ := rows.pageOk_level hd mem
  rw [← found_turned t _ c]
  have ok := ok.turned c
  cases height : t.depth - d with
  | zero => exact (height ▸ ok).linearSearch_leaf key
  | succ l => exact (height ▸ ok).linearSearch_internal nodup key

/-- A leaf with a record twice, read from right to left. -/
theorem linearSearch_run_repeated :
    ∃ t, Run (empty (.bump 100)) (fun _ op => TreeKey op.key)
        [.insert 5, .insert 7, .insert 5] t ∧
      t.linearSearch ((t.page t.root).turned 1) 5 = some 5 := by
  have run : Run (empty (.bump 100)) (fun _ op => TreeKey op.key)
      [.insert 5, .insert 7, .insert 5] _ :=
    ((Run.nil.step (.insert 5) (by decide) ⟨2, rfl⟩).step (.insert 7) (by decide)
      ⟨2, rfl⟩).step (.insert 5) (by decide) ⟨2, rfl⟩
  exact ⟨_, run, linearSearch_run run (Nat.zero_le _) (List.mem_singleton_self _) 5 1⟩

end Run

end BTree

end F3Tree
