import F3Tree.Thin

/-!
# Rows of pages with records

In the trees that insertions and deletions lead to, every internal page has a record.
`Rows t n l row` says that of the rows of `ThinRows`, and the lemmas about them come from
there.
-/

namespace F3Tree

open Keyed Fuel

/-- A page of level `l` in the slot `s`, with the slot `next` to its right. -/
structure PageOk (p : Page) (l : Nat) (s : Entry) (next : Option Entry) : Prop where
  holds : ∃ z rest, p.Holds p.live z rest ∧
    (p.live = [] → ∃ z' rest', rest = z' :: rest' ∧ z'.ptr = 0)
  size : p.records.length = cardinality
  alive : p.hdr.isDeleted = false
  level : p.hdr.level = l
  sibling : p.hdr.siblingPtr = (next.map Entry.ptr).getD 0
  ordered : Ordered Entry.key p.live
  /-- Also of the records behind the live ones. -/
  range : ∀ e ∈ p.records, s.key ≤ e.key ∧ e.key ≤ longMax
  below : ∀ n ∈ next, s.key ≤ n.key ∧ (∀ e ∈ p.live, e.key ≤ n.key) ∧
    (p.live.filter fun e => e.key = n.key).length ≤ (cardinality - 1) / 2
  leaf : l = 0 → p.hdr.leftmostPtr = 0 ∧ ∀ e ∈ p.live, e.ptr = e.key
  internal : 0 < l → p.hdr.leftmostPtr ≠ 0 ∧ p.live ≠ []

namespace BTree

/-- The pages of a row, with the slot `next` to its right. -/
def Row (t : BTree) (l : Nat) : List Entry → Option Entry → Prop
  | [], _ => True
  | s :: row, next =>
      PageOk (t.page s.ptr) l s (row.head?.or next) ∧ t.Allocated s.ptr ∧ Row t l row next

/-- The slots of `row` are those that the `n` rows over it hold, up to the root. -/
def Over (t : BTree) : Nat → Nat → List Entry → Prop
  | 0, _, row => row = [⟨longMin, t.root⟩]
  | n + 1, l, row =>
      (row.map Entry.ptr).Nodup ∧
        ∃ upper, t.Row (l + 1) upper none ∧ Over t n (l + 1) upper ∧ t.contents upper = row

structure Rows (t : BTree) (n l : Nat) (row : List Entry) : Prop where
  isRow : t.Row l row none
  upward : t.Over n l row

end BTree

/-! ## One page -/

section PageOk

variable {p : Page} {l : Nat} {s : Entry} {next : Option Entry}

theorem PageOk.thin (ok : PageOk p l s next) : PageThin p l s next :=
  ⟨ok.holds, ok.size, ok.alive, ok.level, ok.sibling, ok.ordered, ok.range, ok.below, ok.leaf,
    fun hl => (ok.internal hl).1⟩

theorem PageThin.ok (thin : PageThin p l s next) (nonempty : 0 < l → p.live ≠ []) :
    PageOk p l s next :=
  ⟨thin.holds, thin.size, thin.alive, thin.level, thin.sibling, thin.ordered, thin.range,
    thin.below, thin.leaf, fun hl => ⟨thin.internal hl, nonempty hl⟩⟩

theorem PageOk.mem_records (ok : PageOk p l s next) {e : Entry} (mem : e ∈ p.live) :
    e ∈ p.records :=
  ok.thin.mem_records mem

theorem PageOk.length_live (ok : PageOk p l s next) : p.live.length < cardinality :=
  ok.thin.length_live

theorem PageOk.count_eq (ok : PageOk p l s next) : p.count = some p.live.length :=
  ok.thin.count_eq

theorem PageOk.least_le_firstKey (ok : PageOk p l s next) : s.key ≤ p.firstKey :=
  ok.thin.least_le_firstKey

theorem PageOk.range_entries (ok : PageOk p l s next) {e : Entry} (mem : e ∈ p.entries s.key) :
    s.key ≤ e.key ∧ ∀ n ∈ next, e.key ≤ n.key :=
  ok.thin.range_entries mem

theorem PageOk.aboveLeaves_iff (ok : PageOk p l s next) :
    BTree.aboveLeaves p = true ↔ 0 < l :=
  ok.thin.aboveLeaves_iff

theorem PageOk.firstKey_mem (ok : PageOk p l s next) (nonempty : p.live ≠ []) :
    ∃ e es, p.live = e :: es ∧ p.firstKey = e.key := by
  obtain ⟨z, rest, holds, -⟩ := ok.holds
  obtain ⟨e, es, hlive⟩ := List.exists_cons_of_ne_nil nonempty
  refine ⟨e, es, hlive, ?_⟩
  rw [Page.firstKey, holds.records, hlive]
  rfl

theorem PageOk.firstKey_eq (ok : PageOk p l s next) (has : ∃ e ∈ p.live, e.key = s.key) :
    p.firstKey = s.key := by
  obtain ⟨e, mem, hkey⟩ := has
  obtain ⟨first, es, hlive, hfirst⟩ := ok.firstKey_mem (List.ne_nil_of_mem mem)
  refine le_antisymm ?_ ok.least_le_firstKey
  have ordered := ok.ordered
  rw [hlive] at mem ordered
  rw [hfirst, ← hkey]
  rcases List.mem_cons.mp mem with rfl | mem
  · exact le_rfl
  · exact (List.pairwise_cons.mp ordered).1 e mem

theorem PageOk.entries_leaf (ok : PageOk p 0 s next) (least : Int) : p.entries least = p.live :=
  if_pos (ok.leaf rfl).1

/-- A page may have a slot further to the left. -/
theorem PageOk.lower {s' : Entry} (ok : PageOk p l s next) (hle : s'.key ≤ s.key) :
    PageOk p l s' next :=
  ⟨ok.holds, ok.size, ok.alive, ok.level, ok.sibling, ok.ordered,
    fun e mem => ⟨hle.trans (ok.range e mem).1, (ok.range e mem).2⟩,
    fun n hn => ⟨hle.trans (ok.below n hn).1, (ok.below n hn).2⟩, ok.leaf, ok.internal⟩

end PageOk

namespace BTree

/-! ## One row -/

section Row

variable {t t' : BTree} {l : Nat} {row before after : List Entry} {s : Entry}
  {next : Option Entry}

/-- What a row has beyond a thin one. -/
theorem row_iff :
    t.Row l row next ↔
      t.ThinRow l row next ∧ (0 < l → ∀ s ∈ row, (t.page s.ptr).live ≠ []) := by
  induction row with
  | nil => simp [Row, ThinRow]
  | cons s row ih =>
      rw [Row, ThinRow, ih]
      constructor
      · rintro ⟨ok, alloc, rest, full⟩
        exact ⟨⟨ok.thin, alloc, rest⟩, fun hl =>
          List.forall_mem_cons.mpr ⟨(ok.internal hl).2, full hl⟩⟩
      · rintro ⟨⟨thin, alloc, rest⟩, full⟩
        exact ⟨thin.ok fun hl => full hl s List.mem_cons_self, alloc, rest, fun hl x mem =>
          full hl x (List.mem_cons_of_mem _ mem)⟩

theorem Row.thin (h : t.Row l row next) : t.ThinRow l row next :=
  (row_iff.mp h).1

/-- The leaves of a thin tree are leaves as any. -/
theorem ThinRow.leaves (h : t.ThinRow 0 row next) : t.Row 0 row next :=
  row_iff.mpr ⟨h, fun hl => absurd hl (lt_irrefl 0)⟩

theorem row_append {row' : List Entry} :
    t.Row l (row ++ row') next ↔ t.Row l row (row'.head?.or next) ∧ t.Row l row' next := by
  rw [row_iff, row_iff, row_iff, thinRow_append]
  simp only [List.forall_mem_append, imp_and]
  tauto

theorem row_split :
    t.Row l (before ++ s :: after) none ↔
      t.Row l before (some s) ∧ (PageOk (t.page s.ptr) l s after.head? ∧ t.Allocated s.ptr) ∧
        t.Row l after none := by
  simp only [row_append, Row, Option.or_none, List.head?_cons, and_assoc]

/-- A row lies in its own pages. -/
theorem Row.congr (h : t.Row l row next) (pages : ∀ s ∈ row, t'.page s.ptr = t.page s.ptr)
    (allocated : ∀ p, t.Allocated p → t'.Allocated p) : t'.Row l row next := by
  obtain ⟨thin, full⟩ := row_iff.mp h
  exact row_iff.mpr ⟨thin.congr pages allocated, fun hl s mem => pages s mem ▸ full hl s mem⟩

theorem Row.pageOk (h : t.Row l row next) (mem : s ∈ row) :
    ∃ n, PageOk (t.page s.ptr) l s n ∧ t.Allocated s.ptr := by
  obtain ⟨thin, full⟩ := row_iff.mp h
  obtain ⟨n, ok, alloc⟩ := thin.pageThin mem
  exact ⟨n, ok.ok fun hl => full hl s mem, alloc⟩

/-- Slots, and what their pages hold, do not lie beyond the next slot. -/
theorem Row.le_next (h : t.Row l row next) {n : Entry} (hn : n ∈ next) (mem : s ∈ row) :
    s.key ≤ n.key ∧ ∀ e ∈ (t.page s.ptr).entries s.key, e.key ≤ n.key :=
  h.thin.le_next hn mem

theorem Row.ordered (h : t.Row l row next) : Ordered Entry.key row :=
  h.thin.ordered

theorem Row.ordered_contents (h : t.Row l row next) : Ordered Entry.key (t.contents row) :=
  h.thin.ordered_contents

/-- The look at the sibling never leads away from the home page of a key. -/
theorem Row.stays (h : t.Row l row none) {key : Int}
    (home : Cut Entry.key key row (before ++ [s]) after) :
    ¬ ((t.page s.ptr).hdr.siblingPtr ≠ 0 ∧
      (t.page (t.page s.ptr).hdr.siblingPtr).firstKey ≤ key) :=
  h.thin.stays home

end Row

/-! ## All rows -/

section Rows

variable {t t' : BTree} {n l : Nat} {row : List Entry}

theorem Over.thin (h : t.Over n l row) : t.ThinOver n l row := by
  induction n generalizing l row with
  | zero => exact h
  | succ n ih =>
      obtain ⟨nodup, upper, hupper, upward, contents⟩ := h
      exact ⟨nodup, upper, hupper.thin, ih upward, contents⟩

theorem Rows.thin (h : t.Rows n l row) : t.ThinRows n l row :=
  ⟨h.isRow.thin, h.upward.thin⟩

theorem Over.nodup (h : t.Over n l row) : (row.map Entry.ptr).Nodup :=
  h.thin.nodup

theorem Over.least (h : t.Over n l row) : ∀ s ∈ row, longMin ≤ s.key :=
  h.thin.least

/-- Every key has a home page in the row. -/
theorem Over.home (h : t.Over n l row) {key : Int} (hkey : longMin ≤ key) :
    ∃ before s after, Cut Entry.key key row (before ++ [s]) after :=
  h.thin.home hkey

/-- The root is the only page of the top row. -/
theorem Rows.root (h : t.Rows n l row) : (t.page t.root).hdr.level = l + n :=
  h.thin.root

/-- A descent that goes on above level `l` comes to the home page of the key in the
row of level `l`. -/
theorem Over.comes (h : t.Over n l row) {key : Int} (hkey : longMin ≤ key)
    {more : Page → Bool}
    (goesOn : ∀ {p l' s next}, PageThin p l' s next → l < l' → more p = true)
    {before after : List Entry} {s : Entry}
    (home : Cut Entry.key key row (before ++ [s]) after) {q : Int}
    (rest : Returns (fun fuel => t.descend more key fuel s.ptr) q) :
    Returns (fun fuel => t.descend more key fuel t.root) q :=
  h.thin.comes hkey goesOn home rest

end Rows

end BTree

end F3Tree
