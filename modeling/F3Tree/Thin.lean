import F3Tree.Lib.Fuel
import F3Tree.BTree
import F3Tree.PageRecords

/-!
# The rows of the tree

The pages of one level form a row from left to right.  A row is described by its
slots: an entry whose `ptr` is the page and whose `key` is the least key that the
page is responsible for, which is the separator in front of the page one level up.
The slots of the children of a page are again entries, so the row below is the
concatenation of what the pages of a row hold (`contents`), and so are, at the
leaves, the records of the tree.

`ThinRows t n l row` says that `row` is the row of level `l` and that `n` rows lie over
it, up to the root.  The rows are thin in that an internal page need not have a record:
its leftmost child is enough.  A descent for a key comes, in each row, to the last page
whose slot is up to the key (`ThinOver.comes`).
-/

namespace F3Tree

open Keyed Fuel

/-- What a page with the least key `least` holds: the slots of its children, or its
records. -/
def Page.entries (p : Page) (least : Int) : List Entry :=
  if p.hdr.leftmostPtr = 0 then p.live else ⟨least, p.hdr.leftmostPtr⟩ :: p.live

/-- A page of level `l` in the slot `s`, with the slot `next` to its right. -/
structure PageThin (p : Page) (l : Nat) (s : Entry) (next : Option Entry) : Prop where
  holds : ∃ z rest, p.Holds p.live z rest ∧
    (p.live = [] → ∃ z' rest', rest = z' :: rest' ∧ z'.ptr = 0)
  size : p.records.length = cardinality
  alive : p.hdr.isDeleted = false
  level : p.hdr.level = l
  sibling : p.hdr.siblingPtr = (next.map Entry.ptr).getD 0
  ordered : Ordered Entry.key p.live
  /-- Also of the records behind the live ones. -/
  range : ∀ e ∈ p.records, s.key ≤ e.key ∧ e.key ≤ longMax
  below : ∀ n ∈ next, s.key ≤ n.key ∧ (∀ e ∈ p.live, e.key ≤ n.key) ∧
    (p.live.filter fun e => e.key = n.key).length ≤ (cardinality - 1) / 2
  leaf : l = 0 → p.hdr.leftmostPtr = 0 ∧ ∀ e ∈ p.live, e.ptr = e.key
  internal : 0 < l → p.hdr.leftmostPtr ≠ 0

namespace BTree

/-- The page has been allocated. -/
def Allocated (t : BTree) (p : Int) : Prop := ∃ i < t.allocated, p = t.alloc.addr i

/-- The pages of a row, with the slot `next` to its right. -/
def ThinRow (t : BTree) (l : Nat) : List Entry → Option Entry → Prop
  | [], _ => True
  | s :: row, next =>
      PageThin (t.page s.ptr) l s (row.head?.or next) ∧ t.Allocated s.ptr ∧ ThinRow t l row next

/-- What the pages of a row hold. -/
def contents (t : BTree) (row : List Entry) : List Entry :=
  row.flatMap fun s => (t.page s.ptr).entries s.key

/-- The slots of `row` are those that the `n` rows over it hold, up to the root. -/
def ThinOver (t : BTree) : Nat → Nat → List Entry → Prop
  | 0, _, row => row = [⟨longMin, t.root⟩]
  | n + 1, l, row =>
      (row.map Entry.ptr).Nodup ∧
        ∃ upper, t.ThinRow (l + 1) upper none ∧ ThinOver t n (l + 1) upper ∧ t.contents upper = row

structure ThinRows (t : BTree) (n l : Nat) (row : List Entry) : Prop where
  isRow : t.ThinRow l row none
  upward : t.ThinOver n l row

end BTree

/-! ## One page -/

section PageThin

variable {p : Page} {l : Nat} {s : Entry} {next : Option Entry}

theorem Allocator.ne_null_of {t : BTree} {p : Int} (h : t.Allocated p) : p ≠ 0 := by
  obtain ⟨i, -, rfl⟩ := h
  exact t.alloc.ne_null i

theorem PageThin.mem_records (ok : PageThin p l s next) {e : Entry} (mem : e ∈ p.live) :
    e ∈ p.records := by
  obtain ⟨z, rest, holds, -⟩ := ok.holds
  rw [holds.records]
  exact List.mem_append_left _ mem

theorem PageThin.length_live (ok : PageThin p l s next) : p.live.length < cardinality := by
  obtain ⟨z, rest, holds, -⟩ := ok.holds
  have := ok.size
  rw [holds.records, List.length_append, List.length_cons] at this
  omega

theorem PageThin.count_eq (ok : PageThin p l s next) : p.count = some p.live.length := by
  obtain ⟨z, rest, holds, -⟩ := ok.holds
  exact holds.count_eq

theorem PageThin.least_le_firstKey (ok : PageThin p l s next) : s.key ≤ p.firstKey := by
  have hsize : p.records.length = 28 := ok.size
  cases hrecords : p.records with
  | nil => simp [hrecords] at hsize
  | cons e rest =>
      rw [Page.firstKey, hrecords]
      exact (ok.range e (hrecords ▸ List.mem_cons_self)).1

theorem PageThin.range_entries (ok : PageThin p l s next) {e : Entry} (mem : e ∈ p.entries s.key) :
    s.key ≤ e.key ∧ ∀ n ∈ next, e.key ≤ n.key := by
  have live : e ∈ p.live → s.key ≤ e.key ∧ ∀ n ∈ next, e.key ≤ n.key := fun mem =>
    ⟨(ok.range e (ok.mem_records mem)).1, fun n hn => (ok.below n hn).2.1 e mem⟩
  rw [Page.entries] at mem
  split at mem
  · exact live mem
  · rcases List.mem_cons.mp mem with rfl | mem
    · exact ⟨le_rfl, fun n hn => (ok.below n hn).1⟩
    · exact live mem

theorem PageThin.ordered_entries (ok : PageThin p l s next) :
    Ordered Entry.key (p.entries s.key) := by
  rw [Page.entries]
  split
  · exact ok.ordered
  · exact List.pairwise_cons.mpr
      ⟨fun e mem => (ok.range e (ok.mem_records mem)).1, ok.ordered⟩

theorem PageThin.aboveLeaves_iff (ok : PageThin p l s next) :
    BTree.aboveLeaves p = true ↔ 0 < l := by
  rw [BTree.aboveLeaves, decide_eq_true_iff]
  rcases Nat.eq_zero_or_pos l with rfl | hl
  · exact iff_of_false (not_not.mpr (ok.leaf rfl).1) (Nat.lt_irrefl 0)
  · exact iff_of_true (ok.internal hl) hl

theorem PageThin.aboveLevel_iff (ok : PageThin p l s next) (level : Nat) :
    BTree.aboveLevel level p = true ↔ level < l := by
  rw [BTree.aboveLevel, decide_eq_true_iff, ok.level]

end PageThin

namespace BTree

/-! ## One row -/

section ThinRow

variable {t t' : BTree} {l : Nat} {row before after : List Entry} {s : Entry}
  {next : Option Entry}

theorem thinRow_append {row' : List Entry} :
    t.ThinRow l (row ++ row') next ↔
      t.ThinRow l row (row'.head?.or next) ∧ t.ThinRow l row' next := by
  induction row with
  | nil => simp [ThinRow]
  | cons s row ih =>
      rw [List.cons_append, ThinRow, ThinRow, ih, List.head?_append, Option.or_assoc]
      tauto

theorem thinRow_split :
    t.ThinRow l (before ++ s :: after) none ↔
      t.ThinRow l before (some s) ∧ (PageThin (t.page s.ptr) l s after.head? ∧ t.Allocated s.ptr) ∧
        t.ThinRow l after none := by
  simp only [thinRow_append, ThinRow, Option.or_none, List.head?_cons, and_assoc]

/-- A row lies in its own pages. -/
theorem ThinRow.congr (h : t.ThinRow l row next) (pages : ∀ s ∈ row, t'.page s.ptr = t.page s.ptr)
    (allocated : ∀ p, t.Allocated p → t'.Allocated p) : t'.ThinRow l row next := by
  induction row with
  | nil => trivial
  | cons s row ih =>
      obtain ⟨ok, alloc, rest⟩ := h
      obtain ⟨same, pages⟩ := List.forall_mem_cons.mp pages
      exact ⟨same ▸ ok, allocated _ alloc, ih rest pages⟩

theorem ThinRow.pageThin (h : t.ThinRow l row next) (mem : s ∈ row) :
    ∃ n, PageThin (t.page s.ptr) l s n ∧ t.Allocated s.ptr := by
  induction row with
  | nil => exact absurd mem List.not_mem_nil
  | cons s' row ih =>
      obtain ⟨ok, alloc, rest⟩ := h
      rcases List.mem_cons.mp mem with rfl | mem
      · exact ⟨_, ok, alloc⟩
      · exact ih rest mem

/-- Slots, and what their pages hold, do not lie beyond the next slot. -/
theorem ThinRow.le_next (h : t.ThinRow l row next) {n : Entry} (hn : n ∈ next) (mem : s ∈ row) :
    s.key ≤ n.key ∧ ∀ e ∈ (t.page s.ptr).entries s.key, e.key ≤ n.key := by
  induction row generalizing s with
  | nil => exact absurd mem List.not_mem_nil
  | cons s' row ih =>
      obtain ⟨ok, -, rest⟩ := h
      rcases List.mem_cons.mp mem with rfl | mem
      · cases row with
        | nil => exact ⟨(ok.below n hn).1, fun e he => (ok.range_entries he).2 n hn⟩
        | cons s'' row =>
            have hle := (ih rest List.mem_cons_self).1
            have hs : s'' ∈ ((s'' :: row).head?.or next) := rfl
            exact ⟨(ok.below s'' hs).1.trans hle, fun e he =>
              ((ok.range_entries he).2 s'' hs).trans hle⟩
      · exact ih rest mem

theorem ThinRow.ordered (h : t.ThinRow l row next) : Ordered Entry.key row := by
  induction row with
  | nil => exact .nil
  | cons s row ih =>
      refine List.pairwise_cons.mpr ⟨fun s' mem => ?_, ih h.2.2⟩
      obtain ⟨before, after, rfl⟩ := List.append_of_mem mem
      have h' : t.ThinRow l ((s :: before) ++ s' :: after) next := h
      have hsplit := thinRow_append.mp h'
      exact (ThinRow.le_next hsplit.1 (n := s') rfl List.mem_cons_self).1

theorem ThinRow.ordered_contents (h : t.ThinRow l row next) :
    Ordered Entry.key (t.contents row) := by
  induction row with
  | nil => exact .nil
  | cons s row ih =>
      obtain ⟨ok, -, rest⟩ := h
      refine ok.ordered_entries.append (ih rest) fun e he e' he' => ?_
      obtain ⟨s', mem, he'⟩ := List.mem_flatMap.mp he'
      obtain ⟨n, ok', -⟩ := rest.pageThin mem
      refine le_trans ?_ (ok'.range_entries he').1
      cases row with
      | nil => exact absurd mem List.not_mem_nil
      | cons s'' row =>
          refine ((ok.range_entries he).2 s'' rfl).trans ?_
          rcases List.mem_cons.mp mem with rfl | mem
          · exact le_rfl
          · exact (List.pairwise_cons.mp rest.ordered).1 s' mem

/-- What a row holds is cut in the home page of the key. -/
theorem ThinRow.cut_contents (h : t.ThinRow l row none) {key : Int} {below above : List Entry}
    (home : Cut Entry.key key row (before ++ [s]) after)
    (cut : Cut Entry.key key ((t.page s.ptr).entries s.key) below above) :
    Cut Entry.key key (t.contents row) (t.contents before ++ below)
      (above ++ t.contents after) := by
  have hrow := home.split
  refine .flatMap hrow cut (fun s' mem e he => ?_) fun s' mem e he => ?_
  · obtain ⟨left, -, -⟩ := thinRow_split.mp (hrow ▸ h)
    exact ((left.le_next rfl mem).2 e he).trans home.last_le
  · obtain ⟨-, -, right⟩ := thinRow_split.mp (hrow ▸ h)
    obtain ⟨n, ok, -⟩ := right.pageThin mem
    exact lt_of_lt_of_le (home.lt s' mem) (ok.range_entries he).1

/-- The look at the sibling never leads away from the home page of a key. -/
theorem ThinRow.stays (h : t.ThinRow l row none) {key : Int}
    (home : Cut Entry.key key row (before ++ [s]) after) :
    ¬ ((t.page s.ptr).hdr.siblingPtr ≠ 0 ∧
      (t.page (t.page s.ptr).hdr.siblingPtr).firstKey ≤ key) := by
  have hrow := home.split
  obtain ⟨-, ⟨ok, -⟩, right⟩ := thinRow_split.mp (hrow ▸ h)
  rintro ⟨hsib, hle⟩
  cases after with
  | nil => exact hsib ok.sibling
  | cons n after =>
      have hsib : (t.page s.ptr).hdr.siblingPtr = n.ptr := ok.sibling
      rw [hsib] at hle
      exact absurd (right.1.least_le_firstKey.trans hle) (not_le.mpr (home.lt n (by simp)))

end ThinRow

/-! ## All rows -/

section ThinRows

variable {t t' : BTree} {n l : Nat} {row : List Entry}

theorem ThinOver.nodup (h : t.ThinOver n l row) : (row.map Entry.ptr).Nodup := by
  cases n with
  | zero =>
      obtain rfl := h
      simp
  | succ n => exact h.1

theorem ThinOver.ordered (h : t.ThinOver n l row) : Ordered Entry.key row := by
  cases n with
  | zero =>
      obtain rfl := h
      exact List.pairwise_singleton ..
  | succ n =>
      obtain ⟨-, upper, hupper, -, rfl⟩ := h
      exact hupper.ordered_contents

/-- The leftmost page of a row is responsible for everything to the left. -/
theorem ThinOver.head (h : t.ThinOver n l row) : ∃ p rest, row = ⟨longMin, p⟩ :: rest := by
  induction n generalizing l row with
  | zero => exact ⟨_, _, h⟩
  | succ n ih =>
      obtain ⟨-, upper, hupper, upward, rfl⟩ := h
      obtain ⟨p, rest, rfl⟩ := ih upward
      obtain ⟨ok, -, -⟩ := hupper
      have internal := ok.internal (Nat.succ_pos l)
      refine ⟨(t.page p).hdr.leftmostPtr, (t.page p).live ++ t.contents rest, ?_⟩
      rw [contents, List.flatMap_cons, Page.entries, if_neg internal, List.cons_append]
      rfl

theorem ThinOver.least (h : t.ThinOver n l row) : ∀ s ∈ row, longMin ≤ s.key := by
  have ordered := h.ordered
  obtain ⟨p, rest, rfl⟩ := h.head
  intro s mem
  rcases List.mem_cons.mp mem with rfl | mem
  · exact le_rfl
  · exact (List.pairwise_cons.mp ordered).1 s mem

/-- Every key has a home page in the row. -/
theorem ThinOver.home (h : t.ThinOver n l row) {key : Int} (hkey : longMin ≤ key) :
    ∃ before s after, Cut Entry.key key row (before ++ [s]) after := by
  obtain ⟨below, above, cut⟩ := h.ordered.cut key
  obtain ⟨p, rest, rfl⟩ := h.head
  obtain ⟨before, s, rfl⟩ := cut.exists_last hkey
  exact ⟨before, s, above, cut⟩

/-- The root is the only page of the top row. -/
theorem ThinRows.root (h : t.ThinRows n l row) : (t.page t.root).hdr.level = l + n := by
  induction n generalizing l row with
  | zero =>
      obtain ⟨hrow, rfl⟩ := h
      exact hrow.1.level
  | succ n ih =>
      obtain ⟨-, -, upper, hupper, upward, -⟩ := h
      rw [ih ⟨hupper, upward⟩]
      omega

/-- In a page over the row, `linear_search` answers the home page of the key. -/
theorem ThinRow.linearSearch_internal {upper : List Entry} (hupper : t.ThinRow (l + 1) upper none)
    (nodup : ((t.contents upper).map Entry.ptr).Nodup) {key : Int}
    {before after : List Entry} {s : Entry}
    (home : Cut Entry.key key upper (before ++ [s]) after) {init above : List Entry} {c : Entry}
    (cut : Cut Entry.key key ((t.page s.ptr).entries s.key) (init ++ [c]) above) :
    t.linearSearch (t.page s.ptr) key = some c.ptr := by
  have hrow := home.split
  obtain ⟨-, ⟨ok, -⟩, -⟩ := thinRow_split.mp (hrow ▸ hupper)
  have internal := ok.internal (Nat.succ_pos l)
  have hentries : (t.page s.ptr).entries s.key =
      ⟨s.key, (t.page s.ptr).hdr.leftmostPtr⟩ :: (t.page s.ptr).live := by
    rw [Page.entries, if_neg internal]
  have nodup' : ((t.page s.ptr).hdr.leftmostPtr :: (t.page s.ptr).live.map Entry.ptr).Nodup := by
    rw [hrow, contents, List.flatMap_append, List.flatMap_cons, hentries] at nodup
    simp only [List.map_append, List.map_cons] at nodup
    exact (List.nodup_append.mp (List.nodup_append.mp nodup).2.1).1
  -- The cut of the live records, behind the slot of the leftmost child.
  obtain ⟨below, hbelow, hlast⟩ : ∃ below, Cut Entry.key key (t.page s.ptr).live below above ∧
      Page.childOf (t.page s.ptr).hdr.leftmostPtr below = c.ptr := by
    obtain ⟨heq, le, lt⟩ := cut
    rw [hentries] at heq
    cases init with
    | nil =>
        obtain ⟨rfl, tail⟩ := List.cons.inj heq
        exact ⟨[], ⟨tail, by simp, lt⟩, rfl⟩
    | cons e init =>
        obtain ⟨-, tail⟩ := List.cons.inj heq
        refine ⟨init ++ [c], ⟨tail, fun e' mem => le e' (List.mem_cons_of_mem _ mem), lt⟩, ?_⟩
        simp [Page.childOf]
  obtain ⟨z, rest, holds, second⟩ := ok.holds
  obtain ⟨ret, search, hret⟩ := holds.searchInternal_thin second nodup' hbelow
  rw [linearSearch, if_neg internal, search]
  simp only [Option.bind_eq_bind, Option.bind_some]
  rw [if_neg (hupper.stays home), ← hlast, ← hret]
  split <;> rfl

/-- The home page of a key is a child of the home page one row up. -/
theorem ThinRow.home_child {upper before after before' after' : List Entry} {u s : Entry}
    {key : Int} (h : t.ThinRow (l + 1) upper none)
    (home' : Cut Entry.key key upper (before' ++ [u]) after')
    (home : Cut Entry.key key (t.contents upper) (before ++ [s]) after) :
    ∃ init above, Cut Entry.key key ((t.page u.ptr).entries u.key) (init ++ [s]) above ∧
      before = t.contents before' ++ init ∧ after = above ++ t.contents after' := by
  obtain ⟨-, ⟨ok, -⟩, -⟩ := thinRow_split.mp (home'.split ▸ h)
  obtain ⟨below, above, cut⟩ := ok.ordered_entries.cut key
  have hentries : (t.page u.ptr).entries u.key =
      ⟨u.key, (t.page u.ptr).hdr.leftmostPtr⟩ :: (t.page u.ptr).live :=
    if_neg (ok.internal (Nat.succ_pos l))
  obtain ⟨init, c, rfl⟩ := (hentries ▸ cut).exists_last home'.last_le
  have child := h.cut_contents home' cut
  rw [← List.append_assoc] at child
  obtain ⟨hbefore, hafter⟩ := home.unique child
  obtain ⟨rfl, hc⟩ := List.append_inj' hbefore rfl
  obtain rfl := List.singleton_inj.mp hc
  exact ⟨init, above, cut, rfl, hafter⟩

/-- A descent that goes on above level `l` comes to the home page of the key in the
row of level `l`. -/
theorem ThinOver.comes (h : t.ThinOver n l row) {key : Int} (hkey : longMin ≤ key)
    {more : Page → Bool}
    (goesOn : ∀ {p l' s next}, PageThin p l' s next → l < l' → more p = true)
    {before after : List Entry} {s : Entry}
    (home : Cut Entry.key key row (before ++ [s]) after) {q : Int}
    (rest : Returns (fun fuel => t.descend more key fuel s.ptr) q) :
    Returns (fun fuel => t.descend more key fuel t.root) q := by
  induction n generalizing l row before s after with
  | zero =>
      obtain rfl := h
      have mem : s ∈ [(⟨longMin, t.root⟩ : Entry)] := home.split ▸ by simp
      rw [List.mem_singleton.mp mem] at rest
      exact rest
  | succ n ih =>
      obtain ⟨nodup, upper, hupper, upward, rfl⟩ := h
      obtain ⟨before', u, after', home'⟩ := upward.home hkey
      obtain ⟨-, ⟨ok, -⟩, -⟩ := thinRow_split.mp (home'.split ▸ hupper)
      obtain ⟨init, above, cut, -, -⟩ := hupper.home_child home' home
      have step := hupper.linearSearch_internal nodup home' cut
      refine ih upward (fun ok' hlt => goesOn ok' (Nat.lt_of_succ_lt hlt)) home' ?_
      obtain ⟨fuel, hfuel⟩ := rest
      have down : t.descend more key (fuel + 1) u.ptr = t.descend more key fuel s.ptr := by
        rw [descend, if_pos (goesOn ok (Nat.lt_succ_self l)), step]
        rfl
      exact ⟨fuel + 1, down.trans hfuel⟩

/-- A descent to level `l` comes to the home page. -/
theorem ThinRows.descends_level (h : t.ThinRows n l row) {key : Int} (hkey : longMin ≤ key)
    {before after : List Entry} {s : Entry}
    (home : Cut Entry.key key row (before ++ [s]) after) :
    Returns (fun fuel => t.descend (aboveLevel l) key fuel t.root) s.ptr := by
  obtain ⟨-, ⟨ok, -⟩, -⟩ := thinRow_split.mp (home.split ▸ h.isRow)
  have stops : t.descend (aboveLevel l) key 1 s.ptr = some s.ptr :=
    if_neg fun above => absurd ((ok.aboveLevel_iff l).mp above) (lt_irrefl l)
  exact h.upward.comes hkey (fun ok hlt => (ok.aboveLevel_iff _).mpr hlt) home ⟨1, stops⟩

/-- A descent to the leaves comes to the home leaf. -/
theorem ThinRows.descends (h : t.ThinRows n 0 row) {key : Int} (hkey : longMin ≤ key)
    {before after : List Entry} {s : Entry}
    (home : Cut Entry.key key row (before ++ [s]) after) :
    Returns (fun fuel => t.descend aboveLeaves key fuel t.root) s.ptr := by
  obtain ⟨-, ⟨ok, -⟩, -⟩ := thinRow_split.mp (home.split ▸ h.isRow)
  have stops : t.descend aboveLeaves key 1 s.ptr = some s.ptr :=
    if_neg fun above => absurd (ok.aboveLeaves_iff.mp above) (lt_irrefl 0)
  exact h.upward.comes hkey (fun ok hlt => ok.aboveLeaves_iff.mpr (Nat.zero_lt_of_lt hlt)) home
    ⟨1, stops⟩

end ThinRows

end BTree

end F3Tree
