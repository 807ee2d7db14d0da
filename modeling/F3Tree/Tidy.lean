import F3Tree.Restart
import F3Tree.Rebalance

/-!
# Trees over distinct keys

`Tidy` collects the page, separator and sibling-chain invariants of a tree that has no key
twice: the rows of `ThinRows`, and separators that increase and part the keys of the leaves.
A search in such a tree finds every key, but for one that is the address of the leaf to its
right (`Tidy.found_iff`).  The calls on a set keep trees tidy (`Run.tidy`).
-/

namespace F3Tree

open Keyed Fuel

namespace BTree

/-- The records of each leaf lie below the slots to its right. -/
def Parted (t : BTree) (row : List Entry) : Prop :=
  row.Pairwise fun x y => x.key < y.key ∧ ∀ e ∈ (t.page x.ptr).live, e.key < y.key

structure Tidy (t : BTree) (n : Nat) (row : List Entry) : Prop where
  rows : t.ThinRows n 0 row
  nodup : ((t.contents row).map Entry.key).Nodup
  parted : t.Parted row

section Tidy

variable {t t' : BTree} {n : Nat} {key : Int} {row before after : List Entry} {s : Entry}

theorem Parted.congr (h : t.Parted row)
    (sub : ∀ x ∈ row, ∀ e ∈ (t'.page x.ptr).live, e ∈ (t.page x.ptr).live) : t'.Parted row :=
  h.imp_of_mem fun hx _ parts => ⟨parts.1, fun e mem => parts.2 e (sub _ hx e mem)⟩

theorem Tidy.least (h : t.Tidy n row) (mem : s ∈ row) : longMin ≤ s.key :=
  h.rows.upward.least s mem

theorem Tidy.leaf (h : t.Tidy n row) (mem : s ∈ row) :
    ∃ next, PageOk (t.page s.ptr) 0 s next ∧ t.Allocated s.ptr :=
  h.rows.isRow.leaves.pageOk mem

theorem Tidy.contents_eq (h : t.Tidy n row) :
    t.contents row = row.flatMap fun s => (t.page s.ptr).live :=
  h.rows.isRow.leaves.contents_leaf

/-- The leaf that has a key is its home leaf. -/
theorem Tidy.home (h : t.Tidy n row) (hrow : row = before ++ s :: after) (has : t.Has s key) :
    Cut Entry.key key row (before ++ [s]) after := by
  obtain ⟨_, ok, -⟩ := h.leaf (hrow ▸ by simp : s ∈ row)
  obtain ⟨e, mem, rfl⟩ := has
  have hle : s.key ≤ e.key := (ok.range e (ok.mem_records mem)).1
  have parted := h.parted
  rw [hrow, Parted] at parted
  obtain ⟨-, behind, across⟩ := List.pairwise_append.mp parted
  refine ⟨by simp [hrow], fun x hx => ?_, fun y hy => ?_⟩
  · rcases List.mem_append.mp hx with hx | hx
    · exact ((across x hx s List.mem_cons_self).1.trans_le hle).le
    · exact List.mem_singleton.mp hx ▸ hle
  · exact ((List.pairwise_cons.mp behind).1 y hy).2 e mem

theorem Tidy.least_of_has (h : t.Tidy n row) (mem : s ∈ row) (has : t.Has s key) :
    longMin ≤ key := by
  obtain ⟨_, ok, -⟩ := h.leaf mem
  obtain ⟨e, he, rfl⟩ := has
  exact (h.least mem).trans (ok.range e (ok.mem_records he)).1

theorem Tidy.search_iff (h : t.Tidy n row) (mem : s ∈ row) (has : t.Has s key) :
    Returns (t.btreeSearch key) key ↔ key ≠ (t.page s.ptr).hdr.siblingPtr := by
  obtain ⟨before, after, hrow⟩ := List.append_of_mem mem
  have returns := h.rows.btreeSearch (h.least_of_has mem has) (h.home hrow has)
  have ne : key ≠ 0 := h.rows.isRow.leaves.ne_zero mem has
  constructor
  · rintro found same
    rw [if_neg fun hold => hold.2 same] at returns
    exact ne ((steady_btreeSearch t key).unique found returns)
  · intro apart
    rwa [if_pos ⟨has, apart⟩] at returns

theorem Tidy.mem_leafKeys (h : t.Tidy n row) :
    key ∈ t.leafKeys ↔ ∃ s ∈ row, t.Has s key := by
  rw [h.rows.leafKeys_eq, List.mem_map]
  exact h.rows.isRow.leaves.exists_iff

/-- No key is the address of the leaf to the right of its own. -/
def Findable (t : BTree) (row : List Entry) : Prop :=
  ∀ x ∈ row, ∀ e ∈ (t.page x.ptr).live, e.key ≠ (t.page x.ptr).hdr.siblingPtr

/-- Searches find the keys that are not taken for the address of the leaf to the right. -/
theorem Tidy.found_iff (h : t.Tidy n row) :
    (∀ k ∈ t.leafKeys, Returns (t.btreeSearch k) k) ↔ t.Findable row := by
  constructor
  · intro found x mem e he
    have has : t.Has x e.key := ⟨e, he, rfl⟩
    exact (h.search_iff mem has).mp (found _ (h.mem_leafKeys.mpr ⟨x, mem, has⟩))
  · intro apart k hk
    obtain ⟨x, mem, has⟩ := h.mem_leafKeys.mp hk
    obtain ⟨e, he, rfl⟩ := has
    exact (h.search_iff mem ⟨e, he, rfl⟩).mpr (apart x mem e he)

end Tidy

/-! ## Runs -/

section Runs

variable {alloc : Allocator} {t t' : BTree} {n : Nat} {row : List Entry} {ops : List TreeOp}
  {op : TreeOp}

theorem Rows.tidy (h : t.Rows n 0 row) (single : t.Single row)
    (strict : row.Pairwise fun x y => x.key < y.key) : t.Tidy n row := by
  refine ⟨h.thin, single.nodup, strict.imp_of_mem fun {x y} hx hy hlt => ⟨hlt, fun e he => ?_⟩⟩
  -- The home leaf of the key is the one that has it.
  obtain ⟨_, ok, -⟩ := h.isRow.pageOk hx
  have least : longMin ≤ e.key :=
    (h.upward.thin.least x hx).trans (ok.range e (ok.mem_records he)).1
  obtain ⟨before, s, after, home⟩ := h.upward.home least
  have mem : s ∈ row := home.split ▸ by simp
  have held : t.Held e.key row :=
    (single.held_iff h.isRow).mpr (h.isRow.exists_iff.mpr ⟨x, hx, e, he, rfl⟩)
  obtain rfl := single.leaf_unique h.isRow mem hx ((held_iff home).mp held) ⟨e, he, rfl⟩
  have split := home.split
  rw [split] at strict hy
  rcases List.mem_append.mp hy with hy | hy
  · exact absurd hlt ((List.pairwise_append.mp strict).2.2 y hy x List.mem_cons_self).asymm
  · rcases List.mem_cons.mp hy with rfl | hy
    · exact absurd hlt (lt_irrefl _)
    · exact home.lt y hy

/-- An insertion of a new key, or a deletion, keeps the slots of the leaves distinct. -/
theorem Rows.performs_strict (h : t.Rows n 0 row) (hkey : TreeKey op.key)
    (returns : Returns (fun fuel => op.perform fuel t) t') (single : t.Single row)
    (strict : row.Pairwise fun x y => x.key < y.key)
    (new : op = .insert op.key → ¬ t.Held op.key row) :
    ∃ n' row', t'.Rows n' 0 row' ∧ t'.Single row' ∧ row'.Pairwise fun x y => x.key < y.key := by
  cases op with
  | insert key =>
      obtain ⟨least, most, ne⟩ := hkey
      obtain ⟨before, s, after, home⟩ := h.upward.home least
      obtain ⟨t₁, n', row', returns', put, keeps, upward⟩ := h.btreeInsert least home key
      obtain rfl := (steady_btreeInsert key key t).unique returns returns'
      obtain ⟨rows', ins⟩ := put.rows upward keeps h home most ne rfl
      exact ⟨n', row', rows', single.insert (new rfl) ins (put.held h.isRow home most ne rfl),
        put.strict h.isRow home single strict⟩
  | delete key =>
      obtain ⟨fuel, hfuel⟩ := returns
      obtain ⟨rows', -, -, -, single'⟩ := h.deletes hkey hfuel
      exact ⟨n, row, rows', single' single, strict⟩

/-- Calls on keys as on a set keep the tree tidy. -/
theorem Run.tidy (run : Run (empty alloc) SetCall ops t)
    (distinct : ∀ op ∈ ops, ¬ t.Allocated op.key) : ∃ n row, t.Tidy n row := by
  suffices ∃ n row, t.Rows n 0 row ∧ t.Single row ∧ row.Pairwise fun x y => x.key < y.key by
    obtain ⟨n, row, rows, single, strict⟩ := this
    exact ⟨n, row, rows.tidy single strict⟩
  induction run with
  | nil =>
      exact ⟨0, _, (rows_empty alloc).1, single_empty alloc, List.pairwise_singleton ..⟩
  | @step ops t t' op run call returns ih =>
      obtain ⟨n₁, row₁, rows₁, -, -⟩ := run.rows (fun _ _ call => call.1) (rows_empty alloc).1
      obtain ⟨-, -, -, -, keeps, -⟩ := rows₁.perform call.1 returns
      have apart : ∀ op' ∈ ops ++ [op], ¬ t.Allocated op'.key := fun op' mem hop =>
        distinct op' mem (keeps.allocated_of hop)
      obtain ⟨n, row, rows, single, strict⟩ :=
        ih fun op' mem => apart op' (List.mem_append_left _ mem)
      have answers := (rows.answers call.1.1 (fun _ => apart op (by simp)) _).mp call.2
      refine rows.performs_strict call.1 returns single strict fun hop hheld => ?_
      have delete := answers.mp hheld
      rw [hop] at delete
      cases delete

end Runs

end BTree

end F3Tree
