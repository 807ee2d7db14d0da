import F3Tree.Guarded
import F3Tree.WellFormed

/-!
# The tree after a restart

`root_ref.root_page` is written once, when the pool is made: a root that was split is
not picked up again, and the next process starts from the leftmost leaf.  Its searches
walk the leaves from left to right, and turn back at a leaf whose first key lies beyond
the key; a leaf that was emptied keeps such a key.  So they find what was found before
exactly as long as no leaf's first key lies beyond a key in or behind it (`InOrder`).
Calls that follow are those of one process when the root has not been split.
-/

namespace F3Tree

open Keyed Fuel

namespace BTree

/-- No leaf but the first begins beyond a key that it or a leaf behind it has. -/
def InOrder (t : BTree) : Prop :=
  ∀ front x back, t.level t.depth = front ++ x :: back → front ≠ [] →
    ∀ p ∈ x :: back, ∀ e ∈ (t.page p).live, (t.page x).firstKey ≤ e.key

/-- A key that is inserted is not found before, a key that is deleted is. -/
def SetCall (t : BTree) (op : TreeOp) : Prop :=
  TreeKey op.key ∧ t.Answers op.key (op = .delete op.key)

section Chase

variable {t : BTree} {n : Nat} {key : Int} {row before after : List Entry} {s : Entry}

/-- A walk from the leaf `s` to the right comes to a leaf that has the key. -/
def Reaches (t : BTree) (key : Int) : Entry → List Entry → Prop
  | s, [] => t.Has s key
  | s, x :: after =>
      t.Has s key ∨ (t.page x.ptr).firstKey ≤ key ∧ Reaches t key x after

theorem Row.chase_here (h : t.Row 0 row none) (hrow : row = before ++ s :: after)
    (distinct : (∃ x ∈ row, t.Has x key) → ¬ t.Allocated key) (has : t.Has s key) :
    t.chase key 1 s.ptr = some (s.ptr, key) ∧ key ≠ 0 := by
  have mem : s ∈ row := hrow ▸ by simp
  obtain ⟨-, ⟨ok, -⟩, -⟩ := row_split.mp (hrow ▸ h)
  have ne := PageOk.ne_zero ok has
  refine ⟨?_, ne⟩
  rw [chase, linearSearch_leaf ok, if_pos has]
  exact if_neg (h.apart hrow ne (distinct ⟨s, mem, has⟩))

theorem Row.chase_iff (h : t.Row 0 row none) (hrow : row = before ++ s :: after)
    (distinct : (∃ x ∈ row, t.Has x key) → ¬ t.Allocated key) :
    ∃ r, Returns (fun fuel => t.chase key fuel s.ptr) r ∧
      (r.2 ≠ 0 ↔ t.Reaches key s after) := by
  induction after generalizing before s with
  | nil =>
      obtain ⟨-, ⟨ok, -⟩, -⟩ := row_split.mp (hrow ▸ h)
      have search : t.linearSearch (t.page s.ptr) key = _ := linearSearch_leaf ok
      have found := h.chase_here hrow distinct
      have hsib : (t.page s.ptr).hdr.siblingPtr = 0 := ok.sibling
      by_cases has : t.Has s key
      · exact ⟨_, ⟨1, (found has).1⟩, iff_of_true (found has).2 has⟩
      · have lost : t.chase key 1 s.ptr = some (0, 0) := by
          rw [chase, search, if_neg has, if_neg fun h => h.1 hsib]
          simp only [Option.bind_eq_bind, Option.bind_some]
          rw [if_pos hsib.symm, if_pos trivial]
          rfl
        exact ⟨(0, 0), ⟨1, lost⟩, iff_of_false (not_not.mpr rfl) has⟩
  | cons x after ih =>
      obtain ⟨-, ⟨ok, -⟩, -⟩ := row_split.mp (hrow ▸ h)
      have search : t.linearSearch (t.page s.ptr) key = _ := linearSearch_leaf ok
      have found := h.chase_here hrow distinct
      have hsib : (t.page s.ptr).hdr.siblingPtr = x.ptr := ok.sibling
      have split : row = (before ++ [s]) ++ x :: after := by simp [hrow]
      obtain ⟨-, ⟨ok', alloc'⟩, -⟩ := row_split.mp (split ▸ h)
      have hx := Allocator.ne_null_of alloc'
      rw [hsib] at search
      by_cases has : t.Has s key
      · exact ⟨_, ⟨1, (found has).1⟩, iff_of_true (found has).2 (Or.inl has)⟩
      · by_cases hle : (t.page x.ptr).firstKey ≤ key
        · obtain ⟨r, ⟨fuel, hr⟩, hreach⟩ := ih split
          have on : t.chase key (fuel + 1) s.ptr = t.chase key fuel x.ptr := by
            rw [chase, search, if_neg has, if_pos ⟨hx, hle⟩]
            simp only [Option.bind_eq_bind, Option.bind_some]
            rw [if_pos hsib.symm, if_neg hx]
          refine ⟨r, ⟨fuel + 1, on.trans hr⟩, hreach.trans ?_⟩
          exact ⟨fun reach => Or.inr ⟨hle, reach⟩, fun reach => (reach.resolve_left has).2⟩
        · have lost : t.chase key 1 s.ptr = some (s.ptr, 0) := by
            rw [chase, search, if_neg has, if_neg fun h => hle h.2]
            simp only [Option.bind_eq_bind, Option.bind_some]
            rw [hsib, if_neg hx.symm]
            rfl
          refine ⟨(s.ptr, 0), ⟨1, lost⟩, iff_of_false (not_not.mpr rfl) ?_⟩
          rintro (has' | ⟨hle', -⟩)
          · exact has has'
          · exact hle hle'

/-- A walk comes to a leaf that has the key if none begins beyond it before. -/
theorem reaches_of_exists (has : ∃ x ∈ s :: after, t.Has x key)
    (le : ∀ front x back, after = front ++ x :: back → (∃ y ∈ x :: back, t.Has y key) →
      (t.page x.ptr).firstKey ≤ key) : t.Reaches key s after := by
  induction after generalizing s with
  | nil =>
      obtain ⟨x, mem, has⟩ := has
      exact List.mem_singleton.mp mem ▸ has
  | cons x after ih =>
      obtain ⟨y, mem, has⟩ := has
      rcases List.mem_cons.mp mem with rfl | mem
      · exact Or.inl has
      · refine Or.inr ⟨le [] x after rfl ⟨y, mem, has⟩, ih ⟨y, mem, has⟩ ?_⟩
        rintro front x' back rfl
        exact le (x :: front) x' back rfl

theorem Reaches.exists (reach : t.Reaches key s after) : ∃ x ∈ s :: after, t.Has x key := by
  induction after generalizing s with
  | nil => exact ⟨s, List.mem_cons_self, reach⟩
  | cons x after ih =>
      rcases reach with has | ⟨-, reach⟩
      · exact ⟨s, List.mem_cons_self, has⟩
      · obtain ⟨y, mem, has⟩ := ih reach
        exact ⟨y, List.mem_cons_of_mem _ mem, has⟩

/-- A walk passes the leaves in front of the first that has the key. -/
theorem Reaches.le (reach : t.Reaches key s after) {front back : List Entry} {x : Entry}
    (split : after = front ++ x :: back) (absent : ∀ y ∈ s :: front, ¬ t.Has y key) :
    (t.page x.ptr).firstKey ≤ key := by
  induction front generalizing s after with
  | nil =>
      obtain rfl := split
      rcases reach with has | ⟨hle, -⟩
      · exact absurd has (absent s List.mem_cons_self)
      · exact hle
  | cons y front ih =>
      obtain rfl := split
      rcases reach with has | ⟨-, reach⟩
      · exact absurd has (absent s List.mem_cons_self)
      · exact ih reach rfl fun z mem => absent z (List.mem_cons_of_mem _ mem)

theorem Single.reaches_iff (single : t.Single (s :: after)) (h : t.Row 0 (s :: after) none) :
    (∀ key, t.Held key (s :: after) → t.Reaches key s after) ↔
      ∀ front x back, after = front ++ x :: back → ∀ y ∈ x :: back, ∀ e ∈ (t.page y.ptr).live,
        (t.page x.ptr).firstKey ≤ e.key := by
  constructor
  · rintro reach front x back rfl y mem e he
    have has : t.Has y e.key := ⟨e, he, rfl⟩
    obtain ⟨mid, rest, hmid⟩ := List.append_of_mem mem
    have split : s :: (front ++ x :: back) = (s :: front ++ mid) ++ y :: rest := by
      rw [hmid, List.append_assoc, List.cons_append]
    have absent := single.not_before h split has
    have held : t.Held e.key (s :: (front ++ x :: back)) :=
      (single.held_iff h).mpr (h.exists_iff.mpr ⟨y, split ▸ by simp, has⟩)
    exact (reach e.key held).le rfl fun z hz => absent z (List.mem_append_left _ hz)
  · intro le key held
    obtain ⟨y, mem, has⟩ := held.exists
    refine reaches_of_exists ⟨y, mem, has⟩ fun front x back split ⟨z, hz, e, he, hkey⟩ => ?_
    exact hkey ▸ le front x back split z hz e he

end Chase

/-! ## The next process -/

section Restart

variable {alloc : Allocator} {t t' : BTree} {n : Nat} {key : Int} {row after : List Entry}
  {s : Entry} {ops more : List TreeOp} {op : TreeOp}

theorem chase_reopen (t : BTree) (key : Int) (fuel : Nat) (p : Int) :
    t.reopen.chase key fuel p = t.chase key fuel p := by
  induction fuel generalizing p with
  | zero => rfl
  | succ fuel ih =>
      rw [chase, chase]
      simp only [ih]
      rfl

/-- A search that starts at the leftmost leaf. -/
theorem Rows.answers_reopen (h : t.Rows n 0 (s :: after)) (pool : t.rootRef.rootPage = s.ptr)
    (distinct : (∃ x ∈ s :: after, t.Has x key) → ¬ t.Allocated key) (found : Prop) :
    t.reopen.Answers key found ↔ (t.Reaches key s after ↔ found) := by
  have split : s :: after = [] ++ s :: after := rfl
  obtain ⟨r, hchase, hreach⟩ := h.isRow.chase_iff split distinct
  have stops : t.reopen.descend aboveLeaves key 1 t.reopen.root = some s.ptr := by
    have root : t.reopen.root = s.ptr := pool
    rw [root]
    exact if_neg fun above => absurd (h.isRow.1.aboveLeaves_iff.mp above) (lt_irrefl 0)
  have walks : Returns (fun fuel => t.reopen.chase key fuel s.ptr) r := by
    simp only [chase_reopen]
    exact hchase
  obtain ⟨fuel, hdescend, hwalk⟩ :=
    Returns.both (steady_descend _ _ _ _) (steady_chase _ _ _) ⟨1, stops⟩ walks
  have returns : Returns (t.reopen.btreeSearch key) r.2 := by
    refine ⟨fuel, ?_⟩
    rw [BTree.btreeSearch, hdescend]
    simp only [Option.bind_eq_bind, Option.bind_some, hwalk]
    rfl
  constructor
  · rintro ⟨v, hv, hfound⟩
    obtain rfl := (steady_btreeSearch _ _).unique hv returns
    exact hreach.symm.trans hfound
  · exact fun hfound => ⟨r.2, returns, hreach.trans hfound⟩

theorem SetCall.guarded (call : SetCall t op) : Guarded t op := by
  obtain ⟨hkey, answers⟩ := call
  refine ⟨hkey, fun h => ?_⟩
  obtain ⟨v, returns, found⟩ := answers
  exact ⟨v, returns, found.trans (iff_true_intro h)⟩

/-- Calls on keys as on a set: the keys held are those inserted last, in one record each. -/
theorem Run.set_members {start : BTree} (run : Run start SetCall more t)
    (h : start.Rows n 0 row) (single : start.Single row)
    (held : ∀ k, start.Held k row ↔ LastInsert ops k)
    (distinct : ∀ op ∈ more, ¬ t.Allocated op.key) :
    ∃ n' row', t.Rows n' 0 row' ∧ row'.head? = row.head? ∧ t.Single row' ∧
      ∀ k, t.Held k row' ↔ LastInsert (ops ++ more) k := by
  induction run with
  | nil => exact ⟨n, row, h, rfl, single, by simpa using held⟩
  | @step more t t' op run call returns ih =>
      obtain ⟨n₁, row₁, rows₁, -, -⟩ := run.rows (fun _ _ call => call.1) h
      obtain ⟨-, -, -, -, keeps, -⟩ := rows₁.perform call.1 returns
      have apart : ∀ op' ∈ more ++ [op], ¬ t.Allocated op'.key := fun op' mem hop =>
        distinct op' mem (keeps.allocated_of hop)
      obtain ⟨n₂, row₂, rows₂, head₂, single₂, held₂⟩ :=
        ih fun op' mem => apart op' (List.mem_append_left _ mem)
      have here := apart op (by simp)
      obtain ⟨n', row', rows', head', single', -, same⟩ :=
        rows₂.performs_iff call.guarded here returns held₂
      have answers := (rows₂.answers call.1.1 (fun _ => here) _).mp call.2
      refine ⟨n', row', rows', head'.trans head₂, single' single₂ fun hop hheld => ?_, ?_⟩
      · have delete := answers.mp hheld
        rw [hop] at delete
        cases delete
      · rw [← List.append_assoc]
        refine same.mpr fun key hop => ?_
        subst hop
        have hkey : TreeKey key := call.1
        obtain ⟨before, s, after, home⟩ := rows₂.upward.home hkey.1
        have hheld : t.Held key row₂ := answers.mpr rfl
        rw [rows₂.oneCopy_iff hkey home]
        exact single₂.copies_eq rows₂.isRow (home.split ▸ by simp) ((held_iff home).mp hheld)

theorem Rows.inOrder_iff (h : t.Rows n 0 (s :: after)) :
    t.InOrder ↔ ∀ front x back, after = front ++ x :: back → ∀ y ∈ x :: back,
      ∀ e ∈ (t.page y.ptr).live, (t.page x.ptr).firstKey ≤ e.key := by
  have leaves : t.level t.depth = s.ptr :: after.map Entry.ptr := by
    have depth : t.depth = n := h.root.trans (Nat.zero_add n)
    rw [depth, h.upward.level_eq, List.map_cons]
  rw [InOrder, leaves]
  constructor
  · rintro inOrder front x back rfl y mem e he
    exact inOrder (s.ptr :: front.map Entry.ptr) x.ptr (back.map Entry.ptr) (by simp) (by simp)
      y.ptr (List.mem_map_of_mem mem) e he
  · intro le front x back split nonempty p mem e he
    obtain ⟨p₀, front, rfl⟩ := List.exists_cons_of_ne_nil nonempty
    obtain ⟨-, split⟩ := List.cons.inj split
    obtain ⟨front', rest, rfl, -, hrest⟩ := List.map_eq_append_iff.mp split
    obtain ⟨x', back', rfl, rfl, rfl⟩ := List.map_eq_cons_iff.mp hrest
    rw [← List.map_cons, List.mem_map] at mem
    obtain ⟨y, hy, rfl⟩ := mem
    exact le front' x' back' rfl y hy e he

/-- After a restart the searches find what they found before exactly as long as no leaf
begins beyond a key in or behind it; and if the root has not been split, the calls that
follow are calls on the same set.  The calls insert keys that are not found and delete keys that
are; no key is 0 or the address of an allocated page. -/
theorem reopen_iff (run : Run (empty alloc) SetCall ops t)
    (distinct : ∀ op ∈ ops, ¬ t.Allocated op.key) :
    ((∀ key, longMin ≤ key → key ≤ longMax → ∀ found,
      t.reopen.Answers key found ↔ t.Answers key found) ↔ t.InOrder) ∧
    (t.rootRef.rootPage = t.root → ∀ more t', Run t.reopen SetCall more t' →
      (∀ op ∈ ops ++ more, ¬ t'.Allocated op.key) → ∀ key, longMin ≤ key → key ≤ longMax →
        t'.Answers key (LastInsert (ops ++ more) key)) := by
  have none : ∀ k, (empty alloc).Held k [⟨longMin, alloc.addr 0⟩] ↔ LastInsert [] k := fun k =>
    iff_of_false (held_empty alloc k) (by simp [LastInsert])
  obtain ⟨n, row, rows, head, single, held⟩ :=
    run.set_members (rows_empty alloc).1 (single_empty alloc) none distinct
  obtain ⟨-, -, -, -, -, -, pool, -⟩ := run.rows (fun _ _ call => call.1) (rows_empty alloc).1
  rw [List.nil_append] at held
  obtain ⟨s, after, rfl⟩ : ∃ s after, row = s :: after := by
    cases row with
    | nil => simp at head
    | cons s after => exact ⟨s, after, rfl⟩
  obtain rfl : s = ⟨longMin, alloc.addr 0⟩ := by simpa using head
  have keys := run.keys fun _ _ call => call.1
  have from_ops : ∀ key, t.Held key (⟨longMin, alloc.addr 0⟩ :: after) → ∃ op ∈ ops, op.key = key :=
    fun key hkey => ((held key).mp hkey).exists
  have apart : ∀ key, t.Held key (⟨longMin, alloc.addr 0⟩ :: after) → ¬ t.Allocated key :=
    fun key hkey => by
      obtain ⟨op, mem, rfl⟩ := from_ops key hkey
      exact distinct op mem
  have leaf_iff : ∀ key, (∃ x ∈ (⟨longMin, alloc.addr 0⟩ :: after : List Entry), t.Has x key) ↔
      t.Held key (⟨longMin, alloc.addr 0⟩ :: after) := fun key =>
    rows.isRow.exists_iff.symm.trans (single.held_iff rows.isRow).symm
  constructor
  · have reaches : ∀ key found, t.reopen.Answers key found ↔
        (t.Reaches key ⟨longMin, alloc.addr 0⟩ after ↔ found) := fun key =>
      rows.answers_reopen (congrArg RootRef.rootPage pool) fun has =>
        apart key ((leaf_iff key).mp has)
    have before : ∀ key, longMin ≤ key → ∀ found, t.Answers key found ↔
        (t.Held key (⟨longMin, alloc.addr 0⟩ :: after) ↔ found) := fun key least =>
      rows.answers least (apart key)
    rw [rows.inOrder_iff, ← single.reaches_iff rows.isRow]
    constructor
    · intro same key hheld
      obtain ⟨op, mem, rfl⟩ := from_ops key hheld
      obtain ⟨least, most, -⟩ := keys op mem
      have answer := (before op.key least True).mpr (iff_true_intro hheld)
      exact ((reaches op.key True).mp ((same op.key least most True).mpr answer)).mpr trivial
    · intro reach key least most found
      rw [reaches, before key least]
      exact iff_congr ⟨fun r => (leaf_iff key).mp r.exists, reach key⟩ Iff.rfl
  · intro root more t' run' distinct' key least most
    have keeps : Keeps t t.reopen fun _ => True := ⟨rfl, le_rfl, rfl, fun _ _ _ => rfl⟩
    have rows' := keeps.rows root rows fun _ _ => trivial
    have same : ∀ k, t.reopen.Held k (⟨longMin, alloc.addr 0⟩ :: after) ↔
        t.Held k (⟨longMin, alloc.addr 0⟩ :: after) := fun k => held_congr fun _ _ => Iff.rfl
    obtain ⟨n', row', rows₁, -, -, held₁⟩ := run'.set_members rows' (single.same rfl same)
      (fun k => (same k).trans (held k)) fun op mem => distinct' op (List.mem_append_right _ mem)
    refine (rows₁.answers least (fun hheld => ?_) _).mpr (held₁ key)
    obtain ⟨op, mem, rfl⟩ := ((held₁ key).mp hheld).exists
    exact distinct' op mem

/-! ### Runs on fixed calls -/

/-- The calls one after another, as long as each is a call on a set. -/
def setCalls (fuel : Nat) : List TreeOp → BTree → Option BTree
  | [], t => some t
  | op :: ops, t => do
      let v ← t.btreeSearch op.key fuel
      if TreeKey op.key ∧ (v ≠ 0 ↔ op = .delete op.key) then
        let t' ← op.perform fuel t
        setCalls fuel ops t'
      else none

theorem Run.setCalls {start : BTree} {fuel : Nat} (run : Run start SetCall more t)
    (h : setCalls fuel ops t = some t') : Run start SetCall (more ++ ops) t' := by
  induction ops generalizing more t with
  | nil =>
      obtain rfl := Option.some.inj h
      rwa [List.append_nil]
  | cons op ops ih =>
      obtain ⟨v, hv, h⟩ := Option.bind_eq_some_iff.mp h
      split at h
      · rename_i call
        obtain ⟨t₁, returns, h⟩ := Option.bind_eq_some_iff.mp h
        have step := run.step op ⟨call.1, v, ⟨fuel, hv⟩, call.2⟩ ⟨fuel, returns⟩
        simpa using ih step h
      · cases h

/-- A run of calls on a set, to a tree that is what is asked for. -/
theorem exists_set_run {start : BTree} {fuel : Nat} {P : BTree → Prop} [DecidablePred P]
    (checked : (BTree.setCalls fuel ops start).any (fun t => decide (P t)) = true) :
    ∃ t, Run start SetCall ops t ∧ P t := by
  obtain ⟨t, ran, holds⟩ := (Option.any_eq_true _ _).mp checked
  exact ⟨t, Run.nil.setCalls ran, of_decide_eq_true holds⟩

/-- Leaves in order, checked one by one and two by two. -/
theorem inOrder_of_pairwise {first : Int} {rest : List Int}
    (level : t.level t.depth = first :: rest)
    (own : ∀ x ∈ rest, ∀ e ∈ (t.page x).live, (t.page x).firstKey ≤ e.key)
    (behind : rest.Pairwise fun x p => ∀ e ∈ (t.page p).live, (t.page x).firstKey ≤ e.key) :
    t.InOrder := by
  intro front x back split nonempty p mem e he
  obtain ⟨_, front, rfl⟩ := List.exists_cons_of_ne_nil nonempty
  rw [level, List.cons_append, List.cons.injEq] at split
  obtain ⟨-, rfl⟩ := split
  rcases List.mem_cons.mp mem with rfl | mem
  · exact own p (by simp) e he
  · exact (List.pairwise_cons.mp (List.pairwise_append.mp behind).2.1).1 p mem e he

/-- Insertions of 2, 4, …, which split the root. -/
def evens (n : Nat) : List TreeOp := (List.range n).map fun i => .insert (2 * i + 2)

/-- Three calls on one leaf, and calls after the restart: the deleted key again, and insertions that
split the root. -/
def firstProcess : List TreeOp := [.insert 1, .insert 3, .delete 1]

def nextProcess : List TreeOp := .insert 1 :: evens 28 ++ [.delete 3]

/-- Three leaves in order, and a next process with calls of its own. -/
theorem reopen_two :
    (∃ t, Run (empty (.bump 1000)) SetCall (evens 42) t ∧ (t.level t.depth).length = 3 ∧
      ∀ key, longMin ≤ key → key ≤ longMax → ∀ found,
        t.reopen.Answers key found ↔ t.Answers key found) ∧
    ∃ t t', Run (empty (.bump 1000)) SetCall firstProcess t ∧ Run t.reopen SetCall nextProcess t' ∧
      ∀ key, longMin ≤ key → key ≤ longMax →
        t'.Answers key (LastInsert (firstProcess ++ nextProcess) key) := by
  constructor
  · have checked : (setCalls 6 (evens 42) (empty (.bump 1000))).any (fun t => decide
        (t.level t.depth = [1001, 1002, 1004] ∧
          (∀ x ∈ ([1002, 1004] : List Int), ∀ e ∈ (t.page x).live, (t.page x).firstKey ≤ e.key) ∧
          ∀ e ∈ (t.page 1004).live, (t.page 1002).firstKey ≤ e.key)) = true := by decide +kernel
    obtain ⟨t, run, level, own, behind⟩ := exists_set_run checked
    have low : ∀ op ∈ evens 42, op.key ≤ 1000 := by decide
    have distinct : ∀ op ∈ evens 42, ¬ t.Allocated op.key := fun op mem =>
      run.not_allocated (fun _ _ call => call.1) (low op mem)
    refine ⟨t, run, by rw [level]; rfl, (reopen_iff run distinct).1.mpr ?_⟩
    exact inOrder_of_pairwise level own (by simpa using behind)
  · have checked : (setCalls 6 firstProcess (empty (.bump 1000))).any (fun t =>
        decide (t.rootRef.rootPage = t.root) && (setCalls 6 nextProcess t.reopen).any fun t' =>
          decide (∀ op ∈ firstProcess ++ nextProcess, ∀ i < t'.allocated,
            op.key ≠ t'.alloc.addr i)) = true := by decide +kernel
    obtain ⟨t, ht, holds⟩ := (Option.any_eq_true _ _).mp checked
    obtain ⟨unsplit, more⟩ := Bool.and_eq_true_iff.mp holds
    obtain ⟨t', ht', apart⟩ := (Option.any_eq_true _ _).mp more
    have run : Run (empty (.bump 1000)) SetCall firstProcess t := Run.nil.setCalls ht
    have run' : Run t.reopen SetCall nextProcess t' := Run.nil.setCalls ht'
    have low : ∀ op ∈ firstProcess, op.key ≤ 1000 := by decide
    have distinct : ∀ op ∈ firstProcess, ¬ t.Allocated op.key := fun op mem =>
      run.not_allocated (fun _ _ call => call.1) (low op mem)
    have distinct' : ∀ op ∈ firstProcess ++ nextProcess, ¬ t'.Allocated op.key := by
      intro op mem ⟨i, hi, same⟩
      exact of_decide_eq_true apart op mem i hi same
    exact ⟨t, t', run, run',
      (reopen_iff run distinct).2 (of_decide_eq_true unsplit) nextProcess t' run' distinct'⟩

/-- Inserts that split the root, and deletes that empty the second leaf. -/
def emptiesLeaf : List TreeOp :=
  ((List.range 40).map fun i => .insert (2 * i + 2)) ++ [.insert 55, .insert 45] ++
    (List.range 9).map (fun i => .delete (2 * i + 28)) ++
    [.delete 45, .delete 46, .delete 48, .delete 50, .delete 52]

/-- The emptied leaf begins with a key beyond the key 54 of the leaf behind it. -/
theorem reopen_loses :
    ∃ t, Run (empty (.bump 100000)) SetCall emptiesLeaf t ∧
      (∀ op ∈ emptiesLeaf, ¬ t.Allocated op.key) ∧
      t.Answers 54 True ∧ t.reopen.Answers 54 False := by
  have checked : (setCalls 6 emptiesLeaf (empty (.bump 100000))).any (fun t => decide
      (t.btreeSearch 54 6 = some 54 ∧ t.reopen.btreeSearch 54 6 = some 0)) = true := by
    decide +kernel
  obtain ⟨t, run, before, after⟩ := exists_set_run checked
  have low : ∀ op ∈ emptiesLeaf, op.key ≤ 100000 := by decide
  exact ⟨t, run, fun op mem => run.not_allocated (fun _ _ call => call.1) (low op mem),
    ⟨54, ⟨6, before⟩, by decide⟩, ⟨0, ⟨6, after⟩, by decide⟩⟩

/-- Insertions that split the second leaf and put 29 into it, and deletions that empty it. -/
def emptiesSecond : List TreeOp :=
  (List.range 14).map (fun i => .insert (2 * i + 58)) ++ [.insert 29] ++
    (List.range 13).map (fun i => .delete (2 * i + 28)) ++ [.delete 29]

/-- When the root has been split, order at the restart is not enough for what follows: the emptied
leaf turns back the search of 54, which has been inserted and never deleted. -/
theorem reopen_run_loses :
    ∃ t t', Run (empty (.bump 1000)) SetCall (evens 28) t ∧ t.InOrder ∧
      Run t.reopen SetCall emptiesSecond t' ∧ LastInsert (evens 28 ++ emptiesSecond) 54 ∧
      t'.Answers 54 False := by
  have checked : (setCalls 6 (evens 28) (empty (.bump 1000))).any (fun t =>
      decide (t.level t.depth = [1001, 1002] ∧
        ∀ e ∈ (t.page 1002).live, (t.page 1002).firstKey ≤ e.key) &&
      (setCalls 6 emptiesSecond t.reopen).any fun t' => t'.btreeSearch 54 6 == some 0) = true := by
    decide +kernel
  obtain ⟨t, ht, holds⟩ := (Option.any_eq_true _ _).mp checked
  obtain ⟨ordered, more⟩ := Bool.and_eq_true_iff.mp holds
  obtain ⟨level, own⟩ := of_decide_eq_true ordered
  obtain ⟨t', ht', searched⟩ := (Option.any_eq_true _ _).mp more
  refine ⟨t, t', Run.nil.setCalls ht, inOrder_of_pairwise level (by simpa using own) (by simp),
    Run.nil.setCalls ht', by decide, 0, ⟨6, beq_iff_eq.mp searched⟩, by decide⟩

end Restart

end BTree

end F3Tree
