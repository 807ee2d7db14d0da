import F3Tree.Store

/-!
# The operations on the tree

What `btree_insert`, `btree_search` and `btree_delete` do to the row of the leaves.
An insertion puts the record into the home leaf of its key.  A search finds the key
if its home leaf has it, unless the key is also the address of the leaf to the right:
then the answer is taken for a step to that leaf (`Rows.btreeSearch`).  A deletion
that finds the key takes its first record from the home leaf.
-/

namespace F3Tree

open Keyed Fuel

/-! ## One leaf -/

section PageOk

variable {p : Page} {l : Nat} {s : Entry} {next : Option Entry} {key : Int}

theorem PageThin.removeKey_mem (ok : PageThin p l s next)
    (has : ∃ e ∈ p.live, e.key = key) :
    ∃ p' front e back, p.removeKey key = some (p', true) ∧ PageThin p' l s next ∧
      p.live = front ++ e :: back ∧ (∀ e' ∈ front, e'.key ≠ key) ∧ e.key = key ∧
      p'.live = front ++ back := by
  obtain ⟨z, rest, holds, -⟩ := ok.holds
  obtain ⟨front, e, back, hlive, first, hkey⟩ := Page.exists_first has
  rw [hlive] at holds
  obtain ⟨p', removed, holds', hdr⟩ := holds.removeKey_of_mem first hkey
  refine ⟨p', front, e, back, removed, ?_, hlive, first, hkey, holds'.live_eq⟩
  have sub : (front ++ back).Sublist p.live :=
    hlive ▸ (List.sublist_cons_self e back).append_left front
  have size := ok.size
  rw [holds.records] at size
  refine .of_holds holds' (fun _ => ⟨z, rest, rfl, holds.stop⟩) ?_
    ((congrArg Header.isDeleted hdr).trans ok.alive) ((congrArg Header.level hdr).trans ok.level)
    ((congrArg Header.siblingPtr hdr).trans ok.sibling) (ok.ordered.sublist sub) ?_ ?_ ?_
    fun hl => (congrArg Header.leftmostPtr hdr).trans_ne (ok.internal hl)
  · simp only [List.length_append, List.length_cons] at size ⊢
    omega
  · intro e' mem
    refine ok.range e' ?_
    rw [holds.records]
    simp only [List.mem_append, List.mem_cons] at mem ⊢
    tauto
  · intro n hn
    obtain ⟨hle, hlive', few⟩ := ok.below n hn
    exact ⟨hle, fun e' mem => hlive' e' (sub.mem mem),
      (sub.filter fun e => decide (e.key = n.key)).length_le.trans few⟩
  · exact fun hl => ⟨(congrArg Header.leftmostPtr hdr).trans (ok.leaf hl).1, fun e' mem =>
      (ok.leaf hl).2 e' (sub.mem mem)⟩

theorem PageOk.removeKey_mem (ok : PageOk p 0 s next)
    (has : ∃ e ∈ p.live, e.key = key) :
    ∃ p' front e back, p.removeKey key = some (p', true) ∧ PageOk p' 0 s next ∧
      p.live = front ++ e :: back ∧ (∀ e' ∈ front, e'.key ≠ key) ∧ e.key = key ∧
      p'.live = front ++ back := by
  obtain ⟨p', front, e, back, removed, thin, rest⟩ := ok.thin.removeKey_mem has
  exact ⟨p', front, e, back, removed, thin.ok fun hl => absurd hl (lt_irrefl 0), rest⟩

theorem PageOk.removeKey_not_mem (ok : PageOk p 0 s next)
    (absent : ¬ ∃ e ∈ p.live, e.key = key) :
    ∃ p', p.removeKey key = some (p', false) ∧ PageOk p' 0 s next ∧ p'.live = p.live ∧
      p'.hdr.siblingPtr = p.hdr.siblingPtr := by
  obtain ⟨z, rest, holds, second⟩ := ok.holds
  obtain ⟨p', removed, records, hdr⟩ :=
    holds.removeKey_of_forall_ne fun e mem heq => absent ⟨e, mem, heq⟩
  have live : p'.live = p.live := congrArg (List.takeWhile _) records
  have holds' : p'.Holds p.live z rest :=
    ⟨records.trans holds.records, holds.live, holds.stop,
      (congrArg Header.lastIndex hdr).trans holds.lastIndex⟩
  have size := ok.size
  rw [holds.records, List.length_append, List.length_cons] at size
  exact ⟨p', removed, .of_holds holds' second (by omega)
    ((congrArg Header.isDeleted hdr).trans ok.alive) ((congrArg Header.level hdr).trans ok.level)
    ((congrArg Header.siblingPtr hdr).trans ok.sibling) ok.ordered
    (fun e mem => ok.range e (holds.records ▸ mem)) ok.below
    (fun hl => ⟨(congrArg Header.leftmostPtr hdr).trans (ok.leaf hl).1, (ok.leaf hl).2⟩)
    fun h => absurd h (lt_irrefl 0), live, (congrArg Header.siblingPtr hdr).trans rfl⟩

end PageOk

namespace BTree

section Operations

variable {t t' : BTree} {n : Nat} {key : Int} {row row' before after : List Entry} {s : Entry}

/-- The tree of a new process has one leaf. -/
theorem rows_empty (alloc : Allocator) :
    (empty alloc).Rows 0 0 [⟨longMin, alloc.addr 0⟩] ∧
      (empty alloc).contents [⟨longMin, alloc.addr 0⟩] = [] := by
  have holds := Page.holds_new 0
  have ok : PageOk (Page.new 0) 0 ⟨longMin, alloc.addr 0⟩ none := by
    refine .of_holds holds (fun _ => ⟨_, _, rfl, rfl⟩) ?_ rfl rfl rfl .nil (fun e mem => ?_)
      (by simp) (fun _ => ⟨rfl, by simp⟩) fun h => absurd h (lt_irrefl 0)
    · rw [List.length_nil, List.length_replicate]
      rfl
    · have least : longMin ≤ ({} : Entry).key := by decide
      rw [List.nil_append, List.mem_cons] at mem
      rcases mem with rfl | mem
      · exact ⟨least, le_rfl⟩
      · rw [List.eq_of_mem_replicate mem]
        exact ⟨least, le_rfl⟩
  refine ⟨⟨⟨ok, ⟨0, Nat.one_pos, rfl⟩, trivial⟩, rfl⟩, ?_⟩
  rw [contents, List.flatMap_singleton]
  exact holds.live_eq

/-! ## Insertion -/

/-- A descent to the leaves comes to the home leaf. -/
theorem Rows.descends (h : t.Rows n 0 row) (hkey : longMin ≤ key)
    (home : Cut Entry.key key row (before ++ [s]) after) :
    Returns (fun fuel => t.descend aboveLeaves key fuel t.root) s.ptr :=
  h.thin.descends hkey home

/-- `btree_insert` ends, and puts the record into the home leaf. -/
theorem Rows.btreeInsert (h : t.Rows n 0 row) (hkey : longMin ≤ key)
    (home : Cut Entry.key key row (before ++ [s]) after) (right : Int) :
    ∃ t' n' row', Returns (fun fuel => BTree.btreeInsert key right fuel t) t' ∧
      Put t t' key right before s after row' ∧ Keeps t t' (fun _ => False) ∧
      t'.Over n' 0 row' := by
  obtain ⟨t', ret, n', row', hstore, hret, put, keeps, upward⟩ := h.stores hkey home right
  obtain ⟨fuel, hdescend, hstore⟩ := (h.descends hkey home).both (steady_descend _ _ _ _)
    (steady_store _ _ _ _) hstore
  refine ⟨t', n', row', ⟨fuel + 1, ?_⟩, put, keeps.mono fun _ => False.elim, upward⟩
  dsimp only at hdescend hstore ⊢
  rw [BTree.btreeInsert, hdescend]
  simp only [Option.bind_eq_bind, Option.bind_some, hstore]
  exact if_neg hret

/-- The rows after an insertion. -/
theorem Put.rows {right : Int} {n' : Nat} (put : Put t t' key right before s after row')
    (upward : t'.Over n' 0 row') (keeps : Keeps t t' (fun _ => False)) (h : t.Rows n 0 row)
    (home : Cut Entry.key key row (before ++ [s]) after) (most : key ≤ longMax)
    (hright : right ≠ 0) (value : right = key) :
    t'.Rows n' 0 row' ∧ Inserted Entry.key ⟨key, right⟩ (t.contents row) (t'.contents row') := by
  obtain ⟨hrow, ins⟩ := put.isRow h.isRow home most hright (fun _ => value) fun p =>
    keeps.allocated_of
  exact ⟨⟨hrow, upward⟩, ins⟩

/-! ## Search -/

/-- The leaf has a record with the key. -/
def Has (t : BTree) (s : Entry) (key : Int) : Prop := ∃ e ∈ (t.page s.ptr).live, e.key = key

instance (t : BTree) (s : Entry) (key : Int) : Decidable (t.Has s key) :=
  inferInstanceAs (Decidable (∃ e ∈ (t.page s.ptr).live, e.key = key))

/-- The null key has no record, because its value would be null. -/
theorem PageOk.ne_zero {next : Option Entry} (ok : PageOk (t.page s.ptr) 0 s next)
    (has : t.Has s key) : key ≠ 0 := by
  obtain ⟨z, rest, holds, -⟩ := ok.holds
  obtain ⟨e, he, rfl⟩ := has
  exact (ok.leaf rfl).2 e he ▸ holds.live e he

theorem Row.ne_zero {l : List Entry} {next : Option Entry} (h : t.Row 0 l next) (mem : s ∈ l)
    (has : t.Has s key) : key ≠ 0 := by
  obtain ⟨_, ok, -⟩ := h.pageOk mem
  exact PageOk.ne_zero ok has

/-- `linear_search` in a leaf answers the key, or the leaf to the right if that may have
it. -/
theorem linearSearch_leaf {next : Option Entry} (ok : PageOk (t.page s.ptr) 0 s next) :
    t.linearSearch (t.page s.ptr) key = some (if t.Has s key then key else
      if (t.page s.ptr).hdr.siblingPtr ≠ 0 ∧
        (t.page (t.page s.ptr).hdr.siblingPtr).firstKey ≤ key then (t.page s.ptr).hdr.siblingPtr
      else 0) := by
  obtain ⟨z, rest, holds, second⟩ := ok.holds
  have search : (t.page s.ptr).searchLeaf key = some (if t.Has s key then key else 0) :=
    holds.searchLeaf_eq (ok.leaf rfl).2 second key
  rw [linearSearch, if_pos (ok.leaf rfl).1, search]
  simp only [Option.bind_eq_bind, Option.bind_some]
  by_cases has : t.Has s key
  · rw [if_pos has, if_pos has, if_pos (PageOk.ne_zero ok has)]
    rfl
  · rw [if_neg has, if_neg has, if_neg (not_not.mpr rfl)]
    exact (apply_ite some _ _ _).symm

theorem Row.linearSearch_home (h : t.Row 0 row none)
    (home : Cut Entry.key key row (before ++ [s]) after) :
    t.linearSearch (t.page s.ptr) key = some (if t.Has s key then key else 0) := by
  rw [linearSearch_leaf (row_split.mp (home.split ▸ h)).2.1.1, if_neg (h.stays home)]

/-- The leaf behind the home leaf of a key does not have it. -/
theorem Row.linearSearch_next (h : t.Row 0 row none) {x : Entry}
    (home : Cut Entry.key key row (before ++ [s]) (x :: after)) :
    t.linearSearch (t.page x.ptr) key = some 0 := by
  obtain ⟨-, -, ok, alloc, hafter⟩ := row_split.mp (home.split ▸ h)
  obtain ⟨lt, ltAfter⟩ := List.forall_mem_cons.mp home.lt
  rw [Option.or_none] at ok
  have absent : ¬ t.Has x key := by
    rintro ⟨e, mem, rfl⟩
    exact absurd (ok.range e (ok.mem_records mem)).1 (not_le.mpr lt)
  rw [linearSearch_leaf ok, if_neg absent, if_neg]
  rintro ⟨hsib, hle⟩
  cases after with
  | nil => exact hsib ok.sibling
  | cons y after =>
      have sibling : (t.page x.ptr).hdr.siblingPtr = y.ptr := ok.sibling
      rw [sibling] at hle
      exact absurd (hafter.1.least_le_firstKey.trans hle) (not_le.mpr (ltAfter y (by simp)))

/-- A key that the home leaf has is found there, unless it is taken for the address of
the leaf behind it. -/
theorem Row.chase_found (h : t.Row 0 row none)
    (home : Cut Entry.key key row (before ++ [s]) after) (has : t.Has s key)
    (distinct : key ≠ (t.page s.ptr).hdr.siblingPtr) : t.chase key 1 s.ptr = some (s.ptr, key) := by
  rw [chase, h.linearSearch_home home, if_pos has]
  exact if_neg distinct

/-- A key that the home leaf does not have is not found. -/
theorem Row.chase_absent (h : t.Row 0 row none)
    (home : Cut Entry.key key row (before ++ [s]) after) (absent : ¬ t.Has s key) :
    t.chase key 1 s.ptr = some (if (t.page s.ptr).hdr.siblingPtr = 0 then 0 else s.ptr, 0) := by
  rw [chase, h.linearSearch_home home, if_neg absent]
  simp only [Option.bind_eq_bind, Option.bind_some, if_true]
  split
  · rename_i hsib
    rw [if_pos hsib.symm]
    rfl
  · rename_i hsib
    rw [if_neg fun hnull => hsib hnull.symm]
    rfl

/-- A key that is the address of the next leaf leads there, and is not found. -/
theorem Row.chase_confused (h : t.Row 0 row none)
    (home : Cut Entry.key key row (before ++ [s]) after) (has : t.Has s key) (hkey : key ≠ 0)
    (same : key = (t.page s.ptr).hdr.siblingPtr) :
    ∃ x rest, after = x :: rest ∧ x.ptr = key ∧
      t.chase key 2 s.ptr = some (if rest = [] then 0 else x.ptr, 0) := by
  obtain ⟨-, ⟨ok, -⟩, -⟩ := row_split.mp (home.split ▸ h)
  cases after with
  | nil => exact absurd (same.trans ok.sibling) hkey
  | cons x rest =>
      obtain ⟨-, -, ok', -, hrest⟩ := row_split.mp (home.split ▸ h)
      obtain rfl : key = x.ptr := same.trans ok.sibling
      have step : t.chase x.ptr 2 s.ptr = t.chase x.ptr 1 x.ptr := by
        rw [chase, h.linearSearch_home home, if_pos has]
        simp only [Option.bind_eq_bind, Option.bind_some]
        rw [if_pos same, if_neg hkey]
      refine ⟨x, rest, rfl, rfl, ?_⟩
      rw [step, chase, h.linearSearch_next home]
      simp only [Option.bind_eq_bind, Option.bind_some, if_true]
      cases rest with
      | nil =>
          have hsib : (t.page x.ptr).hdr.siblingPtr = 0 := ok'.sibling
          rw [if_pos hsib.symm, if_pos rfl]
          rfl
      | cons y rest =>
          have hsib : (t.page x.ptr).hdr.siblingPtr = y.ptr := ok'.sibling
          have hy : 0 ≠ y.ptr := (Allocator.ne_null_of hrest.2.1).symm
          rw [hsib, if_neg hy, if_neg (List.cons_ne_nil _ _)]
          rfl

/-- The walk from the home leaf of a key finds the key if the leaf has it, and the key is
not the address of the leaf behind it. -/
theorem Row.chase_home (h : t.Row 0 row none)
    (home : Cut Entry.key key row (before ++ [s]) after) :
    ∃ p, Returns (fun fuel => t.chase key fuel s.ptr)
      (p, if t.Has s key ∧ key ≠ (t.page s.ptr).hdr.siblingPtr then key else 0) := by
  by_cases has : t.Has s key
  · have ne := h.ne_zero (home.split ▸ by simp) has
    by_cases same : key = (t.page s.ptr).hdr.siblingPtr
    · obtain ⟨x, rest, -, -, hchase⟩ := h.chase_confused home has ne same
      rw [if_neg fun h => h.2 same]
      exact ⟨_, 2, hchase⟩
    · rw [if_pos ⟨has, same⟩]
      exact ⟨_, 1, h.chase_found home has same⟩
  · rw [if_neg fun h => has h.1]
    exact ⟨_, 1, h.chase_absent home has⟩

/-- A search answers the key if its home leaf has it, and the key is not the address of
the leaf behind it. -/
theorem ThinRows.btreeSearch (h : t.ThinRows n 0 row) (hkey : longMin ≤ key)
    (home : Cut Entry.key key row (before ++ [s]) after) :
    Returns (t.btreeSearch key)
      (if t.Has s key ∧ key ≠ (t.page s.ptr).hdr.siblingPtr then key else 0) := by
  obtain ⟨p, found⟩ := h.isRow.leaves.chase_home home
  obtain ⟨fuel, hdescend, hchase⟩ := (h.descends hkey home).both (steady_descend _ _ _ _)
    (steady_chase _ _ _) found
  refine ⟨fuel, ?_⟩
  rw [BTree.btreeSearch, hdescend]
  simp only [Option.bind_eq_bind, Option.bind_some, hchase]
  rfl

theorem Rows.btreeSearch (h : t.Rows n 0 row) (hkey : longMin ≤ key)
    (home : Cut Entry.key key row (before ++ [s]) after) :
    Returns (t.btreeSearch key)
      (if t.Has s key ∧ key ≠ (t.page s.ptr).hdr.siblingPtr then key else 0) :=
  h.thin.btreeSearch hkey home

/-! ## Deletion -/

/-- A page of a row is written. -/
theorem ThinRow.write {l : Nat} (h : t.ThinRow l row none) (nodup : (row.map Entry.ptr).Nodup)
    (hrow : row = before ++ s :: after) {p : Page} (thin : PageThin p l s after.head?) :
    (t.write s.ptr p).ThinRow l row none ∧ Keeps t (t.write s.ptr p) (fun p => p.hdr.level ≠ l) ∧
      (∀ x ∈ before ++ after, (t.write s.ptr p).page x.ptr = t.page x.ptr) ∧
      (t.write s.ptr p).contents row =
        t.contents before ++ (p.entries s.key ++ t.contents after) := by
  obtain ⟨hbefore, ⟨ok, alloc⟩, hafter⟩ := thinRow_split.mp (hrow ▸ h)
  have keeps := t.keeps_write p ok.level
  have here : (t.write s.ptr p).page s.ptr = p := Function.update_self ..
  have others : ∀ x ∈ before ++ after, (t.write s.ptr p).page x.ptr = t.page x.ptr :=
    fun x mem => Function.update_of_ne (ne_of_nodup nodup hrow x mem) ..
  obtain ⟨left, behind⟩ := List.forall_mem_append.mp others
  refine ⟨?_, keeps, others, ?_⟩
  · rw [hrow]
    exact thinRow_split.mpr ⟨hbefore.congr left fun _ => keeps.allocated_of,
      ⟨here.symm ▸ thin, keeps.allocated_of alloc⟩, hafter.congr behind fun _ => keeps.allocated_of⟩
  · rw [hrow, contents_append, contents_cons, contents_congr left, contents_congr behind, here]

/-- A leaf that keeps its form is written. -/
theorem Rows.writeLeaf (h : t.Rows n 0 row) (hrow : row = before ++ s :: after) {p : Page}
    (ok : PageOk p 0 s after.head?) :
    (t.write s.ptr p).Rows n 0 row ∧ Keeps t (t.write s.ptr p) (fun p => p.hdr.level ≠ 0) ∧
      (∀ x ∈ before ++ after, (t.write s.ptr p).page x.ptr = t.page x.ptr) ∧
      (t.write s.ptr p).page s.ptr = p := by
  obtain ⟨isRow, keeps, others, -⟩ := h.isRow.thin.write h.upward.nodup hrow ok.thin
  exact ⟨⟨isRow.leaves, keeps.upward rfl h.upward fun p hp => ne_of_gt hp⟩, keeps, others,
    Function.update_self ..⟩

/-- A page that is written keeps its records and its place, and so do the others. -/
theorem written_same {p : Page} (others : ∀ x ∈ before ++ after, t'.page x.ptr = t.page x.ptr)
    (here : t'.page s.ptr = p) (live : p.live = (t.page s.ptr).live)
    (sibling : p.hdr.siblingPtr = (t.page s.ptr).hdr.siblingPtr) :
    ∀ y ∈ before ++ s :: after, (t'.page y.ptr).live = (t.page y.ptr).live ∧
      (t'.page y.ptr).hdr.siblingPtr = (t.page y.ptr).hdr.siblingPtr := by
  intro y mem
  rcases List.mem_append.mp mem with hy | hy
  · rw [others y (List.mem_append_left _ hy)]
    exact ⟨rfl, rfl⟩
  · rcases List.mem_cons.mp hy with rfl | hy
    · exact here.symm ▸ ⟨live, sibling⟩
    · rw [others y (List.mem_append_right _ hy)]
      exact ⟨rfl, rfl⟩

/-- One round of `btree_delete`: it ends without a change, takes the first record of the
key from the home leaf, or turns a leaf without the key around and starts anew. -/
theorem Rows.btreeDelete_cases (h : t.Rows n 0 row) (hkey : longMin ≤ key) (ne : key ≠ 0)
    (home : Cut Entry.key key row (before ++ [s]) after) {fuel : Nat}
    (run : BTree.btreeDelete key (fuel + 1) t = some t') :
    t' = t ∨
    (t.Has s key ∧ key ≠ (t.page s.ptr).hdr.siblingPtr ∧
      ∃ p, (t.page s.ptr).removeKey key = some (p, true) ∧ t' = t.write s.ptr p) ∨
    ∃ x ∈ row, ¬ t.Has x key ∧
      ∃ p, (t.page x.ptr).removeKey key = some (p, false) ∧
        BTree.btreeDelete key fuel (t.write x.ptr p) = some t' := by
  obtain ⟨leaf, hdescend, run⟩ := Option.bind_eq_some_iff.mp run
  obtain rfl := (steady_descend _ _ _ _).unique ⟨fuel, hdescend⟩ (h.descends hkey home)
  obtain ⟨⟨q, found⟩, hchase, run⟩ := Option.bind_eq_some_iff.mp run
  have arrives : ∀ {fuel' r}, t.chase key fuel' s.ptr = some r → q = r.1 := fun hr =>
    congrArg Prod.fst ((steady_chase _ _ _).unique ⟨fuel, hchase⟩ ⟨_, hr⟩)
  have turns : ∀ x ∈ row, q = x.ptr → ¬ t.Has x key → ∃ x ∈ row, ¬ t.Has x key ∧
      ∃ p, (t.page x.ptr).removeKey key = some (p, false) ∧
        BTree.btreeDelete key fuel (t.write x.ptr p) = some t' := by
    rintro x mem rfl absent
    obtain ⟨_, ok, alloc⟩ := h.isRow.pageOk mem
    obtain ⟨p, removed, -⟩ := ok.removeKey_not_mem absent
    simp only [if_neg (Allocator.ne_null_of alloc), removed] at run
    exact ⟨x, mem, absent, p, removed, run⟩
  have stops : q = 0 → t' = t := by
    rintro rfl
    exact (Option.some.inj run).symm
  have mem : s ∈ row := home.split ▸ by simp
  obtain ⟨-, ⟨ok, alloc⟩, -⟩ := row_split.mp (home.split ▸ h.isRow)
  by_cases has : t.Has s key
  · by_cases same : key = (t.page s.ptr).hdr.siblingPtr
    · obtain ⟨x, rest, rfl, -, confused⟩ := h.isRow.chase_confused home has ne same
      have hq := arrives confused
      dsimp only at hq
      split at hq
      · exact Or.inl (stops hq)
      · refine Or.inr (Or.inr (turns x (home.split ▸ by simp) hq ?_))
        rintro ⟨e, hmem, rfl⟩
        obtain ⟨-, -, ok', -, -⟩ := row_split.mp (home.split ▸ h.isRow)
        have lt := home.lt x List.mem_cons_self
        exact absurd (ok'.range e (ok'.mem_records hmem)).1 (not_le.mpr lt)
    · obtain rfl := arrives (h.isRow.chase_found home has same)
      obtain ⟨p, front, e, back, removed, -⟩ := ok.removeKey_mem has
      simp only [if_neg (Allocator.ne_null_of alloc), removed] at run
      exact Or.inr (Or.inl ⟨has, same, p, removed, (Option.some.inj run).symm⟩)
  · have hq := arrives (h.isRow.chase_absent home has)
    dsimp only at hq
    split at hq
    · exact Or.inl (stops hq)
    · exact Or.inr (Or.inr (turns s mem hq has))

/-- A deletion that finds the key takes its first record from the home leaf. -/
theorem Rows.btreeDelete_found (h : t.Rows n 0 row) (hkey : longMin ≤ key)
    (home : Cut Entry.key key row (before ++ [s]) after) (has : t.Has s key)
    (distinct : key ≠ (t.page s.ptr).hdr.siblingPtr) :
    ∃ p, (t.page s.ptr).removeKey key = some (p, true) ∧
      Returns (fun fuel => BTree.btreeDelete key fuel t) (t.write s.ptr p) := by
  obtain ⟨-, ⟨ok, alloc⟩, -⟩ := row_split.mp (home.split ▸ h.isRow)
  obtain ⟨p, front, e, back, removed, -⟩ := ok.removeKey_mem has
  obtain ⟨fuel, hdescend, hchase⟩ := (h.descends hkey home).both (steady_descend _ _ _ _)
    (steady_chase _ _ _) ⟨1, h.isRow.chase_found home has distinct⟩
  refine ⟨p, removed, fuel + 1, ?_⟩
  dsimp only at hdescend hchase ⊢
  rw [BTree.btreeDelete, hdescend]
  simp only [Option.bind_eq_bind, Option.bind_some, hchase,
    if_neg (Allocator.ne_null_of alloc), removed]
  rfl

end Operations

end BTree

end F3Tree
