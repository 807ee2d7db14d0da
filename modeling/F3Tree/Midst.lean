import F3Tree.Walk

/-!
# The leaves in the middle of a call

Between two stores of a call the leaves are those from before the call, but for the one or two
pages that the call writes in the place of one leaf (`Midst`).  The next process, which starts
from the leftmost leaf, finds in them what was there before, but for the key of the call
(`Midst.answers`).
-/

namespace F3Tree

open Keyed Fuel Runs

namespace BTree

section Midst

variable {t u u' : BTree} {k key : Int} {n : Nat} {row before after : List Entry} {s : Entry}
  {mid : List Int}

/-- The leaves of `u` are those of `t`, but for the pages `mid` in the place of `s`, which a
call for the key `k` is writing. -/
structure Midst (t u : BTree) (k : Int) (before : List Entry) (s : Entry) (after : List Entry)
    (mid : List Int) : Prop where
  rootRef : u.rootRef = t.rootRef
  others : ∀ x ∈ before ++ after, u.page x.ptr = t.page x.ptr
  places : mid = [s.ptr] ∨ mid = [s.ptr, t.fresh]
  chain : u.Chain ((after.map Entry.ptr).headD 0) mid
  shows : ∀ key, ∀ y ∈ mid, (u.page y).Shows key
  finds : ∀ key, key ≠ k → ((∃ y ∈ mid, (u.page y).Finds key) ↔ t.Has s key)
  /-- A page that a walk comes to does not begin beyond a key in or behind it. -/
  early : ∀ key, key ≠ k → ∀ front z back, mid = front ++ z :: back →
    (before ≠ [] ∨ front ≠ []) →
    (∃ y ∈ z :: back, (u.page y).Finds key) ∨ (∃ x ∈ after, t.Has x key) →
    (u.page z).firstKey ≤ key

/-- Stores to other pages. -/
theorem Midst.congr (h : t.Midst u k before s after mid) (rootRef : u'.rootRef = u.rootRef)
    (others : ∀ x ∈ before ++ after, u'.page x.ptr = u.page x.ptr)
    (pages : ∀ y ∈ mid, u'.page y = u.page y) : t.Midst u' k before s after mid := by
  refine ⟨rootRef.trans h.rootRef, fun x mem => (others x mem).trans (h.others x mem), h.places,
    h.chain.congr pages, fun key y mem => pages y mem ▸ h.shows key y mem, fun key ne => ?_, ?_⟩
  · rw [← h.finds key ne]
    exact exists_congr fun y => and_congr_right fun mem => by rw [pages y mem]
  · intro key ne front z back split before some
    have sub : ∀ y ∈ z :: back, y ∈ mid := fun y mem => split ▸ List.mem_append_right _ mem
    rw [pages z (sub z List.mem_cons_self)]
    refine h.early key ne front z back split before (some.imp_left ?_)
    rintro ⟨y, mem, finds⟩
    exact ⟨y, mem, pages y (sub y mem) ▸ finds⟩

theorem Row.chain {next : Option Entry} (h : t.Row 0 row next) :
    t.Chain ((next.map Entry.ptr).getD 0) (row.map Entry.ptr) := by
  induction row with
  | nil => trivial
  | cons x row ih =>
      refine ⟨?_, ih h.2.2⟩
      rw [h.1.sibling]
      cases row <;> rfl

theorem finds_iff_has {x : Entry} (h : t.Row 0 row none) (mem : x ∈ row)
    (same : u.page x.ptr = t.page x.ptr) : (u.page x.ptr).Finds key ↔ t.Has x key := by
  obtain ⟨_, ok, -⟩ := h.pageOk mem
  rw [same]
  exact ok.finds_iff

/-- An element behind a split of a list lies in the first part or in the second. -/
theorem append_cons_cases {α : Type} {front back xs ys : List α} {z : α}
    (h : xs ++ ys = front ++ z :: back) :
    (∃ rest, xs = front ++ z :: rest ∧ back = rest ++ ys) ∨
      ∃ rest, front = xs ++ rest ∧ ys = rest ++ z :: back := by
  rcases List.append_eq_append_iff.mp h with ⟨rest, hfront, hys⟩ | ⟨rest, hxs, hback⟩
  · exact Or.inr ⟨rest, hfront, hys⟩
  · cases rest with
    | nil => exact Or.inr ⟨[], by rw [hxs, List.append_nil, List.append_nil], hback.symm⟩
    | cons x rest =>
        obtain ⟨rfl, rfl⟩ := List.cons.inj hback
        exact Or.inl ⟨rest, hxs, rfl⟩

/-- No page but the first begins beyond a key that it or a page behind it has. -/
def Early (t : BTree) (key : Int) (xs : List Int) : Prop :=
  ∀ front z back, xs = front ++ z :: back → front ≠ [] →
    (∃ y ∈ z :: back, (t.page y).Finds key) → (t.page z).firstKey ≤ key

theorem Rows.early (h : t.Rows n 0 row) (inOrder : t.InOrder) (key : Int) :
    t.Early key (row.map Entry.ptr) := by
  cases row with
  | nil => exact fun front z back split => absurd split (by simp)
  | cons x row =>
      rintro front z back split nonempty ⟨y, mem, finds⟩
      obtain ⟨p, front, rfl⟩ := List.exists_cons_of_ne_nil nonempty
      obtain ⟨-, split⟩ := List.cons.inj split
      obtain ⟨front', rest, rfl, -, hrest⟩ := List.map_eq_append_iff.mp split
      obtain ⟨z', back', rfl, rfl, rfl⟩ := List.map_eq_cons_iff.mp hrest
      rw [← List.map_cons, List.mem_map] at mem
      obtain ⟨y', hy, rfl⟩ := mem
      have here : y' ∈ x :: (front' ++ z' :: back') := by
        rw [List.mem_cons, List.mem_append]
        exact Or.inr (Or.inr hy)
      obtain ⟨e, he, rfl⟩ := (finds_iff_has h.isRow here rfl).mp finds
      exact h.inOrder_iff.mp inOrder front' z' back' rfl y' hy e he

/-- The leaves of `u`. -/
def midway (before : List Entry) (mid : List Int) (after : List Entry) : List Int :=
  before.map Entry.ptr ++ (mid ++ after.map Entry.ptr)

/-- A leaf of `u` is one of `t`, or being written. -/
theorem mem_midway {y : Int} : y ∈ midway before mid after ↔
    y ∈ mid ∨ ∃ x ∈ before ++ after, x.ptr = y := by
  simp only [midway, List.mem_append, List.mem_map]
  constructor
  · rintro (⟨x, hx, rfl⟩ | hy | ⟨x, hx, rfl⟩)
    · exact Or.inr ⟨x, Or.inl hx, rfl⟩
    · exact Or.inl hy
    · exact Or.inr ⟨x, Or.inr hx, rfl⟩
  · rintro (hy | ⟨x, hx | hx, rfl⟩)
    · exact Or.inr (Or.inl hy)
    · exact Or.inl ⟨x, hx, rfl⟩
    · exact Or.inr (Or.inr ⟨x, hx, rfl⟩)

theorem Midst.mem_row (hrow : row = before ++ s :: after) :
    ∀ x ∈ before ++ after, x ∈ row := by
  intro x mem
  rw [hrow]
  exact List.mem_append.mpr ((List.mem_append.mp mem).imp_right (List.mem_cons_of_mem s))

/-- In `u` a leaf finds the keys that are there in `t`. -/
theorem Midst.finds_iff (h : t.Midst u k before s after mid) (hrow : row = before ++ s :: after)
    (isRow : t.Row 0 row none) (ne : key ≠ k) :
    (∃ y ∈ midway before mid after, (u.page y).Finds key) ↔ ∃ x ∈ row, t.Has x key := by
  have sub := Midst.mem_row hrow
  constructor
  · rintro ⟨y, mem, finds⟩
    rcases mem_midway.mp mem with hy | ⟨x, hx, rfl⟩
    · exact ⟨s, hrow ▸ by simp, (h.finds key ne).mp ⟨y, hy, finds⟩⟩
    · exact ⟨x, sub x hx, (finds_iff_has isRow (sub x hx) (h.others x hx)).mp finds⟩
  · rintro ⟨x, mem, has⟩
    have cases : x = s ∨ x ∈ before ++ after := by
      rw [hrow, List.mem_append, List.mem_cons] at mem
      rw [List.mem_append]
      tauto
    rcases cases with rfl | hx
    · obtain ⟨y, hy, finds⟩ := (h.finds key ne).mpr has
      exact ⟨y, mem_midway.mpr (Or.inl hy), finds⟩
    · exact ⟨x.ptr, mem_midway.mpr (Or.inr ⟨x, hx, rfl⟩),
        (finds_iff_has isRow mem (h.others x hx)).mpr has⟩

/-- Neither does a page of `u`. -/
theorem Midst.isEarly (h : t.Midst u k before s after mid) (hrow : row = before ++ s :: after)
    (rows : t.Rows n 0 row) (inOrder : t.InOrder) (ne : key ≠ k) :
    u.Early key (midway before mid after) := by
  have early := rows.early inOrder key
  have sub := Midst.mem_row hrow
  have inRow : ∀ x ∈ before ++ after, (u.page x.ptr).Finds key ↔ (t.page x.ptr).Finds key :=
    fun x hx => by rw [h.others x hx]
  have has : ∀ x ∈ row, t.Has x key ↔ (t.page x.ptr).Finds key := fun x hx =>
    (finds_iff_has rows.isRow hx rfl).symm
  rintro front z back whole nonempty ⟨y, mem, finds⟩
  rcases append_cons_cases whole with ⟨rest, hbefore, rfl⟩ | ⟨front', rfl, split⟩
  · -- A leaf in front of those that are written.
    obtain ⟨b₁, b₂, hb, rfl, hb₂⟩ := List.map_eq_append_iff.mp hbefore
    obtain ⟨x, b₃, rfl, rfl, rfl⟩ := List.map_eq_cons_iff.mp hb₂
    have hx : x ∈ before ++ after := by simp [hb]
    rw [h.others x hx]
    refine early (b₁.map Entry.ptr) x.ptr ((b₃ ++ s :: after).map Entry.ptr) (by simp [hrow, hb])
      nonempty ?_
    have later : ∀ x' ∈ x :: (b₃ ++ s :: after), t.Has x' key →
        ∃ y ∈ x.ptr :: (b₃ ++ s :: after).map Entry.ptr, (t.page y).Finds key := by
      intro x' mem has'
      refine ⟨x'.ptr, by simpa using List.mem_map_of_mem mem, (has x' ?_).mp has'⟩
      rw [hrow, hb]
      simp only [List.mem_append, List.mem_cons] at mem ⊢
      tauto
    have mem' : (y ∈ mid) ∨ ∃ x' ∈ before ++ after, x' ∈ x :: (b₃ ++ s :: after) ∧ x'.ptr = y := by
      simp only [List.mem_cons, List.mem_append, List.mem_map] at mem
      rcases mem with rfl | ⟨x', hx', rfl⟩ | hy | ⟨x', hx', rfl⟩
      · exact Or.inr ⟨x, hx, by simp, rfl⟩
      · exact Or.inr ⟨x', by simp [hb, hx'], by simp [hx'], rfl⟩
      · exact Or.inl hy
      · exact Or.inr ⟨x', by simp [hx'], by simp [hx'], rfl⟩
    rcases mem' with hy | ⟨x', hx', behind, rfl⟩
    · exact later s (by simp) ((h.finds key ne).mp ⟨y, hy, finds⟩)
    · exact later x' behind ((has x' (sub x' hx')).mpr ((inRow x' hx').mp finds))
  rcases append_cons_cases split with ⟨rest, hmid, rfl⟩ | ⟨front'', rfl, behind⟩
  · -- One of those that are written.
    refine h.early key ne front' z rest hmid ?_ ?_
    · by_cases hb : before = []
      · exact Or.inr (by simpa [hb] using nonempty)
      · exact Or.inl hb
    · rw [← List.cons_append, List.mem_append, List.mem_map] at mem
      rcases mem with hy | ⟨x, hx, rfl⟩
      · exact Or.inl ⟨y, hy, finds⟩
      · have hx' : x ∈ before ++ after := List.mem_append_right _ hx
        exact Or.inr ⟨x, hx, (has x (sub x hx')).mpr ((inRow x hx').mp finds)⟩
  · -- A leaf behind them.
    obtain ⟨a₁, a₂, ha, rfl, ha₂⟩ := List.map_eq_append_iff.mp behind
    obtain ⟨x, a₃, rfl, rfl, rfl⟩ := List.map_eq_cons_iff.mp ha₂
    have hx : x ∈ before ++ after := by simp [ha]
    rw [h.others x hx]
    refine early ((before ++ s :: a₁).map Entry.ptr) x.ptr (a₃.map Entry.ptr) (by simp [hrow, ha])
      (by simp) ?_
    rw [← List.map_cons, List.mem_map] at mem
    obtain ⟨x', hx', rfl⟩ := mem
    have there : x' ∈ before ++ after := by
      rw [ha]
      exact List.mem_append_right _ (List.mem_append_right _ hx')
    exact ⟨x'.ptr, List.mem_map_of_mem hx', (inRow x' there).mp finds⟩

/-- The next process finds in `u` what is there in `t`, but for the key of the call. -/
theorem Midst.answers (h : t.Midst u k before s after mid) (hrow : row = before ++ s :: after)
    (rows : t.Rows n 0 row) (inOrder : t.InOrder)
    (pool : row.head?.map Entry.ptr = some t.rootRef.rootPage)
    (apart : key = k ∨ (∃ x ∈ row, t.Has x key) → ¬ t.Allocated key ∧ ∀ y ∈ mid, key ≠ y) :
    ∃ found, u.reopen.Answers key found ∧ (key ≠ k → (found ↔ ∃ x ∈ row, t.Has x key)) := by
  have sub := Midst.mem_row hrow
  have alloc : ∀ x ∈ row, t.Allocated x.ptr := fun x hx => by
    obtain ⟨_, -, alloc⟩ := rows.isRow.pageOk hx
    exact alloc
  have head : (midway before mid after).head? = some t.rootRef.rootPage := by
    rw [← pool, hrow]
    cases before with
    | nil => rcases h.places with rfl | rfl <;> rfl
    | cons x before => rfl
  obtain ⟨xs, hxs⟩ : ∃ xs, midway before mid after = t.rootRef.rootPage :: xs :=
    List.head?_eq_some_iff.mp head
  have shows : ∀ y ∈ midway before mid after, (u.page y).Shows key := by
    intro y mem
    rcases mem_midway.mp mem with hy | ⟨x, hx, rfl⟩
    · exact h.shows key y hy
    · obtain ⟨_, ok, -⟩ := rows.isRow.pageOk (sub x hx)
      rw [h.others x hx]
      exact ok.shows key
  have ne_null : ∀ y ∈ midway before mid after, y ≠ 0 := by
    intro y mem
    rcases mem_midway.mp mem with hy | ⟨x, hx, rfl⟩
    · rcases h.places with rfl | rfl
      · obtain rfl := List.mem_singleton.mp hy
        exact Allocator.ne_null_of (alloc s (hrow ▸ by simp))
      · rcases List.mem_cons.mp hy with rfl | hy
        · exact Allocator.ne_null_of (alloc s (hrow ▸ by simp))
        · obtain rfl := List.mem_singleton.mp hy
          exact t.alloc.ne_null _
    · exact Allocator.ne_null_of (alloc x (sub x hx))
  have others : (∃ y ∈ midway before mid after, (u.page y).Finds key) →
      ∀ y ∈ midway before mid after, key ≠ y := by
    intro some y mem
    obtain ⟨free, apart⟩ := apart (or_iff_not_imp_left.mpr fun ne =>
      (h.finds_iff hrow rows.isRow ne).mp some)
    rcases mem_midway.mp mem with hy | ⟨x, hx, rfl⟩
    · exact apart y hy
    · exact fun heq => free (heq ▸ alloc x (sub x hx))
  have chain : u.Chain 0 (midway before mid after) := by
    obtain ⟨hbefore, ⟨-, -⟩, hafter⟩ := row_split.mp (hrow ▸ rows.isRow)
    have last : (mid ++ after.map Entry.ptr).headD 0 = s.ptr := by
      rcases h.places with rfl | rfl <;> rfl
    refine chain_append.mpr ⟨?_, chain_append.mpr ⟨h.chain, ?_⟩⟩
    · rw [last]
      refine hbefore.chain.congr fun y mem => ?_
      obtain ⟨x, hx, rfl⟩ := List.mem_map.mp mem
      exact h.others x (List.mem_append_left _ hx)
    · refine hafter.chain.congr fun y mem => ?_
      obtain ⟨x, hx, rfl⟩ := List.mem_map.mp mem
      exact h.others x (List.mem_append_right _ hx)
  have root : u.rootRef.rootPage = t.rootRef.rootPage := congrArg RootRef.rootPage h.rootRef
  have finds : key ≠ k → _ := h.finds_iff hrow rows.isRow
  have early : key ≠ k → _ := h.isEarly hrow rows inOrder
  rw [hxs] at shows ne_null others chain
  simp only [hxs] at finds early
  obtain ⟨found, answers, only, reaches⟩ := chain_answers root shows chain
    (fun y mem => ne_null y (List.mem_cons_of_mem _ mem))
    fun some y mem => others some y (List.mem_cons_of_mem _ mem)
  refine ⟨found, answers, fun ne => ⟨fun hfound => (finds ne).mp (only hfound), fun has => ?_⟩⟩
  refine reaches ((finds ne).mpr has) fun front z back split => ?_
  exact early ne (_ :: front) z back (congrArg (_ :: ·) split) (List.cons_ne_nil _ _)

/-! ### The leaf alone -/

theorem Rows.page_others (rows : t.Rows n 0 row) (hrow : row = before ++ s :: after) (q : Page) :
    ∀ x ∈ before ++ after, (t.write s.ptr q).page x.ptr = t.page x.ptr := fun x mem =>
  Function.update_of_ne (ne_of_nodup rows.upward.nodup hrow x mem) ..

/-- One page is written. -/
theorem Rows.midst_page (rows : t.Rows n 0 row) (hrow : row = before ++ s :: after) {a q : Page}
    (passing : (t.page s.ptr).Passing a k q)
    (early : before ≠ [] → ∀ key, key ≠ k → t.Has s key ∨ (∃ x ∈ after, t.Has x key) →
      (t.page s.ptr).firstKey ≤ key ∧ a.firstKey ≤ key) :
    t.Midst (t.write s.ptr q) k before s after [s.ptr] := by
  obtain ⟨-, ⟨ok, -⟩, -⟩ := row_split.mp (hrow ▸ rows.isRow)
  have finds : ∀ key, key ≠ k → (q.Finds key ↔ t.Has s key) := fun key ne =>
    (passing.finds key ne).trans ok.finds_iff
  refine ⟨rfl, rows.page_others hrow q, Or.inl rfl, ⟨?_, trivial⟩, fun key => ?_, fun key ne => ?_,
    ?_⟩
  · rw [page_write, passing.sibling, ok.sibling]
    cases after <;> rfl
  · refine List.forall_mem_singleton.mpr ?_
    rw [page_write]
    exact passing.shows key
  · simp only [List.mem_singleton, exists_eq_left, page_write]
    exact finds key ne
  · intro key ne front z back split nonempty some
    obtain ⟨rfl, rfl, rfl⟩ : front = [] ∧ z = s.ptr ∧ back = [] := by
      cases front with
      | nil => simpa [eq_comm] using split
      | cons y front => simp at split
    simp only [List.mem_singleton, exists_eq_left, page_write] at some
    obtain ⟨old, new⟩ := early (nonempty.resolve_right (not_not.mpr rfl)) key ne
      (some.imp_left (finds key ne).mp)
    rw [page_write]
    rcases passing.firstKey with same | same
    · exact same ▸ old
    · exact same ▸ new

/-! ### The halves of a leaf -/

/-- Two pages are written, the second one new. -/
theorem Rows.midst_halves (rows : t.Rows n 0 row) (hrow : row = before ++ s :: after) {q r : Page}
    (hq : ∀ key, q.Shows key) (hr : ∀ key, r.Shows key) (link : q.hdr.siblingPtr = t.fresh)
    (next : r.hdr.siblingPtr = (t.page s.ptr).hdr.siblingPtr)
    (finds : ∀ key, key ≠ k → (q.Finds key ∨ r.Finds key ↔ t.Has s key))
    (left : before ≠ [] → ∀ key, key ≠ k → t.Has s key ∨ (∃ x ∈ after, t.Has x key) →
      q.firstKey ≤ key)
    (right : ∀ key, key ≠ k → r.Finds key ∨ (∃ x ∈ after, t.Has x key) → r.firstKey ≤ key) :
    t.Midst (t.halved s.ptr (q, r)) k before s after [s.ptr, t.fresh] := by
  obtain ⟨-, ⟨ok, -⟩, -⟩ := row_split.mp (hrow ▸ rows.isRow)
  have neFresh := rows.isRow.ne_fresh
  have here : (t.halved s.ptr (q, r)).page s.ptr = q := page_write ..
  have there : (t.halved s.ptr (q, r)).page t.fresh = r :=
    (Function.update_of_ne (neFresh s (hrow ▸ by simp)).symm ..).trans (page_new ..)
  refine ⟨rfl, fun x mem => ?_, Or.inr rfl, ⟨here.symm ▸ link, ?_, trivial⟩, fun key => ?_,
    fun key ne => ?_, ?_⟩
  · exact (Function.update_of_ne (ne_of_nodup rows.upward.nodup hrow x mem) ..).trans
      (Function.update_of_ne (neFresh x (Midst.mem_row hrow x mem)) ..)
  · rw [there, next, ok.sibling]
    cases after <;> rfl
  · refine List.forall_mem_cons.mpr ⟨here.symm ▸ hq key, List.forall_mem_singleton.mpr ?_⟩
    exact there.symm ▸ hr key
  · simp only [List.mem_cons, List.not_mem_nil, or_false, exists_eq_or_imp, exists_eq_left, here,
      there]
    exact finds key ne
  · intro key ne front z back split nonempty some
    have two : (front = [] ∧ z = s.ptr ∧ back = [t.fresh]) ∨
        (front = [s.ptr] ∧ z = t.fresh ∧ back = []) := by
      cases front with
      | nil => simpa [eq_comm] using split
      | cons y front =>
          cases front with
          | nil => simpa [eq_comm] using split
          | cons y' front => simp at split
    rcases two with ⟨rfl, rfl, rfl⟩ | ⟨rfl, rfl, rfl⟩
    · simp only [List.mem_cons, List.not_mem_nil, or_false, exists_eq_or_imp, exists_eq_left,
        here, there] at some
      rw [here]
      exact left (nonempty.resolve_right (not_not.mpr rfl)) key ne
        (some.imp_left (finds key ne).mp)
    · simp only [List.mem_singleton, exists_eq_left, there] at some
      rw [there]
      exact right key ne some

end Midst

end BTree

end F3Tree
