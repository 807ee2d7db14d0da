import F3Tree.Restart

/-!
# Keys of the whole type

A record's value is its key, and a search tells a value from the step to the next leaf
by comparing it with that leaf's address.  So a key is lost in two ways: zero, whose
record reads as the end of its page, and a key that is the address of the leaf to the
right of its own (`NoConfusion`).  Insertions of distinct keys make each key found and
leave the others alone exactly as long as neither happens (`insert_frame_iff`).
-/

namespace F3Tree

open Keyed Fuel Runs

/-! ## A leaf that takes the record of zero -/

theorem Page.leafForward_absent {key : Int} (es : List Entry) {z : Entry} (stop : z.ptr = 0)
    (rest : List Entry) (absent : ∀ e ∈ es, e.key ≠ key) :
    ∀ prev : Entry, leafForward key prev (es ++ z :: rest) = some 0 := by
  induction es with
  | nil => exact fun prev => if_pos stop
  | cons e es ih =>
      intro prev
      obtain ⟨he, absent⟩ := List.forall_mem_cons.mp absent
      rw [List.cons_append, leafForward]
      split
      · rfl
      · rw [if_neg fun h => he h.1]
        exact ih absent e

section PageOk

variable {p : Page} {s : Entry} {next : Option Entry}

theorem PageOk.key_ne_zero (ok : PageOk p 0 s next) : ∀ e ∈ p.live, e.key ≠ 0 := by
  obtain ⟨z, rest, holds, -⟩ := ok.holds
  intro e mem
  exact (ok.leaf rfl).2 e mem ▸ holds.live e mem

theorem PageOk.searchLeaf_zero (ok : PageOk p 0 s next) : p.searchLeaf 0 = some 0 := by
  obtain ⟨z, rest, holds, second⟩ := ok.holds
  rw [holds.searchLeaf_eq (ok.leaf rfl).2 second, ite_self]

/-- A leaf that took the record of zero does not find it. -/
theorem PageOk.searchLeaf_insert_zero (ok : PageOk p 0 s next)
    (room : p.live.length < cardinality - 1) :
    (p.insertKey 0 0 p.live.length).1.searchLeaf 0 = some 0 := by
  obtain ⟨z, rest, holds, -⟩ := ok.holds
  have size := ok.size
  rw [holds.records, List.length_append, List.length_cons] at size
  cases rest with
  | nil =>
      rw [List.length_nil] at size
      omega
  | cons z' rest =>
      obtain ⟨below, above, cut, records⟩ := holds.records_insertKey ok.ordered 0 0
      have absent : ∀ e ∈ below ++ above, e.key ≠ 0 := cut.eq ▸ ok.key_ne_zero
      obtain ⟨absentBelow, absentAbove⟩ := List.forall_mem_append.mp absent
      rw [List.append_assoc] at records
      rw [Page.searchLeaf, Page.isForward_insertKey]
      cases below with
      | nil =>
          rw [List.nil_append, List.cons_append] at records
          rw [records]
          simp only [if_true]
          rw [if_neg fun h => h.2 rfl]
          exact Page.leafForward_absent above rfl rest absentAbove _
      | cons e below =>
          obtain ⟨he, absentBelow⟩ := List.forall_mem_cons.mp absentBelow
          rw [List.cons_append] at records
          rw [records]
          simp only [if_true]
          rw [if_neg fun h => he h.1]
          exact Page.leafForward_absent below rfl _ absentBelow e

/-- Nor does either half of a split leaf. -/
theorem SplitOk.searchLeaf_insert_zero {sibling : Int} {halves : Page.Split}
    (sp : SplitOk p 0 s next sibling halves) :
    (halves.insert 0 0).1.searchLeaf 0 = some 0 ∧ (halves.insert 0 0).2.searchLeaf 0 = some 0 := by
  rw [Page.Split.insert, sp.leftCnt, sp.siblingCnt]
  split
  · exact ⟨sp.left.searchLeaf_insert_zero sp.leftRoom, sp.right.searchLeaf_zero⟩
  · exact ⟨sp.left.searchLeaf_zero, sp.right.searchLeaf_insert_zero sp.siblingRoom⟩

/-- What an insertion leaves of the headers of the halves. -/
theorem SplitOk.hdr_insert {l : Nat} {sibling : Int} {halves : Page.Split}
    (sp : SplitOk p l s next sibling halves) (key ptr : Int) :
    (halves.insert key ptr).1.hdr.leftmostPtr = halves.left.hdr.leftmostPtr ∧
      (halves.insert key ptr).2.hdr.leftmostPtr = halves.sibling.hdr.leftmostPtr ∧
      (halves.insert key ptr).1.hdr.siblingPtr = sibling ∧
      (halves.insert key ptr).2.hdr.siblingPtr = (next.map Entry.ptr).getD 0 := by
  rw [Page.Split.insert]
  split
  · exact ⟨rfl, rfl, sp.left.sibling, sp.right.sibling⟩
  · exact ⟨rfl, rfl, sp.left.sibling, sp.right.sibling⟩

/-- Without duplicates the split key tells which half of a leaf a record is in. -/
theorem SplitOk.mem_insert {sibling key : Int} {halves : Page.Split}
    (sp : SplitOk p 0 s next sibling halves) (ok : PageOk p 0 s next)
    (nodup : (p.live.map Entry.key).Nodup) (least : s.key ≤ key) (most : key ≤ longMax)
    (lt : ∀ n ∈ next, key < n.key) (ne : key ≠ 0) (e : Entry) :
    (e ∈ (halves.insert key key).1.live ↔
      (e = ⟨key, key⟩ ∨ e ∈ p.live) ∧ e.key < halves.splitKey) ∧
    (e ∈ (halves.insert key key).2.live ↔
      (e = ⟨key, key⟩ ∨ e ∈ p.live) ∧ halves.splitKey ≤ e.key) := by
  have live : p.live = halves.left.live ++ halves.sibling.live := by
    have := sp.entries
    rwa [Page.entries, Page.entries, Page.entries, if_pos (ok.leaf rfl).1,
      if_pos (sp.left.leaf rfl).1, if_pos (sp.right.leaf rfl).1] at this
  have left : ∀ e ∈ halves.left.live, e.key < halves.splitKey := by
    intro e mem
    refine lt_of_le_of_ne ((sp.left.below _ rfl).2.1 e mem) fun heq => ?_
    obtain ⟨e', mem', heq'⟩ := sp.leaf rfl
    rw [live, List.map_append] at nodup
    exact (List.nodup_append.mp nodup).2.2 _ (List.mem_map_of_mem mem) _
      (List.mem_map_of_mem mem') (heq.trans heq'.symm)
  have right : ∀ e ∈ halves.sibling.live, halves.splitKey ≤ e.key := fun e mem =>
    (sp.right.range e (sp.right.mem_records mem)).1
  have old : (e ∈ halves.left.live ↔ e ∈ p.live ∧ e.key < halves.splitKey) ∧
      (e ∈ halves.sibling.live ↔ e ∈ p.live ∧ halves.splitKey ≤ e.key) := by
    rw [live, List.mem_append]
    constructor
    · refine ⟨fun mem => ⟨Or.inl mem, left e mem⟩, ?_⟩
      rintro ⟨mem | mem, hlt⟩
      · exact mem
      · exact absurd (right e mem) (not_le.mpr hlt)
    · refine ⟨fun mem => ⟨Or.inr mem, right e mem⟩, ?_⟩
      rintro ⟨mem | mem, hle⟩
      · exact absurd hle (not_le.mpr (left e mem))
      · exact mem
  obtain ⟨oldLeft, oldRight⟩ := old
  rw [Page.Split.insert, sp.leftCnt, sp.siblingCnt]
  split
  · rename_i hlt
    have ins := (sp.left.insertKey sp.leftRoom least most (fun n hn =>
      Option.mem_some_iff.mp hn ▸ hlt) ne fun _ => rfl).2
    refine ⟨?_, ?_⟩
    · rw [ins.mem_iff, oldLeft, or_and_right]
      exact or_congr_left (iff_self_and.mpr fun heq => heq ▸ hlt)
    · rw [oldRight, or_and_right]
      refine (or_iff_right ?_).symm
      rintro ⟨rfl, hle⟩
      exact absurd hle (not_le.mpr hlt)
  · rename_i hge
    have ins := (sp.right.insertKey sp.siblingRoom (not_lt.mp hge) most lt ne fun _ => rfl).2
    refine ⟨?_, ?_⟩
    · rw [oldLeft, or_and_right]
      refine (or_iff_right ?_).symm
      rintro ⟨rfl, hlt⟩
      exact hge hlt
    · rw [ins.mem_iff, oldRight, or_and_right]
      exact or_congr_left (iff_self_and.mpr fun heq => heq ▸ not_lt.mp hge)

end PageOk

namespace BTree

section Zero

variable {t t' : BTree} {n : Nat} {key right : Int} {row row' before after : List Entry}
  {s : Entry}

/-- A leaf that does not find zero, with its neighbour among `row`. -/
structure Blind (t : BTree) (row : List Entry) (x : Entry) : Prop where
  leaf : (t.page x.ptr).hdr.leftmostPtr = 0
  search : (t.page x.ptr).searchLeaf 0 = some 0
  sibling : (t.page x.ptr).hdr.siblingPtr = 0 ∨
    ∃ y ∈ row, (t.page x.ptr).hdr.siblingPtr = y.ptr

theorem Row.blind (h : t.Row 0 row none) (mem : s ∈ row) : t.Blind row s := by
  obtain ⟨before, after, rfl⟩ := List.append_of_mem mem
  obtain ⟨-, ⟨ok, -⟩, -⟩ := row_split.mp h
  refine ⟨(ok.leaf rfl).1, ok.searchLeaf_zero, ?_⟩
  cases after with
  | nil => exact Or.inl ok.sibling
  | cons x after => exact Or.inr ⟨x, by simp, ok.sibling⟩

/-- Among leaves that do not find zero a search for it finds nothing. -/
theorem chase_zero (blind : ∀ x ∈ row, t.Blind row x) {fuel : Nat} {r : Int × Int}
    (mem : s ∈ row) (hr : t.chase 0 fuel s.ptr = some r) : r.2 = 0 := by
  induction fuel generalizing s with
  | zero => cases hr
  | succ fuel ih =>
      obtain ⟨leaf, search, sibling⟩ := blind s mem
      have step : t.linearSearch (t.page s.ptr) 0 = some 0 ∨
          t.linearSearch (t.page s.ptr) 0 = some (t.page s.ptr).hdr.siblingPtr := by
        rw [linearSearch, if_pos leaf, search]
        simp only [Option.bind_eq_bind, Option.bind_some]
        rw [if_neg (not_not.mpr rfl)]
        split
        · exact Or.inr rfl
        · exact Or.inl rfl
      obtain ⟨found, hfound, hr⟩ := Option.bind_eq_some_iff.mp hr
      split at hr
      · rename_i hop
        split at hr
        · rename_i hnull
          rw [← Option.some.inj hr]
          exact hnull
        · rename_i hnull
          rw [hop] at hr hnull
          obtain ⟨y, hy, hsib⟩ := sibling.resolve_left hnull
          rw [hsib] at hr
          exact ih hy hr
      · rename_i hop
        rw [← Option.some.inj hr]
        rcases step with step | step
        · exact Option.some.inj (hfound.symm.trans step)
        · exact absurd (Option.some.inj (hfound.symm.trans step)) hop

/-- After zero was inserted no leaf finds it. -/
theorem Put.blind (put : Put t t' 0 0 before s after row') (h : t.Row 0 row none)
    (home : Cut Entry.key 0 row (before ++ [s]) after) : ∀ x ∈ row', t'.Blind row' x := by
  obtain ⟨-, ⟨ok, -⟩, -⟩ := row_split.mp (home.split ▸ h)
  have sub : ∀ y ∈ row, y ∈ row' := by
    intro y mem
    rw [home.split, List.mem_append, List.mem_cons] at mem
    cases put with
    | room => simpa using mem
    | full => simpa using by tauto
  have others : ∀ x ∈ before ++ after, t'.page x.ptr = t.page x.ptr → t'.Blind row' x := by
    intro x mem same
    have mem' : x ∈ row := by
      rw [home.split, List.mem_append, List.mem_cons]
      exact (List.mem_append.mp mem).imp_right Or.inr
    obtain ⟨leaf, search, sibling⟩ := h.blind mem'
    exact ⟨same ▸ leaf, same ▸ search, same ▸ sibling.imp_right fun ⟨y, hy, heq⟩ =>
      ⟨y, sub y hy, heq⟩⟩
  have next : (t.page s.ptr).hdr.siblingPtr = 0 ∨
      ∃ y ∈ row', (t.page s.ptr).hdr.siblingPtr = y.ptr :=
    (h.blind (home.split ▸ by simp : s ∈ row)).sibling.imp_right fun ⟨y, hy, heq⟩ =>
      ⟨y, sub y hy, heq⟩
  have leaf := (ok.leaf rfl).1
  cases put with
  | room room same written =>
      obtain ⟨left, behind⟩ := List.forall_mem_append.mp fun x mem => others x mem (same x mem)
      refine List.forall_mem_append.mpr ⟨left, List.forall_mem_cons.mpr ⟨⟨?_, ?_, ?_⟩, behind⟩⟩
      · exact written ▸ leaf
      · exact written ▸ ok.searchLeaf_insert_zero room
      · exact written ▸ next
  | full halves full split same written right fresh =>
      obtain ⟨left, behind⟩ := List.forall_mem_append.mp fun x mem => others x mem (same x mem)
      have sp := split ▸ (h.split home full).1
      obtain ⟨searchLeft, searchRight⟩ := sp.searchLeaf_insert_zero
      obtain ⟨leafLeft, leafRight, sibLeft, sibRight⟩ := sp.hdr_insert 0 0
      refine List.forall_mem_append.mpr ⟨left, List.forall_mem_cons.mpr ⟨⟨?_, ?_, ?_⟩,
        List.forall_mem_cons.mpr ⟨⟨?_, ?_, ?_⟩, behind⟩⟩⟩
      · rw [written, leafLeft]
        exact (sp.left.leaf rfl).1
      · rw [written]
        exact searchLeft
      · rw [written, sibLeft]
        exact Or.inr ⟨⟨halves.splitKey, t.fresh⟩, by simp, rfl⟩
      · rw [right, leafRight]
        exact (sp.right.leaf rfl).1
      · rw [right]
        exact searchRight
      · rw [right, sibRight, ← ok.sibling]
        exact next

/-- `PersistentBTree::contains` -/
def Contains (t : BTree) (key : Int) : Prop := ∃ v, Returns (t.btreeSearch key) v ∧ v ≠ 0

/-- The insertion of zero does not make it found. -/
theorem Put.not_contains_zero {n' : Nat} (put : Put t t' 0 0 before s after row')
    (upward : t'.Over n' 0 row') (h : t.Row 0 row none)
    (home : Cut Entry.key 0 row (before ++ [s]) after) : ¬ t'.Contains 0 := by
  rintro ⟨v, ⟨fuel, hv⟩, ne⟩
  have blind := put.blind h home
  have least : longMin ≤ 0 := by decide
  obtain ⟨before', x, after', home'⟩ := upward.home least
  have mem : x ∈ row' := home'.split ▸ by simp
  have stops : t'.descend aboveLeaves 0 1 x.ptr = some x.ptr := by
    refine if_neg fun above => ?_
    rw [aboveLeaves, decide_eq_true_iff] at above
    exact above (blind x mem).leaf
  have descends : Returns (fun fuel => t'.descend aboveLeaves 0 fuel t'.root) x.ptr :=
    upward.comes least (fun ok hlt => ok.aboveLeaves_iff.mpr (Nat.zero_lt_of_lt hlt)) home'
      ⟨1, stops⟩
  obtain ⟨leaf, hleaf, hv⟩ := Option.bind_eq_some_iff.mp hv
  obtain rfl := (steady_descend _ _ _ _).unique ⟨fuel, hleaf⟩ descends
  obtain ⟨r, hr, hv⟩ := Option.bind_eq_some_iff.mp hv
  exact ne ((Option.some.inj hv).symm.trans (chase_zero blind mem hr))

/-- A key is found in its home leaf, if it is not the address of the next. -/
theorem Rows.contains_iff (h : t.Rows n 0 row) (least : longMin ≤ key)
    (home : Cut Entry.key key row (before ++ [s]) after) :
    t.Contains key ↔ t.Has s key ∧ key ≠ (t.page s.ptr).hdr.siblingPtr := by
  have returns := h.btreeSearch least home
  have mem : s ∈ row := home.split ▸ by simp
  constructor
  · rintro ⟨v, hv, ne⟩
    obtain rfl := (steady_btreeSearch t key).unique hv returns
    exact of_not_not fun hnot => ne (if_neg hnot)
  · intro hfound
    rw [if_pos hfound] at returns
    exact ⟨key, returns, h.isRow.ne_zero mem hfound.1⟩

/-- No leaf of the row has a key that is the address of the leaf to its right. -/
def NoConfusion (t : BTree) (row : List Entry) : Prop :=
  ∀ s ∈ row, ∀ e ∈ (t.page s.ptr).live, e.key ≠ (t.page s.ptr).hdr.siblingPtr

theorem Rows.noConfusion_iff (h : t.Rows n 0 row) (single : t.Single row) :
    t.NoConfusion row ↔ ∀ key, longMin ≤ key → t.Held key row → t.Contains key := by
  constructor
  · intro apart key least held
    obtain ⟨before, s, after, home⟩ := h.upward.home least
    have has := (held_iff home).mp held
    refine (h.contains_iff least home).mpr ⟨has, ?_⟩
    obtain ⟨e, he, rfl⟩ := has
    exact apart s (home.split ▸ by simp) e he
  · intro found s hs e he
    obtain ⟨_, ok, -⟩ := h.isRow.pageOk hs
    have least := (h.upward.least s hs).trans (ok.range e (ok.mem_records he)).1
    have has : t.Has s e.key := ⟨e, he, rfl⟩
    have held := (single.held_iff h.isRow).mpr (h.isRow.exists_iff.mpr ⟨s, hs, has⟩)
    obtain ⟨before, x, after, home⟩ := h.upward.home least
    have hx : x ∈ row := home.split ▸ by simp
    obtain ⟨has', apart⟩ := (h.contains_iff least home).mp (found e.key least held)
    rwa [← single.leaf_unique h.isRow hs hx has has']

/-- The key, and in a full leaf each key of the lower half, is not the address of the page
that will be to its right. -/
def Apart (t : BTree) (leaf key : Int) : Prop :=
  let p := t.page leaf
  if p.live.length < cardinality - 1 then key ≠ p.hdr.siblingPtr
  else
    let middle := (p.split p.live.length t.fresh).splitKey
    (∀ e ∈ p.live, e.key < middle → e.key ≠ t.fresh) ∧
      key ≠ if key < middle then t.fresh else p.hdr.siblingPtr

/-- An insertion brings no confusion exactly when its key and the lower half are apart. -/
theorem Put.noConfusion_iff (put : Put t t' key key before s after row')
    (h : t.Row 0 row none) (nodup : ((t.page s.ptr).live.map Entry.key).Nodup)
    (home : Cut Entry.key key row (before ++ [s]) after) (most : key ≤ longMax) (ne : key ≠ 0)
    (apart : t.NoConfusion row) : t'.NoConfusion row' ↔ t.Apart s.ptr key := by
  obtain ⟨-, ⟨ok, -⟩, -⟩ := row_split.mp (home.split ▸ h)
  have lt : ∀ x ∈ after.head?, key < x.key := fun x hx => home.lt x (List.mem_of_mem_head? hx)
  rw [NoConfusion, home.split, List.forall_mem_append, List.forall_mem_cons] at apart
  obtain ⟨apartLeft, apartHere, apartRight⟩ := apart
  have others : ∀ l : List Entry, (∀ x ∈ l, t'.page x.ptr = t.page x.ptr) →
      (∀ x ∈ l, ∀ e ∈ (t.page x.ptr).live, e.key ≠ (t.page x.ptr).hdr.siblingPtr) →
      ∀ x ∈ l, ∀ e ∈ (t'.page x.ptr).live, e.key ≠ (t'.page x.ptr).hdr.siblingPtr :=
    fun l same apart x mem => (same x mem).symm ▸ apart x mem
  cases put with
  | room room same written =>
      obtain ⟨left, behind⟩ := List.forall_mem_append.mp same
      have ins := (ok.insertKey room home.last_le most lt ne fun _ => rfl).2
      have sibling : (t'.page s.ptr).hdr.siblingPtr = (t.page s.ptr).hdr.siblingPtr := by
        rw [written]
        rfl
      rw [NoConfusion, List.forall_mem_append, List.forall_mem_cons, Apart, if_pos room, sibling,
        written]
      constructor
      · exact fun apart => apart.2.1 ⟨key, key⟩ (ins.mem_iff.mpr (Or.inl rfl))
      · intro apart
        refine ⟨others _ left apartLeft, fun e mem => ?_, others _ behind apartRight⟩
        rcases ins.mem_iff.mp mem with rfl | mem
        · exact apart
        · exact apartHere e mem
  | full halves full split same written right fresh =>
      obtain ⟨left, behind⟩ := List.forall_mem_append.mp same
      have sp := split ▸ (h.split home full).1
      obtain ⟨-, -, sibLeft, sibRight⟩ := sp.hdr_insert key key
      have mem := fun e => sp.mem_insert ok nodup home.last_le most lt ne e
      have full : ¬ (t.page s.ptr).live.length < cardinality - 1 := full.not_lt
      have here : (∀ e ∈ (t'.page s.ptr).live, e.key ≠ (t'.page s.ptr).hdr.siblingPtr) ↔
          ∀ e, (e = ⟨key, key⟩ ∨ e ∈ (t.page s.ptr).live) ∧ e.key < halves.splitKey →
            e.key ≠ t.fresh := by
        rw [written, sibLeft]
        exact forall_congr' fun e => imp_congr_left (mem e).1
      have there : (∀ e ∈ (t'.page t.fresh).live, e.key ≠ (t'.page t.fresh).hdr.siblingPtr) ↔
          ∀ e, (e = ⟨key, key⟩ ∨ e ∈ (t.page s.ptr).live) ∧ halves.splitKey ≤ e.key →
            e.key ≠ (t.page s.ptr).hdr.siblingPtr := by
        rw [right, sibRight, ← ok.sibling]
        exact forall_congr' fun e => imp_congr_left (mem e).2
      rw [NoConfusion, List.forall_mem_append, List.forall_mem_cons, List.forall_mem_cons, here,
        there, Apart, if_neg full, ← split]
      constructor
      · rintro ⟨-, lower, upper, -⟩
        refine ⟨fun e mem hlt => lower e ⟨Or.inr mem, hlt⟩, ?_⟩
        split_ifs with hlt
        · exact lower ⟨key, key⟩ ⟨Or.inl rfl, hlt⟩
        · exact upper ⟨key, key⟩ ⟨Or.inl rfl, not_lt.mp hlt⟩
      · rintro ⟨lower, new⟩
        refine ⟨others _ left apartLeft, ?_, ?_, others _ behind apartRight⟩
        · rintro e ⟨rfl | mem, hlt⟩
          · rwa [if_pos hlt] at new
          · exact lower e mem hlt
        · rintro e ⟨rfl | mem, hle⟩
          · rwa [if_neg (not_lt.mpr hle)] at new
          · exact apartHere e mem

end Zero

/-! ## Runs of insertions -/

section Inserts

variable {alloc : Allocator} {t : BTree} {n : Nat} {row : List Entry} {key : Int}
  {ops : List TreeOp}

/-- `PersistentBTree::insert` of any `Key`. -/
def Inserts (_ : BTree) (op : TreeOp) : Prop :=
  op = .insert op.key ∧ longMin ≤ op.key ∧ op.key ≤ longMax

/-- From `t` to `t'` the key is found, and the others as before. -/
def FindsOnly (t t' : BTree) (key : Int) : Prop :=
  t'.Contains key ∧
    ∀ k ≠ key, longMin ≤ k → k ≤ longMax → (t'.Contains k ↔ t.Contains k)

/-- The leaf of the key is apart, and the key is not zero. -/
def Ordinary (t : BTree) (key : Int) : Prop :=
  key ≠ 0 ∧ ∀ leaf, Returns (fun fuel => t.descend aboveLeaves key fuel t.root) leaf →
    t.Apart leaf key

/-- A tree that is found to hold the keys `ops`, in one record each. -/
structure Clean (t : BTree) (ops : List TreeOp) (n : Nat) (row : List Entry) : Prop where
  rows : t.Rows n 0 row
  single : t.Single row
  held : ∀ k, t.Held k row ↔ ∃ op ∈ ops, op.key = k
  apart : t.NoConfusion row

theorem exists_concat_iff (op : TreeOp) :
    (∃ op' ∈ ops ++ [op], op'.key = key) ↔ key = op.key ∨ ∃ op' ∈ ops, op'.key = key := by
  simp only [List.mem_append, List.mem_singleton, or_and_right, exists_or, exists_eq_left]
  rw [or_comm, eq_comm]

theorem Clean.contains_iff (h : t.Clean ops n row) (least : longMin ≤ key) :
    t.Contains key ↔ ∃ op ∈ ops, op.key = key := by
  rw [← h.held]
  refine ⟨fun contains => ?_, (h.rows.noConfusion_iff h.single).mp h.apart key least⟩
  obtain ⟨before, s, after, home⟩ := h.rows.upward.home least
  exact (held_iff home).mpr ((h.rows.contains_iff least home).mp contains).1

/-- After an insertion the tree is clean again exactly when the call found ordinary. -/
theorem Clean.step (h : t.Clean ops n row) {key : Int} (least : longMin ≤ key)
    (most : key ≤ longMax) (range : ∀ op ∈ ops, longMin ≤ op.key ∧ op.key ≤ longMax)
    (new : ∀ op ∈ ops, op.key ≠ key) {t' : BTree}
    (returns : Returns (fun fuel => t.btreeInsert key key fuel) t') :
    (t.FindsOnly t' key ↔ t.Ordinary key) ∧
      (t.Ordinary key → ∃ n' row', t'.Clean (ops ++ [.insert key]) n' row') := by
  obtain ⟨before, s, after, home⟩ := h.rows.upward.home least
  obtain ⟨t₁, n', row', returns', put, keeps, upward⟩ := h.rows.btreeInsert least home key
  obtain rfl := (steady_btreeInsert key key t).unique returns returns'
  by_cases zero : key = 0
  · obtain rfl := zero
    have lost : ¬ t'.Contains 0 := put.not_contains_zero upward h.rows.isRow home
    exact ⟨iff_of_false (fun finds => lost finds.1) fun ordinary => ordinary.1 rfl,
      fun ordinary => absurd rfl ordinary.1⟩
  obtain ⟨rows, ins⟩ := put.rows upward keeps h.rows home most zero rfl
  have held := put.held h.rows.isRow home most zero rfl
  have absent : ¬ t.Held key row := fun hkey => by
    obtain ⟨op, mem, heq⟩ := (h.held key).mp hkey
    exact new op mem heq
  have single := h.single.insert absent ins held
  have ordinary : t.Ordinary key ↔ t'.NoConfusion row' := by
    have nodup : ((t.page s.ptr).live.map Entry.key).Nodup :=
      h.single.nodup_live h.rows.isRow (home.split ▸ by simp)
    have descends := h.rows.descends least home
    rw [put.noConfusion_iff h.rows.isRow nodup home most zero h.apart]
    constructor
    · exact fun ordinary => ordinary.2 _ descends
    · refine fun apart => ⟨zero, fun leaf hleaf => ?_⟩
      rwa [(steady_descend _ _ _ _).unique hleaf descends]
  have clean : t'.NoConfusion row' → t'.Clean (ops ++ [.insert key]) n' row' := fun apart =>
    ⟨rows, single, fun k => (held k).trans ((or_congr_right (h.held k)).trans
      (exists_concat_iff (.insert key)).symm), apart⟩
  rw [ordinary]
  refine ⟨⟨fun finds => ?_, fun apart => ?_⟩, fun apart => ⟨n', row', clean apart⟩⟩
  · refine (rows.noConfusion_iff single).mpr fun k hk hheld => ?_
    rcases eq_or_ne k key with rfl | hne
    · exact finds.1
    · have old : t.Held k row := ((held k).mp hheld).resolve_left hne
      obtain ⟨op, mem, rfl⟩ := (h.held k).mp old
      exact (finds.2 _ hne hk (range op mem).2).mpr
        ((h.contains_iff hk).mpr ⟨op, mem, rfl⟩)
  · have clean := clean apart
    refine ⟨(clean.contains_iff least).mpr ⟨.insert key, by simp, rfl⟩, fun k hne hk _ => ?_⟩
    rw [clean.contains_iff hk, h.contains_iff hk, exists_concat_iff (.insert key)]
    exact or_iff_right hne

/-- Insertions of distinct keys make each key found and leave the others alone exactly as
long as every key is ordinary where it is inserted. -/
theorem insert_frame_iff (run : Run (empty alloc) Inserts ops t)
    (nodup : (ops.map TreeOp.key).Nodup) :
    StepsMeet (fun before op => ∀ t t', Run (empty alloc) Inserts before t →
      Run (empty alloc) Inserts (before ++ [op]) t' → t.FindsOnly t' op.key) ops ↔
    StepsMeet (fun before op => ∀ t, Run (empty alloc) Inserts before t →
      t.Ordinary op.key) ops := by
  have range : ∀ op ∈ ops, longMin ≤ op.key ∧ op.key ≤ longMax := by
    clear nodup
    induction run with
    | nil => simp
    | step _ _ met _ ih =>
        exact List.forall_mem_append.mpr ⟨ih, List.forall_mem_singleton.mpr met.2⟩
  have step : ∀ {before op t'}, before ++ [op] <+: ops →
      Run (empty alloc) Inserts (before ++ [op]) t' → ∀ {t₀ n row},
      Run (empty alloc) Inserts before t₀ → t₀.Clean before n row →
      (t₀.FindsOnly t' op.key ↔ t₀.Ordinary op.key) ∧
        (t₀.Ordinary op.key → ∃ n' row', t'.Clean (before ++ [op]) n' row') := by
    intro before op t' point run' t₀ n row run₀ clean
    obtain ⟨t₁, run₁, ⟨insert, least, most⟩, returns⟩ := run'.concat
    obtain rfl := run₁.unique run₀
    have prior : before <+: ops := (List.prefix_append _ _).trans point
    have distinct : ((before ++ [op]).map TreeOp.key).Nodup :=
      nodup.sublist (point.sublist.map _)
    rw [List.map_append, List.nodup_append] at distinct
    rw [insert] at returns ⊢
    refine clean.step least most (fun op mem => range op (prior.subset mem))
      (fun op' mem => ?_) returns
    exact distinct.2.2 _ (List.mem_map_of_mem mem) _ (List.mem_map_of_mem (List.mem_singleton_self op))
  refine stepsMeet_congr fun before op point meet => ?_
  have clean : ∀ t, Run (empty alloc) Inserts before t → ∃ n row, t.Clean before n row := by
    refine points_of_steps (fun before => ∀ t, Run (empty alloc) Inserts before t →
      ∃ n row, t.Clean before n row) ?_ ?_ meet
    · intro t run
      obtain rfl := run.unique .nil
      refine ⟨0, _, (rows_empty alloc).1, single_empty alloc, fun k => ?_, ?_⟩
      · exact iff_of_false (held_empty alloc k) (by simp)
      · intro s mem e he
        have contents := (rows_empty alloc).2
        rw [(rows_empty alloc).1.isRow.contents_leaf, List.flatMap_eq_nil_iff] at contents
        rw [contents s mem] at he
        cases he
    · intro before' op' point' ih ordinary t' run'
      obtain ⟨t₀, run₀, -⟩ := run'.concat
      obtain ⟨n, row, clean⟩ := ih t₀ run₀
      have prior := (point'.trans (List.prefix_append _ _)).trans point
      exact (step prior run' run₀ clean).2 (ordinary t₀ run₀)
  obtain ⟨t', run'⟩ := run.exists_point point
  obtain ⟨t₀, run₀, -⟩ := run'.concat
  obtain ⟨n, row, hclean⟩ := clean t₀ run₀
  have here := (step point run' run₀ hclean).1
  constructor
  · intro finds t₁ run₁
    obtain rfl := run₁.unique run₀
    exact here.mp (finds _ _ run₀ run')
  · intro ordinary t₁ t₂ run₁ run₂
    obtain rfl := run₁.unique run₀
    obtain rfl := run₂.unique run'
    exact here.mpr (ordinary _ run₀)

instance (t : BTree) (leaf key : Int) : Decidable (t.Apart leaf key) := by
  unfold Apart
  infer_instance

/-- An insertion of a key that is ordinary. -/
def ordinaryInsert (fuel : Nat) (t : BTree) : TreeOp → Bool
  | .insert key => decide (key ≠ 0 ∧ longMin ≤ key ∧ key ≤ longMax) &&
      (t.descend aboveLeaves key fuel t.root).any fun leaf => t.Apart leaf key
  | .delete _ => false

theorem ordinary_of_ordinaryInsert {op : TreeOp} {fuel : Nat}
    (h : t.ordinaryInsert fuel op = true) :
    Inserts t op ∧ t.Ordinary op.key := by
  cases op with
  | delete key => cases h
  | insert key =>
      obtain ⟨range, placed⟩ := Bool.and_eq_true_iff.mp h
      obtain ⟨ne, least, most⟩ := of_decide_eq_true range
      obtain ⟨leaf, hleaf, apart⟩ := (Option.any_eq_true _ _).mp placed
      refine ⟨⟨rfl, least, most⟩, ne, fun leaf' returns => ?_⟩
      obtain rfl := (steady_descend _ _ _ _).unique returns ⟨fuel, hleaf⟩
      exact of_decide_eq_true apart

/-- Keys on both sides of 0, enough for a split, and some in between. -/
def aroundZero : List TreeOp :=
  (List.range 28).map (fun i => .insert (3 * i - 40)) ++ [.insert (-41), .insert 3, .insert 100]

/-- Two leaves, each with further keys. -/
theorem insert_frame_split :
    ∃ t, Run (empty (.bump 100)) Inserts aroundZero t ∧ t.root ≠ t.rootRef.rootPage ∧
      StepsMeet (fun before op => ∀ t t', Run (empty (.bump 100)) Inserts before t →
        Run (empty (.bump 100)) Inserts (before ++ [op]) t' → t.FindsOnly t' op.key)
        aroundZero := by
  have checked : (calls (ordinaryInsert 6) 6 aroundZero (empty (.bump 100))).any
      (fun t => decide (t.root ≠ t.rootRef.rootPage)) = true := by decide +kernel
  obtain ⟨t, run, twoLeaves, meet⟩ :=
    exists_run_meeting (fun _ _ => ordinary_of_ordinaryInsert) checked
  exact ⟨t, run, twoLeaves, (insert_frame_iff run (by decide)).mpr meet⟩

/-- Zero is not found, and hides the key above it. -/
theorem insert_zero_hides :
    ∃ t t', Run (empty (.bump 100)) Inserts [.insert (-5), .insert 5] t ∧
      Run (empty (.bump 100)) Inserts [.insert (-5), .insert 5, .insert 0] t' ∧
      ([TreeOp.insert (-5), .insert 5, .insert 0].map TreeOp.key).Nodup ∧
      t.Contains 5 ∧ ¬ t'.Contains 0 ∧ ¬ t'.Contains 5 := by
  have first : Run (empty (.bump 100)) Inserts [.insert (-5), .insert 5] _ :=
    (Run.nil.step (.insert (-5)) ⟨rfl, by decide, by decide⟩ ⟨2, rfl⟩).step
      (.insert 5) ⟨rfl, by decide, by decide⟩ ⟨2, rfl⟩
  have run : Run (empty (.bump 100)) Inserts [.insert (-5), .insert 5, .insert 0] _ :=
    first.step (.insert 0) ⟨rfl, by decide, by decide⟩ ⟨2, rfl⟩
  refine ⟨_, _, first, run, by decide, ⟨5, ⟨2, rfl⟩, by decide⟩, ?_, ?_⟩
  · rintro ⟨v, hv, ne⟩
    exact ne ((steady_btreeSearch _ _).unique hv ⟨2, rfl⟩)
  · rintro ⟨v, hv, ne⟩
    exact ne ((steady_btreeSearch _ _).unique hv ⟨2, rfl⟩)

end Inserts

end BTree

end F3Tree
