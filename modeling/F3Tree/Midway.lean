import F3Tree.Leaves

/-!
# One locked section of `store`

What a thread does to the tree under the lock of one page, with the other threads anywhere
in theirs (`Midway.storeLocked`): it goes on with the sibling, or the page takes the record.
Then the record that the insertion was for is in, the pages are linked as before, and a
split leaves one new insertion to do, which no other thread has.
-/

namespace F3Tree

open Keyed Fuel

namespace Insertion

/-- The level of the page that takes the record. -/
def level : Insertion → Nat
  | btreeInsert _ _ => 0
  | btreeInsertInternal _ _ level => level

/-- What holds of an insertion until its record is in. -/
def Ready (t : BTree) (least : Int → Int) (row : List Entry) : Insertion → Prop
  | btreeInsert key right => TreeKey key ∧ right = key ∧ ¬ t.Held key row
  | btreeInsertInternal key right level =>
      t.Slot least level ⟨key, right⟩ ∧ (longMin ≤ key ∧ key ≤ longMax) ∧
        level ≤ (t.page t.root).hdr.level ∧ ¬ t.Child right

end Insertion

namespace BTree

structure Pages (t : BTree) (least : Int → Int) (rank : Int → Nat) (row : List Entry) :
    Prop where
  linked : t.Linked least rank
  leaves : t.Leaves least row
  root : t.Allocated t.root

/-- The root is the only page of its level, and no page lies higher. -/
structure Midway (t : BTree) (least : Int → Int) (rank : Int → Nat) (row : List Entry) :
    Prop where
  pages : t.Pages least rank row
  least : least t.root = longMin
  lower : ∀ p, t.Allocated p → p ≠ t.root → (t.page p).hdr.level < (t.page t.root).hdr.level

/-- Siblings are not lost, and a page that comes between two leaves does not begin behind the
second. -/
def KeepsNext (t t' : BTree) (least least' : Int → Int) : Prop :=
  ∀ p, t.Allocated p → (t.page p).hdr.siblingPtr ≠ 0 →
    (t'.page p).hdr.siblingPtr ≠ 0 ∧ ((t.page p).hdr.level = 0 →
      least' (t'.page p).hdr.siblingPtr ≤ least (t.page p).hdr.siblingPtr)

/-- What a tree takes with the record of an insertion. -/
structure Takes (t t' : BTree) (least least' : Int → Int) (row row' : List Entry)
    (i : Insertion) : Prop where
  ext : Extends t t' least least'
  held : ∀ k, t'.Held k row' ↔ t.Held k row ∨ i = .btreeInsert k k
  child : ∀ c, t.Allocated c → t'.Child c →
    t.Child c ∨ c = t.root ∨ ∃ k l, i = .btreeInsertInternal k c l
  next : KeepsNext t t' least least'
  root : (t.page t.root).hdr.level ≤ (t'.page t'.root).hdr.level

/-- The slot for the page that a split has made. -/
structure Promotes (t : BTree) (least : Int → Int) (level : Nat) (key new : Int) : Prop where
  slot : t.Slot least level ⟨key, new⟩
  bound : longMin ≤ key ∧ key ≤ longMax
  child : ¬ t.Child new

section Pages

variable {t t' : BTree} {least least' : Int → Int} {rank rank' : Int → Nat}
  {row row' : List Entry} {p key right : Int} {i : Insertion} {l : Nat}

theorem Pages.leaf (h : t.Pages least rank row) (hp : t.Allocated p)
    (hl : (t.page p).hdr.level = 0) :
    ∃ s next, s ∈ row ∧ s.ptr = p ∧ PageOk (t.page p) 0 s next := by
  obtain ⟨s, mem, rfl⟩ := h.leaves.all p hp hl
  obtain ⟨next, ok, -⟩ := h.leaves.isRow.pageOk mem
  exact ⟨s, next, mem, rfl, ok⟩

/-- Leaves have no children. -/
theorem Pages.internal_of_child (h : t.Pages least rank row) (hp : t.Allocated p) {c : Int}
    (mem : c ∈ (t.page p).children) : 0 < (t.page p).hdr.level := by
  refine Nat.pos_of_ne_zero fun hl => ?_
  obtain ⟨s, next, -, -, ok⟩ := h.leaf hp hl
  rw [Page.children, if_pos (ok.leaf rfl).1] at mem
  exact List.not_mem_nil mem

theorem Pages.child_allocated (h : t.Pages least rank row) {c : Int} (child : t.Child c) :
    t.Allocated c := by
  obtain ⟨p, hp, mem⟩ := child
  have hl := h.internal_of_child hp mem
  have at' := h.linked p hp hl
  rw [← Page.map_ptr_entries (p := t.page p) (at'.ok.internal hl).1 (least p), List.mem_map] at mem
  obtain ⟨e, mem, rfl⟩ := mem
  exact (at'.child e mem).1

theorem Pages.page (h : t.Pages least rank row) (hp : t.Allocated p) :
    (t.page p).hdr.isDeleted = false ∧ (t.page p).count = some (t.page p).live.length ∧
      (t.page p).live.length ≤ cardinality - 1 ∧
      (aboveLeaves (t.page p) = true ↔ 0 < (t.page p).hdr.level) := by
  rcases Nat.eq_zero_or_pos (t.page p).hdr.level with hl | hl
  · obtain ⟨s, next, -, -, ok⟩ := h.leaf hp hl
    exact ⟨ok.alive, ok.count_eq, Nat.le_sub_one_of_lt ok.length_live, hl ▸ ok.aboveLeaves_iff⟩
  · have at' := h.linked p hp hl
    exact ⟨at'.ok.alive, at'.count_eq, Nat.le_sub_one_of_lt at'.ok.length_live,
      at'.ok.aboveLeaves_iff⟩

/-- The sibling of a leaf is the next in the row. -/
theorem Pages.sibling_slot (h : t.Pages least rank row) {before after : List Entry} {s : Entry}
    (split : row = before ++ s :: after) (hsib : (t.page s.ptr).hdr.siblingPtr ≠ 0) :
    ∃ x, after.head? = some x ∧ x ∈ row ∧ (t.page s.ptr).hdr.siblingPtr = x.ptr := by
  obtain ⟨-, ⟨ok, -⟩, -⟩ := row_split.mp (split ▸ h.leaves.isRow)
  cases after with
  | nil => exact absurd ok.sibling hsib
  | cons x after => exact ⟨x, rfl, split ▸ by simp, ok.sibling⟩

theorem Pages.sibling (h : t.Pages least rank row) (hp : t.Allocated p)
    (hsib : (t.page p).hdr.siblingPtr ≠ 0) :
    t.Allocated (t.page p).hdr.siblingPtr ∧
      (t.page (t.page p).hdr.siblingPtr).hdr.level = (t.page p).hdr.level ∧
      ((t.page p).hdr.level = 0 →
        least (t.page p).hdr.siblingPtr ≤ (t.page (t.page p).hdr.siblingPtr).firstKey) := by
  rcases Nat.eq_zero_or_pos (t.page p).hdr.level with hl | hl
  · obtain ⟨s, next, mem, rfl, -⟩ := h.leaf hp hl
    obtain ⟨before, after, hrow⟩ := List.append_of_mem mem
    obtain ⟨y, -, hy, sibling⟩ := h.sibling_slot hrow hsib
    obtain ⟨_, ok, alloc⟩ := h.leaves.isRow.pageOk hy
    rw [sibling, h.leaves.slot y hy, hl]
    exact ⟨alloc, ok.level, fun _ => ok.least_le_firstKey⟩
  · obtain ⟨alloc, level, -⟩ := (h.linked p hp hl).sibling hsib
    exact ⟨alloc, level, fun hl' => absurd hl' hl.ne'⟩

theorem KeepsNext.trans {t'' : BTree} {least'' : Int → Int} (next : KeepsNext t t' least least')
    (next' : KeepsNext t' t'' least' least'') (ext : Extends t t' least least') :
    KeepsNext t t'' least least'' := by
  intro p hp hsib
  obtain ⟨ne, hle⟩ := next p hp hsib
  obtain ⟨ne', hle'⟩ := next' p (ext.allocated p hp) ne
  exact ⟨ne', fun hl => (hle' ((ext.level p hp).trans hl)).trans (hle hl)⟩

/-- Siblings stay, but for a page that is split. -/
theorem Pages.keepsNext (h : t.Pages least rank row) (ext : Extends t t' least least')
    (siblings : ∀ q, t.Allocated q →
      (t'.page q).hdr.siblingPtr = (t.page q).hdr.siblingPtr ∨
        (t'.page q).hdr.siblingPtr ≠ 0 ∧ ((t.page q).hdr.level = 0 →
          (t.page q).hdr.siblingPtr ≠ 0 →
            least' (t'.page q).hdr.siblingPtr ≤ least (t.page q).hdr.siblingPtr)) :
    KeepsNext t t' least least' := by
  intro q hq hsib
  rcases siblings q hq with same | ⟨ne, below⟩
  · obtain ⟨alloc, -⟩ := h.sibling hq hsib
    rw [same]
    exact ⟨hsib, fun _ => (ext.least _ alloc).le⟩
  · exact ⟨ne, fun hl => below hl hsib⟩

/-! ## The page has room -/

theorem siblingPtr_insertKey (t : BTree) (p key right : Int) (n : Nat) (q : Int) :
    ((t.write p ((t.page p).insertKey key right n).1).page q).hdr.siblingPtr =
      (t.page q).hdr.siblingPtr := by
  by_cases heq : q = p
  · have here : (t.write p ((t.page p).insertKey key right n).1).page q = _ :=
      (congrArg _ heq).trans (Function.update_self ..)
    rw [here, heq]
    rfl
  · exact congrArg (fun x : Page => x.hdr.siblingPtr) (Function.update_of_ne heq ..)

theorem Pages.insertKey_leaf (h : t.Pages least rank row) (hkey : TreeKey key)
    (new : ¬ t.Held key row) (hp : t.Allocated p) (hl : (t.page p).hdr.level = 0)
    (hle : least p ≤ key)
    (stays : ¬ ((t.page p).hdr.siblingPtr ≠ 0 ∧
      key > (t.page (t.page p).hdr.siblingPtr).firstKey))
    (room : (t.page p).live.length < cardinality - 1) :
    let t' := t.write p ((t.page p).insertKey key key (t.page p).live.length).1
    t'.Pages least rank row ∧ Takes t t' least least row row (.btreeInsert key key) := by
  intro t'
  obtain ⟨before, s, after, home, rfl⟩ := h.leaves.home hp hl hle new stays
  have here : t'.page s.ptr = ((t.page s.ptr).insertKey key key (t.page s.ptr).live.length).1 :=
    Function.update_self ..
  have level : (t'.page s.ptr).hdr.level = (t.page s.ptr).hdr.level := here ▸ rfl
  have ext : Extends t t' least least := .of_page (p := s.ptr) (fun _ => id) (fun _ _ => rfl)
    (fun q _ ne => Function.update_of_ne ne ..) level fun hpos => absurd hl hpos.ne'
  have others : ∀ q, 0 < (t'.page q).hdr.level → t'.page q = t.page q := fun q hq => by
    refine Function.update_of_ne ?_ ..
    rintro rfl
    rw [level, hl] at hq
    exact absurd hq (lt_irrefl 0)
  have put := put_write h.leaves.nodup home key room
  rw [← home.split] at put
  obtain ⟨leaves, held⟩ := h.leaves.put home hkey new put ext.allocated h.leaves.slot
    fun q hq hlevel => h.leaves.all q hq ((ext.level q hq).symm.trans hlevel)
  have pages : t'.Pages least rank row :=
    ⟨h.linked.congr ext (fun _ _ _ _ => id) fun q hq hlevel => Or.inl ⟨hq, others q hlevel⟩, leaves,
      h.root⟩
  refine ⟨pages, ext, fun k => ?_, ?_, h.keepsNext ext fun q _ => Or.inl (siblingPtr_insertKey ..),
    (ext.level _ h.root).ge⟩
  · rw [held, or_comm]
    simp only [Insertion.btreeInsert.injEq]
    tauto
  · rintro c - ⟨q, hq, mem⟩
    exact Or.inl ⟨q, hq, others q (pages.internal_of_child hq mem) ▸ mem⟩

theorem Pages.insertKey_internal (h : t.Pages least rank row) {level : Nat}
    (slot : t.Slot least level ⟨key, right⟩) (bound : longMin ≤ key ∧ key ≤ longMax)
    (new : ¬ t.Child right) (hp : t.Allocated p) (hl : (t.page p).hdr.level = level)
    (room : (t.page p).live.length < cardinality - 1) :
    let t' := t.write p ((t.page p).insertKey key right (t.page p).live.length).1
    t'.Pages least rank row ∧
      Takes t t' least least row row (.btreeInsertInternal key right level) := by
  intro t'
  have hpos : 0 < (t.page p).hdr.level := by
    have := slot.2.1
    omega
  obtain ⟨linked, ext, child⟩ := h.linked.insertKey hp hpos room bound.1 bound.2
    (hl ▸ slot) fun mem => new ⟨p, hp, mem⟩
  obtain ⟨leaves, held⟩ := h.leaves.congr ext (fun q _ hlevel => Function.update_of_ne (by
    rintro rfl
    omega) ..) fun q hq _ => hq
  refine ⟨⟨linked, leaves, h.root⟩, ext, fun k => ?_, fun c _ hc => ?_,
    h.keepsNext ext fun q _ => Or.inl (siblingPtr_insertKey ..), (ext.level _ h.root).ge⟩
  · simpa using held k
  · rcases child c hc with hc | rfl
    · exact Or.inl hc
    · exact Or.inr (Or.inr ⟨_, _, rfl⟩)

/-! ## The page is full -/

theorem Pages.splitPage_leaf (h : t.Pages least rank row) (hkey : TreeKey key)
    (new : ¬ t.Held key row) (hp : t.Allocated p) (hl : (t.page p).hdr.level = 0)
    (hle : least p ≤ key)
    (stays : ¬ ((t.page p).hdr.siblingPtr ≠ 0 ∧
      key > (t.page (t.page p).hdr.siblingPtr).firstKey))
    (full : (t.page p).live.length = cardinality - 1) :
    let r := t.splitPage p key key (t.page p).live.length
    let least' := Function.update least t.fresh r.2.1
    ∃ row', r.1.Pages least' rank row' ∧
      Takes t r.1 least least' row row' (.btreeInsert key key) ∧
      r.1.Promotes least' 1 r.2.1 t.fresh := by
  intro r least'
  obtain ⟨before, s, after, home, rfl⟩ := h.leaves.home hp hl hle new stays
  have ext : Extends t r.1 least least' := .splitPage _ fun hpos => absurd hl hpos.ne'
  have put : Put t r.1 key key before s after (before ++ s :: ⟨r.2.1, t.fresh⟩ :: after) :=
    (h.leaves.isRow.put_splitPage h.leaves.nodup home key full).1
  obtain ⟨sp, -⟩ := h.leaves.isRow.split home full
  have alloc : r.1.Allocated t.fresh := allocated_splitPage.mpr (Or.inr rfl)
  have level := put.levels h.leaves.isRow home ext.allocated
  have last : ⟨r.2.1, t.fresh⟩ ∈ before ++ s :: ⟨r.2.1, t.fresh⟩ :: after :=
    home.mem_behind.mpr (Or.inr rfl)
  obtain ⟨-, level₂⟩ := level ⟨r.2.1, t.fresh⟩ last
  have others : ∀ q, r.1.Allocated q → 0 < (r.1.page q).hdr.level →
      t.Allocated q ∧ r.1.page q = t.page q := fun q hq hpos => by
    rcases allocated_splitPage.mp hq with hq | rfl
    · refine ⟨hq, page_splitPage_of_ne hq ?_⟩
      rintro rfl
      rw [ext.level _ hp, hl] at hpos
      exact absurd hpos (lt_irrefl 0)
    · rw [level₂] at hpos
      exact absurd hpos (lt_irrefl 0)
  obtain ⟨leaves, held⟩ := h.leaves.put home hkey new put ext.allocated (fun x hx => by
    rcases home.mem_behind.mp hx with hx | rfl
    · obtain ⟨_, -, alloc⟩ := h.leaves.isRow.pageOk hx
      exact (ext.least _ alloc).trans (h.leaves.slot x hx)
    · exact Function.update_self ..) fun q hq hlevel => by
    rcases allocated_splitPage.mp hq with hq | rfl
    · obtain ⟨x, hx, rfl⟩ := h.leaves.all q hq ((ext.level q hq).symm.trans hlevel)
      exact ⟨x, home.mem_behind.mpr (Or.inl hx), rfl⟩
    · exact ⟨⟨r.2.1, t.fresh⟩, last, rfl⟩
  have pages : r.1.Pages least' rank (before ++ s :: ⟨r.2.1, t.fresh⟩ :: after) :=
    ⟨h.linked.congr ext (fun _ _ _ _ => id) fun q hq hlevel => Or.inl (others q hq hlevel), leaves,
      ext.allocated _ h.root⟩
  have child : ∀ c, r.1.Child c → t.Child c := by
    rintro c ⟨q, hq, mem⟩
    obtain ⟨hq', same⟩ := others q hq (pages.internal_of_child hq mem)
    exact ⟨q, hq', same ▸ mem⟩
  have bound := (h.leaves.bound (home.split ▸ by simp)).trans sp.least
  have next := h.keepsNext ext fun q hq => by
    by_cases heq : q = s.ptr
    · subst heq
      rw [siblingPtr_splitPage]
      refine Or.inr ⟨t.alloc.ne_null _, fun _ hsib => ?_⟩
      obtain ⟨x, hafter, hx, sibling⟩ := h.sibling_slot home.split hsib
      rw [sibling, h.leaves.slot x hx]
      have new : least' t.fresh = r.2.1 := Function.update_self ..
      exact new.trans_le (sp.lt x hafter).le
    · exact Or.inl (by rw [page_splitPage_of_ne hq heq])
  refine ⟨_, pages, ⟨ext, fun k => ?_, fun c _ hc => Or.inl (child c hc), next,
    (ext.level _ h.root).ge⟩,
    ⟨alloc, congrArg (· + 1) level₂, Function.update_self ..⟩, ⟨bound, sp.most⟩,
    fun hc => t.fresh_not_allocated (h.child_allocated (child _ hc))⟩
  rw [held, or_comm]
  simp only [Insertion.btreeInsert.injEq]
  tauto

theorem Pages.splitPage_internal (h : t.Pages least rank row) {level : Nat}
    (slot : t.Slot least level ⟨key, right⟩) (bound : longMin ≤ key ∧ key ≤ longMax)
    (new : ¬ t.Child right) (hp : t.Allocated p) (hl : (t.page p).hdr.level = level)
    (full : (t.page p).live.length = cardinality - 1) :
    let r := t.splitPage p key right (t.page p).live.length
    let least' := Function.update least t.fresh r.2.1
    r.1.Pages least' (rankBehind rank p t.fresh) row ∧
      Takes t r.1 least least' row row (.btreeInsertInternal key right level) ∧
      r.1.Promotes least' (level + 1) r.2.1 t.fresh := by
  intro r least'
  have hpos : 0 < (t.page p).hdr.level := by
    have := slot.2.1
    omega
  obtain ⟨linked, ext, child, hmin, hmost, level₂⟩ :=
    h.linked.splitPage hp hpos full bound.1 bound.2 (hl ▸ slot) fun mem => new ⟨p, hp, mem⟩
  have alloc : r.1.Allocated t.fresh := allocated_splitPage.mpr (Or.inr rfl)
  obtain ⟨leaves, held⟩ := h.leaves.congr ext (fun q hq hlevel => page_splitPage_of_ne hq (by
    rintro rfl
    omega)) fun q hq hlevel => by
    rcases allocated_splitPage.mp hq with hq | rfl
    · exact hq
    · rw [level₂] at hlevel
      omega
  have next := h.keepsNext ext fun q hq => by
    by_cases heq : q = p
    · subst heq
      rw [siblingPtr_splitPage]
      exact Or.inr ⟨t.alloc.ne_null _, fun hl' => absurd hl' hpos.ne'⟩
    · exact Or.inl (by rw [page_splitPage_of_ne hq heq])
  refine ⟨⟨linked, leaves, ext.allocated _ h.root⟩, ⟨ext, fun k => ?_, fun c _ hc => ?_, next,
    (ext.level _ h.root).ge⟩, ⟨alloc, congrArg (· + 1) (level₂.trans hl), Function.update_self ..⟩,
    ⟨hmin, hmost⟩, fun hc => ?_⟩
  · simpa using held k
  · rcases child c hc with hc | rfl
    · exact Or.inl hc
    · exact Or.inr (Or.inr ⟨_, _, rfl⟩)
  · rcases child _ hc with hc | heq
    · exact t.fresh_not_allocated (h.child_allocated hc)
    · exact t.fresh_not_allocated (heq ▸ slot.1)

/-- A new root comes over a page and the one that was split off from it. -/
theorem Pages.newRoot (h : t.Pages least rank row) (left : t.Slot least (l + 1) ⟨longMin, p⟩)
    {new : Int} (promotes : t.Promotes least (l + 1) key new) (ne : p ≠ new) :
    let t' := (t.new (Page.newRoot p key new (l + 1))).setNewRoot t.fresh
    let least' := Function.update least t.fresh longMin
    t'.Pages least' rank row ∧ Extends t t' least least' ∧ KeepsNext t t' least least' ∧
      (∀ k, t'.Held k row ↔ t.Held k row) ∧ (∀ c, t'.Child c → t.Child c ∨ c = p ∨ c = new) ∧
      (t'.page t'.root).hdr.level = l + 1 ∧
      ∀ q, t'.Allocated q → t.Allocated q ∨ q = t'.root := by
  intro t' least'
  have old : ∀ q, t'.Allocated q → t.Allocated q ∨ q = t.fresh := fun q =>
    (allocated_new (Page.newRoot p key new (l + 1))).mp
  obtain ⟨linked, ext, child, level⟩ :=
    h.linked.newRoot left promotes.slot ne promotes.bound.1 promotes.bound.2
  obtain ⟨leaves, held⟩ := h.leaves.congr ext
    (fun q hq _ => (t.keeps_new (Page.newRoot p key new (l + 1))).pages q hq trivial)
    fun q hq hlevel => by
      rcases old q hq with hq | rfl
      · exact hq
      · rw [level] at hlevel
        omega
  have next := h.keepsNext ext fun q hq => Or.inl (congrArg (fun x : Page => x.hdr.siblingPtr)
    ((t.keeps_new (Page.newRoot p key new (l + 1))).pages q hq trivial))
  exact ⟨⟨linked, leaves, t.allocated, Nat.lt_succ_self _, rfl⟩, ext, next, held, child, level, old⟩

end Pages

/-! ## The locked section -/

section Midway

variable {t t' : BTree} {least least' : Int → Int} {rank rank' : Int → Nat}
  {row row' : List Entry} {p : Int} {i j : Insertion}

/-- The other insertions are what they were. -/
theorem Takes.ready (takes : Takes t t' least least' row row' i) (ready : i.Ready t least row)
    (readyJ : j.Ready t least row) (ne : j ≠ i) : j.Ready t' least' row' := by
  cases j with
  | btreeInsert key right =>
      obtain ⟨hkey, rfl, new⟩ := readyJ
      refine ⟨hkey, rfl, fun held => ?_⟩
      rcases (takes.held _).mp held with held | heq
      · exact new held
      · exact ne heq.symm
  | btreeInsertInternal key right level =>
      obtain ⟨slot, bound, top, new⟩ := readyJ
      refine ⟨slot.extends takes.ext, bound, top.trans takes.root, fun child => ?_⟩
      rcases takes.child _ slot.1 child with child | heq | ⟨k, l, rfl⟩
      · exact new child
      · have := slot.2.1
        rw [heq] at this
        omega
      · obtain ⟨⟨-, hlevel', hleast'⟩, -⟩ := ready
        obtain ⟨-, hlevel, hleast⟩ := slot
        have sameKey : key = k := hleast.symm.trans hleast'
        have sameLevel : level = l := hlevel.symm.trans hlevel'
        exact ne (by rw [sameKey, sameLevel])

/-- The page that keeps the key takes the record of the insertion. -/
theorem Pages.insertKey (h : t.Pages least rank row) (ready : i.Ready t least row)
    (hp : t.Allocated p) (hl : (t.page p).hdr.level = i.level)
    (hle : i.level = 0 → least p ≤ i.key)
    (stays : ¬ ((t.page p).hdr.siblingPtr ≠ 0 ∧
      i.key > (t.page (t.page p).hdr.siblingPtr).firstKey))
    (room : (t.page p).live.length < cardinality - 1) :
    let t' := t.write p ((t.page p).insertKey i.key i.right (t.page p).live.length).1
    t'.Pages least rank row ∧ Takes t t' least least row row i := by
  cases i with
  | btreeInsert key right =>
      obtain ⟨hkey, rfl, new⟩ := ready
      exact h.insertKey_leaf hkey new hp hl (hle rfl) stays room
  | btreeInsertInternal key right level =>
      obtain ⟨slot, bound, -, new⟩ := ready
      exact h.insertKey_internal slot bound new hp hl room

/-- The page that keeps the key is split, and one of the halves takes the record. -/
theorem Pages.splitPage (h : t.Pages least rank row) (ready : i.Ready t least row)
    (hp : t.Allocated p) (hl : (t.page p).hdr.level = i.level)
    (hle : i.level = 0 → least p ≤ i.key)
    (stays : ¬ ((t.page p).hdr.siblingPtr ≠ 0 ∧
      i.key > (t.page (t.page p).hdr.siblingPtr).firstKey))
    (full : (t.page p).live.length = cardinality - 1) :
    let r := t.splitPage p i.key i.right (t.page p).live.length
    let least' := Function.update least t.fresh r.2.1
    ∃ rank' row', r.1.Pages least' rank' row' ∧ Takes t r.1 least least' row row' i ∧
      r.1.Promotes least' (i.level + 1) r.2.1 t.fresh := by
  cases i with
  | btreeInsert key right =>
      obtain ⟨hkey, rfl, new⟩ := ready
      obtain ⟨row', stored⟩ := h.splitPage_leaf hkey new hp hl (hle rfl) stays full
      exact ⟨_, row', stored⟩
  | btreeInsertInternal key right level =>
      obtain ⟨slot, bound, -, new⟩ := ready
      exact ⟨_, _, h.splitPage_internal slot bound new hp hl full⟩

theorem storeLocked_eq {key : Int} (right : Int) {n : Nat}
    (alive : (t.page p).hdr.isDeleted = false)
    (count : (t.page p).count = some n)
    (stays : ¬ ((t.page p).hdr.siblingPtr ≠ 0 ∧
      key > (t.page (t.page p).hdr.siblingPtr).firstKey)) :
    t.storeLocked p key right =
      let r := t.splitPage p key right n
      let level := (r.1.page p).hdr.level + 1
      some (if n < cardinality - 1 then
        (t.write p ((t.page p).insertKey key right n).1, .done p)
      else if t.root = p then
        ((r.1.new (Page.newRoot p r.2.1 t.fresh level)).setNewRoot r.1.fresh, .done r.2.2)
      else (r.1, .promote r.2.2 r.2.1 t.fresh level)) := by
  rw [storeLocked, alive, if_neg Bool.false_ne_true, if_neg stays, count]
  simp only [Option.bind_eq_bind, Option.bind_some]
  split
  · rfl
  · split <;> rfl

/-- A locked section puts the record of the insertion in, and may leave another to do. -/
def Completes (t : BTree) (least : Int → Int) (row : List Entry) (i : Insertion) (p : Int) : Prop :=
  ∃ t' stored least' rank' row', t.storeLocked p i.key i.right = some (t', stored) ∧
    t'.Midway least' rank' row' ∧ Takes t t' least least' row row' i ∧
    ((∃ ret, stored = .done ret) ∨
      ∃ ret key, stored = .promote ret key t.fresh (i.level + 1) ∧
        (Insertion.btreeInsertInternal key t.fresh (i.level + 1)).Ready t' least' row')

/-- A page that comes below the root leaves it the only page of its level. -/
theorem Midway.of_pages (h : t.Midway least rank row) (pages : t'.Pages least' rank' row')
    (ext : Extends t t' least least') (root : t'.root = t.root)
    (below : ∀ q, t'.Allocated q → t.Allocated q ∨
      (t'.page q).hdr.level < (t.page t.root).hdr.level) : t'.Midway least' rank' row' := by
  refine ⟨pages, root ▸ (ext.least _ h.pages.root).trans h.least, fun q hq ne => ?_⟩
  rw [root] at ne ⊢
  rw [ext.level _ h.pages.root]
  rcases below q hq with hq | hlt
  · rw [ext.level q hq]
    exact h.lower q hq ne
  · exact hlt

theorem Midway.completes_room (h : t.Midway least rank row) (ready : i.Ready t least row)
    (hp : t.Allocated p) (hl : (t.page p).hdr.level = i.level)
    (hle : i.level = 0 → least p ≤ i.key)
    (stays : ¬ ((t.page p).hdr.siblingPtr ≠ 0 ∧
      i.key > (t.page (t.page p).hdr.siblingPtr).firstKey))
    (room : (t.page p).live.length < cardinality - 1) : t.Completes least row i p := by
  obtain ⟨alive, count, -⟩ := h.pages.page hp
  obtain ⟨pages, takes⟩ := h.pages.insertKey ready hp hl hle stays room
  exact ⟨_, _, least, rank, row, (storeLocked_eq i.right alive count stays).trans
    (congrArg some (if_pos room)),
    h.of_pages pages takes.ext rfl fun q hq => Or.inl hq, takes, Or.inl ⟨p, rfl⟩⟩

/-- The root is split, and a new root comes over the halves. -/
theorem Midway.completes_root (h : t.Midway least rank row) (ready : i.Ready t least row)
    (hl : (t.page t.root).hdr.level = i.level)
    (hle : i.level = 0 → least t.root ≤ i.key)
    (stays : ¬ ((t.page t.root).hdr.siblingPtr ≠ 0 ∧
      i.key > (t.page (t.page t.root).hdr.siblingPtr).firstKey))
    (full : (t.page t.root).live.length = cardinality - 1) : t.Completes least row i t.root := by
  have hroot := h.pages.root
  obtain ⟨alive, count, -⟩ := h.pages.page hroot
  obtain ⟨rank₁, row', pages, takes, promotes⟩ := h.pages.splitPage ready hroot hl hle stays full
  have stored := (storeLocked_eq i.right alive count stays).trans (congrArg some
    ((if_neg (full ▸ lt_irrefl _)).trans (if_pos rfl)))
  have level := (takes.ext.level _ hroot).trans hl
  rw [level] at stored
  have left : Slot _ _ (i.level + 1) ⟨longMin, t.root⟩ :=
    ⟨takes.ext.allocated _ hroot, congrArg (· + 1) level, (takes.ext.least _ hroot).trans h.least⟩
  have ne : t.root ≠ t.fresh := fun heq => t.fresh_not_allocated (heq ▸ hroot)
  obtain ⟨pages', ext, next, held, child, top, old⟩ := pages.newRoot left promotes ne
  refine ⟨_, _, _, rank₁, row', stored, ⟨pages', Function.update_self .., fun q hq hne => ?_⟩, ?_,
    Or.inl ⟨_, rfl⟩⟩
  · have hq' := (old q hq).resolve_right hne
    rw [top, ext.level q hq']
    rcases allocated_splitPage.mp hq' with hq | rfl
    · rw [takes.ext.level q hq]
      by_cases heq : q = t.root
      · rw [heq]
        omega
      · have := h.lower q hq heq
        omega
    · exact (Nat.lt_succ_self _).trans_eq promotes.slot.2.1
  · refine ⟨takes.ext.trans ext, fun k => (held k).trans (takes.held k), fun c hc hchild => ?_,
      takes.next.trans next takes.ext, ?_⟩
    · rcases child c hchild with hchild | rfl | rfl
      · exact takes.child c hc hchild
      · exact Or.inr (Or.inl rfl)
      · exact absurd hc t.fresh_not_allocated
    · rw [top, hl]
      exact Nat.le_succ _

/-- A page below the root is split, which leaves its slot to be inserted. -/
theorem Midway.completes_split (h : t.Midway least rank row) (ready : i.Ready t least row)
    (hp : t.Allocated p) (hl : (t.page p).hdr.level = i.level)
    (hle : i.level = 0 → least p ≤ i.key)
    (stays : ¬ ((t.page p).hdr.siblingPtr ≠ 0 ∧
      i.key > (t.page (t.page p).hdr.siblingPtr).firstKey))
    (full : (t.page p).live.length = cardinality - 1) (notRoot : t.root ≠ p) :
    t.Completes least row i p := by
  obtain ⟨alive, count, -⟩ := h.pages.page hp
  obtain ⟨rank', row', pages, takes, promotes⟩ := h.pages.splitPage ready hp hl hle stays full
  have stored := (storeLocked_eq i.right alive count stays).trans (congrArg some
    ((if_neg (full ▸ lt_irrefl _)).trans (if_neg notRoot)))
  have level := (takes.ext.level _ hp).trans hl
  have below := h.lower p hp notRoot.symm
  rw [level] at stored
  have midway := h.of_pages pages takes.ext rfl fun q hq => by
    rcases allocated_splitPage.mp hq with hq | rfl
    · exact Or.inl hq
    · have sibling : ((t.splitPage p i.key i.right (t.page p).live.length).1.page t.fresh).hdr.level =
          i.level := Nat.succ_inj.mp promotes.slot.2.1
      exact Or.inr (sibling ▸ hl ▸ below)
  refine ⟨_, _, _, rank', row', stored, midway, takes, Or.inr ⟨_, _, rfl, promotes.slot,
    promotes.bound, ?_, promotes.child⟩⟩
  refine le_trans ?_ takes.root
  omega

/-- The section passes the record on to the sibling, or puts it in. -/
theorem Midway.storeLocked (h : t.Midway least rank row) (ready : i.Ready t least row)
    (hp : t.Allocated p) (hl : (t.page p).hdr.level = i.level)
    (hle : i.level = 0 → least p ≤ i.key) :
    (t.storeLocked p i.key i.right = some (t, .hop) ∧ (t.page p).hdr.siblingPtr ≠ 0 ∧
      (i.level = 0 → least (t.page p).hdr.siblingPtr ≤ i.key)) ∨
      t.Completes least row i p := by
  obtain ⟨alive, -, size, -⟩ := h.pages.page hp
  by_cases hop : (t.page p).hdr.siblingPtr ≠ 0 ∧
      i.key > (t.page (t.page p).hdr.siblingPtr).firstKey
  · obtain ⟨-, -, first⟩ := h.pages.sibling hp hop.1
    refine Or.inl ⟨?_, hop.1, fun leaf => (first (hl.trans leaf)).trans hop.2.le⟩
    rw [BTree.storeLocked, alive, if_neg Bool.false_ne_true, if_pos hop]
  · rcases Nat.lt_or_eq_of_le size with room | full
    · exact Or.inr (h.completes_room ready hp hl hle hop room)
    · by_cases hroot : t.root = p
      · subst hroot
        exact Or.inr (h.completes_root ready hl hle hop full)
      · exact Or.inr (h.completes_split ready hp hl hle hop full hroot)

end Midway

end BTree

end F3Tree
