import F3Tree.Threads
import F3Tree.WellFormed

/-!
# The tree in the middle of insertions

While threads are on their way from a split to the insertion of the separator, the pages
of a level above the leaves need not lie in the order of their keys: a separator goes
into the page left of the one that is responsible for it, if that page was split and the
first record of its sibling is above the key, or into a page that comes between the two while
the thread is on its way from one to the other.  What is left of the rows says for each
page, alone, that it holds its own records in order, and that every record leads to a page
that is responsible for the keys from that of the record on (`PageAt`).  So a search never
comes too far to the right, and the siblings of the leaves lead it to its leaf.

`least p` is the least key that the page `p` is responsible for, and `rank p` falls along
the siblings.
-/

namespace F3Tree

open Keyed Fuel

/-! ## One page -/

namespace Page

/-- The page without its sibling. -/
def unlinked (p : Page) : Page := { p with hdr := { p.hdr with siblingPtr := 0 } }

theorem insert_unlinked (s : Split) (key right : Int) :
    Split.insert { s with sibling := s.sibling.unlinked } key right =
      ((s.insert key right).1, (s.insert key right).2.unlinked) := by
  unfold Split.insert
  dsimp only
  split
  · rfl
  · rfl

theorem split_unlinked (p : Page) (n : Nat) (sibling : Int) :
    p.unlinked.split n sibling =
      { p.split n sibling with sibling := (p.split n sibling).sibling.unlinked } := rfl

/-- What the halves of a split page take over from it. -/
theorem hdr_insert_split (p : Page) (n : Nat) (sibling key right : Int) :
    ((p.split n sibling).insert key right).1.hdr.leftmostPtr = p.hdr.leftmostPtr ∧
      ((p.split n sibling).insert key right).1.hdr.level = p.hdr.level ∧
      ((p.split n sibling).insert key right).1.hdr.siblingPtr = sibling ∧
      ((p.split n sibling).insert key right).2.hdr.siblingPtr = p.hdr.siblingPtr := by
  unfold Split.insert
  split
  · exact ⟨rfl, rfl, rfl, rfl⟩
  · exact ⟨rfl, rfl, rfl, rfl⟩

theorem children_eq {p : Page} (internal : p.hdr.leftmostPtr ≠ 0) :
    p.children = p.hdr.leftmostPtr :: p.live.map Entry.ptr := if_neg internal

theorem entries_eq {p : Page} (internal : p.hdr.leftmostPtr ≠ 0) (least : Int) :
    p.entries least = ⟨least, p.hdr.leftmostPtr⟩ :: p.live := if_neg internal

theorem map_ptr_entries {p : Page} (internal : p.hdr.leftmostPtr ≠ 0) (least : Int) :
    (p.entries least).map Entry.ptr = p.children := by
  rw [entries_eq internal, children_eq internal, List.map_cons]

theorem children_perm {p : Page} {c : List Int} {entries : List Entry} {e : Entry} {least : Int}
    (internal : p.hdr.leftmostPtr ≠ 0) (perm : entries.Perm (e :: p.entries least))
    (children : entries.map Entry.ptr = c) : c.Perm (e.ptr :: p.children) := by
  have mapped := perm.map Entry.ptr
  rwa [children, List.map_cons, map_ptr_entries internal] at mapped

end Page

section PageOk

variable {p : Page} {l : Nat} {s : Entry} {next : Option Entry}

theorem PageOk.unlinked (ok : PageOk p l s next) : PageOk p.unlinked l s none := by
  obtain ⟨z, rest, holds, second⟩ := ok.holds
  exact ⟨⟨z, rest, ⟨holds.records, holds.live, holds.stop, holds.lastIndex⟩, second⟩, ok.size,
    ok.alive, ok.level, rfl, ok.ordered, ok.range, fun _ h => (by cases h), ok.leaf, ok.internal⟩

end PageOk

namespace BTree

/-! ## All pages -/

/-- The entry leads to a page one level below `level`, which is responsible for the keys
from that of the entry on. -/
def Slot (t : BTree) (least : Int → Int) (level : Nat) (e : Entry) : Prop :=
  t.Allocated e.ptr ∧ (t.page e.ptr).hdr.level + 1 = level ∧ least e.ptr = e.key

/-- One internal page, whose sibling and children may be in the middle of anything. -/
structure PageAt (t : BTree) (least : Int → Int) (rank : Int → Nat) (p : Int) : Prop where
  ok : PageOk (t.page p).unlinked (t.page p).hdr.level ⟨longMin, p⟩ none
  sibling : (t.page p).hdr.siblingPtr ≠ 0 → t.Allocated (t.page p).hdr.siblingPtr ∧
    (t.page (t.page p).hdr.siblingPtr).hdr.level = (t.page p).hdr.level ∧
    rank (t.page p).hdr.siblingPtr < rank p
  child : ∀ e ∈ (t.page p).entries (least p), t.Slot least (t.page p).hdr.level e
  nodup : (t.page p).children.Nodup

def Linked (t : BTree) (least : Int → Int) (rank : Int → Nat) : Prop :=
  ∀ p, t.Allocated p → 0 < (t.page p).hdr.level → t.PageAt least rank p

/-- A search for the key that has come to the page is not too far to the right. -/
def Covers (t : BTree) (least : Int → Int) (p key : Int) : Prop :=
  least p ≤ key ∨ 0 < (t.page p).hdr.level ∧ ∃ e ∈ (t.page p).live, e.key ≤ key

/-- Some page has a slot for the page. -/
def Child (t : BTree) (q : Int) : Prop := ∃ p, t.Allocated p ∧ q ∈ (t.page p).children

/-- Pages stay, with their levels and the keys that they are responsible for, and the first
record of an internal page does not move up. -/
structure Extends (t t' : BTree) (least least' : Int → Int) : Prop where
  allocated : ∀ p, t.Allocated p → t'.Allocated p
  level : ∀ p, t.Allocated p → (t'.page p).hdr.level = (t.page p).hdr.level
  least : ∀ p, t.Allocated p → least' p = least p
  first : ∀ p, t.Allocated p → 0 < (t.page p).hdr.level → ∀ e ∈ (t.page p).live,
    ∃ e' ∈ (t'.page p).live, e'.key ≤ e.key

section Linked

variable {t t' t'' : BTree} {least least' least'' : Int → Int} {rank rank' : Int → Nat}
  {p q key right : Int} {page : Page} {l n : Nat}

theorem Extends.refl (t : BTree) (least : Int → Int) : Extends t t least least :=
  ⟨fun _ => id, fun _ _ => rfl, fun _ _ => rfl, fun _ _ _ e he => ⟨e, he, le_rfl⟩⟩

theorem Extends.trans (ext : Extends t t' least least') (ext' : Extends t' t'' least' least'') :
    Extends t t'' least least'' := by
  refine ⟨fun p hp => ext'.allocated p (ext.allocated p hp),
    fun p hp => (ext'.level p (ext.allocated p hp)).trans (ext.level p hp),
    fun p hp => (ext'.least p (ext.allocated p hp)).trans (ext.least p hp), fun p hp hl e he => ?_⟩
  obtain ⟨e', he', hle⟩ := ext.first p hp hl e he
  obtain ⟨e'', he'', hle'⟩ := ext'.first p (ext.allocated p hp) (ext.level p hp ▸ hl) e' he'
  exact ⟨e'', he'', hle'.trans hle⟩

/-- Pages that are not `p` stay as they are. -/
theorem Extends.of_page (allocated : ∀ q, t.Allocated q → t'.Allocated q)
    (leasts : ∀ q, t.Allocated q → least' q = least q)
    (others : ∀ q, t.Allocated q → q ≠ p → t'.page q = t.page q)
    (level : (t'.page p).hdr.level = (t.page p).hdr.level)
    (first : 0 < (t.page p).hdr.level → ∀ e ∈ (t.page p).live,
      ∃ e' ∈ (t'.page p).live, e'.key ≤ e.key) : Extends t t' least least' := by
  refine ⟨allocated, fun q hq => ?_, leasts, fun q hq hl e he => ?_⟩
  · by_cases heq : q = p
    · exact heq ▸ level
    · rw [others q hq heq]
  · by_cases heq : q = p
    · subst heq
      exact first hl e he
    · rw [others q hq heq]
      exact ⟨e, he, le_rfl⟩

theorem Slot.extends {l : Nat} {e : Entry} (slot : t.Slot least l e)
    (ext : Extends t t' least least') : t'.Slot least' l e := by
  obtain ⟨alloc, level, key⟩ := slot
  exact ⟨ext.allocated _ alloc, (congrArg (· + 1) (ext.level _ alloc)).trans level,
    (ext.least _ alloc).trans key⟩

theorem Covers.extends (covers : t.Covers least p key) (hp : t.Allocated p)
    (ext : Extends t t' least least') : t'.Covers least' p key := by
  rcases covers with hle | ⟨hl, e, he, hle⟩
  · exact Or.inl (ext.least p hp ▸ hle)
  · obtain ⟨e', he', hle'⟩ := ext.first p hp hl e he
    exact Or.inr ⟨ext.level p hp ▸ hl, e', he', hle'.trans hle⟩

/-- A page that is not written stays as it is. -/
theorem PageAt.congr (h : t.PageAt least rank p) (hp : t.Allocated p)
    (ext : Extends t t' least least') (same : t'.page p = t.page p)
    (falls : ∀ q, t.Allocated q → rank q < rank p → rank' q < rank' p) :
    t'.PageAt least' rank' p := by
  refine ⟨same ▸ h.ok, ?_, ?_, same ▸ h.nodup⟩
  · rw [same]
    intro hsib
    obtain ⟨alloc, level, hrank⟩ := h.sibling hsib
    exact ⟨ext.allocated _ alloc, (ext.level _ alloc).trans level, falls _ alloc hrank⟩
  · rw [same, ext.least p hp]
    exact fun e mem => (h.child e mem).extends ext

theorem PageAt.count_eq (h : t.PageAt least rank p) :
    (t.page p).count = some (t.page p).live.length := by
  obtain ⟨z, rest, holds, -⟩ := h.ok.holds
  have holds' : (t.page p).Holds (t.page p).live z rest :=
    ⟨holds.records, holds.live, holds.stop, holds.lastIndex⟩
  exact holds'.count_eq

/-! ## One step of a search -/

/-- `linear_search` in an internal page leads to its sibling or one level down, and not too
far to the right. -/
theorem Linked.linearSearch (h : t.Linked least rank) (hp : t.Allocated p)
    (hl : 0 < (t.page p).hdr.level) (covers : t.Covers least p key) :
    ∃ q, t.linearSearch (t.page p) key = some q ∧ t.Allocated q ∧ t.Covers least q key ∧
      ((t.page q).hdr.level = (t.page p).hdr.level ∧ rank q < rank p ∨
        (t.page q).hdr.level + 1 = (t.page p).hdr.level) := by
  have at' := h p hp hl
  have internal : (t.page p).hdr.leftmostPtr ≠ 0 := (at'.ok.internal hl).1
  have nonempty : (t.page p).live ≠ [] := (at'.ok.internal hl).2
  obtain ⟨z, rest, holds, -⟩ := at'.ok.holds
  have holds' : (t.page p).Holds (t.page p).live z rest :=
    ⟨holds.records, holds.live, holds.stop, holds.lastIndex⟩
  obtain ⟨below, above, cut⟩ := at'.ok.ordered.cut key
  have nodup := at'.nodup
  rw [Page.children_eq internal] at nodup
  obtain ⟨ret, search, hret⟩ := holds'.searchInternal_eq nonempty nodup cut
  rw [BTree.linearSearch, if_neg internal, search]
  simp only [Option.bind_eq_bind, Option.bind_some]
  split
  · rename_i hsib
    obtain ⟨alloc, level, hrank⟩ := at'.sibling hsib.1
    have ok' := (h _ alloc (level ▸ hl)).ok
    obtain ⟨e, es, hlive, hkey⟩ := ok'.firstKey_mem (ok'.internal (level ▸ hl)).2
    have he : e ∈ (t.page (t.page p).hdr.siblingPtr).live := hlive ▸ List.mem_cons_self
    exact ⟨_, rfl, alloc, Or.inr ⟨level ▸ hl, e, he, hkey.symm.trans_le hsib.2⟩,
      Or.inl ⟨level, hrank⟩⟩
  · have child : ∃ e ∈ (t.page p).entries (least p),
        e.ptr = Page.childOf (t.page p).hdr.leftmostPtr below ∧ e.key ≤ key := by
      rw [Page.entries_eq internal]
      rcases List.eq_nil_or_concat below with rfl | ⟨init, e, rfl⟩
      · refine ⟨_, List.mem_cons_self, rfl, covers.resolve_right ?_⟩
        rintro ⟨-, e, he, hle⟩
        have none : (t.page p).live = above := cut.eq
        exact absurd hle (not_le.mpr (cut.lt e (none ▸ he)))
      · have mem : e ∈ (t.page p).live := cut.eq ▸ by simp
        exact ⟨e, List.mem_cons_of_mem _ mem, by simp [Page.childOf], cut.le e (by simp)⟩
    obtain ⟨e, mem, hptr, hle⟩ := child
    obtain ⟨alloc, level, hleast⟩ := at'.child e mem
    refine ⟨e.ptr, ?_, alloc, Or.inl (hleast ▸ hle), Or.inr level⟩
    rw [hptr, ← hret]
    split <;> rfl

/-! ## Pages that are written -/

theorem allocated_new (page : Page) : (t.new page).Allocated q ↔ t.Allocated q ∨ q = t.fresh := by
  constructor
  · rintro ⟨i, hi, rfl⟩
    rcases Nat.lt_succ_iff_lt_or_eq.mp hi with hi | rfl
    · exact Or.inl ⟨i, hi, rfl⟩
    · exact Or.inr rfl
  · rintro (alloc | rfl)
    · exact (t.keeps_new page).allocated_of alloc
    · exact ⟨t.allocated, Nat.lt_succ_self _, rfl⟩

/-- The pages of the levels above the leaves stay linked when those that are new or written
are linked. -/
theorem Linked.congr (h : t.Linked least rank) (ext : Extends t t' least least')
    (falls : ∀ p q, t.Allocated p → t.Allocated q → rank q < rank p → rank' q < rank' p)
    (others : ∀ p, t'.Allocated p → 0 < (t'.page p).hdr.level →
      t.Allocated p ∧ t'.page p = t.page p ∨ t'.PageAt least' rank' p) :
    t'.Linked least' rank' := by
  intro p hp hl
  rcases others p hp hl with ⟨alloc, same⟩ | at'
  · exact (h p alloc (same ▸ hl)).congr alloc ext same fun q hq => falls p q alloc hq
  · exact at'

/-- An internal page with room takes a record. -/
theorem Linked.insertKey (h : t.Linked least rank) (hp : t.Allocated p)
    (hl : 0 < (t.page p).hdr.level) (room : (t.page p).live.length < cardinality - 1)
    (hkey : longMin ≤ key) (most : key ≤ longMax)
    (slot : t.Slot least (t.page p).hdr.level ⟨key, right⟩) (new : right ∉ (t.page p).children) :
    let t' := t.write p ((t.page p).insertKey key right (t.page p).live.length).1
    t'.Linked least rank ∧ Extends t t' least least ∧
      ∀ c, t'.Child c → t.Child c ∨ c = right := by
  intro t'
  have at' := h p hp hl
  have internal : (t.page p).hdr.leftmostPtr ≠ 0 := (at'.ok.internal hl).1
  have here : t'.page p = ((t.page p).insertKey key right (t.page p).live.length).1 :=
    Function.update_self ..
  have others : ∀ q, q ≠ p → t'.page q = t.page q := fun q ne => Function.update_of_ne ne ..
  have level : (t'.page p).hdr.level = (t.page p).hdr.level := here ▸ rfl
  have leftmost : (t'.page p).hdr.leftmostPtr = (t.page p).hdr.leftmostPtr := here ▸ rfl
  have sibling : (t'.page p).hdr.siblingPtr = (t.page p).hdr.siblingPtr := here ▸ rfl
  obtain ⟨ok', inserted⟩ := at'.ok.insertKey room hkey most (by simp)
    (Allocator.ne_null_of slot.1) fun hl' => absurd hl' hl.ne'
  have live : (t'.page p).live.Perm (⟨key, right⟩ :: (t.page p).live) := here ▸ inserted.perm
  have ext : Extends t t' least least := .of_page (p := p) (fun _ => id) (fun _ _ => rfl)
    (fun q _ ne => others q ne) level fun _ e he =>
      ⟨e, live.mem_iff.mpr (List.mem_cons_of_mem _ he), le_rfl⟩
  have entries : ((t'.page p).entries (least p)).Perm
      (⟨key, right⟩ :: (t.page p).entries (least p)) := by
    rw [Page.entries_eq internal, Page.entries_eq (p := t'.page p) (leftmost ▸ internal), leftmost]
    exact (live.cons _).trans (.swap ..)
  have children : (t'.page p).children.Perm (right :: (t.page p).children) :=
    Page.children_perm internal entries (Page.map_ptr_entries (leftmost ▸ internal) _)
  have written : t'.PageAt least rank p := by
    refine ⟨?_, ?_, ?_, ?_⟩
    · rw [level, here]
      exact ok'
    · rw [sibling, level]
      intro hsib
      obtain ⟨alloc, hlevel, hrank⟩ := at'.sibling hsib
      exact ⟨alloc, (ext.level _ alloc).trans hlevel, hrank⟩
    · rw [level]
      intro e mem
      rcases List.mem_cons.mp (entries.mem_iff.mp mem) with rfl | mem
      · exact slot.extends ext
      · exact (at'.child e mem).extends ext
    · exact children.nodup_iff.mpr (List.nodup_cons.mpr ⟨new, at'.nodup⟩)
  refine ⟨h.congr ext (fun _ _ _ _ => id) fun q hq _ => ?_, ext, ?_⟩
  · by_cases heq : q = p
    · exact Or.inr (heq ▸ written)
    · exact Or.inl ⟨hq, others q heq⟩
  · rintro c ⟨q, hq, mem⟩
    by_cases heq : q = p
    · subst heq
      rcases List.mem_cons.mp (children.mem_iff.mp mem) with rfl | mem
      · exact Or.inr rfl
      · exact Or.inl ⟨q, hp, mem⟩
    · exact Or.inl ⟨q, hq, others q heq ▸ mem⟩

/-- The pages after a split. -/
theorem page_splitPage (t : BTree) (p key right : Int) (n : Nat) (q : Int) :
    (t.splitPage p key right n).1.page q =
      if q = p then (((t.page p).split n t.fresh).insert key right).1
      else if q = t.fresh then (((t.page p).split n t.fresh).insert key right).2
      else t.page q := by
  have written : (t.splitPage p key right n).1.page =
      Function.update (Function.update t.page t.fresh
        (((t.page p).split n t.fresh).insert key right).2) p
        (((t.page p).split n t.fresh).insert key right).1 := rfl
  rw [written, Function.update_apply, Function.update_apply]

theorem page_splitPage_of_ne (hq : t.Allocated q) (ne : q ≠ p) :
    (t.splitPage p key right n).1.page q = t.page q := by
  have notFresh : q ≠ t.fresh := fun heq => t.fresh_not_allocated (heq ▸ hq)
  rw [page_splitPage, if_neg ne, if_neg notFresh]

theorem siblingPtr_splitPage :
    ((t.splitPage p key right n).1.page p).hdr.siblingPtr = t.fresh := by
  obtain ⟨-, -, sibling, -⟩ := Page.hdr_insert_split (t.page p) n t.fresh key right
  rw [page_splitPage, if_pos rfl, sibling]

theorem allocated_splitPage :
    (t.splitPage p key right n).1.Allocated q ↔ t.Allocated q ∨ q = t.fresh :=
  allocated_new (((t.page p).split n t.fresh).insert key right).2

theorem Extends.splitPage (k : Int)
    (first : 0 < (t.page p).hdr.level → ∀ e ∈ (t.page p).live,
      ∃ e' ∈ ((t.splitPage p key right n).1.page p).live, e'.key ≤ e.key) :
    Extends t (t.splitPage p key right n).1 least (Function.update least t.fresh k) := by
  have notFresh : ∀ q, t.Allocated q → q ≠ t.fresh := fun q hq heq =>
    t.fresh_not_allocated (heq ▸ hq)
  obtain ⟨-, level, -⟩ := Page.hdr_insert_split (t.page p) n t.fresh key right
  refine .of_page (p := p) (fun q hq => allocated_splitPage.mpr (Or.inl hq))
    (fun q hq => Function.update_of_ne (notFresh q hq) ..) (fun q hq => page_splitPage_of_ne hq)
    ?_ first
  rw [page_splitPage, if_pos rfl, level]

/-- The ranks when a page comes behind `p`. -/
def rankBehind (rank : Int → Nat) (p new : Int) : Int → Nat :=
  Function.update (fun q => 2 * rank q + 1) new (2 * rank p)

theorem rankBehind_new (rank : Int → Nat) (p new : Int) :
    rankBehind rank p new new = 2 * rank p := Function.update_self ..

theorem rankBehind_of_ne (rank : Int → Nat) (p : Int) {new : Int} (hq : q ≠ new) :
    rankBehind rank p new q = 2 * rank q + 1 := Function.update_of_ne hq ..

/-- What a split of a full internal page leaves of it and puts into the new page. -/
theorem PageAt.splitPage (h : t.PageAt least rank p) (hp : t.Allocated p)
    (hl : 0 < (t.page p).hdr.level) (full : (t.page p).live.length = cardinality - 1)
    (hkey : longMin ≤ key) (most : key ≤ longMax) (hright : right ≠ 0) :
    let r := t.splitPage p key right (t.page p).live.length
    PageOk (r.1.page p).unlinked (t.page p).hdr.level ⟨longMin, p⟩ none ∧
      PageOk (r.1.page t.fresh).unlinked (t.page p).hdr.level ⟨longMin, t.fresh⟩ none ∧
      (r.1.page t.fresh).hdr.siblingPtr = (t.page p).hdr.siblingPtr ∧
      ((r.1.page p).entries (least p) ++ (r.1.page t.fresh).entries r.2.1).Perm
        (⟨key, right⟩ :: (t.page p).entries (least p)) ∧
      (∀ e ∈ (t.page p).live, ∃ e' ∈ (r.1.page p).live, e'.key ≤ e.key) ∧
      longMin ≤ r.2.1 ∧ r.2.1 ≤ longMax := by
  intro r
  have ne : t.fresh ≠ p := fun heq => t.fresh_not_allocated (heq.symm ▸ hp)
  have internal : (t.page p).hdr.leftmostPtr ≠ 0 := (h.ok.internal hl).1
  have sp : SplitOk _ _ _ _ t.fresh ((t.page p).unlinked.split (t.page p).live.length t.fresh) :=
    h.ok.split full (t.alloc.ne_null t.allocated)
  have halves := sp.insert h.ok hkey most (by simp) hright fun hl' => absurd hl' hl.ne'
  rw [Page.split_unlinked, Page.insert_unlinked] at halves
  obtain ⟨leftmost, -, -, hsibling⟩ :=
    Page.hdr_insert_split (t.page p) (t.page p).live.length t.fresh key right
  have left : r.1.page p = _ := (page_splitPage t p key right _ p).trans (if_pos rfl)
  have behind : r.1.page t.fresh = _ := (page_splitPage t p key right _ t.fresh).trans
    ((if_neg ne).trans (if_pos rfl))
  rw [← left] at halves leftmost
  rw [← behind] at halves hsibling
  have internal' : (r.1.page p).hdr.leftmostPtr ≠ 0 := leftmost ▸ internal
  have live : ((r.1.page p).live ++ (r.1.page t.fresh).entries r.2.1).Perm
      (⟨key, right⟩ :: (t.page p).live) := by
    have perm : ((r.1.page p).entries longMin ++ (r.1.page t.fresh).entries r.2.1).Perm
        (⟨key, right⟩ :: (t.page p).entries longMin) := halves.entries.perm
    rw [Page.entries_eq internal, Page.entries_eq internal', leftmost, List.cons_append] at perm
    exact (perm.trans (.swap ..)).cons_inv
  refine ⟨halves.left.unlinked, halves.right.lower sp.least, hsibling, ?_, ?_, sp.least, sp.most⟩
  · rw [Page.entries_eq internal, Page.entries_eq internal', leftmost, List.cons_append]
    exact (live.cons _).trans (.swap ..)
  · intro e he
    rcases List.mem_append.mp (live.mem_iff.mpr (List.mem_cons_of_mem _ he)) with he' | he'
    · exact ⟨e, he', le_rfl⟩
    · -- The record has gone to the new page, and the split key lies between the two.
      obtain ⟨f, hf⟩ := List.exists_mem_of_ne_nil _ (halves.left.internal hl).2
      have below : f.key ≤ r.2.1 := (halves.left.below _ rfl).2.1 f hf
      exact ⟨f, hf, below.trans (halves.right.range_entries he').1⟩

/-- A full internal page is split, and one of the halves takes a record. -/
theorem Linked.splitPage (h : t.Linked least rank) (hp : t.Allocated p)
    (hl : 0 < (t.page p).hdr.level) (full : (t.page p).live.length = cardinality - 1)
    (hkey : longMin ≤ key) (most : key ≤ longMax)
    (slot : t.Slot least (t.page p).hdr.level ⟨key, right⟩) (new : right ∉ (t.page p).children) :
    let r := t.splitPage p key right (t.page p).live.length
    let least' := Function.update least t.fresh r.2.1
    r.1.Linked least' (rankBehind rank p t.fresh) ∧ Extends t r.1 least least' ∧
      (∀ c, r.1.Child c → t.Child c ∨ c = right) ∧ longMin ≤ r.2.1 ∧ r.2.1 ≤ longMax ∧
      (r.1.page t.fresh).hdr.level = (t.page p).hdr.level := by
  intro r least'
  have at' := h p hp hl
  obtain ⟨left, behind, sibling, entries, first, hmin, hmost⟩ :=
    at'.splitPage hp hl full hkey most (Allocator.ne_null_of slot.1)
  have notFresh : ∀ q, t.Allocated q → q ≠ t.fresh := fun q hq heq =>
    t.fresh_not_allocated (heq ▸ hq)
  have ext : Extends t r.1 least least' := .splitPage _ fun _ => first
  have slots : ∀ e ∈ (r.1.page p).entries (least p) ++ (r.1.page t.fresh).entries r.2.1,
      r.1.Slot least' (t.page p).hdr.level e := fun e mem => by
    rcases List.mem_cons.mp (entries.mem_iff.mp mem) with rfl | mem
    · exact slot.extends ext
    · exact (at'.child e mem).extends ext
  have children : ((r.1.page p).children ++ (r.1.page t.fresh).children).Perm
      (right :: (t.page p).children) := by
    refine Page.children_perm (p := t.page p) (at'.ok.internal hl).1 entries ?_
    rw [List.map_append, Page.map_ptr_entries (p := r.1.page p) (left.internal hl).1,
      Page.map_ptr_entries (p := r.1.page t.fresh) (behind.internal hl).1]
  have nodup := children.nodup_iff.mpr (List.nodup_cons.mpr ⟨new, at'.nodup⟩)
  have level₁ : (r.1.page p).hdr.level = (t.page p).hdr.level := ext.level p hp
  have level₂ : (r.1.page t.fresh).hdr.level = (t.page p).hdr.level := behind.level
  have least₁ : least' p = least p := ext.least p hp
  have least₂ : least' t.fresh = r.2.1 := Function.update_self ..
  have rank₁ := rankBehind_of_ne rank p (notFresh p hp)
  have rank₂ := rankBehind_new rank p t.fresh
  have half₁ : r.1.PageAt least' (rankBehind rank p t.fresh) p := by
    refine ⟨level₁.symm ▸ left, fun _ => ?_, ?_, (List.nodup_append.mp nodup).1⟩
    · rw [siblingPtr_splitPage, level₁, rank₁, rank₂]
      exact ⟨allocated_splitPage.mpr (Or.inr rfl), level₂, Nat.lt_succ_self _⟩
    · rw [level₁, least₁]
      exact fun e mem => slots e (List.mem_append_left _ mem)
  have half₂ : r.1.PageAt least' (rankBehind rank p t.fresh) t.fresh := by
    refine ⟨level₂.symm ▸ behind, ?_, ?_, (List.nodup_append.mp nodup).2.1⟩
    · rw [sibling, level₂, rank₂]
      intro hsib
      obtain ⟨alloc, level, hrank⟩ := at'.sibling hsib
      rw [rankBehind_of_ne rank p (notFresh _ alloc)]
      exact ⟨ext.allocated _ alloc, (ext.level _ alloc).trans level, by omega⟩
    · rw [level₂, least₂]
      exact fun e mem => slots e (List.mem_append_right _ mem)
  refine ⟨h.congr ext (fun x y hx hy hlt => ?_) (fun q hq _ => ?_), ext, ?_, hmin, hmost, level₂⟩
  · rw [rankBehind_of_ne rank p (notFresh x hx), rankBehind_of_ne rank p (notFresh y hy)]
    omega
  · by_cases heq : q = p
    · exact Or.inr (heq ▸ half₁)
    · rcases allocated_splitPage.mp hq with hq | rfl
      · exact Or.inl ⟨hq, page_splitPage_of_ne hq heq⟩
      · exact Or.inr half₂
  · have half : ∀ c ∈ (r.1.page p).children ++ (r.1.page t.fresh).children,
        t.Child c ∨ c = right := fun c mem => by
      rcases List.mem_cons.mp (children.mem_iff.mp mem) with rfl | mem
      · exact Or.inr rfl
      · exact Or.inl ⟨p, hp, mem⟩
    rintro c ⟨q, hq, mem⟩
    by_cases heq : q = p
    · subst heq
      exact half c (List.mem_append_left _ mem)
    · rcases allocated_splitPage.mp hq with hq | rfl
      · exact Or.inl ⟨q, hq, page_splitPage_of_ne hq heq ▸ mem⟩
      · exact half c (List.mem_append_right _ mem)

/-- A new root over two pages. -/
theorem Linked.newRoot (h : t.Linked least rank) (left : t.Slot least (l + 1) ⟨longMin, p⟩)
    (behind : t.Slot least (l + 1) ⟨key, q⟩) (ne : p ≠ q) (hkey : longMin ≤ key)
    (most : key ≤ longMax) :
    let t' := (t.new (Page.newRoot p key q (l + 1))).setNewRoot t.fresh
    let least' := Function.update least t.fresh longMin
    t'.Linked least' rank ∧ Extends t t' least least' ∧
      (∀ c, t'.Child c → t.Child c ∨ c = p ∨ c = q) ∧
      (t'.page t.fresh).hdr.level = l + 1 := by
  intro t' least'
  have notFresh : ∀ x, t.Allocated x → x ≠ t.fresh := fun x hx heq =>
    t.fresh_not_allocated (heq ▸ hx)
  have others : ∀ x, t.Allocated x → t'.page x = t.page x := fun x hx =>
    (t.keeps_new _).pages x hx trivial
  have ext : Extends t t' least least' :=
    ⟨fun x => (t.keeps_new (Page.newRoot p key q (l + 1))).allocated_of,
      fun x hx => congrArg (fun page : Page => page.hdr.level) (others x hx),
      fun x hx => Function.update_of_ne (notFresh x hx) ..,
      fun x hx _ e he => ⟨e, others x hx ▸ he, le_rfl⟩⟩
  have cases : ∀ x, t'.Allocated x → t.Allocated x ∨ x = t.fresh := fun x =>
    (allocated_new (Page.newRoot p key q (l + 1))).mp
  have here : t'.page t.fresh = Page.newRoot p key q (l + 1) := Function.update_self ..
  have level : (t'.page t.fresh).hdr.level = l + 1 := here ▸ rfl
  have hleast : least' t.fresh = longMin := Function.update_self ..
  obtain ⟨ok, live⟩ := pageOk_newRoot (Allocator.ne_null_of left.1) (Allocator.ne_null_of behind.1)
    hkey most l t.fresh
  have leftmost : (t'.page t.fresh).hdr.leftmostPtr = p := here ▸ rfl
  have internal : (t'.page t.fresh).hdr.leftmostPtr ≠ 0 :=
    leftmost.symm ▸ Allocator.ne_null_of left.1
  rw [← here] at ok live
  have children : (t'.page t.fresh).children = [p, q] := by
    rw [Page.children_eq internal, live, leftmost]
    rfl
  have root : t'.PageAt least' rank t.fresh := by
    refine ⟨level.symm ▸ ok.unlinked, fun hsib => absurd (here ▸ rfl) hsib, ?_, ?_⟩
    · rw [level, hleast, Page.entries_eq internal, live, leftmost]
      intro e mem
      rcases List.mem_cons.mp mem with rfl | mem
      · exact left.extends ext
      · exact List.mem_singleton.mp mem ▸ behind.extends ext
    · rw [children]
      simpa using ne
  refine ⟨h.congr ext (fun _ _ _ _ => id) (fun x hx _ => ?_), ext, ?_, level⟩
  · rcases cases x hx with hx | rfl
    · exact Or.inl ⟨hx, others x hx⟩
    · exact Or.inr root
  · rintro c ⟨x, hx, mem⟩
    rcases cases x hx with hx | rfl
    · exact Or.inl ⟨x, hx, others x hx ▸ mem⟩
    · rw [children] at mem
      exact Or.inr (by simpa using mem)

end Linked

end BTree

end F3Tree
