import F3Tree.Shares
import F3Tree.Tidy

/-!
# Separators in the parent

What a rebalancing does one row up: `btree_delete_internal` comes to the parent of a page,
where it finds that the page is the leftmost child, or takes away the separator in front of
it (`ThinRows.deletes_separator`); `btree_insert_internal` puts a separator into a page with
room (`ThinRows.inserts_separator`).  The row then holds one slot less, or one more.
-/

namespace F3Tree

open Keyed Fuel

namespace BTree

theorem separatorOf_eq {e : Entry} (rest : List Entry) (front : List Entry) :
    ∀ prev : Int, (∀ e' ∈ front ++ [e], e'.ptr ≠ 0) →
      (prev :: (front ++ [e]).map Entry.ptr).Nodup →
      separatorOf e.ptr prev (front ++ e :: rest) =
        some (some (e.key, Page.childOf prev front)) := by
  induction front with
  | nil =>
      intro prev live nodup
      have ne : prev ≠ e.ptr := fun same => by simp [same] at nodup
      rw [List.nil_append, separatorOf, if_neg (live e (by simp)), if_pos ⟨rfl, ne⟩]
      rfl
  | cons e' front ih =>
      intro prev live nodup
      rw [List.cons_append] at live nodup
      obtain ⟨he', live⟩ := List.forall_mem_cons.mp live
      obtain ⟨-, nodup⟩ := List.nodup_cons.mp nodup
      have ne : e'.ptr ≠ e.ptr := fun same => by simp [same] at nodup
      rw [List.cons_append, separatorOf, if_neg he', if_neg fun h => ne h.1, ih _ live nodup,
        Page.childOf_cons]

section Separators

variable {t : BTree} {n l : Nat} {key right : Int} {row before after front back : List Entry}
  {s e : Entry}

/-- The children of a page over the row are distinct. -/
theorem ThinRow.nodup_children (h : t.ThinRow (l + 1) row none)
    (nodup : ((t.contents row).map Entry.ptr).Nodup) (mem : s ∈ row) :
    ((t.page s.ptr).hdr.leftmostPtr :: (t.page s.ptr).live.map Entry.ptr).Nodup := by
  obtain ⟨before, after, rfl⟩ := List.append_of_mem mem
  obtain ⟨-, ⟨ok, -⟩, -⟩ := thinRow_split.mp h
  have entries : (t.page s.ptr).entries s.key =
      ⟨s.key, (t.page s.ptr).hdr.leftmostPtr⟩ :: (t.page s.ptr).live :=
    if_neg (ok.internal (Nat.succ_pos l))
  rw [contents, List.flatMap_append, List.flatMap_cons, entries, List.map_append,
    List.map_append] at nodup
  exact (List.nodup_append.mp (List.nodup_append.mp nodup).2.1).1

/-- The page is the leftmost child of its parent. -/
theorem ThinRows.finds_leftmost (h : t.ThinRows n l row) (hkey : longMin ≤ key)
    (home : Cut Entry.key key row (before ++ [s]) after) :
    Returns (t.btreeDeleteInternal key (t.page s.ptr).hdr.leftmostPtr l)
      (t, { isLeftmostNode := true }) := by
  obtain ⟨fuel, hdescend⟩ := h.descends_level hkey home
  have level : ¬ l > (t.page t.root).hdr.level := by
    rw [h.root]
    omega
  dsimp only at hdescend
  refine ⟨fuel, ?_⟩
  rw [btreeDeleteInternal, if_neg level, hdescend]
  exact if_pos rfl

/-- The separator in front of a page is taken from its parent. -/
theorem ThinRows.deletes_separator (h : t.ThinRows n (l + 1) row)
    (nodup : ((t.contents row).map Entry.ptr).Nodup) (hkey : longMin ≤ key)
    (home : Cut Entry.key key row (before ++ [s]) after)
    (hlive : (t.page s.ptr).live = front ++ e :: back) (first : ∀ e' ∈ front, e'.key ≠ e.key) :
    let left := Page.childOf (t.page s.ptr).hdr.leftmostPtr front
    ∃ p, Returns (t.btreeDeleteInternal key e.ptr (l + 1))
        (t.write s.ptr p, { deletedKey := e.key, leftSibling := left }) ∧
      PageThin p (l + 1) s after.head? ∧ p.live = front ++ back ∧
      p.entries s.key = ⟨s.key, (t.page s.ptr).hdr.leftmostPtr⟩ :: (front ++ back) := by
  intro left
  obtain ⟨fuel, hdescend⟩ := h.descends_level hkey home
  obtain ⟨-, ⟨thin, -⟩, -⟩ := thinRow_split.mp (home.split ▸ h.isRow)
  have mem : s ∈ row := home.split ▸ by simp
  have children := h.isRow.nodup_children nodup mem
  obtain ⟨z, rest, holds, -⟩ := thin.holds
  have live := holds.live
  rw [hlive] at children live
  have notLeftmost : (t.page s.ptr).hdr.leftmostPtr ≠ e.ptr := fun same => by
    simp [same] at children
  have search : separatorOf e.ptr (t.page s.ptr).hdr.leftmostPtr (t.page s.ptr).records =
      some (some (e.key, left)) := by
    have sub : (front ++ [e]).Sublist (front ++ e :: back) := by simp
    rw [holds.records, hlive, List.append_assoc, List.cons_append]
    exact separatorOf_eq _ front _ (fun e' mem => live e' (sub.mem mem))
      (children.sublist ((sub.map _).cons_cons _))
  have has : ∃ e' ∈ (t.page s.ptr).live, e'.key = e.key := ⟨e, hlive ▸ by simp, rfl⟩
  obtain ⟨p, front', e', back', removed, thin', hlive', first', hkey', remains⟩ :=
    thin.removeKey_mem has
  obtain ⟨rfl, rfl, rfl⟩ := first_unique (hlive'.symm.trans hlive) first'
    fun e₁ mem => (first e₁ mem).trans_eq hkey'.symm
  have level : ¬ l + 1 > (t.page t.root).hdr.level := by
    rw [h.root]
    omega
  have leftmost : p.hdr.leftmostPtr = (t.page s.ptr).hdr.leftmostPtr :=
    (congrArg Header.leftmostPtr (Page.hdr_removeKey removed)).trans rfl
  refine ⟨p, ⟨fuel, ?_⟩, thin', remains, ?_⟩
  · dsimp only at hdescend
    rw [btreeDeleteInternal, if_neg level, hdescend]
    simp only [Option.bind_eq_bind, Option.bind_some]
    rw [if_neg notLeftmost, search]
    simp only [Option.bind_some, remove, removed]
    rfl
  · rw [Page.entries, leftmost, remains, if_neg (thin.internal (Nat.succ_pos l))]

/-- A separator goes into a page with room. -/
theorem ThinRows.inserts_separator (h : t.ThinRows n (l + 1) row)
    (nodup : (row.map Entry.ptr).Nodup) (hkey : longMin ≤ key) (most : key ≤ longMax)
    (hright : right ≠ 0) (home : Cut Entry.key key row (before ++ [s]) after)
    (room : (t.page s.ptr).live.length < cardinality - 1) :
    ∃ p, Returns (fun fuel => btreeInsertInternal fuel t key right (l + 1)) (t.write s.ptr p) ∧
      (t.write s.ptr p).ThinRow (l + 1) row none ∧
      Keeps t (t.write s.ptr p) (fun p => p.hdr.level ≠ l + 1) ∧
      Inserted Entry.key ⟨key, right⟩ (t.contents row) ((t.write s.ptr p).contents row) := by
  obtain ⟨-, ⟨thin, alloc⟩, -⟩ := thinRow_split.mp (home.split ▸ h.isRow)
  have lt : ∀ x ∈ after.head?, key < x.key := fun x hx => home.lt x (List.mem_of_mem_head? hx)
  have value : l + 1 = 0 → right = key := fun hl => absurd hl (Nat.succ_ne_zero l)
  have thin' := (thin.insertKey room home.last_le most lt hright value).1
  have ins := thin.entries_insertKey room home.last_le most lt hright value
  have stored := (h.isRow.store_eq home right 0).trans (if_pos room)
  obtain ⟨isRow, keeps, others, -⟩ := h.isRow.write nodup home.split thin'
  obtain ⟨left, behind⟩ := List.forall_mem_append.mp others
  refine ⟨_, h.btreeInsertInternal_returns hkey home ⟨1, stored⟩ (Allocator.ne_null_of alloc),
    isRow, keeps, ?_⟩
  have here : (t.write s.ptr ((t.page s.ptr).insertKey key right (t.page s.ptr).live.length).1).page
      s.ptr = ((t.page s.ptr).insertKey key right (t.page s.ptr).live.length).1 :=
    Function.update_self ..
  have gained := h.isRow.inserted home [s] left behind (by
    rw [contents, List.flatMap_singleton, here]
    exact ins)
  rwa [List.singleton_append, ← home.split] at gained

end Separators

end BTree

end F3Tree
