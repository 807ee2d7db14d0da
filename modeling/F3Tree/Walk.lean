import F3Tree.Restart
import F3Tree.TreeStores

/-!
# Walks over leaves

A search of the next process walks the leaves from left to right.  What it needs of a leaf
is that `linear_search` sees the key or nothing there (`Page.Shows`), also while the leaf is
being written: the walk finds the key if a leaf has it and no leaf on the way begins beyond
it (`chain_walk`).
-/

namespace F3Tree

open Keyed Fuel Runs

namespace Page

/-- A leaf in which a search sees the key or nothing. -/
structure Shows (p : Page) (key : Int) : Prop where
  leaf : p.hdr.leftmostPtr = 0
  search : ∃ v, p.searchLeaf key = some v ∧ (v = 0 ∨ v = key)

def Finds (p : Page) (key : Int) : Prop := ∃ v ≠ 0, p.searchLeaf key = some v

end Page

section Shows

variable {p q a : Page} {key k : Int} {s : Entry} {next : Option Entry}

theorem PageOk.searchLeaf_eq (ok : PageOk p 0 s next) (key : Int) :
    p.searchLeaf key = some (if ∃ e ∈ p.live, e.key = key then key else 0) := by
  obtain ⟨z, rest, holds, second⟩ := ok.holds
  exact holds.searchLeaf_eq (ok.leaf rfl).2 second key

theorem PageOk.shows (ok : PageOk p 0 s next) (key : Int) : p.Shows key := by
  refine ⟨(ok.leaf rfl).1, _, ok.searchLeaf_eq key, ?_⟩
  split
  · exact Or.inr rfl
  · exact Or.inl rfl

theorem PageOk.finds_iff (ok : PageOk p 0 s next) :
    p.Finds key ↔ ∃ e ∈ p.live, e.key = key := by
  unfold Page.Finds
  rw [ok.searchLeaf_eq]
  by_cases has : ∃ e ∈ p.live, e.key = key
  · rw [if_pos has]
    refine iff_of_true ⟨key, ?_, rfl⟩ has
    obtain ⟨z, rest, holds, -⟩ := ok.holds
    obtain ⟨e, mem, rfl⟩ := has
    exact (ok.leaf rfl).2 e mem ▸ holds.live e mem
  · rw [if_neg has]
    refine iff_of_false ?_ has
    rintro ⟨v, ne, hv⟩
    exact ne (Option.some.inj hv).symm

/-- Two pages in which a search sees the same. -/
theorem Page.Shows.congr (shows : p.Shows key) (leaf : q.hdr.leftmostPtr = 0)
    (same : q.searchLeaf key = p.searchLeaf key) : q.Shows key :=
  ⟨leaf, same ▸ shows.search⟩

theorem Page.finds_congr (same : q.searchLeaf key = p.searchLeaf key) :
    q.Finds key ↔ p.Finds key := by
  unfold Page.Finds
  rw [same]

/-- `linear_search` in a leaf, whatever its sibling. -/
theorem Page.Shows.linearSearch (shows : p.Shows key) (t : BTree) :
    (p.Finds key → key ≠ 0 ∧ t.linearSearch p key = some key) ∧
    (¬ p.Finds key → t.linearSearch p key = some
      (if p.hdr.siblingPtr ≠ 0 ∧ (t.page p.hdr.siblingPtr).firstKey ≤ key then p.hdr.siblingPtr
      else 0)) := by
  obtain ⟨leaf, v, search, hv⟩ := shows
  unfold BTree.linearSearch
  rw [if_pos leaf, search]
  simp only [Option.bind_eq_bind, Option.bind_some]
  by_cases ne : v = 0
  · subst ne
    refine ⟨?_, fun _ => ?_⟩
    · rintro ⟨w, hw, heq⟩
      exact absurd (Option.some.inj (heq.symm.trans search)) hw
    · rw [if_neg (not_not.mpr rfl)]
      exact (apply_ite some _ _ _).symm
  · obtain rfl := hv.resolve_left ne
    refine ⟨fun _ => ⟨ne, ?_⟩, fun none => absurd ⟨v, ne, search⟩ none⟩
    rw [if_pos ne]
    rfl

end Shows

/-! ## A leaf that is being written -/

section Passing

variable {p q a : Page} {key k c : Int} {s : Entry} {next : Option Entry} {stores : List PageStore}
  {i : Nat} {es : List Entry}

/-- The leaf `q` between two stores of a call for the key `k`, which turns `p` into `a`. -/
structure Page.Passing (p a : Page) (k : Int) (q : Page) : Prop where
  shows : ∀ key, q.Shows key
  sibling : q.hdr.siblingPtr = p.hdr.siblingPtr
  finds : ∀ key, key ≠ k → (q.Finds key ↔ p.Finds key)
  firstKey : q.firstKey = p.firstKey ∨ q.firstKey = a.firstKey

/-- Stores to the records do not touch the pointers of the header. -/
theorem hdr_performs (p : Page) (stores : List PageStore) :
    (p.performs stores).hdr.leftmostPtr = p.hdr.leftmostPtr ∧
      (p.performs stores).hdr.siblingPtr = p.hdr.siblingPtr := by
  induction stores generalizing p with
  | nil => exact ⟨rfl, rfl⟩
  | cons s stores ih =>
      have here := ih (p.perform s)
      cases s with
      | _ => exact here

/-- Every store to `records[0].key` is one of `c`. -/
def FirstStored (c : Int) (stores : List PageStore) : Prop :=
  ∀ s ∈ stores, ∀ v, s = .key 0 v → v = c

theorem firstKey_perform {s : PageStore} (only : ∀ v, s = .key 0 v → v = c) :
    (p.perform s).firstKey = p.firstKey ∨ (p.perform s).firstKey = c := by
  unfold Page.firstKey Page.perform
  cases s with
  | switchCounter counter => exact Or.inl rfl
  | lastIndex n => exact Or.inl rfl
  | key i v =>
      cases i with
      | zero =>
          obtain rfl := only v rfl
          cases p.records with
          | nil => exact Or.inl rfl
          | cons e rest => exact Or.inr rfl
      | succ i => cases p.records <;> exact Or.inl rfl
  | ptr i v => cases p.records <;> cases i <;> exact Or.inl rfl

theorem firstKey_performs (only : FirstStored c stores) (here : p.firstKey = c) :
    (p.performs stores).firstKey = c := by
  induction stores generalizing p with
  | nil => exact here
  | cons s stores ih =>
      obtain ⟨first, rest⟩ := List.forall_mem_cons.mp only
      refine ih rest ?_
      rcases firstKey_perform first with same | new
      · exact same.trans here
      · exact new

/-- A page begins as before or as after the stores. -/
theorem firstKey_points (only : FirstStored c stores) : p.Throughout stores fun q =>
    q.firstKey = p.firstKey ∨ q.firstKey = (p.performs stores).firstKey := by
  induction stores generalizing p with
  | nil => exact atPoints_nil.mpr (Or.inl rfl)
  | cons s stores ih =>
      obtain ⟨first, rest⟩ := List.forall_mem_cons.mp only
      refine throughout_cons.mpr ⟨Or.inl rfl, fun before point => ?_⟩
      rcases firstKey_perform (p := p) first with same | new
      · rw [← same]
        exact ih rest before point
      · have sub : FirstStored c before := fun s mem => rest s (point.subset mem)
        exact Or.inr ((firstKey_performs sub new).trans (firstKey_performs rest new).symm)

theorem firstStored_insertKeyStores (p : Page) (key ptr : Int) (numEntries : Nat) :
    FirstStored key (p.insertKeyStores key ptr numEntries) := by
  have shift : ∀ (leftmost : Int) (n : Nat) (records : List Entry),
      FirstStored key (Page.shiftRightStores leftmost key ptr n records) := by
    intro leftmost n
    induction n with
    | zero => simp [Page.shiftRightStores, FirstStored, eq_comm]
    | succ n ih =>
        intro records
        rw [Page.shiftRightStores]
        split
        · exact List.forall_mem_cons.mpr ⟨by simp, List.forall_mem_cons.mpr ⟨by simp, ih _⟩⟩
        · simp [FirstStored]
  refine List.forall_mem_append.mpr ⟨List.forall_mem_append.mpr ⟨?_, ?_⟩, by simp⟩
  · split
    · simp
    · simp
  · unfold Page.recordStores
    split
    · simp [eq_comm]
    · exact List.forall_mem_cons.mpr ⟨by simp, shift _ _ _⟩

theorem firstStored_shiftLeftStores (records : List Entry) (i : Nat)
    (start : i = 0 → (records.getD 1 {}).key = c) :
    FirstStored c (Page.shiftLeftStores i records) := by
  induction records generalizing i with
  | nil => simp [Page.shiftLeftStores, FirstStored]
  | cons e records ih =>
      cases records with
      | nil => simp [Page.shiftLeftStores, FirstStored]
      | cons next records =>
          rw [Page.shiftLeftStores]
          split
          · simp [FirstStored]
          · refine List.forall_mem_cons.mpr ⟨?_, List.forall_mem_cons.mpr ⟨by simp, ?_⟩⟩
            · intro v heq
              obtain ⟨hi, rfl⟩ := PageStore.key.inj heq
              exact start hi
            · exact ih (i + 1) fun h => absurd h (Nat.succ_ne_zero i)

theorem firstStored_removeKeyStores (p : Page) (key : Int) :
    FirstStored (p.records.getD 1 {}).key (p.removeKeyStores key) := by
  have loop : ∀ (records : List Entry) (i : Nat) (prev : Int),
      (i = 0 → records.getD 1 {} = p.records.getD 1 {}) →
      FirstStored (p.records.getD 1 {}).key (Page.removeLoopStores key i prev records) := by
    intro records
    induction records with
    | nil => simp [Page.removeLoopStores, FirstStored]
    | cons e records ih =>
        intro i prev start
        rw [Page.removeLoopStores]
        split
        · simp [FirstStored]
        split
        · exact List.forall_mem_cons.mpr ⟨by simp, firstStored_shiftLeftStores _ i fun h =>
            congrArg Entry.key (start h)⟩
        · exact ih (i + 1) e.ptr fun h => absurd h (Nat.succ_ne_zero i)
  unfold Page.removeKeyStores
  dsimp only
  refine List.forall_mem_append.mpr ⟨List.forall_mem_append.mpr ⟨?_, ?_⟩, ?_⟩
  · split
    · simp
    · simp
  · exact loop p.records 0 _ fun _ => rfl
  · split
    · simp
    · simp

/-- Searches that no sibling takes part in. -/
theorem linearSearch_alone (leaf : q.hdr.leftmostPtr = 0) {t : BTree}
    (alone : ∀ x, key < (t.page x).firstKey) : t.linearSearch q key = q.searchLeaf key := by
  rw [BTree.linearSearch, if_pos leaf]
  cases q.searchLeaf key with
  | none => rfl
  | some ret =>
      simp only [Option.bind_eq_bind, Option.bind_some]
      by_cases ne : ret = 0
      · rw [if_neg (not_not.mpr ne), if_neg fun h => absurd (alone _) (not_lt.mpr h.2), ne]
        rfl
      · rw [if_pos ne]
        rfl

/-- A leaf that can be searched between the stores of a call. -/
theorem PageOk.passing (ok : PageOk p 0 s next) {next' : Option Entry} (ok' : PageOk a 0 s next')
    (made : p.performs stores = a) (only : FirstStored c stores)
    (searchable : ∀ t, p.Throughout stores (BTree.Searchable t p a k)) :
    p.Throughout stores (p.Passing a k) := by
  intro before point
  obtain ⟨leftmost, sibling⟩ := hdr_performs p before
  have leaf : (p.performs before).hdr.leftmostPtr = 0 := leftmost.trans (ok.leaf rfl).1
  have alone : ∀ key : Int, ∃ t : BTree, ∀ x, key < (t.page x).firstKey := fun key =>
    ⟨{ BTree.empty (.bump 0) with page := fun _ => { hdr := {}, records := [⟨key + 1, 0⟩] } },
      fun _ => Int.lt_succ key⟩
  refine ⟨fun key => ?_, sibling, fun key ne => ?_, made ▸ firstKey_points only before point⟩
  · obtain ⟨t, free⟩ := alone key
    rcases (searchable t before point).either key with same | same
    · rw [linearSearch_alone leaf free, linearSearch_alone (ok.leaf rfl).1 free] at same
      exact (ok.shows key).congr leaf same
    · rw [linearSearch_alone leaf free, linearSearch_alone (ok'.leaf rfl).1 free] at same
      exact (ok'.shows key).congr leaf same
  · obtain ⟨t, free⟩ := alone key
    have still : ¬ p.Moves k key := by
      rw [Page.Moves, if_pos (ok.leaf rfl).1]
      exact ne
    obtain ⟨same, -⟩ := (searchable t before point).others key still
    rw [linearSearch_alone leaf free, linearSearch_alone (ok.leaf rfl).1 free] at same
    exact Page.finds_congr same

/-- A leaf answers the same in either direction. -/
theorem PageOk.linearSearch_turned (ok : PageOk p 0 s next) (t : BTree) (d : UInt8) (key : Int) :
    t.linearSearch (p.turned d) key = t.linearSearch p key := by
  have same : (p.turned d).searchLeaf key = p.searchLeaf key :=
    ((ok.turned d).searchLeaf_eq key).trans (ok.searchLeaf_eq key).symm
  obtain ⟨leaf, -⟩ := ok.leaf rfl
  rw [BTree.linearSearch, BTree.linearSearch, if_pos (by exact leaf), if_pos leaf, same]
  rfl

/-- An insertion into a leaf without the key. -/
theorem PageOk.passing_insert (ok : PageOk p 0 s next) (room : p.live.length < cardinality - 1)
    (nodup : (p.live.map Entry.key).Nodup) (ne : k ≠ 0) (absent : ∀ e ∈ p.live, e.key ≠ k)
    (ok' : PageOk (p.insertKey k k p.live.length).1 0 s next) :
    p.Throughout (p.insertKeyStores k k p.live.length)
      (p.Passing (p.insertKey k k p.live.length).1 k) := by
  obtain ⟨leaf, values⟩ := ok.leaf rfl
  obtain ⟨z, rest, holds, -⟩ := ok.holds
  refine ok.passing ok' (performs_insertKeyStores ..) (firstStored_insertKeyStores p k k _)
    fun t => ?_
  refine ok.searchable_insert ?_ (ok.linearSearch_turned t) room k ⟨ne, leaf ▸ ne, ?_⟩
  · exact nodup_leaf leaf holds.live ((List.map_congr_left values).symm ▸ nodup)
  · exact fun e mem => values e mem ▸ absent e mem

/-- A removal from a leaf with the key. -/
theorem PageOk.passing_remove (ok : PageOk p 0 s next) (nodup : (p.live.map Entry.key).Nodup)
    (has : ∃ e ∈ p.live, e.key = k) (removed : p.removeKey k = some (a, true)) :
    p.Throughout (p.removeKeyStores k) (p.Passing a k) := by
  obtain ⟨a', _, _, _, removed', ok', -⟩ := ok.removeKey_mem has
  obtain ⟨rfl, -⟩ := Prod.mk.inj (Option.some.inj (removed'.symm.trans removed))
  exact ok.passing ok' (performs_removeKeyStores removed) (firstStored_removeKeyStores p k) fun t =>
    ok.searchable_remove nodup (ok.linearSearch_turned t) has removed

end Passing

namespace BTree

section Chain

variable {t : BTree} {key last x : Int} {xs ys : List Int}

/-- Pages that point to each other, the last of them to `last`. -/
def Chain (t : BTree) (last : Int) : List Int → Prop
  | [] => True
  | x :: xs => (t.page x).hdr.siblingPtr = xs.headD last ∧ Chain t last xs

theorem chain_append : t.Chain last (xs ++ ys) ↔ t.Chain (ys.headD last) xs ∧ t.Chain last ys := by
  induction xs with
  | nil => exact (and_iff_right trivial).symm
  | cons x xs ih =>
      rw [List.cons_append, Chain, Chain, ih, and_assoc]
      cases xs with
      | nil => rfl
      | cons x' xs => rfl

theorem Chain.congr {t' : BTree} (chain : t.Chain last xs)
    (pages : ∀ x ∈ xs, t'.page x = t.page x) : t'.Chain last xs := by
  induction xs with
  | nil => trivial
  | cons x xs ih =>
      obtain ⟨here, rest⟩ := List.forall_mem_cons.mp pages
      exact ⟨here ▸ chain.1, ih chain.2 rest⟩

/-- A walk from the leaf `x` to the right. -/
theorem chain_walk (shows : ∀ y ∈ x :: xs, (t.page y).Shows key) (chain : t.Chain 0 (x :: xs))
    (ne : ∀ y ∈ xs, y ≠ 0)
    (apart : (∃ y ∈ x :: xs, (t.page y).Finds key) → ∀ y ∈ xs, key ≠ y) :
    ∃ r, Returns (fun fuel => t.chase key fuel x) r ∧
      (r.2 ≠ 0 → ∃ y ∈ x :: xs, (t.page y).Finds key) ∧
      ((∃ y ∈ x :: xs, (t.page y).Finds key) →
        (∀ front z back, xs = front ++ z :: back → (∃ y ∈ z :: back, (t.page y).Finds key) →
          (t.page z).firstKey ≤ key) → r.2 ≠ 0) := by
  induction xs generalizing x with
  | nil =>
      obtain ⟨found, lost⟩ := (shows x List.mem_cons_self).linearSearch t
      have sib : (t.page x).hdr.siblingPtr = 0 := chain.1
      by_cases here : (t.page x).Finds key
      · obtain ⟨ne, search⟩ := found here
        have ends : t.chase key 1 x = some (x, key) := by
          rw [chase, search]
          exact if_neg (sib ▸ ne)
        exact ⟨_, ⟨1, ends⟩, fun _ => ⟨x, List.mem_cons_self, here⟩, fun _ _ => ne⟩
      · have ends : t.chase key 1 x = some (0, 0) := by
          rw [chase, lost here, if_neg fun h => h.1 sib]
          simp only [Option.bind_eq_bind, Option.bind_some]
          rw [if_pos sib.symm, if_pos trivial]
          rfl
        refine ⟨_, ⟨1, ends⟩, fun ne => absurd rfl ne, fun some => ?_⟩
        obtain ⟨y, mem, finds⟩ := some
        exact absurd (List.mem_singleton.mp mem ▸ finds) here
  | cons y ys ih =>
      obtain ⟨found, lost⟩ := (shows x List.mem_cons_self).linearSearch t
      have sib : (t.page x).hdr.siblingPtr = y := chain.1
      obtain ⟨hy, ne⟩ := List.forall_mem_cons.mp ne
      by_cases here : (t.page x).Finds key
      · obtain ⟨hkey, search⟩ := found here
        have other := apart ⟨x, List.mem_cons_self, here⟩ y List.mem_cons_self
        have ends : t.chase key 1 x = some (x, key) := by
          rw [chase, search]
          exact if_neg (sib ▸ other)
        exact ⟨_, ⟨1, ends⟩, fun _ => ⟨x, List.mem_cons_self, here⟩, fun _ _ => hkey⟩
      have behind : (∃ z ∈ x :: y :: ys, (t.page z).Finds key) →
          ∃ z ∈ y :: ys, (t.page z).Finds key := by
        rintro ⟨z, mem, finds⟩
        rcases List.mem_cons.mp mem with rfl | mem
        · exact absurd finds here
        · exact ⟨z, mem, finds⟩
      by_cases le : (t.page y).firstKey ≤ key
      · obtain ⟨r, ⟨fuel, hr⟩, only, reaches⟩ :=
          ih (fun z mem => shows z (List.mem_cons_of_mem _ mem)) chain.2 ne fun some z mem => by
            obtain ⟨w, hw, finds⟩ := some
            exact apart ⟨w, List.mem_cons_of_mem _ hw, finds⟩ z (List.mem_cons_of_mem _ mem)
        have on : t.chase key (fuel + 1) x = t.chase key fuel y := by
          rw [chase, lost here, sib, if_pos ⟨hy, le⟩]
          simp only [Option.bind_eq_bind, Option.bind_some]
          rw [if_pos trivial, if_neg hy]
        refine ⟨r, ⟨fuel + 1, on.trans hr⟩, fun some => ?_, fun some early => ?_⟩
        · obtain ⟨z, mem, finds⟩ := only some
          exact ⟨z, List.mem_cons_of_mem _ mem, finds⟩
        · refine reaches (behind some) fun front z back split => ?_
          exact early (y :: front) z back (congrArg (y :: ·) split)
      · have ends : t.chase key 1 x = some (x, 0) := by
          rw [chase, lost here, sib, if_neg fun h => le h.2]
          simp only [Option.bind_eq_bind, Option.bind_some]
          rw [if_neg hy.symm]
          rfl
        refine ⟨_, ⟨1, ends⟩, fun ne => absurd rfl ne, fun some early => ?_⟩
        exact absurd (early [] y ys rfl (behind some)) le

/-- The answer of the next process. -/
theorem chain_answers (root : t.rootRef.rootPage = x)
    (shows : ∀ y ∈ x :: xs, (t.page y).Shows key) (chain : t.Chain 0 (x :: xs))
    (ne : ∀ y ∈ xs, y ≠ 0)
    (apart : (∃ y ∈ x :: xs, (t.page y).Finds key) → ∀ y ∈ xs, key ≠ y) :
    ∃ found, t.reopen.Answers key found ∧ (found → ∃ y ∈ x :: xs, (t.page y).Finds key) ∧
      ((∃ y ∈ x :: xs, (t.page y).Finds key) →
        (∀ front z back, xs = front ++ z :: back → (∃ y ∈ z :: back, (t.page y).Finds key) →
          (t.page z).firstKey ≤ key) → found) := by
  obtain ⟨r, walk, only, reaches⟩ := chain_walk shows chain ne apart
  have stops : t.reopen.descend aboveLeaves key 1 t.reopen.root = some x := by
    have start : t.reopen.root = x := root
    rw [start]
    refine if_neg fun above => ?_
    exact of_decide_eq_true above (shows x List.mem_cons_self).leaf
  have walks : Returns (fun fuel => t.reopen.chase key fuel x) r := by
    simp only [chase_reopen]
    exact walk
  obtain ⟨fuel, hdescend, hwalk⟩ :=
    Returns.both (steady_descend _ _ _ _) (steady_chase _ _ _) ⟨1, stops⟩ walks
  refine ⟨r.2 ≠ 0, ⟨r.2, ⟨fuel, ?_⟩, Iff.rfl⟩, only, reaches⟩
  rw [btreeSearch, hdescend]
  simp only [Option.bind_eq_bind, Option.bind_some, hwalk]
  rfl

end Chain

end BTree

end F3Tree
