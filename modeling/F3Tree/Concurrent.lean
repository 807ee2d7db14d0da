import F3Tree.Midway

/-!
# No insertion is lost between threads

Whatever the interleaving, every key whose call has come past its leaf is in that leaf, and
no other key is (`Sound`), while the separators of some pages may still be on their way.  So
when all calls have returned the leaves have exactly the keys inserted, in order, and the
searches find them (`losesNothing_iff`) — but for a key that is the address of the leaf
behind its own, which a search takes for the step to that leaf.
-/

namespace F3Tree

open Keyed Fuel

namespace BTree

/-- A leaf has the key, and the key is the address of the leaf to its right. -/
def TakenForSibling (t : BTree) (key : Int) : Prop :=
  ∃ p, t.Allocated p ∧ (t.page p).hdr.leftmostPtr = 0 ∧
    (∃ e ∈ (t.page p).live, e.key = key) ∧ key = (t.page p).hdr.siblingPtr

/-- Searches find the keys and no others, and the leaf chain lists them in order. -/
def LosesNothing (t : BTree) (keys : List Int) : Prop :=
  (∀ key, longMin ≤ key → key ≤ longMax → t.Answers key (key ∈ keys)) ∧
    ∃ chain, Returns t.leafChain chain ∧ chain.Pairwise (· < ·) ∧ ∀ k, k ∈ chain ↔ k ∈ keys

section Pages

variable {t : BTree} {least : Int → Int} {rank : Int → Nat} {row before after : List Entry}
  {s : Entry} {p key : Int}

theorem Covers.leaf (covers : t.Covers least p key) (hl : (t.page p).hdr.level = 0) :
    least p ≤ key :=
  covers.resolve_right fun hpos => absurd hl hpos.1.ne'

/-- A descent ends at a leaf that is not too far to the right. -/
theorem Pages.descends (h : t.Pages least rank row) (hp : t.Allocated p)
    (covers : t.Covers least p key) :
    ∃ q, Returns (fun fuel => t.descend aboveLeaves key fuel p) q ∧ t.Allocated q ∧
      (t.page q).hdr.level = 0 ∧ least q ≤ key := by
  induction hl : (t.page p).hdr.level using Nat.strong_induction_on generalizing p with
  | _ l down =>
  induction hr : rank p using Nat.strong_induction_on generalizing p with
  | _ r along =>
  obtain ⟨-, -, -, above⟩ := h.page hp
  rcases Nat.eq_zero_or_pos l with rfl | hpos
  · have stops : ¬ aboveLeaves (t.page p) = true := fun hmore =>
      absurd (above.mp hmore) hl.le.not_gt
    exact ⟨p, ⟨1, if_neg stops⟩, hp, hl, covers.leaf hl⟩
  · obtain ⟨q, step, hq, hleq, next⟩ := h.linked.linearSearch hp (hl ▸ hpos) covers
    have rest : ∃ x, Returns (fun fuel => t.descend aboveLeaves key fuel q) x ∧ t.Allocated x ∧
        (t.page x).hdr.level = 0 ∧ least x ≤ key := by
      rcases next with ⟨hlevel, hrank⟩ | hlevel
      · exact along (rank q) (hr ▸ hrank) hq hleq (hlevel.trans hl) rfl
      · exact down (t.page q).hdr.level (by omega) hq hleq rfl
    obtain ⟨x, ⟨fuel, hx⟩, leaf⟩ := rest
    refine ⟨x, ⟨fuel + 1, ?_⟩, leaf⟩
    dsimp only at hx ⊢
    rw [descend, if_pos (above.mpr (hl ▸ hpos)), step]
    exact hx

/-- A search finds the key if the leaves have it, unless it is taken for an address. -/
theorem Pages.btreeSearch (h : t.Pages least rank row) (hroot : least t.root = longMin)
    (hkey : longMin ≤ key) (home : Cut Entry.key key row (before ++ [s]) after) :
    Returns (t.btreeSearch key)
      (if t.Has s key ∧ key ≠ (t.page s.ptr).hdr.siblingPtr then key else 0) := by
  obtain ⟨q, hdescend, hq, hlevel, hle⟩ := h.descends h.root (Or.inl (hroot ▸ hkey))
  obtain ⟨x, mem, rfl⟩ := h.leaves.all q hq hlevel
  obtain ⟨left, right, hrow⟩ := List.append_of_mem mem
  obtain ⟨y, hchase⟩ := h.leaves.chase home hrow (h.leaves.slot x mem ▸ hle)
  obtain ⟨fuel, hdescend, hchase⟩ :=
    hdescend.both (steady_descend _ _ _ _) (steady_chase _ _ _) hchase
  refine ⟨fuel, ?_⟩
  rw [BTree.btreeSearch, hdescend]
  simp only [Option.bind_eq_bind, Option.bind_some, hchase]
  rfl

theorem Pages.takenForSibling_iff (h : t.Pages least rank row)
    (home : Cut Entry.key key row (before ++ [s]) after) (has : t.Has s key) :
    t.TakenForSibling key ↔ key = (t.page s.ptr).hdr.siblingPtr := by
  have hs : s ∈ row := home.split ▸ by simp
  obtain ⟨_, ok, alloc⟩ := h.leaves.isRow.pageOk hs
  constructor
  · rintro ⟨p, hp, leftmost, has', same⟩
    obtain ⟨-, -, -, above⟩ := h.page hp
    have hlevel : (t.page p).hdr.level = 0 := Nat.eq_zero_of_not_pos fun hpos =>
      of_decide_eq_true (above.mpr hpos) leftmost
    obtain ⟨x, hx, rfl⟩ := h.leaves.all p hp hlevel
    rwa [← h.leaves.single.leaf_unique h.leaves.isRow hs hx has has']
  · exact fun same => ⟨s.ptr, alloc, (ok.leaf rfl).1, has, same⟩

theorem Pages.answers_iff (h : t.Pages least rank row) (hroot : least t.root = longMin)
    (hkey : longMin ≤ key) (found : Prop) :
    t.Answers key found ↔ (t.Held key row ∧ ¬ t.TakenForSibling key ↔ found) := by
  obtain ⟨before, s, after, home⟩ := h.leaves.exists_home hkey
  have returns := h.btreeSearch hroot hkey home
  have answer : t.Has s key ∧ key ≠ (t.page s.ptr).hdr.siblingPtr ↔
      t.Held key row ∧ ¬ t.TakenForSibling key := by
    rw [held_iff home]
    exact and_congr_right fun has => not_congr (h.takenForSibling_iff home has).symm
  have found_iff : ∀ v, Returns (t.btreeSearch key) v →
      (v ≠ 0 ↔ t.Held key row ∧ ¬ t.TakenForSibling key) := by
    intro v hv
    obtain rfl := (steady_btreeSearch t key).unique hv returns
    rw [← answer]
    split
    · rename_i has
      exact iff_of_true (h.leaves.isRow.ne_zero (home.split ▸ by simp) has.1) has
    · rename_i has
      exact iff_of_false (not_not.mpr rfl) has
  constructor
  · rintro ⟨v, hv, hfound⟩
    exact (found_iff v hv).symm.trans hfound
  · exact fun hfound => ⟨_, returns, (found_iff _ returns).trans hfound⟩

theorem Pages.leftmostLeaf (h : t.Pages least rank row) (hp : t.Allocated p)
    (hleast : least p = longMin) :
    ∃ q, Returns (fun fuel => t.leftmostLeaf fuel p) q ∧ t.Allocated q ∧
      (t.page q).hdr.level = 0 ∧ least q = longMin := by
  induction hl : (t.page p).hdr.level generalizing p with
  | zero =>
      obtain ⟨_, _, -, -, ok⟩ := h.leaf hp hl
      exact ⟨p, ⟨1, if_pos (ok.leaf rfl).1⟩, hp, hl, hleast⟩
  | succ l ih =>
      have hpos : 0 < (t.page p).hdr.level := hl ▸ Nat.succ_pos l
      have at' := h.linked p hp hpos
      have internal : (t.page p).hdr.leftmostPtr ≠ 0 := (at'.ok.internal hpos).1
      obtain ⟨alloc, hlevel, hkey⟩ := at'.child ⟨least p, (t.page p).hdr.leftmostPtr⟩ (by
        rw [Page.entries_eq internal]
        exact List.mem_cons_self)
      rw [hl] at hlevel
      obtain ⟨q, ⟨fuel, hq⟩, leaf⟩ := ih alloc (hkey.trans hleast) (Nat.succ_inj.mp hlevel)
      refine ⟨q, ⟨fuel + 1, ?_⟩, leaf⟩
      dsimp only at hq ⊢
      rw [BTree.leftmostLeaf, if_neg internal]
      exact hq

/-- The leaf chain lists what the leaves hold. -/
theorem Pages.leafChain (h : t.Pages least rank row) (hroot : least t.root = longMin) :
    Returns t.leafChain ((t.contents row).map Entry.key) := by
  obtain ⟨q, hleftmost, hq, hlevel, hleast⟩ := h.leftmostLeaf h.root hroot
  obtain ⟨x, mem, rfl⟩ := h.leaves.all q hq hlevel
  obtain ⟨before, after, hrow⟩ := List.append_of_mem mem
  have first : before = [] := by
    rcases List.eq_nil_or_concat before with rfl | ⟨init, y, rfl⟩
    · rfl
    · rw [List.concat_eq_append] at hrow
      have split : row = init ++ y :: x :: after := by simp [hrow]
      have hy : y ∈ row := split ▸ by simp
      have lt := (h.leaves.cut split).lt x List.mem_cons_self
      rw [← h.leaves.slot x mem, hleast] at lt
      exact absurd (h.leaves.bound hy) (not_le.mpr lt)
  subst first
  have hchain := h.leaves.isRow.chainKeys hrow
  rw [List.nil_append] at hrow
  rw [← hrow] at hchain
  obtain ⟨fuel, hleftmost, hchain⟩ :=
    hleftmost.both (steady_leftmostLeaf _ _) (steady_chainKeys _ _) hchain
  refine ⟨fuel, ?_⟩
  rw [BTree.leafChain, hleftmost]
  exact hchain

theorem Pages.losesNothing_iff_apart (h : t.Pages least rank row) (hroot : least t.root = longMin)
    {keys : List Int} (held : ∀ k, t.Held k row ↔ k ∈ keys) (treeKeys : ∀ k ∈ keys, TreeKey k) :
    t.LosesNothing keys ↔ ∀ k ∈ keys, ¬ t.TakenForSibling k := by
  have ordered : ((t.contents row).map Entry.key).Pairwise (· ≤ ·) :=
    List.pairwise_map.mpr h.leaves.isRow.ordered_contents
  have strict : ((t.contents row).map Entry.key).Pairwise (· < ·) :=
    (ordered.and h.leaves.single.nodup).imp fun ⟨hle, ne⟩ => lt_of_le_of_ne hle ne
  have listed : ∀ k, k ∈ (t.contents row).map Entry.key ↔ k ∈ keys := fun k => by
    rw [← held, h.leaves.single.held_iff h.leaves.isRow, List.mem_map]
  constructor
  · rintro ⟨answers, -⟩ k mem
    have answer := (h.answers_iff hroot (treeKeys k mem).1 _).mp
      (answers k (treeKeys k mem).1 (treeKeys k mem).2.1)
    exact (answer.mpr mem).2
  · refine fun apart => ⟨fun k hmin _ => (h.answers_iff hroot hmin _).mpr ?_, _,
      h.leafChain hroot, strict, listed⟩
    rw [held]
    exact and_iff_left_of_imp (apart k)

end Pages

end BTree

/-! ## Where a thread may stand -/

namespace Insertion

variable {t : BTree} {least : Int → Int} {row : List Entry} {i : Insertion}

theorem Ready.bound (ready : i.Ready t least row) : longMin ≤ i.key := by
  cases i with
  | btreeInsert key right => exact ready.1.1
  | btreeInsertInternal key right level => exact ready.2.1.1

theorem Ready.level_le (ready : i.Ready t least row) : i.level ≤ (t.page t.root).hdr.level := by
  cases i with
  | btreeInsert key right => exact Nat.zero_le _
  | btreeInsertInternal key right level => exact ready.2.2.1

theorem Ready.not_tooHigh (ready : i.Ready t least row) : i.tooHigh t = false := by
  cases i with
  | btreeInsert key right => rfl
  | btreeInsertInternal key right level => exact decide_eq_false (not_lt.mpr ready.level_le)

end Insertion

namespace InsertPhase

/-- The insertion that the thread has to complete. -/
def insertion : InsertPhase → Option Insertion
  | idle => none
  | called i => some i
  | entered i => some i
  | descending i _ => some i
  | storing i _ => some i
  | hopping i _ => some i

theorem exists_insertion (phase : InsertPhase) (busy : phase ≠ .idle) :
    ∃ i, phase.insertion = some i := by
  cases phase with
  | idle => exact absurd rfl busy
  | called i => exact ⟨i, rfl⟩
  | entered i => exact ⟨i, rfl⟩
  | descending i p => exact ⟨i, rfl⟩
  | storing i p => exact ⟨i, rfl⟩
  | hopping i p => exact ⟨i, rfl⟩

/-- A thread has not come below the level of its record, nor to the right of the leaf; above
the leaves it may store anywhere. -/
def Stands (t : BTree) (least : Int → Int) (row : List Entry) : InsertPhase → Prop
  | idle => True
  | called i => i.Ready t least row
  | entered i => i.Ready t least row
  | descending i p => i.Ready t least row ∧ t.Allocated p ∧ i.level ≤ (t.page p).hdr.level ∧
      t.Covers least p i.key
  | storing i p => i.Ready t least row ∧ t.Allocated p ∧ (t.page p).hdr.level = i.level ∧
      (i.level = 0 → least p ≤ i.key)
  | hopping i p => i.Ready t least row ∧ t.Allocated p ∧ (t.page p).hdr.level = i.level ∧
      (t.page p).hdr.siblingPtr ≠ 0 ∧ (i.level = 0 → least (t.page p).hdr.siblingPtr ≤ i.key)

variable {t : BTree} {least : Int → Int} {row : List Entry} {phase : InsertPhase} {i : Insertion}

theorem Stands.ready (stands : phase.Stands t least row) (hi : phase.insertion = some i) :
    i.Ready t least row := by
  cases phase with
  | idle => cases hi
  | called j => exact Option.some.inj hi ▸ stands
  | entered j => exact Option.some.inj hi ▸ stands
  | descending j p => exact Option.some.inj hi ▸ stands.1
  | storing j p => exact Option.some.inj hi ▸ stands.1
  | hopping j p => exact Option.some.inj hi ▸ stands.1

end InsertPhase

namespace BTree

section Midway

variable {t t' : BTree} {least least' : Int → Int} {rank : Int → Nat} {row row' : List Entry}
  {phase : InsertPhase} {i : Insertion} {p : Int}

/-- The other threads stand where they stood. -/
theorem Takes.stands (takes : Takes t t' least least' row row' i) (ready : i.Ready t least row)
    (stands : phase.Stands t least row) (ne : phase.insertion ≠ some i) :
    phase.Stands t' least' row' := by
  have other : ∀ j, phase.insertion = some j → j.Ready t' least' row' := fun j hj =>
    takes.ready ready (stands.ready hj) fun heq => ne (heq ▸ hj)
  cases phase with
  | idle => trivial
  | called j => exact other j rfl
  | entered j => exact other j rfl
  | descending j p =>
      obtain ⟨-, hp, hlevel, covers⟩ := stands
      exact ⟨other j rfl, takes.ext.allocated p hp, takes.ext.level p hp ▸ hlevel,
        covers.extends hp takes.ext⟩
  | storing j p =>
      obtain ⟨-, hp, hlevel, hle⟩ := stands
      exact ⟨other j rfl, takes.ext.allocated p hp, (takes.ext.level p hp).trans hlevel,
        takes.ext.least p hp ▸ hle⟩
  | hopping j p =>
      obtain ⟨-, hp, hlevel, hsib, hle⟩ := stands
      obtain ⟨hsib', hle'⟩ := takes.next p hp hsib
      exact ⟨other j rfl, takes.ext.allocated p hp, (takes.ext.level p hp).trans hlevel, hsib',
        fun leaf => (hle' (hlevel.trans leaf)).trans (hle leaf)⟩

theorem Pages.more_iff (h : t.Pages least rank row) (hp : t.Allocated p) :
    i.more (t.page p) = true ↔ i.level < (t.page p).hdr.level := by
  cases i with
  | btreeInsert key right => exact (h.page hp).2.2.2
  | btreeInsertInternal key right level => exact decide_eq_true_iff

/-- A step of a thread leaves the tree as it is, or completes the insertion and leaves at
most that of a new page. -/
def Advances (t : BTree) (least : Int → Int) (row : List Entry) (i : Insertion)
    (t' : BTree) (phase' : InsertPhase) : Prop :=
  (t' = t ∧ phase'.insertion = some i ∧ phase'.Stands t least row) ∨
    ∃ least' rank' row', t'.Midway least' rank' row' ∧ Takes t t' least least' row row' i ∧
      phase'.Stands t' least' row' ∧
      ∀ j, phase'.insertion = some j → ∃ key level, j = .btreeInsertInternal key t.fresh level

theorem Midway.advance_storing (h : t.Midway least rank row) (ready : i.Ready t least row)
    (hp : t.Allocated p) (hl : (t.page p).hdr.level = i.level)
    (hle : i.level = 0 → least p ≤ i.key) :
    ∃ t' phase', t.advance (.storing i p) = some (t', phase') ∧
      t.Advances least row i t' phase' := by
  rcases h.storeLocked ready hp hl hle with ⟨stored, hop⟩ |
    ⟨t', stored', least', rank', row', stored, midway, takes, ⟨ret, rfl⟩ | ⟨ret, key, rfl, next⟩⟩
  · exact ⟨t, .hopping i p, by rw [advance, stored]; rfl, Or.inl ⟨rfl, rfl, ready, hp, hl, hop⟩⟩
  · exact ⟨t', .idle, by rw [advance, stored]; rfl,
      Or.inr ⟨least', rank', row', midway, takes, trivial, fun j hj => (by cases hj)⟩⟩
  · refine ⟨t', .called (.btreeInsertInternal key t.fresh (i.level + 1)),
      by rw [advance, stored]; rfl,
      Or.inr ⟨least', rank', row', midway, takes, next, fun j hj => ?_⟩⟩
    exact ⟨_, _, (Option.some.inj hj).symm⟩

/-- A thread that has an insertion to complete can always take a step. -/
theorem Midway.advance (h : t.Midway least rank row) (stands : phase.Stands t least row)
    (hi : phase.insertion = some i) :
    ∃ t' phase', t.advance phase = some (t', phase') ∧ t.Advances least row i t' phase' := by
  cases phase with
  | idle => cases hi
  | called j =>
      obtain rfl := Option.some.inj hi
      refine ⟨t, .entered j, ?_, Or.inl ⟨rfl, rfl, stands⟩⟩
      rw [BTree.advance, stands.not_tooHigh]
      rfl
  | entered j =>
      obtain rfl := Option.some.inj hi
      have hle : least t.root ≤ j.key := h.least ▸ stands.bound
      exact ⟨t, .descending j t.root, rfl,
        Or.inl ⟨rfl, rfl, stands, h.pages.root, stands.level_le, Or.inl hle⟩⟩
  | descending j p =>
      obtain rfl := Option.some.inj hi
      obtain ⟨ready, hp, hlevel, covers⟩ := stands
      by_cases more : j.more (t.page p) = true
      · have hlt := (h.pages.more_iff hp).mp more
        obtain ⟨q, step, hq, hleq, next⟩ := h.pages.linked.linearSearch hp
          (Nat.zero_lt_of_lt hlt) covers
        refine ⟨t, .descending j q, ?_, Or.inl ⟨rfl, rfl, ready, hq, ?_, hleq⟩⟩
        · rw [BTree.advance, if_pos more, step]
          rfl
        · rcases next with ⟨same, -⟩ | below
          · omega
          · omega
      · have level : (t.page p).hdr.level = j.level :=
          le_antisymm (not_lt.mp fun hlt => more ((h.pages.more_iff hp).mpr hlt)) hlevel
        exact ⟨t, .storing j p, if_neg more, Or.inl ⟨rfl, rfl, ready, hp, level, fun leaf =>
          covers.leaf (level.trans leaf)⟩⟩
  | storing j p =>
      obtain rfl := Option.some.inj hi
      obtain ⟨ready, hp, hlevel, hle⟩ := stands
      exact h.advance_storing ready hp hlevel hle
  | hopping j p =>
      obtain rfl := Option.some.inj hi
      obtain ⟨ready, hp, hlevel, hsib, hle⟩ := stands
      obtain ⟨alloc, same, -⟩ := h.pages.sibling hp hsib
      exact ⟨t, .storing j (t.page p).hdr.siblingPtr, rfl,
        Or.inl ⟨rfl, rfl, ready, alloc, same.trans hlevel, hle⟩⟩

end Midway

end BTree

/-! ## All threads -/

namespace InsertMachine

/-- How the insertions that threads have to complete stand to the keys of the calls and to
those that the leaves hold. -/
structure Booked {ι : Type} (pending : ι → Option Insertion) (inserted : List Int)
    (held : Int → Prop) : Prop where
  /-- No two threads have the same insertion to complete. -/
  apart : ∀ j k i, j ≠ k → pending j = some i → pending k ≠ some i
  called : ∀ j key, pending j = some (.btreeInsert key key) → key ∈ inserted
  held : ∀ key, held key ↔ key ∈ inserted ∧ ∀ j, pending j ≠ some (.btreeInsert key key)
  keys : ∀ key ∈ inserted, TreeKey key

section Booked

variable {ι : Type} [DecidableEq ι] {pending : ι → Option Insertion} {inserted : List Int}
  {held held' : Int → Prop} {i : ι} {key : Int}

/-- A thread may take up an insertion that nobody has to complete. -/
theorem Booked.apart_update (h : Booked pending inserted held) {next : Option Insertion}
    (fresh : ∀ b, next = some b → ∀ j, pending j ≠ some b) (j k : ι) (b : Insertion) (ne : j ≠ k)
    (hj : Function.update pending i next j = some b) :
    Function.update pending i next k ≠ some b := by
  intro hk
  rw [Function.update_apply] at hj hk
  split at hj
  · rename_i heq
    rw [if_neg fun heq' => ne (heq.trans heq'.symm)] at hk
    exact fresh b hj k hk
  · split at hk
    · exact fresh b hk j hj
    · exact h.apart j k b ne hj hk

theorem Booked.call (h : Booked pending inserted held) (hi : pending i = none)
    (hkey : TreeKey key) (new : key ∉ inserted) :
    Booked (Function.update pending i (some (.btreeInsert key key))) (inserted ++ [key]) held := by
  have fresh : ∀ j, pending j ≠ some (.btreeInsert key key) := fun j hj => new (h.called j key hj)
  refine ⟨h.apart_update fun b hb => Option.some.inj hb ▸ fresh, fun j k hj => ?_, fun k => ?_,
    fun k mem => ?_⟩
  · rw [Function.update_apply] at hj
    split at hj
    · cases hj
      exact List.mem_append_right _ List.mem_cons_self
    · exact List.mem_append_left _ (h.called j k hj)
  · rw [h.held, List.mem_append, List.mem_singleton]
    by_cases hk : k = key
    · subst hk
      exact iff_of_false (fun hheld => new hheld.1) fun hall =>
        hall.2 i (Function.update_self ..)
    · rw [or_iff_left hk]
      refine and_congr_right fun _ => forall_congr' fun j => not_congr ?_
      rw [Function.update_apply]
      split
      · rename_i heq
        rw [heq, hi]
        refine iff_of_false (by simp) fun hcall => hk ?_
        cases hcall
        rfl
      · rfl
  · rcases List.mem_append.mp mem with mem | mem
    · exact h.keys k mem
    · exact List.mem_singleton.mp mem ▸ hkey

/-- The record of an insertion is in, and what is left to do is new. -/
theorem Booked.complete (h : Booked pending inserted held) {a : Insertion}
    (hi : pending i = some a) {next : Option Insertion}
    (fresh : ∀ b, next = some b → ∀ j, pending j ≠ some b)
    (internal : ∀ k, next ≠ some (.btreeInsert k k))
    (holds : ∀ k, held' k ↔ held k ∨ a = .btreeInsert k k) :
    Booked (Function.update pending i next) inserted held' := by
  refine ⟨h.apart_update fresh, fun j k hj => ?_, fun k => ?_, h.keys⟩
  · rw [Function.update_apply] at hj
    split at hj
    · exact absurd hj (internal k)
    · exact h.called j k hj
  · rw [holds, h.held]
    simp only [Function.update_apply]
    constructor
    · rintro (⟨mem, past⟩ | rfl)
      · refine ⟨mem, fun j => ?_⟩
        split
        · exact internal k
        · exact past j
      · refine ⟨h.called i k hi, fun j => ?_⟩
        split
        · exact internal k
        · rename_i ne
          exact h.apart i j _ (Ne.symm ne) hi
    · rintro ⟨mem, past⟩
      by_cases here : a = .btreeInsert k k
      · exact Or.inr here
      · refine Or.inl ⟨mem, fun j hj => ?_⟩
        by_cases heq : j = i
        · rw [heq, hi] at hj
          exact here (Option.some.inj hj)
        · have other := past j
          rw [if_neg heq] at other
          exact other hj

end Booked

section Sound

variable {ι : Type} [DecidableEq ι] {alloc : Allocator} {m m' : InsertMachine ι}
  {least : Int → Int} {rank : Int → Nat} {row : List Entry}

def pending (m : InsertMachine ι) (j : ι) : Option Insertion := (m.phase j).insertion

/-- The invariant of every interleaving. -/
structure Sound (m : InsertMachine ι) (least : Int → Int) (rank : Int → Nat)
    (row : List Entry) : Prop where
  midway : m.tree.Midway least rank row
  stands : ∀ j, (m.phase j).Stands m.tree least row
  booked : Booked m.pending m.inserted fun key => m.tree.Held key row

theorem sound_init (ι : Type) [DecidableEq ι] (alloc : Allocator) :
    (init ι alloc).Sound (fun _ => longMin) (fun _ => 0) [⟨longMin, alloc.addr 0⟩] := by
  have only : ∀ p, (BTree.empty alloc).Allocated p → p = alloc.addr 0 := by
    rintro p ⟨i, hi, rfl⟩
    rw [Nat.lt_one_iff.mp hi]
    rfl
  have leaves : (BTree.empty alloc).Leaves (fun _ => longMin) [⟨longMin, alloc.addr 0⟩] :=
    ⟨(BTree.rows_empty alloc).1.isRow, List.nodup_singleton _, BTree.single_empty alloc, ⟨_, rfl⟩,
      List.pairwise_singleton .., fun x mem hlt => absurd hlt (by simp [List.mem_singleton.mp mem]),
      fun x mem => by rw [List.mem_singleton.mp mem], fun p hp _ => ⟨_, List.mem_singleton.mpr rfl,
        (only p hp).symm⟩⟩
  refine ⟨⟨⟨fun p _ hpos => absurd hpos (lt_irrefl 0), leaves, 0, Nat.one_pos, rfl⟩, rfl,
    fun p hp ne => absurd (only p hp) ne⟩, fun _ => trivial, fun _ _ _ _ h => ?_, fun _ _ h => ?_,
    fun key => ?_, fun _ h => absurd h List.not_mem_nil⟩
  · cases h
  · cases h
  · exact iff_of_false (BTree.held_empty alloc key) fun h => absurd h.1 List.not_mem_nil

theorem pending_update (m : InsertMachine ι) (i : ι) (phase : InsertPhase) (tree : BTree)
    (inserted : List Int) :
    pending { tree := tree, phase := Function.update m.phase i phase, inserted := inserted } =
      Function.update m.pending i phase.insertion := by
  funext j
  dsimp only [pending]
  rw [Function.update_apply, Function.update_apply]
  exact apply_ite ..

/-- A thread that takes a step stands where it should when it does and the others do. -/
theorem stands_update {t : BTree} {i : ι} {phase : InsertPhase}
    (here : phase.Stands t least row) (others : ∀ j, j ≠ i → (m.phase j).Stands t least row) :
    ∀ j, (Function.update m.phase i phase j).Stands t least row := by
  intro j
  rw [Function.update_apply]
  split
  · exact here
  · rename_i ne
    exact others j ne

theorem Sound.call (h : m.Sound least rank row) {i : ι} {key : Int} (idle : m.phase i = .idle)
    (hkey : TreeKey key) (new : key ∉ m.inserted) :
    Sound { m with
      phase := Function.update m.phase i (.called (.btreeInsert key key))
      inserted := m.inserted ++ [key] } least rank row := by
  have unheld : ¬ m.tree.Held key row := fun held => new ((h.booked.held key).mp held).1
  refine ⟨h.midway, stands_update ⟨hkey, rfl, unheld⟩ fun j _ => h.stands j, ?_⟩
  rw [pending_update]
  exact h.booked.call (congrArg InsertPhase.insertion idle) hkey new

/-- The pages stay, and the leaves keep their keys. -/
theorem Sound.advance_grows (h : m.Sound least rank row) {i : ι} {tree : BTree}
    {phase : InsertPhase} (step : m.tree.advance (m.phase i) = some (tree, phase)) :
    ∃ least' rank' row', Sound { m with tree := tree, phase := Function.update m.phase i phase }
      least' rank' row' ∧ BTree.Extends m.tree tree least least' ∧
        ∀ k, m.tree.Held k row → tree.Held k row' := by
  obtain ⟨a, ha⟩ := (m.phase i).exists_insertion fun idle => by
    rw [idle] at step
    cases step
  obtain ⟨t', phase', taken, advances⟩ := h.midway.advance (h.stands i) ha
  obtain ⟨rfl, rfl⟩ := Prod.mk.inj (Option.some.inj (step.symm.trans taken))
  rcases advances with ⟨rfl, same, stands⟩ | ⟨least', rank', row', midway, takes, stands, next⟩
  · refine ⟨least, rank, row, ⟨h.midway, stands_update stands fun j _ => h.stands j, ?_⟩,
      .refl _ _, fun _ => id⟩
    rw [pending_update, same, ← ha]
    exact (Function.update_eq_self i m.pending).symm ▸ h.booked
  · have others : ∀ j, j ≠ i → (m.phase j).insertion ≠ some a := fun j ne =>
      h.booked.apart i j a ne.symm ha
    refine ⟨least', rank', row', ⟨midway, stands_update stands fun j ne =>
      takes.stands ((h.stands i).ready ha) (h.stands j) (others j ne), ?_⟩, takes.ext,
      fun k hk => (takes.held k).mpr (Or.inl hk)⟩
    rw [pending_update]
    refine h.booked.complete ha (fun b hb j hj => ?_) (fun k hk => ?_) takes.held
    · -- The page to be inserted is new, so no thread has had it.
      obtain ⟨key, level, rfl⟩ := next b hb
      exact m.tree.fresh_not_allocated ((h.stands j).ready hj).1.1
    · obtain ⟨_, _, heq⟩ := next _ hk
      cases heq

theorem Sound.advance (h : m.Sound least rank row) {i : ι} {tree : BTree} {phase : InsertPhase}
    (step : m.tree.advance (m.phase i) = some (tree, phase)) :
    ∃ least' rank' row', Sound { m with tree := tree, phase := Function.update m.phase i phase }
      least' rank' row' := by
  obtain ⟨least', rank', row', sound, -⟩ := h.advance_grows step
  exact ⟨least', rank', row', sound⟩

theorem Sound.step (h : m.Sound least rank row) (step : Step m m') :
    ∃ least' rank' row', m'.Sound least' rank' row' := by
  cases step with
  | call i key idle hkey new => exact ⟨least, rank, row, h.call idle hkey new⟩
  | advance i step => exact h.advance step

theorem Reach.sound (run : Reach (init ι alloc) m) : ∃ least rank row, m.Sound least rank row := by
  induction run with
  | refl => exact ⟨_, _, _, sound_init ι alloc⟩
  | tail _ step ih =>
      obtain ⟨least, rank, row, h⟩ := ih
      exact h.step step

/-- No thread is ever stuck in a call. -/
theorem Reach.advances (run : Reach (init ι alloc) m) {i : ι} (busy : m.phase i ≠ .idle) :
    ∃ m', Step m m' := by
  obtain ⟨least, rank, row, h⟩ := run.sound
  obtain ⟨a, ha⟩ := (m.phase i).exists_insertion busy
  obtain ⟨tree, phase, step, -⟩ := h.midway.advance (h.stands i) ha
  exact ⟨_, .advance i step⟩

/-- When all calls have returned nothing is lost, if and only if no inserted key is the
address of the leaf behind its own.  The calls insert keys other than 0, no key twice, in any
number of threads. -/
theorem losesNothing_iff (run : Reach (init ι alloc) m) (idle : ∀ i, m.phase i = .idle) :
    m.tree.LosesNothing m.inserted ↔ ∀ key ∈ m.inserted, ¬ m.tree.TakenForSibling key := by
  obtain ⟨least, rank, row, h⟩ := run.sound
  refine h.midway.pages.losesNothing_iff_apart h.midway.least (fun k => ?_) h.booked.keys
  rw [h.booked.held]
  refine and_iff_left fun j hj => ?_
  rw [pending, idle j] at hj
  cases hj

/-! ### Fixed schedules -/

/-- The steps that a schedule names: a call with a key, or the next step of a thread. -/
def perform : List (ι × Option Int) → InsertMachine ι → Option (InsertMachine ι)
  | [], m => some m
  | (i, some key) :: schedule, m =>
      if m.phase i = .idle ∧ TreeKey key ∧ key ∉ m.inserted then
        perform schedule { m with
          phase := Function.update m.phase i (.called (.btreeInsert key key))
          inserted := m.inserted ++ [key] }
      else none
  | (i, none) :: schedule, m => do
      let (tree, phase) ← m.tree.advance (m.phase i)
      perform schedule { m with tree := tree, phase := Function.update m.phase i phase }

theorem perform_reach {schedule : List (ι × Option Int)} (h : perform schedule m = some m') :
    Reach m m' := by
  induction schedule generalizing m with
  | nil => exact Option.some.inj h ▸ .refl
  | cons step schedule ih =>
      obtain ⟨i, key | key⟩ := step
      · obtain ⟨⟨tree, phase⟩, hstep, h⟩ := Option.bind_eq_some_iff.mp h
        exact .head (.advance i hstep) (ih h)
      · rw [perform] at h
        split at h
        · rename_i call
          exact .head (.call i key call.1 call.2.1 call.2.2) (ih h)
        · cases h

/-- Two threads fill a leaf, and then both insert into it: while the one splits it, the other
waits for its lock, and goes on to the new leaf. -/
def overlap : List (Fin 2 × Option Int) :=
  (List.range 27).flatMap (fun k =>
    (Fin.ofNat 2 k, some (k + 1 : Int)) :: List.replicate 4 (Fin.ofNat 2 k, none)) ++
  [(0, some 28), (1, some 29), (0, none), (1, none), (0, none), (1, none), (0, none), (0, none),
    (1, none), (1, none), (1, none), (1, none)]

theorem losesNothing_overlap :
    ∃ m, Reach (init (Fin 2) (.bump 100)) m ∧ (∀ i, m.phase i = .idle) ∧
      m.tree.allocated = 3 ∧ m.inserted.length = 29 ∧ m.tree.LosesNothing m.inserted := by
  have checked : (perform overlap (init (Fin 2) (.bump 100))).any (fun m =>
      decide ((∀ i, m.phase i = .idle) ∧ m.tree.allocated = 3 ∧ m.inserted.length = 29 ∧
        ∀ key ∈ m.inserted, ∀ i < m.tree.allocated,
          key ≠ (m.tree.page (m.tree.alloc.addr i)).hdr.siblingPtr)) = true := by
    decide +kernel
  obtain ⟨m, hm, holds⟩ := (Option.any_eq_true _ _).mp checked
  obtain ⟨idle, allocated, inserted, apart⟩ := of_decide_eq_true holds
  refine ⟨m, perform_reach hm, idle, allocated, inserted,
    (losesNothing_iff (perform_reach hm) idle).mpr fun key mem taken => ?_⟩
  obtain ⟨p, ⟨i, hi, rfl⟩, -, -, same⟩ := taken
  exact apart key mem i hi same

/-- Calls that split the root leaf, one after another. -/
def splitsRoot : List (Fin 2 × Option Int) :=
  (List.range 28).flatMap fun k =>
    [(Fin.ofNat 2 k, some (1024 + k)), (Fin.ofNat 2 k, none), (Fin.ofNat 2 k, none),
      (Fin.ofNat 2 k, none), (Fin.ofNat 2 k, none)]

/-- The key 1024 is lost, as the new leaf lies there. -/
theorem loses_first :
    ∃ m, Reach (init (Fin 2) (BTree.pagesAt 0)) m ∧ (∀ i, m.phase i = .idle) ∧ 1024 ∈ m.inserted ∧
      m.tree.Answers 1024 False ∧ ¬ m.tree.LosesNothing m.inserted := by
  have checked : (perform splitsRoot (init (Fin 2) (BTree.pagesAt 0))).any (fun m =>
      m.tree.btreeSearch 1024 6 == some 0 && decide (∀ i, m.phase i = .idle) &&
        decide (1024 ∈ m.inserted)) = true := by
    decide +kernel
  obtain ⟨m, hm, holds⟩ := (Option.any_eq_true _ _).mp checked
  rw [Bool.and_eq_true, Bool.and_eq_true, beq_iff_eq, decide_eq_true_iff, decide_eq_true_iff]
    at holds
  obtain ⟨⟨search, idle⟩, mem⟩ := holds
  refine ⟨m, perform_reach hm, idle, mem, ⟨0, ⟨6, search⟩, by simp⟩, fun ⟨answers, _⟩ => ?_⟩
  obtain ⟨v, returns, found⟩ := answers 1024 (by decide) (by decide)
  obtain rfl := (BTree.steady_btreeSearch _ _).unique returns ⟨6, search⟩
  exact found.mpr mem rfl

end Sound

end InsertMachine

end F3Tree
