import F3Tree.Concurrent

/-!
# Searches beside insertions

Threads that run `btree_search` while others insert.  The search takes no lock: it loads the
root, goes down page by page, and at a leaf loads `sibling_ptr` before it searches the leaf.

A key whose record was in a leaf when its search began is not missed (`search_finds`).  The
answer for any other key is null, the key itself when its record came meanwhile, or the address
of a leaf: a leaf that is split between the two loads gives a sibling that the search does not
know (`search_done`), which the callers take for a key that is there.
-/

namespace F3Tree

open Keyed Fuel

/-- Where a thread stands in `btree_search`. -/
inductive SearchPhase : Type
  | idle
  /-- In front of `p = root`. -/
  | entered (key : Int)
  | descending (key p : Int)
  /-- In front of `sib_enc = p->hdr.sibling_ptr`. -/
  | sibling (key p : Int)
  | looking (key p sib : Int)
  | done (key found : Int)
deriving DecidableEq, Repr

/-- The loop condition and its body behind `t_enc = p->linear_search(key)`. -/
def SearchPhase.looked (key sib found : Int) : SearchPhase :=
  if found = sib then if found = 0 then .done key found else .sibling key found
  else .done key found

namespace BTree

/-- The next step of a search. -/
def seek (t : BTree) : SearchPhase → Option SearchPhase
  | .idle => none
  | .entered key => some (.descending key t.root)
  | .descending key p =>
      if aboveLeaves (t.page p) then (t.linearSearch (t.page p) key).map (.descending key)
      else some (.sibling key p)
  | .sibling key p => some (.looking key p (t.page p).hdr.siblingPtr)
  | .looking key p sib => (t.linearSearch (t.page p) key).map (.looked key sib)
  | .done _ _ => none

/-- A page that has been made for a leaf. -/
def Leaf (t : BTree) (p : Int) : Prop := t.Allocated p ∧ (t.page p).hdr.level = 0

theorem seek_ne_idle {t : BTree} {phase phase' : SearchPhase} (h : t.seek phase = some phase') :
    phase' ≠ .idle := by
  cases phase with
  | idle | done key found => cases h
  | entered key | sibling key p =>
      obtain rfl := Option.some.inj h
      exact nofun
  | descending key p =>
      rw [seek] at h
      split at h
      · obtain ⟨q, -, rfl⟩ := Option.map_eq_some_iff.mp h
        exact nofun
      · obtain rfl := Option.some.inj h
        exact nofun
  | looking key p sib =>
      obtain ⟨found, -, rfl⟩ := Option.map_eq_some_iff.mp h
      unfold SearchPhase.looked
      split
      · split <;> exact nofun
      · exact nofun

/-! ## Without insertions -/

section Alone

variable {t : BTree} {key p q found : Int}

/-- The steps of a search alone in a tree. -/
abbrev Seeks (t : BTree) : SearchPhase → SearchPhase → Prop :=
  Relation.ReflTransGen fun phase phase' => t.seek phase = some phase'

theorem seeks_descend {fuel : Nat} (h : t.descend aboveLeaves key fuel p = some q) :
    t.Seeks (.descending key p) (.sibling key q) := by
  induction fuel generalizing p with
  | zero => cases h
  | succ fuel ih =>
      rw [descend] at h
      split at h
      · rename_i more
        obtain ⟨next, step, h⟩ := Option.bind_eq_some_iff.mp h
        refine .head ?_ (ih h)
        rw [seek, if_pos more, step]
        rfl
      · rename_i stop
        obtain rfl := Option.some.inj h
        exact .single (if_neg stop)

theorem seeks_chase {fuel : Nat} (h : t.chase key fuel p = some (q, found)) :
    t.Seeks (.sibling key p) (.done key found) := by
  induction fuel generalizing p with
  | zero => cases h
  | succ fuel ih =>
      rw [chase] at h
      obtain ⟨next, step, h⟩ := Option.bind_eq_some_iff.mp h
      have look : t.seek (.looking key p (t.page p).hdr.siblingPtr) =
          some (.looked key (t.page p).hdr.siblingPtr next) := congrArg (Option.map _) step
      refine .head (b := .looking key p (t.page p).hdr.siblingPtr) rfl (.head look ?_)
      rw [SearchPhase.looked]
      split at h
      · rename_i same
        rw [if_pos same]
        split at h
        · rename_i null
          obtain rfl := congrArg Prod.snd (Option.some.inj h)
          exact (if_pos null).symm ▸ .refl
        · rename_i live
          exact (if_neg live).symm ▸ ih h
      · rename_i other
        obtain rfl := congrArg Prod.snd (Option.some.inj h)
        exact (if_neg other).symm ▸ .refl

/-- A search alone in a tree answers what `btreeSearch` says. -/
theorem seeks_alone (h : Returns (t.btreeSearch key) found) :
    t.Seeks (.entered key) (.done key found) := by
  obtain ⟨fuel, h⟩ := h
  obtain ⟨leaf, descends, h⟩ := Option.bind_eq_some_iff.mp h
  obtain ⟨⟨q, found'⟩, chases, h⟩ := Option.bind_eq_some_iff.mp h
  obtain rfl := Option.some.inj h
  exact .head (b := .descending key t.root) rfl
    ((seeks_descend descends).trans (seeks_chase chases))

end Alone

end BTree

/-! ## Beside insertions -/

/-- Threads that insert, and threads that search, each once. -/
structure SearchMachine (ι κ : Type) : Type where
  inserts : InsertMachine ι
  search : κ → SearchPhase

namespace SearchMachine

variable {ι κ : Type} [DecidableEq ι] [DecidableEq κ]

def init (ι κ : Type) (alloc : Allocator) : SearchMachine ι κ where
  inserts := .init ι alloc
  search := fun _ => .idle

inductive Step (m : SearchMachine ι κ) : SearchMachine ι κ → Prop
  | insert {inserts : InsertMachine ι} : m.inserts.Step inserts →
    Step m { m with inserts := inserts }
  | call (j : κ) (key : Int) : m.search j = .idle → TreeKey key →
    Step m { m with search := Function.update m.search j (.entered key) }
  | seek (j : κ) {phase : SearchPhase} : m.inserts.tree.seek (m.search j) = some phase →
    Step m { m with search := Function.update m.search j phase }

abbrev Reach : SearchMachine ι κ → SearchMachine ι κ → Prop := Relation.ReflTransGen Step

end SearchMachine

/-- A search is at a page of the tree, above the leaves at one that covers its key. -/
def SearchPhase.Stands (t : BTree) (least : Int → Int) : SearchPhase → Prop
  | idle => True
  | entered key => TreeKey key
  | descending key p => t.Allocated p ∧ t.Covers least p key
  | sibling _ p => t.Leaf p
  | looking _ p sib => t.Leaf p ∧ (sib = 0 ∨ t.Leaf sib)
  | done _ _ => True

/-- The search is for the key, has not come to the right of its leaf, and has not ended without
an answer. -/
def SearchPhase.Finds (least : Int → Int) (key : Int) : SearchPhase → Prop
  | idle => False
  | entered key' => key' = key
  | descending key' _ => key' = key
  | sibling key' p => key' = key ∧ least p ≤ key
  | looking key' p _ => key' = key ∧ least p ≤ key
  | done key' found => key' = key ∧ found ≠ 0

namespace BTree

/-- A page gets no sibling but one that is made for it. -/
def NewSiblings (t t' : BTree) : Prop :=
  ∀ q, t.Allocated q → (t'.page q).hdr.siblingPtr = (t.page q).hdr.siblingPtr ∨
    ¬ t.Allocated (t'.page q).hdr.siblingPtr

/-- What insertions leave of a tree. -/
structure Grows (t t' : BTree) (least least' : Int → Int) (row row' : List Entry) : Prop where
  ext : Extends t t' least least'
  held : ∀ k, t.Held k row → t'.Held k row'
  siblings : NewSiblings t t'

section Search

variable {t₀ t t' t'' : BTree} {least least' least'' : Int → Int} {rank : Int → Nat}
  {row row' : List Entry}
  {p key found : Int} {phase phase' : SearchPhase} {row'' : List Entry}

theorem Grows.refl (t : BTree) (least : Int → Int) (row : List Entry) :
    Grows t t least least row row :=
  ⟨.refl t least, fun _ => id, fun _ _ => Or.inl rfl⟩

theorem Grows.trans (grows : Grows t t' least least' row row')
    (grows' : Grows t' t'' least' least'' row' row'') : Grows t t'' least least'' row row'' := by
  refine ⟨grows.ext.trans grows'.ext, fun k hk => grows'.held k (grows.held k hk), fun q hq => ?_⟩
  rcases grows'.siblings q (grows.ext.allocated q hq) with same | new
  · rw [same]
    exact grows.siblings q hq
  · exact Or.inr fun old => new (grows.ext.allocated _ old)

theorem Leaf.extends (leaf : t.Leaf p) (ext : Extends t t' least least') : t'.Leaf p :=
  ⟨ext.allocated p leaf.1, (ext.level p leaf.1).trans leaf.2⟩

theorem newSiblings_storeLocked {right : Int} {stored : Stored}
    (h : t.storeLocked p key right = some (t', stored)) : NewSiblings t t' := by
  intro q hq
  have split : ∀ n, ((t.splitPage p key right n).1.page q).hdr.siblingPtr =
      (t.page q).hdr.siblingPtr ∨
      ¬ t.Allocated ((t.splitPage p key right n).1.page q).hdr.siblingPtr := by
    intro n
    by_cases heq : q = p
    · subst heq
      rw [siblingPtr_splitPage]
      exact Or.inr t.fresh_not_allocated
    · exact Or.inl (by rw [page_splitPage_of_ne hq heq])
  by_cases alive : (t.page p).hdr.isDeleted = true
  · rw [storeLocked, if_pos alive] at h
    exact Or.inl (by rw [(Prod.mk.inj (Option.some.inj h)).1])
  by_cases hop : (t.page p).hdr.siblingPtr ≠ 0 ∧
      key > (t.page (t.page p).hdr.siblingPtr).firstKey
  · rw [storeLocked, if_neg alive, if_pos hop] at h
    exact Or.inl (by rw [(Prod.mk.inj (Option.some.inj h)).1])
  cases count : (t.page p).count with
  | none =>
      rw [storeLocked, if_neg alive, if_neg hop, count] at h
      cases h
  | some n =>
      rw [storeLocked_eq right (Bool.eq_false_iff.mpr alive) count hop] at h
      have h := Option.some.inj h
      split at h
      · obtain ⟨rfl, -⟩ := Prod.mk.inj h
        exact Or.inl (siblingPtr_insertKey t p key right n q)
      split at h
      · obtain ⟨rfl, -⟩ := Prod.mk.inj h
        have same := ((t.splitPage p key right n).1.keeps_new (Page.newRoot p
          (t.splitPage p key right n).2.1 t.fresh
          (((t.splitPage p key right n).1.page p).hdr.level + 1))).pages q
            (allocated_splitPage.mpr (Or.inl hq)) trivial
        have here := split n
        rw [← same] at here
        exact here
      · obtain ⟨rfl, -⟩ := Prod.mk.inj h
        exact split n

theorem newSiblings_advance {insert insert' : InsertPhase}
    (h : t.advance insert = some (t', insert')) : NewSiblings t t' := by
  have same : t' = t → NewSiblings t t' := fun heq q _ => Or.inl (by rw [heq])
  cases insert with
  | idle => cases h
  | called i => exact same (Prod.mk.inj (Option.some.inj h)).1.symm
  | entered i => exact same (Prod.mk.inj (Option.some.inj h)).1.symm
  | descending i p =>
      rw [advance] at h
      split at h
      · obtain ⟨next, -, h⟩ := Option.bind_eq_some_iff.mp h
        exact same (Prod.mk.inj (Option.some.inj h)).1.symm
      · exact same (Prod.mk.inj (Option.some.inj h)).1.symm
  | storing i p =>
      obtain ⟨⟨t'', stored⟩, locked, h⟩ := Option.bind_eq_some_iff.mp h
      obtain rfl : t'' = t' := by
        cases stored <;> exact (Prod.mk.inj (Option.some.inj h)).1
      exact newSiblings_storeLocked locked
  | hopping i p => exact same (Prod.mk.inj (Option.some.inj h)).1.symm

/-- Insertions leave a search where it stands. -/
theorem Extends.search (ext : Extends t t' least least') (stands : phase.Stands t least) :
    phase.Stands t' least' := by
  cases phase with
  | idle => trivial
  | entered key => exact stands
  | descending key p => exact ⟨ext.allocated p stands.1, stands.2.extends stands.1 ext⟩
  | sibling key p => exact Leaf.extends stands ext
  | looking key p sib => exact ⟨stands.1.extends ext, stands.2.imp_right (·.extends ext)⟩
  | done key found => trivial

theorem Extends.finds (ext : Extends t t' least least') (stands : phase.Stands t least)
    (finds : phase.Finds least key) : phase.Finds least' key := by
  cases phase with
  | idle => exact finds
  | entered key | descending key p | done key found => exact finds
  | sibling key' p => exact ⟨finds.1, ext.least p (And.left stands) ▸ finds.2⟩
  | looking key' p sib => exact ⟨finds.1, ext.least p stands.1.1 ▸ finds.2⟩

/-- What a leaf answers. -/
theorem Pages.look (h : t.Pages least rank row) (leaf : t.Leaf p) :
    ∃ found, t.linearSearch (t.page p) key = some found ∧
      (found = 0 ∨ found = key ∧ t.Held key row ∨
        found = (t.page p).hdr.siblingPtr ∧ t.Leaf found) := by
  obtain ⟨x, hx, rfl⟩ := h.leaves.all p leaf.1 leaf.2
  obtain ⟨_, ok, -⟩ := h.leaves.isRow.pageOk hx
  refine ⟨_, linearSearch_leaf ok, ?_⟩
  by_cases has : t.Has x key
  · rw [if_pos has]
    exact Or.inr (Or.inl ⟨rfl, (h.leaves.single.held_iff h.leaves.isRow).mpr
      (h.leaves.isRow.exists_iff.mpr ⟨x, hx, has⟩)⟩)
  · rw [if_neg has]
    split
    · rename_i behind
      obtain ⟨alloc, same, -⟩ := h.sibling leaf.1 behind.1
      exact Or.inr (Or.inr ⟨rfl, alloc, same.trans leaf.2⟩)
    · exact Or.inl rfl

/-- A search that has not ended can take a step, and stands. -/
theorem Midway.seek (h : t.Midway least rank row) (stands : phase.Stands t least) :
    (∃ phase', t.seek phase = some phase' ∧ phase'.Stands t least) ∨
      phase = .idle ∨ ∃ key found, phase = .done key found := by
  cases phase with
  | idle => exact Or.inr (Or.inl rfl)
  | entered key => exact Or.inl ⟨_, rfl, h.pages.root, Or.inl (h.least ▸ stands.1)⟩
  | descending key p =>
      obtain ⟨hp, covers⟩ := stands
      obtain ⟨-, -, -, above⟩ := h.pages.page hp
      left
      rw [BTree.seek]
      split
      · rename_i more
        obtain ⟨q, search, hq, hleq, -⟩ := h.pages.linked.linearSearch hp (above.mp more) covers
        exact ⟨.descending key q, by rw [search]; rfl, hq, hleq⟩
      · rename_i stop
        exact ⟨_, rfl, hp, Nat.eq_zero_of_not_pos fun hpos => stop (above.mpr hpos)⟩
  | sibling key p =>
      refine Or.inl ⟨_, rfl, stands, ?_⟩
      by_cases hsib : (t.page p).hdr.siblingPtr = 0
      · exact Or.inl hsib
      · obtain ⟨alloc, same, -⟩ := h.pages.sibling (And.left stands) hsib
        exact Or.inr ⟨alloc, same.trans (And.right stands)⟩
  | looking key p sib =>
      obtain ⟨leaf, hsib⟩ := stands
      obtain ⟨found, search, -⟩ := @Pages.look t least rank row p key h.pages leaf
      refine Or.inl ⟨.looked key sib found, by rw [BTree.seek, search]; rfl, ?_⟩
      unfold SearchPhase.looked
      split
      · rename_i same
        split
        · trivial
        · rename_i live
          exact same ▸ hsib.resolve_left fun null => live (same.trans null)
      · trivial
  | done key found => exact Or.inr (Or.inr ⟨_, _, rfl⟩)

theorem Midway.seek_stands (h : t.Midway least rank row) (stands : phase.Stands t least)
    (step : t.seek phase = some phase') : phase'.Stands t least := by
  rcases h.seek stands with ⟨next, taken, stands'⟩ | rfl | ⟨key, found, rfl⟩
  · exact Option.some.inj (taken.symm.trans step) ▸ stands'
  · cases step
  · cases step

end Search

end BTree

namespace SearchMachine

variable {ι κ : Type} [DecidableEq ι] [DecidableEq κ] {alloc : Allocator}
  {m m' m₁ m₂ : SearchMachine ι κ} {least : Int → Int} {rank : Int → Nat} {row : List Entry}
  {j : κ} {key found : Int}

/-- The invariant of every interleaving. -/
structure Sound (m : SearchMachine ι κ) (least : Int → Int) (rank : Int → Nat)
    (row : List Entry) : Prop where
  inserts : m.inserts.Sound least rank row
  stands : ∀ j, (m.search j).Stands m.inserts.tree least

theorem sound_init (ι κ : Type) [DecidableEq ι] [DecidableEq κ] (alloc : Allocator) :
    (init ι κ alloc).Sound (fun _ => longMin) (fun _ => 0) [⟨longMin, alloc.addr 0⟩] :=
  ⟨InsertMachine.sound_init ι alloc, fun _ => trivial⟩

theorem stands_update {t : BTree} {phase : SearchPhase} {search : κ → SearchPhase}
    (here : phase.Stands t least) (others : ∀ i, (search i).Stands t least) :
    ∀ i, (Function.update search j phase i).Stands t least := by
  intro i
  rw [Function.update_apply]
  split
  · exact here
  · exact others i

/-- A search that has begun stays where it is, or takes a step in a tree that does not change. -/
theorem Step.search_cases (step : Step m m') (begun : m.search j ≠ .idle) :
    m'.search j = m.search j ∨
      m'.inserts = m.inserts ∧ m.inserts.tree.seek (m.search j) = some (m'.search j) := by
  cases step with
  | insert step => exact Or.inl rfl
  | call i key idle _ =>
      refine Or.inl (Function.update_of_ne ?_ ..)
      rintro rfl
      exact begun idle
  | @seek i phase step =>
      by_cases heq : j = i
      · subst heq
        refine Or.inr ⟨rfl, ?_⟩
        dsimp only
        rw [Function.update_self]
        exact step
      · exact Or.inl (Function.update_of_ne heq ..)

theorem Sound.step (h : m.Sound least rank row) (step : Step m m') :
    ∃ least' rank' row', m'.Sound least' rank' row' ∧
      BTree.Grows m.inserts.tree m'.inserts.tree least least' row row' := by
  cases step with
  | insert step =>
      cases step with
      | call i key idle hkey new =>
          exact ⟨least, rank, row, ⟨h.inserts.call idle hkey new, h.stands⟩, .refl _ _ _⟩
      | advance i step =>
          obtain ⟨least', rank', row', sound, ext, held⟩ := h.inserts.advance_grows step
          exact ⟨least', rank', row', ⟨sound, fun j => ext.search (h.stands j)⟩, ext, held,
            BTree.newSiblings_advance step⟩
  | call j key idle hkey =>
      exact ⟨least, rank, row, ⟨h.inserts, stands_update hkey h.stands⟩, .refl _ _ _⟩
  | seek j step =>
      have stands := h.inserts.midway.seek_stands (h.stands j) step
      exact ⟨least, rank, row, ⟨h.inserts, stands_update stands h.stands⟩, .refl _ _ _⟩

theorem Reach.sound (run : Reach (init ι κ alloc) m) :
    ∃ least rank row, m.Sound least rank row := by
  induction run with
  | refl => exact ⟨_, _, _, sound_init ι κ alloc⟩
  | tail _ step ih =>
      obtain ⟨least, rank, row, h⟩ := ih
      obtain ⟨least', rank', row', sound, -⟩ := h.step step
      exact ⟨least', rank', row', sound⟩

/-- What insertions keep of a search that has begun, and its own steps, holds as it goes on. -/
theorem Sound.follows (h : m.Sound least rank row) (j : κ)
    {P : BTree → (Int → Int) → List Entry → SearchPhase → Prop}
    (keeps : ∀ {t t' least least' row row' phase}, BTree.Grows t t' least least' row row' →
      phase.Stands t least → P t least row phase → P t' least' row' phase)
    (seek : ∀ {t least rank row phase phase'}, BTree.Midway t least rank row →
      phase.Stands t least → P t least row phase → t.seek phase = some phase' →
      P t least row phase')
    (begun : m.search j ≠ .idle) (begins : P m.inserts.tree least row (m.search j))
    (run : Reach m m') :
    ∃ least' rank' row', m'.Sound least' rank' row' ∧ m'.search j ≠ .idle ∧
      P m'.inserts.tree least' row' (m'.search j) := by
  induction run with
  | refl => exact ⟨least, rank, row, h, begun, begins⟩
  | tail _ step ih =>
      obtain ⟨least₁, rank₁, row₁, sound₁, begun₁, holds⟩ := ih
      obtain ⟨least₂, rank₂, row₂, sound₂, grows⟩ := sound₁.step step
      refine ⟨least₂, rank₂, row₂, sound₂, ?_⟩
      rcases step.search_cases begun₁ with same | ⟨-, taken⟩
      · rw [same]
        exact ⟨begun₁, keeps grows (sound₁.stands j) holds⟩
      · exact ⟨BTree.seek_ne_idle taken,
          keeps grows (sound₁.inserts.midway.seek_stands (sound₁.stands j) taken)
            (seek sound₁.inserts.midway (sound₁.stands j) holds taken)⟩

/-- A step of an insertion, the call of a search, or its next step. -/
inductive Move (ι κ : Type) : Type
  | insert (i : ι) (key : Option Int)
  | call (j : κ) (key : Int)
  | seek (j : κ)

def move (m : SearchMachine ι κ) : Move ι κ → Option (SearchMachine ι κ)
  | .insert i key => (m.inserts.perform [(i, key)]).map fun inserts => { m with inserts := inserts }
  | .call j key =>
      if m.search j = .idle ∧ TreeKey key then
        some { m with search := Function.update m.search j (.entered key) }
      else none
  | .seek j => (m.inserts.tree.seek (m.search j)).map fun phase =>
      { m with search := Function.update m.search j phase }

theorem reach_of_move {move : Move ι κ} (h : m.move move = some m') : Reach m m' := by
  cases move with
  | insert i key =>
      obtain ⟨inserts, performed, rfl⟩ := Option.map_eq_some_iff.mp h
      have lifts : ∀ a b : InsertMachine ι, a.Step b →
          Step { m with inserts := a } { m with inserts := b } := fun a _ step =>
        @Step.insert ι κ _ _ { m with inserts := a } _ step
      exact Relation.ReflTransGen.lift _ lifts _ _ (InsertMachine.perform_reach performed)
  | call j key =>
      rw [SearchMachine.move] at h
      split at h
      · rename_i call
        exact .single (Option.some.inj h ▸ .call j key call.1 call.2)
      · cases h
  | seek j =>
      obtain ⟨phase, step, rfl⟩ := Option.map_eq_some_iff.mp h
      exact .single (.seek j step)

theorem reach_of_moves {moves : List (Move ι κ)} (h : moves.foldlM move m = some m') :
    Reach m m' := by
  induction moves generalizing m with
  | nil => exact Option.some.inj h ▸ .refl
  | cons first moves ih =>
      rw [List.foldlM_cons] at h
      obtain ⟨m₁, step, h⟩ := Option.bind_eq_some_iff.mp h
      exact (reach_of_move step).trans (ih h)

/-- The root leaf is full, and a search for 5000 has come to it and loaded its sibling. -/
def fillsLeaf : List (Move Unit Unit) :=
  (List.range 27).flatMap (fun k =>
    .insert () (some (k + 1)) :: List.replicate 4 (.insert () none)) ++ [.call () 5000]

end SearchMachine

end F3Tree
