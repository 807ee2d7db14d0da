import F3Tree.TreeRun

/-!
# How high a tree grows

`btree_delete` merges no pages, so nothing bounds a tree by the keys that it holds.  What
bounds it are the insertions: a leaf is split when it is full, and then thirteen more are due
for each of its halves, whatever has been deleted in between (`Put.excess`).  Above the leaves
nothing is deleted, and every page but the root keeps at least the half that it began with
(`Ample`).  So the pages of a tree grow with the insertions, and its height, which is what a
search pays, with their logarithm (`height_le`).
-/

namespace F3Tree

open Keyed Fuel

/-! ## The halves of a page -/

section Halves

variable {p : Page} {l : Nat} {s : Entry} {next : Option Entry} {key ptr sibling : Int}

theorem PageOk.length_insertKey (ok : PageOk p l s next) (room : p.live.length < cardinality - 1)
    (least : s.key ≤ key) (most : key ≤ longMax) (lt : ∀ n ∈ next, key < n.key) (hptr : ptr ≠ 0)
    (value : l = 0 → ptr = key) :
    (p.insertKey key ptr p.live.length).1.live.length = p.live.length + 1 :=
  (ok.insertKey room least most lt hptr value).2.perm.length_eq

/-- The record in the middle of an internal page goes to the level above. -/
theorem PageOk.length_split (ok : PageOk p l s next) (full : p.live.length = cardinality - 1)
    (hsibling : sibling ≠ 0) :
    (p.split p.live.length sibling).left.live.length = 13 ∧
      (p.split p.live.length sibling).sibling.live.length = if l = 0 then 14 else 13 := by
  have hcard := cardinality_eq
  have sp := ok.split full hsibling
  have left : (p.split p.live.length sibling).left.live.length = p.live.length / 2 := by
    rw [← sp.leftCnt]
    change ((p.live.length / 2 : Nat) - 1 + 1 : Int).toNat = _
    omega
  have both := congrArg List.length sp.entries
  refine ⟨by omega, ?_⟩
  split
  · rename_i leaf
    subst leaf
    rw [ok.entries_leaf, List.length_append, sp.left.entries_leaf, sp.right.entries_leaf] at both
    omega
  · rename_i internal
    have hl := Nat.pos_of_ne_zero internal
    rw [Page.entries, Page.entries, Page.entries, if_neg (ok.internal hl).1,
      if_neg (sp.left.internal hl).1, if_neg (sp.right.internal hl).1] at both
    simp only [List.length_append, List.length_cons] at both
    omega

/-- One of the halves takes the new record. -/
theorem SplitOk.length_insert {halves : Page.Split} (sp : SplitOk p l s next sibling halves)
    (least : s.key ≤ key) (most : key ≤ longMax) (lt : ∀ n ∈ next, key < n.key)
    (hptr : ptr ≠ 0) (value : l = 0 → ptr = key) :
    halves.left.live.length ≤ (halves.insert key ptr).1.live.length ∧
      halves.sibling.live.length ≤ (halves.insert key ptr).2.live.length ∧
      (halves.insert key ptr).1.live.length + (halves.insert key ptr).2.live.length =
        halves.left.live.length + halves.sibling.live.length + 1 := by
  rw [Page.Split.insert]
  split
  · rename_i below
    have more := sp.left.length_insertKey sp.leftRoom least most
      (fun n hn => Option.mem_some_iff.mp hn ▸ below) hptr value
    rw [sp.leftCnt]
    dsimp only
    omega
  · rename_i above
    have more := sp.right.length_insertKey sp.siblingRoom (not_lt.mp above) most lt hptr value
    rw [sp.siblingCnt]
    dsimp only
    omega

end Halves

namespace BTree

variable {t t' : BTree} {n n' l : Nat} {key right : Int} {row row' before after : List Entry}
  {s : Entry}

/-! ## The leaves -/

/-- The records of the leaves beyond those that a split leaves there. -/
def excess (t : BTree) (row : List Entry) : Nat :=
  (row.map fun s => (t.page s.ptr).live.length - 14).sum

theorem excess_append (row row' : List Entry) :
    t.excess (row ++ row') = t.excess row + t.excess row' := by
  rw [excess, List.map_append, List.sum_append]
  rfl

theorem excess_cons (s : Entry) (row : List Entry) :
    t.excess (s :: row) = ((t.page s.ptr).live.length - 14) + t.excess row := rfl

theorem excess_congr (same : ∀ x ∈ row, t'.page x.ptr = t.page x.ptr) :
    t'.excess row = t.excess row := by
  unfold excess
  rw [List.map_congr_left fun x mem => by rw [same x mem]]

/-- An insertion adds one record, and a split takes thirteen for the new leaf. -/
theorem Put.excess (put : Put t t' key right before s after row') (h : t.Row 0 row none)
    (home : Cut Entry.key key row (before ++ [s]) after) (most : key ≤ longMax)
    (hright : right ≠ 0) (value : right = key) :
    t'.excess row' + 13 * row'.length ≤ t.excess row + 13 * row.length + 1 := by
  have hcard := cardinality_eq
  obtain ⟨-, ⟨ok, -⟩, -⟩ := row_split.mp (home.split ▸ h)
  have lt : ∀ x ∈ after.head?, key < x.key := fun x hx => home.lt x (List.mem_of_mem_head? hx)
  have parts : ∀ others : (∀ x ∈ before ++ after, t'.page x.ptr = t.page x.ptr),
      t'.excess before = t.excess before ∧ t'.excess after = t.excess after := fun others =>
    ⟨excess_congr fun x mem => others x (List.mem_append_left _ mem),
      excess_congr fun x mem => others x (List.mem_append_right _ mem)⟩
  have hrow : row = before ++ s :: after := by rw [home.split, List.append_cons]
  rw [hrow]
  cases put with
  | room room others made =>
      obtain ⟨hbefore, hafter⟩ := parts others
      have more := ok.length_insertKey room home.last_le most lt hright fun _ => value
      simp only [excess_append, excess_cons, hbefore, hafter, made, more]
      omega
  | full halves full split others made there alloc =>
      obtain ⟨hbefore, hafter⟩ := parts others
      obtain ⟨sp, -⟩ := h.split home full
      have lengths := ok.length_split full (show t.fresh ≠ 0 from t.alloc.ne_null _)
      rw [← split] at sp lengths
      obtain ⟨left, sibling⟩ := lengths
      rw [if_pos rfl] at sibling
      obtain ⟨more, more', sum⟩ := sp.length_insert home.last_le most lt hright fun _ => value
      simp only [excess_append, excess_cons, hbefore, hafter, made, there, List.length_append,
        List.length_cons]
      omega

/-- A deletion only takes records. -/
structure Shrinks (t t' : BTree) (row : List Entry) : Prop where
  root : t'.root = t.root
  height : t'.height = t.height
  allocated : t'.allocated = t.allocated
  pages : ∀ x ∈ row, (t'.page x.ptr).live.length ≤ (t.page x.ptr).live.length

theorem Rows.shrinks (h : t.Rows n 0 row) (hkey : TreeKey key) {fuel : Nat}
    (run : t.btreeDelete key fuel = some t') : t.Shrinks t' row := by
  induction fuel generalizing t with
  | zero => cases run
  | succ fuel ih =>
      obtain ⟨before, s, after, home⟩ := h.upward.home hkey.1
      rcases h.btreeDelete_cases hkey.1 hkey.2.2 home run with
        rfl | ⟨has, -, p, removed, rfl⟩ | ⟨x, mem, absent, p, removed, run⟩
      · exact ⟨rfl, rfl, rfl, fun _ _ => le_rfl⟩
      · obtain ⟨-, ⟨ok, -⟩, -⟩ := row_split.mp (home.split ▸ h.isRow)
        obtain ⟨p', front, e, back, removed', ok', live, -, -, live'⟩ := ok.removeKey_mem has
        obtain ⟨rfl, -⟩ := Prod.mk.inj (Option.some.inj (removed.symm.trans removed'))
        obtain ⟨-, -, others, here⟩ := h.writeLeaf home.split ok'
        have fewer : p.live.length ≤ (t.page s.ptr).live.length := by
          rw [live, live', List.length_append, List.length_append, List.length_cons]
          omega
        refine ⟨rfl, rfl, rfl, fun x mem => ?_⟩
        rw [home.split, List.mem_append, List.mem_cons] at mem
        rcases mem with mem | rfl | mem
        · rw [others x (List.mem_append_left _ mem)]
        · rwa [here]
        · rw [others x (List.mem_append_right _ mem)]
      · obtain ⟨rows, same, -⟩ := h.turn mem absent removed
        obtain ⟨root, height, allocated, pages⟩ := ih rows run
        exact ⟨root, height, allocated, fun y hy =>
          (pages y hy).trans_eq (congrArg List.length (same y hy).1)⟩

theorem excess_mono
    (pages : ∀ x ∈ row, (t'.page x.ptr).live.length ≤ (t.page x.ptr).live.length) :
    t'.excess row ≤ t.excess row := by
  induction row with
  | nil => exact le_rfl
  | cons s row ih =>
      obtain ⟨here, rest⟩ := List.forall_mem_cons.mp pages
      have := ih rest
      rw [excess_cons, excess_cons]
      omega

/-! ## The pages above the leaves -/

/-- The rows over a row, as in `Over`: pages other than the root have thirteen records.  The
row and those over it have `m` pages. -/
def Ample (t : BTree) : Nat → Nat → List Entry → Nat → Prop
  | 0, _, row, m => row = [⟨longMin, t.root⟩] ∧ m = 1
  | n + 1, l, row, m =>
      (row.map Entry.ptr).Nodup ∧
        ∃ upper m', t.Row (l + 1) upper none ∧
          (0 < n → ∀ x ∈ upper, 13 ≤ (t.page x.ptr).live.length) ∧
          Ample t n (l + 1) upper m' ∧ t.contents upper = row ∧ m = m' + row.length

section Ample

variable {m m' : Nat}

theorem Ample.upward (h : t.Ample n l row m) : t.Over n l row := by
  induction n generalizing l row m with
  | zero => exact h.1
  | succ n ih =>
      obtain ⟨nodup, upper, m', hupper, -, ample, hcontents, -⟩ := h
      exact ⟨nodup, upper, hupper, ih ample, hcontents⟩

theorem Keeps.ample {P : Page → Prop} (keeps : Keeps t t' P) (hroot : t'.root = t.root)
    (h : t.Ample n l row m) (hP : ∀ p, l < p.hdr.level → P p) : t'.Ample n l row m := by
  induction n generalizing l row m with
  | zero => exact ⟨h.1.trans (by rw [hroot]), h.2⟩
  | succ n ih =>
      obtain ⟨nodup, upper, m', hupper, many, ample, rfl, count⟩ := h
      obtain ⟨hupper', same⟩ := keeps.isRow hupper fun p hp => hP p (by omega)
      have pages := keeps.rowPages hupper.thin fun p hp => hP p (by omega)
      refine ⟨nodup, upper, m', hupper', fun hn x mem => ?_, ih ample fun p hp => hP p (by omega),
        same, count⟩
      rw [pages x mem]
      exact many hn x mem

/-- What `Rows.stores` says, with the pages counted: the row may have less than thirteen records
in a page only where it is the root, and afterwards too. -/
def Lengthens (t : BTree) (n l m : Nat) (key right : Int) (before : List Entry) (s : Entry)
    (after : List Entry) : Prop :=
  ∃ t' ret n' row' m', Returns (fun fuel => store fuel t s.ptr key right) (t', ret) ∧ ret ≠ 0 ∧
    Put t t' key right before s after row' ∧ Keeps t t' (fun p => p.hdr.level < l) ∧
    t'.Ample n' l row' m' ∧ t'.allocated + m = t.allocated + m' ∧
    t'.height + n = t.height + n' ∧
    (0 < l → 0 < n' → ∀ x ∈ row', 13 ≤ (t'.page x.ptr).live.length)

/-- The pages of a row keep thirteen records. -/
theorem Put.many (put : Put t t' key right before s after row') (h : t.Row l row none)
    (home : Cut Entry.key key row (before ++ [s]) after) (most : key ≤ longMax)
    (hright : right ≠ 0) (value : l = 0 → right = key)
    (others : ∀ x ∈ before ++ after, 13 ≤ (t.page x.ptr).live.length)
    (here : (t.page s.ptr).live.length < cardinality - 1 → 13 ≤ (t.page s.ptr).live.length) :
    ∀ x ∈ row', 13 ≤ (t'.page x.ptr).live.length := by
  obtain ⟨-, ⟨ok, -⟩, -⟩ := row_split.mp (home.split ▸ h)
  have lt : ∀ x ∈ after.head?, key < x.key := fun x hx => home.lt x (List.mem_of_mem_head? hx)
  cases put with
  | room room same made =>
      have more := ok.length_insertKey room home.last_le most lt hright value
      have first : 13 ≤ (t'.page s.ptr).live.length := by
        rw [made, more]
        exact (here room).trans (Nat.le_succ _)
      intro x mem
      rcases List.mem_append.mp mem with mem | mem
      · rw [same x (List.mem_append_left _ mem)]
        exact others x (List.mem_append_left _ mem)
      · rcases List.mem_cons.mp mem with rfl | mem
        · exact first
        · rw [same x (List.mem_append_right _ mem)]
          exact others x (List.mem_append_right _ mem)
  | full halves full split same made there alloc =>
      obtain ⟨sp, -⟩ := h.split home full
      have lengths := ok.length_split full (show t.fresh ≠ 0 from t.alloc.ne_null _)
      rw [← split] at sp lengths
      obtain ⟨left, sibling⟩ := lengths
      obtain ⟨more, more', -⟩ := sp.length_insert home.last_le most lt hright value
      have least : 13 ≤ halves.sibling.live.length := by
        rw [sibling]
        split <;> omega
      intro x mem
      rcases List.mem_append.mp mem with mem | mem
      · rw [same x (List.mem_append_left _ mem)]
        exact others x (List.mem_append_left _ mem)
      · rcases List.mem_cons.mp mem with rfl | mem
        · rw [made]
          exact left.ge.trans more
        rcases List.mem_cons.mp mem with rfl | mem
        · rw [there]
          exact least.trans more'
        · rw [same x (List.mem_append_right _ mem)]
          exact others x (List.mem_append_right _ mem)

theorem Row.lengthens_room (h : t.Row l row none) (ample : t.Ample n l row m)
    (many : 0 < l → 0 < n → ∀ x ∈ row, 13 ≤ (t.page x.ptr).live.length)
    (home : Cut Entry.key key row (before ++ [s]) after) (most : key ≤ longMax)
    (hright : right ≠ 0) (value : l = 0 → right = key)
    (room : (t.page s.ptr).live.length < cardinality - 1) :
    t.Lengthens n l m key right before s after := by
  obtain ⟨-, ⟨ok, alloc⟩, -⟩ := row_split.mp (home.split ▸ h)
  have keeps := t.keeps_write ((t.page s.ptr).insertKey key right
    (t.page s.ptr).live.length).1 ok.level
  have put := put_write ample.upward.nodup home right room
  have hrow : row = before ++ s :: after := by rw [home.split, List.append_cons]
  refine ⟨_, _, n, _, m, ⟨1, (h.store_eq home right 0).trans (if_pos room)⟩,
    Allocator.ne_null_of alloc, put, keeps.mono fun p hp => ne_of_lt hp,
    hrow ▸ keeps.ample rfl ample fun p hp => ne_of_gt hp, rfl, rfl, fun hl hn => ?_⟩
  have all := many hl hn
  refine put.many h home most hright value (fun x mem => all x ?_) fun _ => all s (by simp [hrow])
  rw [hrow]
  exact List.mem_append.mpr ((List.mem_append.mp mem).imp_right (List.mem_cons_of_mem _))

/-- `store` on the home page of a key. -/
theorem Row.lengthens (h : t.Row l row none) (ample : t.Ample n l row m)
    (many : 0 < l → 0 < n → ∀ x ∈ row, 13 ≤ (t.page x.ptr).live.length)
    (home : Cut Entry.key key row (before ++ [s]) after) (most : key ≤ longMax)
    (hright : right ≠ 0) (value : l = 0 → right = key) :
    t.Lengthens n l m key right before s after := by
  induction n generalizing l t row key right before s after m with
  | zero =>
      rcases Nat.lt_or_ge (t.page s.ptr).live.length (cardinality - 1) with room | full
      · exact h.lengthens_room ample many home most hright value room
      obtain ⟨-, ⟨ok, alloc⟩, -⟩ := row_split.mp (home.split ▸ h)
      have size := Nat.le_antisymm (Nat.le_sub_one_of_lt ok.length_live) full
      obtain ⟨put, keeps, ret⟩ := h.put_splitPage ample.upward.nodup home right size
      have nodup := put.nodup h home ample.upward.nodup
      obtain ⟨sp, -⟩ := h.split home size
      have stored := h.store_eq home right 0
      have level := put.levels h home fun p => keeps.allocated_of
      obtain ⟨rfl, hs, rfl⟩ : before = [] ∧ s = ⟨longMin, t.root⟩ ∧ after = [] := by
        have := home.split.symm.trans ample.1
        cases before with
        | nil => simpa using this
        | cons x before => simp at this
      obtain ⟨⟨-, upper, hupper, high, contents⟩, keeps'⟩ := over_newRoot (l := l)
        (keeps.allocated_of alloc)
        (level _ (List.mem_cons_of_mem _ List.mem_cons_self)).1 nodup
        (congrArg Entry.key hs) sp.least sp.most
      dsimp only at stored
      rw [if_neg full.not_gt, if_pos (congrArg Entry.ptr hs).symm,
        (level s List.mem_cons_self).2] at stored
      have put' := put.keeps h home keeps keeps' fun _ _ => trivial
      refine ⟨_, _, 1, _, 3, ⟨1, stored⟩, ret, put',
        (keeps.mono fun p hp => ne_of_lt hp).trans (keeps'.mono fun _ _ => trivial),
        ⟨nodup, upper, 1, hupper, fun h => absurd h (lt_irrefl 0), ⟨high, rfl⟩, contents, rfl⟩,
        ?_, rfl, fun _ _ => put'.many h home most hright value (by simp) fun room =>
          absurd room full.not_gt⟩
      rw [ample.2]
      rfl
  | succ n ih =>
      rcases Nat.lt_or_ge (t.page s.ptr).live.length (cardinality - 1) with room | full
      · exact h.lengthens_room ample many home most hright value room
      obtain ⟨-, ⟨ok, alloc⟩, -⟩ := row_split.mp (home.split ▸ h)
      have size := Nat.le_antisymm (Nat.le_sub_one_of_lt ok.length_live) full
      have high := ample.upward
      obtain ⟨put, keeps, ret⟩ := h.put_splitPage high.nodup home right size
      have nodup := put.nodup h home high.nodup
      obtain ⟨sp, lt⟩ := h.split home size
      have stored := h.store_eq home right
      have level := put.levels h home fun p => keeps.allocated_of
      have notRoot : t.root ≠ s.ptr := fun heq => by
        have := Rows.root ⟨h, high⟩
        rw [heq, ok.level] at this
        omega
      dsimp only at stored
      rw [(level s (by simp)).2] at stored
      -- The new slot goes to the row above, found again from the root.
      obtain ⟨-, upper, m', hupper, many', ample', hcontents, rfl⟩ := ample
      obtain ⟨hupper', same⟩ := keeps.isRow hupper fun p hp => by omega
      have pages := keeps.rowPages hupper.thin fun p hp => by omega
      have ample₁ := keeps.ample rfl ample' fun p hp => by omega
      have least := (high.least s (home.split ▸ by simp)).trans sp.least
      obtain ⟨before', s', after', home'⟩ := ample₁.upward.home least
      obtain ⟨t₂, ret₂, n', upper₂, m₂, hstore, ret₂', put₂, keeps₂, ample₂, count, height,
        many₂⟩ :=
        ih hupper' ample₁ (fun _ hn x mem => by
          rw [pages x mem]
          exact many' hn x mem) home' sp.most (t.alloc.ne_null _) (by simp)
      obtain ⟨fuel, inserted⟩ := ThinRows.btreeInsertInternal_returns
        ⟨hupper'.thin, ample₁.upward.thin⟩ least home' hstore ret₂'
      obtain ⟨hupper₂, ins₂⟩ := put₂.isRow hupper' home' sp.most (t.alloc.ne_null _) (by simp)
        fun p => keeps₂.allocated_of
      rw [same, hcontents] at ins₂
      have slotted := h.inserted_slot home
        ⟨((t.page s.ptr).split (t.page s.ptr).live.length t.fresh).splitKey, t.fresh⟩
        sp.least lt
      have stored := stored fuel
      rw [if_neg full.not_gt, if_neg notRoot] at stored
      have put' := put.keeps h home keeps keeps₂ fun p hp => by omega
      have hrow : row = before ++ s :: after := by rw [home.split, List.append_cons]
      refine ⟨t₂, _, n' + 1, _, m₂ + (row.length + 1), ⟨fuel + 1,
        stored.trans (congrArg (Option.map _) inserted)⟩, ret, put',
        (keeps.mono fun p hp => ne_of_lt hp).trans (keeps₂.mono fun p hp => by omega),
        ⟨nodup, upper₂, m₂, hupper₂, many₂ (Nat.succ_pos l), ample₂, ins₂.unique slotted, ?_⟩,
        ?_, ?_, fun hl _ => ?_⟩
      · rw [hrow]
        simp only [List.length_append, List.length_cons]
        omega
      · have : (t.splitPage s.ptr key right (t.page s.ptr).live.length).1.allocated =
          t.allocated + 1 := rfl
        omega
      · have : (t.splitPage s.ptr key right (t.page s.ptr).live.length).1.height =
          t.height := rfl
        omega
      · have all := many hl (Nat.succ_pos n)
        refine put'.many h home most hright value (fun x mem => all x ?_) fun room =>
          absurd room full.not_gt
        rw [hrow]
        exact List.mem_append.mpr ((List.mem_append.mp mem).imp_right (List.mem_cons_of_mem _))

/-- An insertion. -/
theorem Rows.lengthens_insert (h : t.Rows n 0 row) (ample : t.Ample n 0 row m) (hkey : TreeKey key)
    (returns : Returns (fun fuel => t.btreeInsert key key fuel) t') :
    ∃ n' row' m', t'.Rows n' 0 row' ∧ t'.Ample n' 0 row' m' ∧
      t'.allocated + m = t.allocated + m' ∧ t'.height + n = t.height + n' ∧
      t'.excess row' + 13 * row'.length ≤ t.excess row + 13 * row.length + 1 := by
  obtain ⟨least, most, ne⟩ := hkey
  obtain ⟨before, s, after, home⟩ := h.upward.home least
  obtain ⟨t₁, ret, n', row', m', hstore, hret, put, keeps, ample', count, height, -⟩ :=
    h.isRow.lengthens ample (fun hl => absurd hl (lt_irrefl 0)) home most ne fun _ => rfl
  obtain ⟨fuel, hdescend, hstore⟩ := (h.descends least home).both (steady_descend _ _ _ _)
    (steady_store _ _ _ _) hstore
  have inserted : t.btreeInsert key key (fuel + 1) = some t₁ := by
    rw [BTree.btreeInsert, hdescend]
    simp only [Option.bind_eq_bind, Option.bind_some, hstore]
    exact if_neg hret
  obtain rfl := (steady_btreeInsert key key t).unique returns ⟨_, inserted⟩
  obtain ⟨rows', -⟩ := put.rows ample'.upward (keeps.mono fun _ => False.elim) h home most ne rfl
  exact ⟨n', row', m', rows', ample', count, height, put.excess h.isRow home most ne rfl⟩

/-- What a row has over pages with records. -/
theorem Row.length_contents {k : Nat} {next : Option Entry} (h : t.Row (l + 1) row next)
    (many : ∀ x ∈ row, k ≤ (t.page x.ptr).live.length) :
    (k + 1) * row.length ≤ (t.contents row).length := by
  induction row with
  | nil => exact Nat.zero_le _
  | cons s row ih =>
      obtain ⟨here, rest⟩ := List.forall_mem_cons.mp many
      obtain ⟨ok, -, hrow⟩ := h
      have more := ih hrow rest
      rw [contents_cons, List.length_append, List.length_cons, Page.entries,
        if_neg (ok.internal (Nat.succ_pos l)).1, List.length_cons, Nat.mul_succ]
      omega

/-- The rows grow at least by fourteen from one to the next. -/
theorem Ample.length_le (h : t.Ample n l row m) :
    13 * m ≤ 14 * row.length + 11 ∧ (0 < n → 2 * 14 ^ (n - 1) ≤ row.length) := by
  induction n generalizing l row m with
  | zero =>
      obtain ⟨rfl, rfl⟩ := h
      exact ⟨by rw [List.length_singleton]; decide, fun hn => absurd hn (lt_irrefl 0)⟩
  | succ n ih =>
      obtain ⟨-, upper, m', hupper, many, ample, rfl, rfl⟩ := h
      obtain ⟨count, length⟩ := ih ample
      rcases Nat.eq_zero_or_pos n with rfl | hn
      · obtain ⟨rfl, rfl⟩ := ample
        have two := hupper.length_contents fun x mem => by
          obtain ⟨_, ok, -⟩ := hupper.pageOk mem
          exact List.length_pos_iff.mpr (ok.internal (Nat.succ_pos l)).2
        rw [List.length_singleton] at two
        exact ⟨by omega, fun _ => two⟩
      · have more := hupper.length_contents (many hn)
        have power : 14 ^ (n + 1 - 1) = 14 * 14 ^ (n - 1) := by
          rw [Nat.add_sub_cancel, ← Nat.pow_succ', Nat.succ_eq_add_one, Nat.sub_add_cancel hn]
        have below := length hn
        exact ⟨by omega, fun _ => by omega⟩

end Ample

/-! ## What a search pays -/

theorem Over.descend_eq (h : t.Over n l row) (hkey : longMin ≤ key) {more : Page → Bool}
    (goesOn : ∀ {p l' s next}, PageThin p l' s next → l < l' → more p = true)
    (home : Cut Entry.key key row (before ++ [s]) after) (fuel : Nat) :
    t.descend more key (n + fuel) t.root = t.descend more key fuel s.ptr := by
  induction n generalizing l row before s after fuel with
  | zero =>
      obtain rfl := h
      have mem : s ∈ [(⟨longMin, t.root⟩ : Entry)] := home.split ▸ by simp
      rw [List.mem_singleton.mp mem, Nat.zero_add]
  | succ n ih =>
      obtain ⟨nodup, upper, hupper, upward, rfl⟩ := h
      obtain ⟨before', u, after', home'⟩ := upward.home hkey
      obtain ⟨-, ⟨ok, -⟩, -⟩ := row_split.mp (home'.split ▸ hupper)
      obtain ⟨init, above, cut, -, -⟩ := hupper.thin.home_child home' home
      have step := hupper.thin.linearSearch_internal nodup home' cut
      have down := ih upward (fun ok' hlt => goesOn ok' (Nat.lt_of_succ_lt hlt)) home' (fuel + 1)
      rw [Nat.add_right_comm, Nat.add_assoc, down, descend,
        if_pos (goesOn ok.thin (Nat.lt_succ_self l)), step]
      rfl

/-- A search turns in its loops at most once a level, and once more. -/
theorem Rows.search_isSome (h : t.Rows n 0 row) (hkey : longMin ≤ key) :
    ∃ v, t.btreeSearch key (n + 2) = some v := by
  obtain ⟨before, s, after, home⟩ := h.upward.home hkey
  obtain ⟨-, ⟨ok, -⟩, -⟩ := row_split.mp (home.split ▸ h.isRow)
  have descends := h.upward.descend_eq hkey
    (fun ok' hlt => ok'.aboveLeaves_iff.mpr (Nat.zero_lt_of_lt hlt)) home 2
  have stops : t.descend aboveLeaves key 2 s.ptr = some s.ptr :=
    if_neg fun above => absurd (ok.aboveLeaves_iff.mp above) (lt_irrefl 0)
  have chases : ∃ r, t.chase key 2 s.ptr = some r := by
    by_cases has : t.Has s key
    · have ne := h.isRow.ne_zero (home.split ▸ by simp) has
      by_cases same : key = (t.page s.ptr).hdr.siblingPtr
      · obtain ⟨x, rest, -, -, hchase⟩ := h.isRow.chase_confused home has ne same
        exact ⟨_, hchase⟩
      · exact ⟨_, (steady_chase _ _ _).mono (by decide) (h.isRow.chase_found home has same)⟩
    · exact ⟨_, (steady_chase _ _ _).mono (by decide) (h.isRow.chase_absent home has)⟩
  obtain ⟨r, chases⟩ := chases
  have more := (steady_chase t key s.ptr).mono (Nat.le_add_left 2 n) chases
  refine ⟨r.2, ?_⟩
  rw [BTree.btreeSearch, descends, stops]
  simp only [Option.bind_eq_bind, Option.bind_some, more]
  rfl

/-! ## The trees that calls lead to -/

/-- The insertions among the calls. -/
def insertions (ops : List TreeOp) : Nat := ops.countP fun op => op = .insert op.key

theorem insertions_concat (ops : List TreeOp) (op : TreeOp) :
    insertions (ops ++ [op]) = insertions ops + if op = .insert op.key then 1 else 0 := by
  simp only [insertions, List.countP_append, List.countP_singleton, decide_eq_true_eq]

section Run

variable {alloc : Allocator} {ops : List TreeOp}

theorem Run.ample (run : Run (empty alloc) (fun _ op => TreeKey op.key) ops t) :
    ∃ n row, t.Rows n 0 row ∧ t.Ample n 0 row t.allocated ∧ t.height = n + 1 ∧
      t.excess row + 13 * row.length ≤ insertions ops + 13 := by
  induction run with
  | nil =>
      have rows := (rows_empty alloc).1
      exact ⟨0, _, rows, ⟨rfl, rfl⟩, rfl, le_rfl⟩
  | @step ops t t' op run hkey returns ih =>
      obtain ⟨n, row, rows, ample, height, few⟩ := ih
      rw [insertions_concat]
      cases op with
      | insert key =>
          obtain ⟨n', row', m', rows', ample', count, height', few'⟩ :=
            rows.lengthens_insert ample hkey returns
          obtain rfl : t'.allocated = m' := by omega
          refine ⟨n', row', rows', ample', by omega, ?_⟩
          rw [if_pos (show TreeOp.insert key = .insert (TreeOp.insert key).key from rfl)]
          omega
      | delete key =>
          obtain ⟨fuel, hfuel⟩ := returns
          obtain ⟨rows', keeps, -⟩ := rows.deletes hkey hfuel
          have shrinks := rows.shrinks hkey hfuel
          refine ⟨n, row, rows', ?_, shrinks.height.trans height, ?_⟩
          · rw [shrinks.allocated]
            exact keeps.ample shrinks.root ample fun p hp => hp.ne'
          · rw [if_neg nofun]
            exact (Nat.add_le_add_right (excess_mono shrinks.pages) _).trans few

/-- What calls on keys other than 0 lead to grows with the insertions among them, deletions or
not: a page more for twelve, a level more for fourteen times as many.  A search turns at most once
a level, and once more. -/
theorem height_le (run : Run (empty alloc) (fun _ op => TreeKey op.key) ops t) :
    26 * 14 ^ (t.height - 2) ≤ insertions ops + 26 ∧
      12 * t.allocated ≤ insertions ops + 24 ∧
      ∀ key, longMin ≤ key → ∃ v, t.btreeSearch key (t.height + 1) = some v := by
  obtain ⟨n, row, rows, ample, height, few⟩ := run.ample
  obtain ⟨count, length⟩ := ample.length_le
  have leaves : 13 * row.length ≤ insertions ops + 13 := (Nat.le_add_left _ _).trans few
  refine ⟨?_, by omega, fun key hkey => height ▸ rows.search_isSome hkey⟩
  rw [height]
  rcases Nat.eq_zero_or_pos n with rfl | hn
  · omega
  · have := length hn
    rw [show n + 1 - 2 = n - 1 by omega]
    omega

/-- Two insertions of one key, and its deletion. -/
theorem height_le_repeated :
    ∃ t, Run (empty (.bump 0)) (fun _ op => TreeKey op.key) [.insert 5, .insert 5, .delete 5] t ∧
      t.height = 1 ∧ t.allocated = 1 ∧
      26 * 14 ^ (t.height - 2) ≤ insertions [.insert 5, .insert 5, .delete 5] + 26 ∧
      12 * t.allocated ≤ insertions [.insert 5, .insert 5, .delete 5] + 24 ∧
      ∀ key, longMin ≤ key → ∃ v, t.btreeSearch key (t.height + 1) = some v := by
  have inserted : Run (empty (.bump 0)) (fun _ op => TreeKey op.key) [.insert 5, .insert 5] _ :=
    (Run.nil.step (.insert 5) (by decide) ⟨2, rfl⟩).step (.insert 5) (by decide) ⟨2, rfl⟩
  have run := inserted.step (.delete 5) (by decide) ⟨2, rfl⟩
  exact ⟨_, run, rfl, rfl, height_le run⟩

end Run

end BTree

end F3Tree
