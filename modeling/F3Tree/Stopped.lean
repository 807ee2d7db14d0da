import F3Tree.Midst

/-!
# Stopping in the middle of a call

A process may stop between any two stores of a call, which reach the pool in their order; also
while a leaf is being split, or while the split goes up the tree.  The next process starts from
the leftmost leaf.  It finds every other key as if the call had not begun, exactly if a restart
before the call and one after it would find all keys (`stopped_iff`), and as long as there are
only insertions it always does (`inserts_stopped`).
-/

namespace F3Tree

open Keyed Fuel Runs

/-! ## The pages of a split -/

section Split

variable {p : Page} {s : Entry} {next : Option Entry} {sibling key : Int} {halves : Page.Split}

theorem isForward_split (c : UInt8) :
    isForward (if isForward c then c + 2 else c + 1) = true := by
  by_cases forward : isForward c = true
  · rw [if_pos forward]
    unfold isForward at forward ⊢
    rw [beq_iff_eq, ← UInt8.toNat_inj] at forward ⊢
    simp only [UInt8.toNat_mod, UInt8.toNat_add, UInt8.reduceToNat] at forward ⊢
    omega
  · rw [if_neg forward]
    have := Page.isForward_insertKey { hdr := { switchCounter := c }, records := [] } 0 0 0
    simpa only [Page.insertKey, if_neg forward] using this

/-- From left to right `last_index` does not matter. -/
theorem searchLeaf_forward {q : Page} (forward : isForward p.hdr.switchCounter = true)
    (counter : q.hdr.switchCounter = p.hdr.switchCounter) (records : q.records = p.records) :
    q.searchLeaf key = p.searchLeaf key := by
  unfold Page.searchLeaf
  rw [counter, records]
  cases p.records with
  | nil => rfl
  | cons first rest => simp only [if_pos forward]

/-- The old page between the stores of a split. -/
structure CutOff (p : Page) (sibling : Int) (seen : Page) (q : Page) : Prop where
  leaf : q.hdr.leftmostPtr = p.hdr.leftmostPtr
  link : q.hdr.siblingPtr = sibling
  firstKey : q.firstKey = p.firstKey
  search : ∀ key, q.searchLeaf key = seen.searchLeaf key

/-- It is seen whole until the terminator is in the middle, and from there on as the left
half. -/
theorem PageOk.cutOff_stores (ok : PageOk p 0 s next) (numEntries : Nat) (sibling : Int) :
    let c := p.hdr.switchCounter
    let q₁ := p.setSibling sibling
    let q₂ := q₁.perform (.switchCounter (if isForward c then c + 2 else c + 1))
    let q₃ := q₂.perform (.ptr (numEntries / 2) 0)
    let left := (p.split numEntries sibling).left
    CutOff p sibling p q₁ ∧ CutOff p sibling p q₂ ∧ CutOff p sibling left q₃ ∧
      CutOff p sibling left left := by
  intro c q₁ q₂ q₃ left
  have first : left.firstKey = p.firstKey := by
    change ((setPtr p.records (numEntries / 2) 0).headD {}).key = (p.records.headD {}).key
    unfold setPtr
    cases p.records <;> cases numEntries / 2 <;> rfl
  have turned : ∀ key, (p.turned q₂.hdr.switchCounter).searchLeaf key = p.searchLeaf key :=
    fun key => ((ok.turned _).searchLeaf_eq key).trans (ok.searchLeaf_eq key).symm
  exact ⟨⟨rfl, rfl, rfl, fun _ => rfl⟩, ⟨rfl, rfl, rfl, turned⟩,
    ⟨rfl, rfl, first, fun key => searchLeaf_forward (isForward_split c) rfl rfl⟩,
    rfl, rfl, first, fun _ => rfl⟩

/-- The halves have the keys of the page. -/
theorem SplitOk.finds_iff (sp : SplitOk p 0 s next sibling halves) (ok : PageOk p 0 s next) :
    halves.left.Finds key ∨ halves.sibling.Finds key ↔ p.Finds key := by
  rw [sp.left.finds_iff, sp.right.finds_iff, ok.finds_iff, sp.live_eq ok rfl]
  simp only [List.mem_append, or_and_right, exists_or]

theorem SplitOk.firstKey_sibling (sp : SplitOk p 0 s next sibling halves) :
    halves.sibling.firstKey = halves.splitKey :=
  sp.right.firstKey_eq (sp.leaf rfl)

end Split

namespace BTree

section Points

variable {t u t' : BTree} {k key : Int} {n : Nat} {row before after : List Entry} {s : Entry}
  {a : Page}

/-- A process that stops after the stores leaves the leaves of `t`, but for those that a call
for the key `k` writes. -/
def Halted (t : BTree) (k : Int) (before : List Entry) (s : Entry) (after : List Entry)
    (stores : List TreeStore) : Prop :=
  ∃ mid, t.Midst (t.performs stores) k before s after mid

/-- The walk does not stop in front of the page `p`, which stands for the leaf `s`. -/
def Opens (t : BTree) (k : Int) (before : List Entry) (s : Entry) (after : List Entry)
    (p : Page) : Prop :=
  before ≠ [] → ∀ key, key ≠ k → t.Has s key ∨ (∃ x ∈ after, t.Has x key) → p.firstKey ≤ key

theorem Rows.halted_page (rows : t.Rows n 0 row) (hrow : row = before ++ s :: after)
    {stores : List PageStore}
    (passing : (t.page s.ptr).Throughout stores ((t.page s.ptr).Passing a k))
    (old : t.Opens k before s after (t.page s.ptr)) (new : t.Opens k before s after a) :
    AtPoints (fun b => t.Midst (t.performs b) k before s after [s.ptr])
      (stores.map (.page s.ptr)) := by
  refine atPoints_page.mpr fun b point => ?_
  dsimp only
  rw [performs_page]
  exact rows.midst_page hrow (passing b point) fun nonempty key ne has =>
    ⟨old nonempty key ne has, new nonempty key ne has⟩

/-- Nothing has been written. -/
theorem Rows.midst_self (rows : t.Rows n 0 row) (hrow : row = before ++ s :: after)
    (old : t.Opens k before s after (t.page s.ptr)) : t.Midst t k before s after [s.ptr] := by
  obtain ⟨-, ⟨ok, -⟩, -⟩ := row_split.mp (hrow ▸ rows.isRow)
  have self : (t.page s.ptr).Passing (t.page s.ptr) k (t.page s.ptr) :=
    ⟨ok.shows, rfl, fun _ _ => Iff.rfl, Or.inl rfl⟩
  have := rows.midst_page hrow self fun nonempty key ne has =>
    ⟨old nonempty key ne has, old nonempty key ne has⟩
  rwa [write_page] at this

/-- The new page is not linked yet. -/
theorem Rows.midst_unlinked (rows : t.Rows n 0 row) (hrow : row = before ++ s :: after)
    (old : t.Opens k before s after (t.page s.ptr)) (keeps : Keeps t u fun _ => True) :
    t.Midst u k before s after [s.ptr] := by
  have pages : ∀ x ∈ row, u.page x.ptr = t.page x.ptr := fun x hx => by
    obtain ⟨_, -, alloc⟩ := rows.isRow.pageOk hx
    exact keeps.pages _ alloc trivial
  refine (rows.midst_self hrow old).congr keeps.rootRef (fun x hx => ?_) ?_
  · exact pages x (Midst.mem_row hrow x hx)
  · exact List.forall_mem_singleton.mpr (pages s (hrow ▸ by simp))

/-- The walk from the left half does not stop in front of the new page `r`. -/
def Continues (t : BTree) (k : Int) (halves : Page.Split) (after : List Entry) (r : Page) : Prop :=
  ∀ key, key ≠ k → (∃ e ∈ halves.sibling.live, e.key = key) ∨ (∃ x ∈ after, t.Has x key) →
    r.firstKey ≤ key

theorem Rows.continues (rows : t.Rows n 0 row)
    (home : Cut Entry.key k row (before ++ [s]) after)
    (full : (t.page s.ptr).live.length = cardinality - 1) :
    let halves := (t.page s.ptr).split (t.page s.ptr).live.length t.fresh
    t.Continues k halves after halves.sibling := by
  rintro halves key - some
  obtain ⟨sp, lt⟩ := rows.isRow.split home full
  rw [sp.firstKey_sibling]
  rcases some with ⟨e, mem, rfl⟩ | ⟨x, mem, e, he, rfl⟩
  · exact (sp.right.range e (sp.right.mem_records mem)).1
  · obtain ⟨_, ok, -⟩ := rows.isRow.pageOk (home.split ▸ by simp [mem] : x ∈ row)
    exact (lt x mem).le.trans (ok.range e (ok.mem_records he)).1

/-- The old page while it is cut off, with the new one behind it. -/
theorem Rows.midst_cutOff (rows : t.Rows n 0 row)
    (home : Cut Entry.key k row (before ++ [s]) after)
    (full : (t.page s.ptr).live.length = cardinality - 1)
    (old : t.Opens k before s after (t.page s.ptr)) {q seen : Page}
    (cut : CutOff (t.page s.ptr) t.fresh seen q)
    (hseen : seen = t.page s.ptr ∨
      seen = ((t.page s.ptr).split (t.page s.ptr).live.length t.fresh).left) :
    t.Midst (t.halved s.ptr
      (q, ((t.page s.ptr).split (t.page s.ptr).live.length t.fresh).sibling))
      k before s after [s.ptr, t.fresh] := by
  have continues := rows.continues home full
  obtain ⟨sp, -⟩ := rows.isRow.split home full
  obtain ⟨-, ⟨ok, -⟩, -⟩ := row_split.mp (home.split ▸ rows.isRow)
  generalize (t.page s.ptr).split (t.page s.ptr).live.length t.fresh = halves at *
  have shows : ∀ key, seen.Shows key := by
    rcases hseen with rfl | rfl
    · exact ok.shows
    · exact sp.left.shows
  have next : halves.sibling.hdr.siblingPtr = (t.page s.ptr).hdr.siblingPtr :=
    sp.right.sibling.trans ok.sibling.symm
  refine rows.midst_halves home.split (fun key => ?_) sp.right.shows cut.link next
    (fun key ne => ?_) (fun nonempty key ne has => ?_) fun key ne some => ?_
  · exact (shows key).congr (cut.leaf.trans (ok.leaf rfl).1) (cut.search key)
  · rw [Page.finds_congr (cut.search key)]
    have both : halves.left.Finds key ∨ halves.sibling.Finds key ↔ (t.page s.ptr).Finds key :=
      sp.finds_iff ok
    rcases hseen with rfl | rfl
    · exact (Iff.intro (fun h => h.elim id fun h => both.mp (Or.inr h)) Or.inl).trans ok.finds_iff
    · exact both.trans ok.finds_iff
  · rw [cut.firstKey]
    exact old nonempty key ne has
  · exact continues key ne (some.imp_left sp.right.finds_iff.mp)

/-- The tree between the stores to the old page. -/
theorem cutStores_points {p : Int} {next : Option Entry} (ok : PageOk (t.page p) 0 s next)
    (ne : p ≠ t.fresh) (numEntries : Nat) :
    let halves := (t.page p).split numEntries t.fresh
    AtPoints (fun b => (t.new halves.sibling).performs b = t.new halves.sibling ∨
      ∃ q seen, (seen = t.page p ∨ seen = halves.left) ∧ CutOff (t.page p) t.fresh seen q ∧
        (t.new halves.sibling).performs b = t.halved p (q, halves.sibling))
      (t.cutStores p numEntries) := by
  intro halves
  obtain ⟨cut₁, cut₂, cut₃, cut₄⟩ := ok.cutOff_stores numEntries t.fresh
  have here : (t.new halves.sibling).page p = t.page p := Function.update_of_ne ne ..
  have written : ∀ (q : Page) (s : TreeStore) (q' : Page),
      (∀ u : BTree, u.page p = q → u.perform s = u.write p q') →
      (t.halved p (q, halves.sibling)).perform s = t.halved p (q', halves.sibling) :=
    fun q s q' h => (h _ (page_write ..)).trans (write_write ..)
  have first : (t.new halves.sibling).perform (.sibling p t.fresh) =
      t.halved p ((t.page p).setSibling t.fresh, halves.sibling) := by
    rw [perform, here]
    rfl
  have page : ∀ (q : Page) (s : PageStore), (t.halved p (q, halves.sibling)).perform (.page p s) =
      t.halved p (q.perform s, halves.sibling) := fun q s =>
    written q (.page p s) (q.perform s) fun u hu => by rw [perform, hu]
  refine atPoints_cons.mpr ⟨Or.inl rfl, atPoints_cons.mpr ⟨Or.inr ⟨_, _, Or.inl rfl, cut₁, first⟩,
    atPoints_cons.mpr ⟨Or.inr ⟨_, _, Or.inl rfl, cut₂, ?_⟩,
      atPoints_cons.mpr ⟨Or.inr ⟨_, _, Or.inr rfl, cut₃, ?_⟩,
        atPoints_nil.mpr (Or.inr ⟨_, _, Or.inr rfl, cut₄, t.performs_cutStores p numEntries ne⟩)⟩⟩⟩⟩
  · rw [performs_cons, performs_cons, first, page]
    rfl
  · rw [performs_cons, performs_cons, performs_cons, first, page, page]
    rfl

/-- The stores of the insertion into one of the halves. -/
theorem Rows.halted_half (rows : t.Rows n 0 row)
    (home : Cut Entry.key k row (before ++ [s]) after) (hkey : TreeKey k)
    (full : (t.page s.ptr).live.length = cardinality - 1)
    (nodup : ((t.page s.ptr).live.map Entry.key).Nodup) (absent : ¬ t.Has s k)
    (old : t.Opens k before s after (t.page s.ptr)) {halves : Page.Split}
    (split : halves = (t.page s.ptr).split (t.page s.ptr).live.length t.fresh)
    (new : t.Opens k before s after (halves.insert k k).1)
    (new' : t.Continues k halves after (halves.insert k k).2) :
    AtPoints (fun b => ∃ mid, t.Midst ((t.halved s.ptr (halves.left, halves.sibling)).performs b)
      k before s after mid) (halfStores halves s.ptr t.fresh k k) := by
  have continues : t.Continues k halves after halves.sibling := split ▸ rows.continues home full
  obtain ⟨-, ⟨ok, alloc⟩, -⟩ := row_split.mp (home.split ▸ rows.isRow)
  have sp : SplitOk (t.page s.ptr) 0 s after.head? t.fresh halves :=
    split ▸ (rows.isRow.split home full).1
  have fresh : s.ptr ≠ t.fresh := fun heq => t.fresh_not_allocated (heq ▸ alloc)
  have first : halves.left.firstKey = (t.page s.ptr).firstKey := by
    obtain ⟨-, -, -, cut⟩ := ok.cutOff_stores (t.page s.ptr).live.length t.fresh
    exact split ▸ cut.firstKey
  obtain ⟨least, most, ne⟩ := hkey
  have live := sp.live_eq ok rfl
  rw [live, List.map_append] at nodup
  obtain ⟨nodup, nodup', -⟩ := List.nodup_append.mp nodup
  obtain ⟨absent, absent'⟩ : (∀ e ∈ halves.left.live, e.key ≠ k) ∧
      ∀ e ∈ halves.sibling.live, e.key ≠ k :=
    ⟨fun e mem heq => absent ⟨e, live ▸ List.mem_append_left _ mem, heq⟩,
      fun e mem heq => absent ⟨e, live ▸ List.mem_append_right _ mem, heq⟩⟩
  have next : halves.sibling.hdr.siblingPtr = (t.page s.ptr).hdr.siblingPtr :=
    sp.right.sibling.trans ok.sibling.symm
  have finds : ∀ key, halves.left.Finds key ∨ halves.sibling.Finds key ↔ t.Has s key := fun key =>
    (sp.finds_iff ok).trans ok.finds_iff
  unfold halfStores
  unfold Page.Split.insert at new new'
  split
  · rename_i lt
    rw [if_pos lt] at new
    rw [sp.leftCnt] at new ⊢
    obtain ⟨ok', -⟩ := sp.left.insertKey sp.leftRoom home.last_le most
      (fun x hx => Option.mem_some_iff.mp hx ▸ lt) ne fun _ => rfl
    have passing := sp.left.passing_insert sp.leftRoom nodup ne absent ok'
    refine atPoints_page.mpr fun b point => ⟨[s.ptr, t.fresh], ?_⟩
    have passing := passing b point
    have made : (t.halved s.ptr (halves.left, halves.sibling)).performs (b.map (.page s.ptr)) =
        t.halved s.ptr (halves.left.performs b, halves.sibling) := by
      rw [performs_page, halved, page_write, write_write]
      rfl
    rw [made]
    refine rows.midst_halves home.split passing.shows sp.right.shows
      (passing.sibling.trans sp.left.sibling) next (fun key hk => ?_)
      (fun nonempty key hk has => ?_) fun key hk some =>
        continues key hk (some.imp_left sp.right.finds_iff.mp)
    · rw [passing.finds key hk]
      exact finds key
    · rcases passing.firstKey with same | same
      · rw [same, first]
        exact old nonempty key hk has
      · rw [same]
        exact new nonempty key hk has
  · rename_i ge
    rw [if_neg ge] at new'
    rw [sp.siblingCnt] at new' ⊢
    obtain ⟨ok', -⟩ := sp.right.insertKey sp.siblingRoom (not_lt.mp ge) most
      (fun x hx => home.lt x (List.mem_of_mem_head? hx)) ne fun _ => rfl
    have passing := sp.right.passing_insert sp.siblingRoom nodup' ne absent' ok'
    refine atPoints_page.mpr fun b point => ⟨[s.ptr, t.fresh], ?_⟩
    have passing := passing b point
    have there : (t.halved s.ptr (halves.left, halves.sibling)).page t.fresh = halves.sibling :=
      (Function.update_of_ne fresh.symm ..).trans (page_new ..)
    have made : (t.halved s.ptr (halves.left, halves.sibling)).performs (b.map (.page t.fresh)) =
        t.halved s.ptr (halves.left, halves.sibling.performs b) := by
      rw [performs_page, there, halved, write_comm fresh, write_new]
      rfl
    rw [made]
    refine rows.midst_halves home.split sp.left.shows passing.shows sp.left.sibling
      (passing.sibling.trans next) (fun key hk => ?_) (fun nonempty key hk has => ?_)
      fun key hk some => ?_
    · rw [passing.finds key hk]
      exact finds key
    · rw [first]
      exact old nonempty key hk has
    · have has := some.imp_left ((passing.finds key hk).trans sp.right.finds_iff).mp
      rcases passing.firstKey with same | same
      · rw [same]
        exact continues key hk has
      · rw [same]
        exact new' key hk has

/-- The stores of a split. -/
theorem Rows.halted_split (rows : t.Rows n 0 row)
    (home : Cut Entry.key k row (before ++ [s]) after) (hkey : TreeKey k)
    (full : (t.page s.ptr).live.length = cardinality - 1)
    (nodup : ((t.page s.ptr).live.map Entry.key).Nodup) (absent : ¬ t.Has s k)
    (old : t.Opens k before s after (t.page s.ptr)) {halves : Page.Split}
    (split : halves = (t.page s.ptr).split (t.page s.ptr).live.length t.fresh)
    (new : t.Opens k before s after (halves.insert k k).1)
    (new' : t.Continues k halves after (halves.insert k k).2) :
    AtPoints (t.Halted k before s after)
      (t.splitStores s.ptr k k (t.page s.ptr).live.length) := by
  obtain ⟨-, ⟨ok, alloc⟩, -⟩ := row_split.mp (home.split ▸ rows.isRow)
  have fresh : s.ptr ≠ t.fresh := fun heq => t.fresh_not_allocated (heq ▸ alloc)
  have unlinked : ∀ u, Keeps t u (fun _ => True) → t.Midst u k before s after [s.ptr] := fun u =>
    rows.midst_unlinked home.split old
  have complete := t.performs_siblingStores s.ptr (t.page s.ptr).live.length
  have cut := t.performs_cutStores s.ptr (t.page s.ptr).live.length fresh
  refine atPoints_append.mpr ⟨atPoints_append.mpr ⟨fun b point => ⟨[s.ptr], ?_⟩,
    fun b point => ?_⟩, fun b point => ?_⟩
  · refine unlinked _ (keeps_performs (p := t.fresh) (fun st mem => ?_) fun q hq _ heq => ?_)
    · exact t.spares_siblingStores s.ptr t.fresh _ st (point.subset mem)
    · exact t.fresh_not_allocated (heq ▸ hq)
  · change ∃ mid, t.Midst (t.performs (_ ++ b)) k before s after mid
    rw [performs_append, complete]
    rcases cutStores_points ok fresh _ b point with same | ⟨q, seen, hseen, cut, same⟩
    · rw [same]
      exact ⟨_, unlinked _ (t.keeps_new _)⟩
    · rw [same]
      exact ⟨_, rows.midst_cutOff home full old cut hseen⟩
  · change ∃ mid, t.Midst (t.performs (_ ++ _ ++ b)) k before s after mid
    rw [performs_append, performs_append, complete, cut, ← split]
    rw [← split] at point
    exact rows.halted_half home hkey full nodup absent old split new new' b point

/-! ### A whole insertion -/

/-- What a restart needs of the tree, at one leaf. -/
theorem Rows.early_at {x y : Entry} {front back : List Entry} (rows : t.Rows n 0 row)
    (inOrder : t.InOrder) (hrow : row = front ++ x :: back) (nonempty : front ≠ [])
    (mem : y ∈ x :: back) (has : t.Has y key) : (t.page x.ptr).firstKey ≤ key := by
  refine rows.early inOrder key (front.map Entry.ptr) x.ptr (back.map Entry.ptr)
    (by simp [hrow]) (by simpa using nonempty) ⟨y.ptr, ?_, ?_⟩
  · simpa using List.mem_map_of_mem (f := Entry.ptr) mem
  · exact (finds_iff_has rows.isRow (hrow ▸ List.mem_append_right _ mem) rfl).mpr has

theorem Rows.opens (rows : t.Rows n 0 row) (inOrder : t.InOrder)
    (hrow : row = before ++ s :: after) : t.Opens k before s after (t.page s.ptr) := by
  intro nonempty key _ has
  obtain ⟨x, mem, has⟩ : ∃ x ∈ s :: after, t.Has x key := by
    rcases has with has | ⟨x, mem, has⟩
    · exact ⟨s, List.mem_cons_self, has⟩
    · exact ⟨x, List.mem_cons_of_mem _ mem, has⟩
  exact rows.early_at inOrder hrow nonempty mem has

/-- Stores above the leaves. -/
theorem Put.midst {row₁ : List Entry} {mid : List Int} {P : Page → Prop}
    (put : Put t t' k k before s after row₁) (rows : t.Rows n 0 row)
    (home : Cut Entry.key k row (before ++ [s]) after) (keeps : Keeps t t' P)
    (midst : t.Midst t' k before s after mid)
    (places : ∀ x ∈ before ++ after, x ∈ row₁) (places' : ∀ y ∈ mid, ∃ x ∈ row₁, x.ptr = y)
    (above : Keeps t' u fun page => page.hdr.level < 1) : t.Midst u k before s after mid := by
  have same : ∀ x ∈ row₁, u.page x.ptr = t'.page x.ptr := fun x mem => by
    obtain ⟨alloc, level⟩ := put.levels rows.isRow home (fun p => keeps.allocated_of) x mem
    exact above.pages _ alloc (by omega)
  refine midst.congr above.rootRef (fun x mem => same x (places x mem)) fun y mem => ?_
  obtain ⟨x, hx, rfl⟩ := places' y mem
  exact same x hx

/-- What is written under the lock of a leaf, and behind the leaf: the new root. -/
theorem Row.lockedStores_eq (h : t.Row 0 row none)
    (home : Cut Entry.key k row (before ++ [s]) after) {locked : List TreeStore}
    (written : t.lockedStores s.ptr k k = some locked) :
    let num := (t.page s.ptr).live.length
    (num < cardinality - 1 ∧
      locked = ((t.page s.ptr).insertKeyStores k k num).map (.page s.ptr)) ∨
    num = cardinality - 1 ∧ ∃ root, locked = t.splitStores s.ptr k k num ++ root ∧
      (root = [] ∨ ∃ p at', root = [.new p, .root at']) := by
  intro num
  obtain ⟨-, ⟨ok, -⟩, -⟩ := row_split.mp (home.split ▸ h)
  have stays := h.stays home
  rw [lockedStores, ok.alive, if_neg Bool.false_ne_true, if_neg fun hop => stays ⟨hop.1, hop.2.le⟩,
    ok.count_eq] at written
  simp only [Option.bind_eq_bind, Option.bind_some] at written
  split at written
  · rename_i room
    exact Or.inl ⟨room, (Option.some.inj written).symm⟩
  · rename_i full
    refine Or.inr ⟨Nat.le_antisymm (Nat.le_sub_one_of_lt ok.length_live) (not_lt.mp full), ?_⟩
    split at written
    · exact ⟨_, (Option.some.inj written).symm, Or.inr ⟨_, _, rfl⟩⟩
    · exact ⟨[], by simpa using (Option.some.inj written).symm, Or.inl rfl⟩

/-- Later stores do not change what holds of the leaves. -/
theorem keeps_root {P : Page → Prop} (root : List TreeStore)
    (hroot : root = [] ∨ ∃ p at', root = [.new p, .root at']) {later : List TreeStore}
    (above : AtPoints (fun b => Keeps (t.performs root) ((t.performs root).performs b) P) later) :
    AtPoints (fun b => Keeps t (t.performs b) P) (root ++ later) := by
  have start : Keeps t t P := ⟨rfl, le_rfl, rfl, fun _ _ _ => rfl⟩
  rcases hroot with rfl | ⟨p, at', rfl⟩
  · exact above
  · have new : Keeps t (t.new p) P := (t.keeps_new p).mono fun _ _ => trivial
    have both : Keeps t ((t.new p).setNewRoot at') P :=
      ⟨new.alloc, new.allocated, new.rootRef, new.pages⟩
    refine atPoints_cons.mpr ⟨start, atPoints_cons.mpr ⟨new, fun b point => ?_⟩⟩
    exact both.trans (above b point)

theorem Rows.opens_after {n' : Nat} {row' after' : List Entry} (rows' : t'.Rows n' 0 row')
    (inOrder' : t'.InOrder) (hrow' : row' = before ++ s :: after')
    (keeps : ∀ key, key ≠ k → t.Has s key ∨ (∃ x ∈ after, t.Has x key) →
      ∃ y ∈ s :: after', t'.Has y key) : t.Opens k before s after (t'.page s.ptr) := by
  intro nonempty key hk has
  obtain ⟨y, mem, has⟩ := keeps key hk has
  exact rows'.early_at inOrder' hrow' nonempty mem has

/-- Every point of an insertion into a leaf with room. -/
theorem Rows.halted_room {n' : Nat} {later : List TreeStore} (rows : t.Rows n 0 row)
    (home : Cut Entry.key k row (before ++ [s]) after) (hkey : TreeKey k)
    (single : t.Single row) (absent : ¬ t.Has s k) (inOrder : t.InOrder)
    (room : (t.page s.ptr).live.length < cardinality - 1) {stores : List PageStore}
    (hstores : stores = (t.page s.ptr).insertKeyStores k k (t.page s.ptr).live.length)
    (above : AtPoints (fun b => Keeps (t.performs (stores.map (.page s.ptr)))
      ((t.performs (stores.map (.page s.ptr))).performs b) fun page => page.hdr.level < 1) later)
    (others : ∀ x ∈ before ++ after, t'.page x.ptr = t.page x.ptr)
    (here : t'.page s.ptr = ((t.page s.ptr).insertKey k k (t.page s.ptr).live.length).1)
    (rows' : t'.Rows n' 0 (before ++ s :: after)) (inOrder' : t'.InOrder) :
    AtPoints (fun b => t.Midst (t.performs b) k before s after [s.ptr])
      (stores.map (.page s.ptr) ++ later) := by
  obtain ⟨-, ⟨ok, -⟩, -⟩ := row_split.mp (home.split ▸ rows.isRow)
  obtain ⟨-, most, ne⟩ := hkey
  have nodup := single.nodup_live rows.isRow (home.split ▸ by simp : s ∈ row)
  obtain ⟨ok', ins⟩ := ok.insertKey room home.last_le most
    (fun x hx => home.lt x (List.mem_of_mem_head? hx)) ne fun _ => rfl
  have old : t.Opens k before s after (t.page s.ptr) := rows.opens inOrder home.split
  have new : t.Opens k before s after (t'.page s.ptr) := rows'.opens_after inOrder' rfl
    fun key hk has => by
      rcases has with has | ⟨x, mem, has⟩
      · refine ⟨s, List.mem_cons_self, ?_⟩
        rw [Has, here]
        exact (ins.exists_key_iff key).mpr (Or.inr has)
      · refine ⟨x, List.mem_cons_of_mem _ mem, ?_⟩
        rwa [has_congr (congrArg Page.live (others x (List.mem_append_right _ mem)))]
  rw [here] at new
  have points := rows.halted_page home.split (ok.passing_insert room nodup ne
    (fun e mem heq => absent ⟨e, mem, heq⟩) ok') old new
  rw [← hstores] at points
  have made : t.performs (stores.map (.page s.ptr)) =
      t.write s.ptr ((t.page s.ptr).insertKey k k (t.page s.ptr).live.length).1 := by
    rw [performs_page, hstores, performs_insertKeyStores]
  have put := put_write rows.upward.nodup home k room
  rw [← made] at put
  have keeps := t.keeps_write ((t.page s.ptr).insertKey k k (t.page s.ptr).live.length).1 ok.level
  rw [← made] at keeps
  refine atPoints_append.mpr ⟨points, fun b point => ?_⟩
  dsimp only
  rw [performs_append]
  refine put.midst rows home keeps points.self (fun x mem => ?_) ?_ (above b point)
  · rw [List.mem_append, List.mem_cons]
    exact (List.mem_append.mp mem).imp_right Or.inr
  · exact List.forall_mem_singleton.mpr ⟨s, by simp, rfl⟩

/-- Every point of an insertion into a full leaf. -/
theorem Rows.halted_full {n' : Nat} {later : List TreeStore} (rows : t.Rows n 0 row)
    (home : Cut Entry.key k row (before ++ [s]) after) (hkey : TreeKey k)
    (single : t.Single row) (absent : ¬ t.Has s k) (inOrder : t.InOrder)
    (full : (t.page s.ptr).live.length = cardinality - 1) {halves : Page.Split}
    (split : halves = (t.page s.ptr).split (t.page s.ptr).live.length t.fresh)
    {stores : List TreeStore}
    (hstores : stores = t.splitStores s.ptr k k (t.page s.ptr).live.length)
    (above : AtPoints (fun b => Keeps (t.performs stores) ((t.performs stores).performs b)
      fun page => page.hdr.level < 1) later)
    (others : ∀ x ∈ before ++ after, t'.page x.ptr = t.page x.ptr)
    (here : t'.page s.ptr = (halves.insert k k).1) (there : t'.page t.fresh = (halves.insert k k).2)
    (rows' : t'.Rows n' 0 (before ++ s :: ⟨halves.splitKey, t.fresh⟩ :: after))
    (inOrder' : t'.InOrder) :
    AtPoints (t.Halted k before s after) (stores ++ later) := by
  obtain ⟨-, ⟨ok, alloc⟩, -⟩ := row_split.mp (home.split ▸ rows.isRow)
  have fresh : s.ptr ≠ t.fresh := fun heq => t.fresh_not_allocated (heq ▸ alloc)
  have nodup := single.nodup_live rows.isRow (home.split ▸ by simp : s ∈ row)
  have sp : SplitOk (t.page s.ptr) 0 s after.head? t.fresh halves :=
    split ▸ (rows.isRow.split home full).1
  have ins := sp.insert ok home.last_le hkey.2.1
    (fun x hx => home.lt x (List.mem_of_mem_head? hx)) hkey.2.2 fun _ => rfl
  -- The halves have the keys of the leaf.
  have moved : ∀ key, t.Has s key → t'.Has s key ∨ halves.splitKey ≤ key ∧
      t'.Has ⟨halves.splitKey, t.fresh⟩ key := by
    intro key has
    rw [Has, Has, here, there]
    rcases lt_or_ge key halves.splitKey with lt | ge
    · exact Or.inl ((ins.below rfl key lt).mpr (Or.inr has))
    · exact Or.inr ⟨ge, (ins.above rfl key ge).mpr (Or.inr has)⟩
  have behind : ∀ key, (∃ x ∈ after, t.Has x key) → ∃ x ∈ after, t'.Has x key := by
    rintro key ⟨x, mem, has⟩
    have same := congrArg Page.live (others x (List.mem_append_right _ mem))
    exact ⟨x, mem, (has_congr same).mpr has⟩
  have old : t.Opens k before s after (t.page s.ptr) := rows.opens inOrder home.split
  have new : t.Opens k before s after (t'.page s.ptr) := rows'.opens_after inOrder' rfl
    fun key hk has => by
      rcases has with has | has
      · rcases moved key has with has | ⟨-, has⟩
        · exact ⟨s, List.mem_cons_self, has⟩
        · exact ⟨_, List.mem_cons_of_mem _ List.mem_cons_self, has⟩
      · obtain ⟨x, mem, has⟩ := behind key has
        exact ⟨x, List.mem_cons_of_mem _ (List.mem_cons_of_mem _ mem), has⟩
  rw [here] at new
  have new' : t.Continues k halves after (halves.insert k k).2 := by
    intro key hk some
    rw [← there]
    have split' : before ++ s :: ⟨halves.splitKey, t.fresh⟩ :: after =
        (before ++ [s]) ++ ⟨halves.splitKey, t.fresh⟩ :: after := by simp
    obtain ⟨y, mem, has⟩ : ∃ y ∈ ⟨halves.splitKey, t.fresh⟩ :: after, t'.Has y key := by
      rcases some with ⟨e, mem, rfl⟩ | has
      · have ge := (sp.right.range e (sp.right.mem_records mem)).1
        have inPage : ∃ e' ∈ (t.page s.ptr).live, e'.key = e.key :=
          ⟨e, sp.live_eq ok rfl ▸ List.mem_append_right _ mem, rfl⟩
        refine ⟨_, List.mem_cons_self, ?_⟩
        rw [Has, there]
        exact (ins.above rfl e.key ge).mpr (Or.inr inPage)
      · obtain ⟨x, mem, has⟩ := behind key has
        exact ⟨x, List.mem_cons_of_mem _ mem, has⟩
    exact rows'.early_at inOrder' split' (by simp) mem has
  have points := rows.halted_split home hkey full nodup absent old split new new'
  rw [← hstores] at points
  have made : t.performs stores =
      (t.splitPage s.ptr k k (t.page s.ptr).live.length).1 :=
    hstores ▸ t.performs_splitStores s.ptr k k _ fresh
  obtain ⟨put, keeps, -⟩ := rows.isRow.put_splitPage rows.upward.nodup home k full
  rw [← made] at put keeps
  refine atPoints_append.mpr ⟨points, fun b point => ?_⟩
  obtain ⟨mid, last⟩ := points.self
  refine ⟨mid, ?_⟩
  rw [performs_append]
  refine put.midst rows home keeps last (fun x mem => ?_) (fun y mem => ?_) (above b point)
  · rw [List.mem_append, List.mem_cons, List.mem_cons]
    exact (List.mem_append.mp mem).imp_right fun mem => Or.inr (Or.inr mem)
  · have two : y = s.ptr ∨ y = t.fresh := by
      rcases last.places with rfl | rfl
      · exact Or.inl (List.mem_singleton.mp mem)
      · simpa using mem
    rcases two with rfl | rfl
    · exact ⟨s, by simp, rfl⟩
    · exact ⟨_, List.mem_append_right _ (List.mem_cons_of_mem _ List.mem_cons_self), rfl⟩

/-- Every point of a call that ends with `t'`. -/
def Stops (t t' : BTree) (op : TreeOp) (before : List Entry) (s : Entry) (after : List Entry) :
    Prop :=
  ∃ stores, Returns (fun fuel => op.stores fuel t) stores ∧ t.performs stores = t' ∧
    AtPoints (fun b => ∃ mid, (∀ y ∈ mid, t'.Allocated y) ∧
      t.Midst (t.performs b) op.key before s after mid) stores

/-- Every point of an insertion. -/
theorem Rows.stops_insert (rows : t.Rows n 0 row)
    (home : Cut Entry.key k row (before ++ [s]) after) (hkey : TreeKey k)
    (single : t.Single row) (absent : ¬ t.Has s k)
    (returns : Returns (fun fuel => t.btreeInsert k k fuel) t') (inOrder : t.InOrder)
    (inOrder' : t'.InOrder) : t.Stops t' (.insert k) before s after := by
  obtain ⟨locked, later, traced, stores⟩ := rows.insertStores hkey.1 home k returns
  obtain ⟨t₂, n', row', returns', put, keeps, upward⟩ := rows.btreeInsert hkey.1 home k
  obtain rfl := (steady_btreeInsert k k t).unique returns returns'
  obtain ⟨rows', -⟩ := put.rows upward keeps rows home hkey.2.1 hkey.2.2 rfl
  obtain ⟨_, ok, alloc⟩ := rows.isRow.pageOk (home.split ▸ by simp : s ∈ row)
  have here := keeps.allocated_of alloc
  refine ⟨locked ++ later, stores, traced.completes, fun b point => ?_⟩
  rcases rows.isRow.lockedStores_eq home traced.written with ⟨room, rfl⟩ | ⟨full, root, rfl, hroot⟩
  · cases put with
    | full halves full => exact absurd room (full ▸ lt_irrefl _)
    | room _ others made =>
        exact ⟨[s.ptr], List.forall_mem_singleton.mpr here, rows.halted_room home hkey single absent
          inOrder room rfl traced.above others made rows' inOrder' b point⟩
  · cases put with
    | room room => exact absurd room (full ▸ lt_irrefl _)
    | full halves _ split others made there fresh =>
        have above := traced.above
        simp only [performs_append] at above
        rw [List.append_assoc] at point
        obtain ⟨mid, midst⟩ := rows.halted_full home hkey single absent inOrder full split rfl
          (keeps_root root hroot above) others made there rows' inOrder' b point
        refine ⟨mid, ?_, midst⟩
        rcases midst.places with rfl | rfl
        · exact List.forall_mem_singleton.mpr here
        · exact List.forall_mem_cons.mpr ⟨here, List.forall_mem_singleton.mpr fresh⟩

/-- Every point of a deletion. -/
theorem Rows.stops_delete (rows : t.Rows n 0 row)
    (home : Cut Entry.key k row (before ++ [s]) after) (hkey : TreeKey k)
    (single : t.Single row) (has : t.Has s k) (distinct : k ≠ (t.page s.ptr).hdr.siblingPtr)
    (returns : Returns (fun fuel => t.btreeDelete k fuel) t') (inOrder : t.InOrder)
    (inOrder' : t'.InOrder) : t.Stops t' (.delete k) before s after := by
  obtain ⟨_, ok, alloc⟩ := rows.isRow.pageOk (home.split ▸ by simp : s ∈ row)
  have nodup := single.nodup_live rows.isRow (home.split ▸ by simp : s ∈ row)
  obtain ⟨p, removed, rfl, stores⟩ := rows.deleteStores hkey.1 home has distinct returns
  obtain ⟨fuel, hfuel⟩ := returns
  obtain ⟨rows', -⟩ := rows.deletes hkey hfuel
  obtain ⟨p', front, e, back, removed', -, live, -, hkey', live'⟩ := ok.removeKey_mem has
  obtain rfl : p' = p := congrArg Prod.fst (Option.some.inj (removed'.symm.trans removed))
  have others := rows.page_others home.split p'
  have new := rows'.opens_after (t := t) (k := k) inOrder' home.split fun key hk has => by
    rcases has with has | ⟨x, mem, has⟩
    · refine ⟨s, List.mem_cons_self, ?_⟩
      obtain ⟨e', mem, rfl⟩ := has
      have other : e' ≠ e := fun heq => hk (heq ▸ hkey')
      rw [Has, page_write, live']
      rw [live] at mem
      refine ⟨e', ?_, rfl⟩
      rw [List.mem_append, List.mem_cons] at mem
      exact List.mem_append.mpr (mem.imp_right fun mem => mem.resolve_left other)
    · refine ⟨x, List.mem_cons_of_mem _ mem, ?_⟩
      rwa [has_congr (congrArg Page.live (others x (List.mem_append_right _ mem)))]
  rw [page_write] at new
  refine ⟨_, stores, ?_, fun b point => ⟨[s.ptr], List.forall_mem_singleton.mpr alloc, ?_⟩⟩
  · rw [performs_page, performs_removeKeyStores removed]
  · exact rows.halted_page home.split (ok.passing_remove nodup has removed)
      (rows.opens inOrder home.split) new b point

section Run

variable {alloc : Allocator} {ops : List TreeOp} {op : TreeOp}

/-- The leaves of a tree of calls on a set. -/
theorem Run.set_leaves (run : Run (empty alloc) SetCall ops t)
    (distinct : ∀ o ∈ ops, ¬ t.Allocated o.key) :
    ∃ n row, t.Rows n 0 row ∧ row.head?.map Entry.ptr = some t.rootRef.rootPage ∧ t.Single row ∧
      ∀ key, t.Held key row ↔ LastInsert ops key := by
  have none : ∀ k, (empty alloc).Held k [⟨longMin, alloc.addr 0⟩] ↔ LastInsert [] k := fun k =>
    iff_of_false (held_empty alloc k) (by simp [LastInsert])
  obtain ⟨n, row, rows, head, single, held⟩ :=
    run.set_members (rows_empty alloc).1 (single_empty alloc) none distinct
  obtain ⟨-, -, -, -, -, -, pool, -⟩ := run.rows (fun _ _ call => call.1) (rows_empty alloc).1
  refine ⟨n, row, rows, ?_, single, held⟩
  rw [head, pool]
  rfl

/-- A key that is not an address behind a call was none before it. -/
theorem Run.free (run : Run (empty alloc) SetCall ops t) (call : SetCall t op)
    (returns : Returns (fun fuel => op.perform fuel t) t') {p : Int} (h : ¬ t'.Allocated p) :
    ¬ t.Allocated p := by
  obtain ⟨n, row, rows, -⟩ := run.rows (fun _ _ call => call.1) (rows_empty alloc).1
  obtain ⟨-, -, -, -, keeps, -⟩ := rows.perform call.1 returns
  exact fun h' => h (keeps.allocated_of h')

/-- A call on a set is for a key that its home leaf has, if it is a deletion. -/
theorem Rows.set_call (rows : t.Rows n 0 row) (call : SetCall t op)
    (home : Cut Entry.key op.key row (before ++ [s]) after) (apart : ¬ t.Allocated op.key) :
    t.Has s op.key ↔ op = .delete op.key :=
  (held_iff home).symm.trans ((rows.answers call.1.1 (fun _ => apart) _).mp call.2)

/-- A call makes its stores. -/
theorem performs_stores (run : Run (empty alloc) SetCall ops t) (call : SetCall t op)
    (returns : Returns (fun fuel => op.perform fuel t) t') (apart : ¬ t.Allocated op.key) :
    ∃ stores, Returns (fun fuel => op.stores fuel t) stores ∧ t.performs stores = t' := by
  obtain ⟨n, row, rows, -⟩ := run.rows (fun _ _ call => call.1) (rows_empty alloc).1
  have hkey : TreeKey op.key := call.1
  obtain ⟨before, s, after, home⟩ := rows.upward.home hkey.1
  have has := rows.set_call call home apart
  cases op with
  | insert k =>
      obtain ⟨locked, later, traced, stores⟩ := rows.insertStores hkey.1 home k returns
      exact ⟨_, stores, traced.completes⟩
  | delete k =>
      obtain ⟨p, removed, rfl, stores⟩ := rows.deleteStores hkey.1 home (has.mpr rfl)
        (rows.isRow.apart home.split hkey.2.2 apart) returns
      exact ⟨_, stores, by rw [performs_page, performs_removeKeyStores removed]⟩

/-- What the next process finds at a point of a call. -/
theorem stopped_answers (run : Run (empty alloc) SetCall ops t) (call : SetCall t op)
    (returns : Returns (fun fuel => op.perform fuel t) t')
    (distinct : ∀ o ∈ ops ++ [op], ¬ t'.Allocated o.key) (inOrder : t.InOrder)
    (inOrder' : t'.InOrder) {stores done : List TreeStore}
    (hstores : Returns (fun fuel => op.stores fuel t) stores) (point : done <+: stores)
    (key : Int) :
    ∃ found, (t.performs done).reopen.Answers key found ∧
      (key ≠ op.key → (found ↔ LastInsert ops key)) := by
  have free : ∀ {p}, ¬ t'.Allocated p → ¬ t.Allocated p := run.free call returns
  obtain ⟨n, row, rows, pool, single, held⟩ := run.set_leaves fun o mem =>
    free (distinct o (List.mem_append_left _ mem))
  have has_iff : ∀ key, (∃ x ∈ row, t.Has x key) ↔ LastInsert ops key := fun key =>
    rows.isRow.exists_iff.symm.trans ((single.held_iff rows.isRow).symm.trans (held key))
  have hkey : TreeKey op.key := call.1
  have here := free (distinct op (by simp))
  obtain ⟨before, s, after, home⟩ := rows.upward.home hkey.1
  have has := rows.set_call call home here
  have stops : t.Stops t' op before s after := by
    cases op with
    | insert k =>
        refine rows.stops_insert home hkey single (fun h => ?_) returns inOrder inOrder'
        cases has.mp h
    | delete k =>
        exact rows.stops_delete home hkey single (has.mpr rfl)
          (rows.isRow.apart home.split hkey.2.2 here) returns inOrder inOrder'
  obtain ⟨stores', hstores', -, points⟩ := stops
  obtain rfl := (steady_stores op t).unique hstores hstores'
  obtain ⟨mid, hmid, midst⟩ := points done point
  have apart : key = op.key ∨ (∃ x ∈ row, t.Has x key) → ¬ t'.Allocated key := by
    rintro (rfl | has)
    · exact distinct op (by simp)
    · obtain ⟨o, mem, rfl⟩ := ((has_iff key).mp has).exists
      exact distinct o (List.mem_append_left _ mem)
  obtain ⟨found, answer, same⟩ := midst.answers home.split rows inOrder pool fun some =>
    ⟨free (apart some), fun y mem heq => apart some (heq ▸ hmid y mem)⟩
  exact ⟨found, answer, fun ne => (same ne).trans (has_iff key)⟩

end Run

/-! ### Insertions only -/

/-- No leaf but the first is empty. -/
def Filled (t : BTree) (row : List Entry) : Prop := ∀ x ∈ row.tail, (t.page x.ptr).live ≠ []

theorem filled_append {row' : List Entry} (row : List Entry) (filled : t.Filled row)
    (same : ∀ x ∈ row, t'.page x.ptr = t.page x.ptr)
    (more : ∀ x ∈ row', (t'.page x.ptr).live ≠ []) :
    t'.Filled (row ++ row') := by
  intro x mem
  cases row with
  | nil => exact more x (List.mem_of_mem_tail mem)
  | cons y row =>
      rcases List.mem_append.mp mem with hx | hx
      · rw [same x (List.mem_cons_of_mem _ hx)]
        exact filled x hx
      · exact more x hx

/-- A leaf that has taken a record is not empty, and neither is a new one. -/
theorem Put.filled {row' : List Entry} (put : Put t t' k k before s after row')
    (rows : t.Rows n 0 row) (home : Cut Entry.key k row (before ++ [s]) after)
    (hkey : TreeKey k) (filled : t.Filled row) : t'.Filled row' := by
  obtain ⟨-, ⟨ok, -⟩, -⟩ := row_split.mp (home.split ▸ rows.isRow)
  obtain ⟨-, most, ne⟩ := hkey
  have lt : ∀ x ∈ after.head?, k < x.key := fun x hx => home.lt x (List.mem_of_mem_head? hx)
  rw [home.split] at filled
  have front : t.Filled before := fun x mem => filled x (by
    cases before with
    | nil => cases mem
    | cons y before => exact List.mem_append_left _ mem)
  have back : ∀ x ∈ after, (t.page x.ptr).live ≠ [] := fun x mem => filled x (by
    cases before with
    | nil => exact mem
    | cons y before => exact List.mem_append_right _ (List.mem_cons_of_mem _ mem))
  cases put with
  | room room others here =>
      obtain ⟨-, ins⟩ := ok.insertKey room home.last_le most lt ne fun _ => rfl
      refine filled_append before front (fun x mem => others x (List.mem_append_left _ mem)) ?_
      refine List.forall_mem_cons.mpr ⟨?_, fun x mem => ?_⟩
      · rw [here]
        exact List.ne_nil_of_mem (ins.mem_iff.mpr (Or.inl rfl))
      · rw [others x (List.mem_append_right _ mem)]
        exact back x mem
  | full halves full split others here there fresh =>
      have sp : SplitOk (t.page s.ptr) 0 s after.head? t.fresh halves :=
        split ▸ (rows.isRow.split home full).1
      have ins := sp.insert ok home.last_le most lt ne fun _ => rfl
      have live := sp.live_eq ok rfl
      refine filled_append before front (fun x mem => others x (List.mem_append_left _ mem)) ?_
      refine List.forall_mem_cons.mpr ⟨?_, List.forall_mem_cons.mpr ⟨?_, fun x mem => ?_⟩⟩
      · rw [here]
        by_cases hlt : k < halves.splitKey
        · obtain ⟨e, mem, -⟩ := (ins.below rfl k hlt).mpr (Or.inl rfl)
          exact List.ne_nil_of_mem mem
        · rw [Page.Split.insert, if_neg hlt]
          intro hnil
          have room := sp.siblingRoom
          rw [live, hnil, List.nil_append] at full
          omega
      · rw [there]
        obtain ⟨e, mem, hkey⟩ := sp.leaf rfl
        have inPage : ∃ e' ∈ (t.page s.ptr).live, e'.key = halves.splitKey :=
          ⟨e, live ▸ List.mem_append_right _ mem, hkey⟩
        obtain ⟨e', mem', -⟩ := (ins.above rfl _ le_rfl).mpr (Or.inr inPage)
        exact List.ne_nil_of_mem mem'
      · rw [others x (List.mem_append_right _ mem)]
        exact back x mem

/-- A leaf that is not empty begins with its least key. -/
theorem Rows.inOrder (rows : t.Rows n 0 row) (filled : t.Filled row) : t.InOrder := by
  cases row with
  | nil =>
      obtain ⟨before, s, after, home⟩ := rows.upward.home (le_refl longMin)
      exact absurd home.split (by simp)
  | cons s after =>
      refine rows.inOrder_iff.mpr ?_
      rintro front x back rfl y mem e he
      have isRow := rows.isRow
      rw [← List.cons_append, row_append] at isRow
      obtain ⟨-, isRow⟩ := isRow
      obtain ⟨_, ok, -⟩ := isRow.pageOk List.mem_cons_self
      obtain ⟨e₀, es, hlive, hfirst⟩ := ok.firstKey_mem (filled x (by simp))
      rw [hfirst]
      have ordered := isRow.ordered_contents
      rw [isRow.contents_leaf, List.flatMap_cons, hlive, List.cons_append] at ordered
      have all : e ∈ (x :: back).flatMap fun s => (t.page s.ptr).live :=
        List.mem_flatMap.mpr ⟨y, mem, he⟩
      rw [List.flatMap_cons, hlive, List.cons_append] at all
      rcases List.mem_cons.mp all with rfl | mem
      · exact le_rfl
      · exact (List.pairwise_cons.mp ordered).1 e mem

/-- Insertions leave no leaf empty. -/
theorem Run.filled {alloc : Allocator} {ops : List TreeOp}
    (run : Run (empty alloc) SetCall ops t) (inserts : ∀ o ∈ ops, o = .insert o.key) :
    ∃ n row, t.Rows n 0 row ∧ t.Filled row := by
  induction run with
  | nil =>
      exact ⟨0, _, (rows_empty alloc).1, fun x mem => absurd mem List.not_mem_nil⟩
  | @step ops t t' op run call returns ih =>
      obtain ⟨n, row, rows, filled⟩ := ih fun o mem => inserts o (List.mem_append_left _ mem)
      have insert := inserts op (by simp)
      obtain ⟨before, s, after, home⟩ := rows.upward.home call.1.1
      obtain ⟨t₂, n', row', returns', put, keeps, upward⟩ := rows.btreeInsert call.1.1 home op.key
      rw [insert] at returns
      obtain rfl := (steady_btreeInsert op.key op.key t).unique returns returns'
      obtain ⟨rows', -⟩ := put.rows upward keeps rows home call.1.2.1 call.1.2.2 rfl
      exact ⟨n', row', rows', put.filled rows home call.1 filled⟩

/-! ### Restarts before and after -/

theorem Answers.congr {p q : Prop} (h : t.Answers key p) (same : p ↔ q) : t.Answers key q := by
  obtain ⟨v, returns, found⟩ := h
  exact ⟨v, returns, found.trans same⟩

/-- A restart finds what is there exactly if the leaves are in order, and never what is not. -/
theorem Rows.reopen_answers (rows : t.Rows n 0 row) (single : t.Single row)
    (pool : row.head?.map Entry.ptr = some t.rootRef.rootPage)
    (apart : ∀ key, t.Held key row → ¬ t.Allocated key) :
    (t.InOrder ↔ ∀ key, t.Held key row → t.reopen.Answers key True) ∧
      ∀ key, ¬ t.Held key row → t.reopen.Answers key False := by
  obtain ⟨s, after, rfl⟩ : ∃ s after, row = s :: after := by
    cases row with
    | nil => cases pool
    | cons s after => exact ⟨s, after, rfl⟩
  have held : ∀ key, (∃ x ∈ s :: after, t.Has x key) ↔ t.Held key (s :: after) := fun key =>
    rows.isRow.exists_iff.symm.trans (single.held_iff rows.isRow).symm
  have answers : ∀ key found, t.reopen.Answers key found ↔ (t.Reaches key s after ↔ found) :=
    fun key => rows.answers_reopen (Option.some.inj pool).symm fun has =>
      apart key ((held key).mp has)
  constructor
  · rw [rows.inOrder_iff, ← single.reaches_iff rows.isRow]
    refine forall₂_congr fun key _ => ?_
    rw [answers, iff_true]
  · intro key absent
    exact (answers key False).mpr (iff_false_intro fun reach => absent ((held key).mp reach.exists))

/-- The process stops between any two stores of a call.  The next one finds the other keys as
before, and at both ends the key of the call too, exactly if a restart before the call and one
after it would find all keys.  No key is 0 or the address of a page that is allocated at the end
of the call. -/
theorem stopped_iff {alloc : Allocator} {ops : List TreeOp} {op : TreeOp}
    (run : Run (empty alloc) SetCall ops t) (call : SetCall t op)
    (returns : Returns (fun fuel => op.perform fuel t) t')
    (distinct : ∀ o ∈ ops ++ [op], ¬ t'.Allocated o.key) :
    ∃ stores, Returns (fun fuel => op.stores fuel t) stores ∧ t.performs stores = t' ∧
      ((∀ done, done <+: stores → ∀ key, ∃ found, (t.performs done).reopen.Answers key found ∧
          (key ≠ op.key → (found ↔ LastInsert ops key))) ∧
        t.reopen.Answers op.key (LastInsert ops op.key) ∧
        t'.reopen.Answers op.key (LastInsert (ops ++ [op]) op.key) ↔
      t.InOrder ∧ t'.InOrder) := by
  have free : ∀ {p}, ¬ t'.Allocated p → ¬ t.Allocated p := run.free call returns
  obtain ⟨stores, hstores, completes⟩ :=
    performs_stores run call returns (free (distinct op (by simp)))
  refine ⟨stores, hstores, completes, ?_⟩
  have step := run.step op call returns
  obtain ⟨n, row, rows, pool, single, held⟩ := run.set_leaves fun o mem =>
    free (distinct o (List.mem_append_left _ mem))
  obtain ⟨n', row', rows', pool', single', held'⟩ := step.set_leaves distinct
  have apart' : ∀ key, LastInsert (ops ++ [op]) key → ¬ t'.Allocated key := fun key last => by
    obtain ⟨o, mem, rfl⟩ := last.exists
    exact distinct o mem
  have apart : ∀ key, LastInsert ops key → ¬ t.Allocated key := fun key last => by
    obtain ⟨o, mem, rfl⟩ := last.exists
    exact free (distinct o (List.mem_append_left _ mem))
  obtain ⟨inOrder_iff, absent⟩ := rows.reopen_answers single pool fun key h =>
    apart key ((held key).mp h)
  obtain ⟨inOrder_iff', absent'⟩ := rows'.reopen_answers single' pool' fun key h =>
    apart' key ((held' key).mp h)
  simp only [held] at inOrder_iff absent
  simp only [held'] at inOrder_iff' absent'
  constructor
  · rintro ⟨points, first, last⟩
    refine ⟨inOrder_iff.mpr fun key hkey => ?_, inOrder_iff'.mpr fun key hkey => ?_⟩
    · by_cases same : key = op.key
      · subst same
        exact first.congr (iff_true_intro hkey)
      · obtain ⟨found, answer, hfound⟩ := points [] List.nil_prefix key
        exact answer.congr (iff_true_intro ((hfound same).mpr hkey))
    · by_cases same : key = op.key
      · subst same
        exact last.congr (iff_true_intro hkey)
      · obtain ⟨found, answer, hfound⟩ := points stores (List.prefix_refl _) key
        rw [completes] at answer
        rw [lastInsert_concat, if_neg (Ne.symm same)] at hkey
        exact answer.congr (iff_true_intro ((hfound same).mpr hkey))
  · rintro ⟨inOrder, inOrder'⟩
    refine ⟨fun done point => stopped_answers run call returns distinct inOrder inOrder' hstores
      point, ?_, ?_⟩
    · by_cases last : LastInsert ops op.key
      · exact (inOrder_iff.mp inOrder op.key last).congr (iff_true_intro last).symm
      · exact (absent op.key last).congr (iff_false_intro last).symm
    · by_cases last : LastInsert (ops ++ [op]) op.key
      · exact (inOrder_iff'.mp inOrder' op.key last).congr (iff_true_intro last).symm
      · exact (absent' op.key last).congr (iff_false_intro last).symm

/-- A key is inserted and deleted. -/
theorem stopped_iff_once :
    ∃ t t' stores, Run (empty (.bump 100)) SetCall [.insert 5] t ∧
      Returns (fun fuel => t.btreeDelete 5 fuel) t' ∧
      Returns (fun fuel => t.deleteStores 5 fuel) stores ∧ t.performs stores = t' ∧
      ((∀ done, done <+: stores → ∀ key, ∃ found, (t.performs done).reopen.Answers key found ∧
          (key ≠ 5 → (found ↔ LastInsert [.insert 5] key))) ∧
        t.reopen.Answers 5 (LastInsert [.insert 5] 5) ∧
        t'.reopen.Answers 5 (LastInsert [.insert 5, .delete 5] 5) ↔
      t.InOrder ∧ t'.InOrder) := by
  obtain ⟨t, ht, hv, t', ht'⟩ : ∃ t, setCalls 6 [.insert 5] (empty (.bump 100)) = some t ∧
      t.btreeSearch 5 6 = some 5 ∧ ∃ t', t.btreeDelete 5 6 = some t' := by
    have checked : (setCalls 6 [.insert 5] (empty (.bump 100))).any (fun t =>
        t.btreeSearch 5 6 == some 5 && (t.btreeDelete 5 6).isSome) = true := by decide +kernel
    obtain ⟨t, ht, holds⟩ := (Option.any_eq_true _ _).mp checked
    obtain ⟨hv, holds⟩ := Bool.and_eq_true_iff.mp holds
    exact ⟨t, ht, beq_iff_eq.mp hv, Option.isSome_iff_exists.mp holds⟩
  have run : Run (empty (.bump 100)) SetCall [.insert 5] t := Run.nil.setCalls ht
  have call : SetCall t (.delete 5) := ⟨by decide, 5, ⟨6, hv⟩, by decide⟩
  have step := run.step (.delete 5) call ⟨6, ht'⟩
  have low : ∀ op ∈ [TreeOp.insert 5, .delete 5], op.key ≤ 100 := by decide
  obtain ⟨stores, hstores, holds⟩ := stopped_iff run call ⟨6, ht'⟩ fun op mem =>
    step.not_allocated (fun _ _ call => call.1) (low op mem)
  exact ⟨t, t', stores, run, ⟨6, ht'⟩, hstores, holds⟩

theorem lastInsert_iff_mem {ops : List TreeOp} (inserts : ∀ o ∈ ops, o = .insert o.key)
    (key : Int) : LastInsert ops key ↔ .insert key ∈ ops := by
  constructor
  · exact fun last => (List.mem_filter.mp (List.mem_of_getLast? last)).1
  · intro mem
    have here : .insert key ∈ ops.filter fun op => op.key = key :=
      List.mem_filter.mpr ⟨mem, decide_eq_true rfl⟩
    unfold LastInsert
    obtain ⟨o, ho⟩ := Option.ne_none_iff_exists'.mp fun none =>
      List.ne_nil_of_mem here (List.getLast?_eq_none_iff.mp none)
    obtain ⟨hmem, hkey⟩ := List.mem_filter.mp (List.mem_of_getLast? ho)
    rw [ho, inserts o hmem, of_decide_eq_true hkey]

/-- A history of insertions can be stopped anywhere: the next process finds all keys of the
calls that have ended.  No key is inserted twice, and none is 0 or the address of a page that is
allocated at the end. -/
theorem inserts_stopped {alloc : Allocator} {ops : List TreeOp} {k : Int}
    (run : Run (empty alloc) SetCall ops t) (inserts : ∀ o ∈ ops, o = .insert o.key)
    (call : SetCall t (.insert k)) (returns : Returns (fun fuel => t.btreeInsert k k fuel) t')
    (distinct : ∀ o ∈ ops ++ [.insert k], ¬ t'.Allocated o.key) :
    ∃ stores, Returns (fun fuel => t.insertStores k k fuel) stores ∧ t.performs stores = t' ∧
      ∀ done, done <+: stores → ∀ key, ∃ found, (t.performs done).reopen.Answers key found ∧
        (key ≠ k → (found ↔ .insert key ∈ ops)) := by
  have free : ∀ {p}, ¬ t'.Allocated p → ¬ t.Allocated p := run.free call returns
  obtain ⟨stores, hstores, completes⟩ :=
    performs_stores run call returns (free (distinct (.insert k) (by simp)))
  have step := run.step (.insert k) call returns
  obtain ⟨n, row, rows, filled⟩ := run.filled inserts
  obtain ⟨n', row', rows', filled'⟩ := step.filled fun o mem => by
    rcases List.mem_append.mp mem with mem | mem
    · exact inserts o mem
    · rw [List.mem_singleton.mp mem]
      rfl
  refine ⟨stores, hstores, completes, fun done point key => ?_⟩
  obtain ⟨found, answer, same⟩ := stopped_answers run call returns distinct (rows.inOrder filled)
    (rows'.inOrder filled') hstores point key
  exact ⟨found, answer, fun ne => (same ne).trans (lastInsert_iff_mem inserts key)⟩

/-- Insertions that fill the root. -/
def fillsLeaf : List TreeOp := (List.range (cardinality - 1)).map fun i => .insert (2 * i + 2)

/-- One more splits it. -/
theorem inserts_stopped_split :
    ∃ t t' stores, Run (empty (.bump 100000)) SetCall fillsLeaf t ∧
      Returns (fun fuel => t.btreeInsert 5 5 fuel) t' ∧ t'.height = 2 ∧
      Returns (fun fuel => t.insertStores 5 5 fuel) stores ∧ t.performs stores = t' ∧
      ∀ done, done <+: stores → ∀ key, ∃ found, (t.performs done).reopen.Answers key found ∧
        (key ≠ 5 → (found ↔ .insert key ∈ fillsLeaf)) := by
  obtain ⟨t, ht, absent, t', ht', height⟩ :
      ∃ t, setCalls 6 fillsLeaf (empty (.bump 100000)) = some t ∧
      t.btreeSearch 5 6 = some 0 ∧ ∃ t', t.btreeInsert 5 5 6 = some t' ∧ t'.height = 2 := by
    have checked : (setCalls 6 fillsLeaf (empty (.bump 100000))).any (fun t =>
        t.btreeSearch 5 6 == some 0 && (t.btreeInsert 5 5 6).any (·.height == 2)) = true := by
      decide +kernel
    obtain ⟨t, ht, holds⟩ := (Option.any_eq_true _ _).mp checked
    obtain ⟨absent, holds⟩ := Bool.and_eq_true_iff.mp holds
    obtain ⟨t', ht', height⟩ := (Option.any_eq_true _ _).mp holds
    exact ⟨t, ht, beq_iff_eq.mp absent, t', ht', beq_iff_eq.mp height⟩
  have run : Run (empty (.bump 100000)) SetCall fillsLeaf t := Run.nil.setCalls ht
  have call : SetCall t (.insert 5) := ⟨by decide, 0, ⟨6, absent⟩, by decide⟩
  have step := run.step (.insert 5) call ⟨6, ht'⟩
  have low : ∀ op ∈ fillsLeaf ++ [.insert 5], op.key ≤ 100000 := by decide
  obtain ⟨stores, hstores, completes, answers⟩ := inserts_stopped run (by decide) call ⟨6, ht'⟩
    fun op mem => step.not_allocated (fun _ _ call => call.1) (low op mem)
  exact ⟨t, t', stores, run, ⟨6, ht'⟩, height, hstores, completes, answers⟩

end Points

end BTree

end F3Tree
