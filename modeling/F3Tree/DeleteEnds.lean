import F3Tree.Restart

/-!
# When a deletion ends

`btree_delete` starts anew whenever the page it has come to does not have the key.  The
second try finds the tree as the first one has left it: `remove_key` has turned the page
around at most, so a search comes to the same page again.  A deletion therefore ends at
its first try or never (`btreeDelete_returns_iff`): it ends when the leaf of the key has
it, or when the walk along the leaves runs past the last one.
-/

namespace F3Tree

open Keyed Fuel

namespace BTree

/-- The condition under which `btree_delete` ends: its leaf has the key, or is the last
one.  If the key is the address of the leaf behind its own, that leaf has to be the last
one. -/
def DeleteEnds (t : BTree) (key : Int) : Prop :=
  ∀ leaf, Returns (fun fuel => t.descend aboveLeaves key fuel t.root) leaf →
    ((∃ e ∈ (t.page leaf).live, e.key = key) →
      key = (t.page leaf).hdr.siblingPtr → (t.page key).hdr.siblingPtr = 0) ∧
    ((¬ ∃ e ∈ (t.page leaf).live, e.key = key) → (t.page leaf).hdr.siblingPtr = 0)

section DeleteEnds

variable {alloc : Allocator} {t t' : BTree} {n : Nat} {key : Int} {ops : List TreeOp}
  {row before after : List Entry} {s x : Entry}

theorem Rows.deleteEnds_iff (h : t.Rows n 0 row) (least : longMin ≤ key)
    (home : Cut Entry.key key row (before ++ [s]) after) :
    t.DeleteEnds key ↔
      (t.Has s key → key = (t.page s.ptr).hdr.siblingPtr → (t.page key).hdr.siblingPtr = 0) ∧
      (¬ t.Has s key → (t.page s.ptr).hdr.siblingPtr = 0) := by
  have descends := h.descends least home
  constructor
  · exact fun ends => ends _ descends
  · intro ends leaf hleaf
    obtain rfl := (steady_descend _ _ _ _).unique hleaf descends
    exact ends

/-- The leaf `x` that the walk for the key comes to does not have it. -/
structure Misses (t : BTree) (key : Int) (s x : Entry) : Prop where
  absent : ¬ t.Has x key
  walks : ∃ found, Returns (fun fuel => t.chase key fuel s.ptr) (x.ptr, found)

theorem Rows.misses (h : t.Rows n 0 row) (ne : key ≠ 0)
    (home : Cut Entry.key key row (before ++ [s]) after) (least : longMin ≤ key)
    (never : ¬ t.DeleteEnds key) : ∃ x ∈ row, t.Misses key s x := by
  rw [h.deleteEnds_iff least home] at never
  by_cases has : t.Has s key
  · have confused : key = (t.page s.ptr).hdr.siblingPtr ∧ (t.page key).hdr.siblingPtr ≠ 0 := by
      by_contra other
      exact never ⟨fun _ same => by_contra fun hsib => other ⟨same, hsib⟩,
        fun absent => absurd has absent⟩
    obtain ⟨x, rest, rfl, rfl, walks⟩ := h.isRow.chase_confused home has ne confused.1
    obtain ⟨-, -, ok, -, -⟩ := row_split.mp (home.split ▸ h.isRow)
    have behind : rest ≠ [] := by
      rintro rfl
      exact confused.2 ok.sibling
    rw [if_neg behind] at walks
    refine ⟨x, home.split ▸ by simp, ?_, _, 2, walks⟩
    rintro ⟨e, mem, hkey⟩
    have lt := home.lt x List.mem_cons_self
    exact absurd (hkey ▸ (ok.range e (ok.mem_records mem)).1) (not_le.mpr lt)
  · have hsib : (t.page s.ptr).hdr.siblingPtr ≠ 0 := fun last =>
      never ⟨fun h => absurd h has, fun _ => last⟩
    have walks := h.isRow.chase_absent home has
    rw [if_neg hsib] at walks
    exact ⟨s, home.split ▸ by simp, has, _, 1, walks⟩

/-- A deletion that does not end at its first try goes on for ever. -/
theorem Rows.never_deletes (h : t.Rows n 0 row) (ne : key ≠ 0)
    (home : Cut Entry.key key row (before ++ [s]) after) (least : longMin ≤ key)
    (never : ¬ t.DeleteEnds key) (fuel : Nat) : t.btreeDelete key fuel = none := by
  induction fuel generalizing t with
  | zero => rfl
  | succ fuel ih =>
      obtain ⟨x, mem, absent, found, walks⟩ := h.misses ne home least never
      obtain ⟨_, ok, alloc⟩ := h.isRow.pageOk mem
      obtain ⟨p, removed, -⟩ := ok.removeKey_not_mem absent
      obtain ⟨rows, same, -⟩ := h.turn mem absent removed
      -- The next try meets the same leaves.
      have again : ¬ (t.write x.ptr p).DeleteEnds key := by
        intro ends
        refine never ((h.deleteEnds_iff least home).mpr ?_)
        rw [rows.deleteEnds_iff least home] at ends
        have mem' : s ∈ row := home.split ▸ by simp
        rw [has_congr (same s mem').1, (same s mem').2] at ends
        refine ⟨fun has heq => ?_, ends.2⟩
        have last := ends.1 has heq
        obtain ⟨-, ⟨ok', -⟩, -⟩ := row_split.mp (home.split ▸ h.isRow)
        cases after with
        | nil => exact absurd (heq.trans ok'.sibling) ne
        | cons y after =>
            obtain rfl : key = y.ptr := heq.trans ok'.sibling
            rwa [(same y (home.split ▸ by simp)).2] at last
      have next := ih rows again
      rw [BTree.btreeDelete, Option.bind_eq_bind, Option.bind_eq_none_iff]
      intro leaf hleaf
      obtain rfl := (steady_descend _ _ _ _).unique ⟨fuel, hleaf⟩ (h.descends least home)
      rw [Option.bind_eq_bind, Option.bind_eq_none_iff]
      intro r hr
      obtain rfl := (steady_chase _ _ _).unique ⟨fuel, hr⟩ walks
      simp only [if_neg (Allocator.ne_null_of alloc), removed]
      exact next

/-- A deletion that ends takes a key that a search finds, or leaves the tree as it is. -/
theorem Rows.deletes_at_once (h : t.Rows n 0 row) (hkey : TreeKey key)
    (home : Cut Entry.key key row (before ++ [s]) after) (ends : t.DeleteEnds key) :
    ∃ t', Returns (fun fuel => t.btreeDelete key fuel) t' ∧
      (t' = t ∨ Returns (t.btreeSearch key) key) := by
  obtain ⟨least, -, ne⟩ := hkey
  obtain ⟨here, behind⟩ := (h.deleteEnds_iff least home).mp ends
  have descends := h.descends least home
  -- Past the last leaf nothing is done.
  have stops : ∀ {found}, Returns (fun fuel => t.chase key fuel s.ptr) (0, found) →
      Returns (fun fuel => t.btreeDelete key fuel) t := by
    intro found walks
    obtain ⟨fuel, hdescend, hchase⟩ :=
      descends.both (steady_descend _ _ _ _) (steady_chase _ _ _) walks
    refine ⟨fuel + 1, ?_⟩
    dsimp only at hdescend hchase ⊢
    rw [BTree.btreeDelete, hdescend]
    simp only [Option.bind_eq_bind, Option.bind_some, hchase]
    rfl
  by_cases has : t.Has s key
  · by_cases same : key = (t.page s.ptr).hdr.siblingPtr
    · obtain ⟨x, rest, rfl, rfl, walks⟩ := h.isRow.chase_confused home has ne same
      obtain ⟨-, -, ok, -, hrest⟩ := row_split.mp (home.split ▸ h.isRow)
      have last : rest = [] := by
        cases rest with
        | nil => rfl
        | cons y rest =>
            exact absurd (ok.sibling.symm.trans (here has same)) (Allocator.ne_null_of hrest.2.1)
      rw [if_pos last] at walks
      exact ⟨t, stops ⟨2, walks⟩, Or.inl rfl⟩
    · obtain ⟨p, -, returns⟩ := h.btreeDelete_found least home has same
      have found := h.btreeSearch least home
      rw [if_pos ⟨has, same⟩] at found
      exact ⟨_, returns, Or.inr found⟩
  · have walks := h.isRow.chase_absent home has
    rw [if_pos (behind has)] at walks
    exact ⟨t, stops ⟨1, walks⟩, Or.inl rfl⟩

/-- A deletion ends, and changes nothing about the searches if its key was absent, exactly
if its leaf has the key or is the last one, and a key that its leaf has is not the address of the
leaf behind, unless that is the last one.  The tree is one of insertions and deletions of keys
other than 0, repeated or not. -/
theorem btreeDelete_returns_iff
    (run : Run (empty alloc) (fun _ op => TreeKey op.key) ops t) (hkey : TreeKey key) :
    (∃ t', Returns (fun fuel => t.btreeDelete key fuel) t' ∧
      (Returns (t.btreeSearch key) 0 →
        ∀ k v, Returns (t'.btreeSearch k) v ↔ Returns (t.btreeSearch k) v)) ↔
      t.DeleteEnds key := by
  obtain ⟨n, row, rows, -⟩ := run.rows (fun _ _ => id) (rows_empty alloc).1
  obtain ⟨before, s, after, home⟩ := rows.upward.home hkey.1
  constructor
  · rintro ⟨t', ⟨fuel, returns⟩, -⟩
    by_contra never
    dsimp only at returns
    rw [rows.never_deletes hkey.2.2 home hkey.1 never fuel] at returns
    cases returns
  · intro ends
    obtain ⟨t', returns, same⟩ := rows.deletes_at_once hkey home ends
    refine ⟨t', returns, fun absent => ?_⟩
    rcases same with rfl | found
    · exact fun k v => Iff.rfl
    · exact absurd ((steady_btreeSearch t key).unique found absent) hkey.2.2

/-- Insertions that split the only leaf. -/
def evenKeys : List TreeOp := (List.range 28).map fun i => .insert (2 * i + 2)

/-- A deletion ends that finds its key on its leaf, or comes to the last leaf. -/
theorem deleteEnds_of_leaf {leaf : Int}
    (hleaf : Returns (fun fuel => t.descend aboveLeaves key fuel t.root) leaf)
    (here : (∃ e ∈ (t.page leaf).live, e.key = key) ∧ key ≠ (t.page leaf).hdr.siblingPtr ∨
      (¬ ∃ e ∈ (t.page leaf).live, e.key = key) ∧ (t.page leaf).hdr.siblingPtr = 0) :
    t.DeleteEnds key := by
  intro leaf' hleaf'
  obtain rfl := (steady_descend _ _ _ _).unique hleaf hleaf'
  rcases here with ⟨has, apart⟩ | ⟨absent, last⟩
  · exact ⟨fun _ same => absurd same apart, fun absent => absurd has absent⟩
  · exact ⟨fun has => absurd has absent, fun _ => last⟩

/-- On two leaves: a key of the first one, and a key that is absent from the last one. -/
theorem btreeDelete_returns_two :
    ∃ t, Run (empty (.bump 100000)) (fun _ op => TreeKey op.key) evenKeys t ∧
      t.root ≠ t.rootRef.rootPage ∧ (∃ t', Returns (fun fuel => t.btreeDelete 4 fuel) t') ∧
      ∃ t', Returns (fun fuel => t.btreeDelete 99 fuel) t' ∧
        ∀ k v, Returns (t'.btreeSearch k) v ↔ Returns (t.btreeSearch k) v := by
  have checked : (setCalls 6 evenKeys (empty (.bump 100000))).any (fun t =>
      decide (t.root ≠ t.rootRef.rootPage ∧ t.descend aboveLeaves 4 6 t.root = some 100001 ∧
        t.descend aboveLeaves 99 6 t.root = some 100002 ∧
        ((∃ e ∈ (t.page 100001).live, e.key = 4) ∧ 4 ≠ (t.page 100001).hdr.siblingPtr) ∧
        ((¬ ∃ e ∈ (t.page 100002).live, e.key = 99) ∧ (t.page 100002).hdr.siblingPtr = 0) ∧
        t.btreeSearch 99 6 = some 0)) = true := by decide +kernel
  obtain ⟨t, setRun, twoLeaves, first, second, has, last, absent⟩ := exists_set_run checked
  have run : Run (empty (.bump 100000)) (fun _ op => TreeKey op.key) evenKeys t :=
    setRun.mono fun _ _ call => call.1
  obtain ⟨t₁, returns₁, -⟩ := (btreeDelete_returns_iff run (by decide : TreeKey 4)).mpr
    (deleteEnds_of_leaf ⟨6, first⟩ (Or.inl has))
  obtain ⟨t₂, returns₂, same⟩ := (btreeDelete_returns_iff run (by decide : TreeKey 99)).mpr
    (deleteEnds_of_leaf ⟨6, second⟩ (Or.inr last))
  exact ⟨t, run, twoLeaves, ⟨t₁, returns₁⟩, t₂, returns₂, same ⟨6, absent⟩⟩

/-- The key 3 is absent from the first of two leaves. -/
theorem btreeDelete_loops :
    ∃ t, Run (empty (.bump 100000)) (fun _ op => TreeKey op.key) evenKeys t ∧
      ¬ ∃ t', Returns (fun fuel => t.btreeDelete 3 fuel) t' := by
  have found : ∃ t leaf, setCalls 6 evenKeys (empty (.bump 100000)) = some t ∧
      t.descend aboveLeaves 3 6 t.root = some leaf ∧
      (∀ e ∈ (t.page leaf).live, e.key ≠ 3) ∧ (t.page leaf).hdr.siblingPtr ≠ 0 := by
    have checked : (setCalls 6 evenKeys (empty (.bump 100000))).any (fun t =>
        (t.descend aboveLeaves 3 6 t.root).any fun leaf => decide
          ((∀ e ∈ (t.page leaf).live, e.key ≠ 3) ∧ (t.page leaf).hdr.siblingPtr ≠ 0)) = true := by
      decide +kernel
    obtain ⟨t, ht, checked⟩ := (Option.any_eq_true _ _).mp checked
    obtain ⟨leaf, hleaf, checked⟩ := (Option.any_eq_true _ _).mp checked
    exact ⟨t, leaf, ht, hleaf, of_decide_eq_true checked⟩
  obtain ⟨t, leaf, ht, hleaf, absent, inner⟩ := found
  have run : Run (empty (.bump 100000)) (fun _ op => TreeKey op.key) evenKeys t :=
    (Run.nil.setCalls ht).mono fun _ _ call => call.1
  obtain ⟨n, row, rows, -⟩ := run.rows (fun _ _ => id) (rows_empty _).1
  obtain ⟨before, s, after, home⟩ := rows.upward.home (by decide : longMin ≤ (3 : Int))
  refine ⟨t, run, fun ⟨t', fuel, returns⟩ => ?_⟩
  have never : ¬ t.DeleteEnds 3 := fun ends =>
    inner ((ends leaf ⟨6, hleaf⟩).2 fun ⟨e, mem, hkey⟩ => absent e mem hkey)
  dsimp only at returns
  rw [rows.never_deletes (by decide) home (by decide) never fuel] at returns
  cases returns

end DeleteEnds

end BTree

end F3Tree
