import F3Tree.Members

/-!
# Runs on the tree

Sequences of `btree_insert` and `btree_delete` calls on a tree that starts empty, one
at a time and each to its end.  A run may be restricted by what each call has to find
(`guard`): that a search for the key has just succeeded, that the key is not there yet.
Whatever the restriction, the tree keeps its rows (`Run.rows`).
-/

namespace F3Tree

open Keyed Fuel

/-- The keys that the calls on the tree are about: an `entry_key_t` other than zero. -/
def TreeKey (key : Int) : Prop := longMin ≤ key ∧ key ≤ longMax ∧ key ≠ 0

instance (key : Int) : Decidable (TreeKey key) :=
  inferInstanceAs (Decidable (longMin ≤ key ∧ key ≤ longMax ∧ key ≠ 0))

/-- A call; an insertion stores the key as its own value. -/
inductive TreeOp
  | insert (key : Int)
  | delete (key : Int)
deriving DecidableEq, Repr

namespace TreeOp

def key : TreeOp → Int
  | insert key => key
  | delete key => key

def perform : TreeOp → Nat → BTree → Option BTree
  | insert key, fuel, t => t.btreeInsert key key fuel
  | delete key, fuel, t => t.btreeDelete key fuel

end TreeOp

namespace BTree

section Step

variable {t t' : BTree} {n : Nat} {key : Int} {row : List Entry}

/-- An insertion ends, and adds its record to the leaves. -/
theorem Rows.inserts (h : t.Rows n 0 row) (hkey : TreeKey key) :
    ∃ t' n' row', Returns (fun fuel => t.btreeInsert key key fuel) t' ∧ t'.Rows n' 0 row' ∧
      row'.head? = row.head? ∧
      Inserted Entry.key ⟨key, key⟩ (t.contents row) (t'.contents row') ∧
      (∀ k, t'.Held k row' ↔ k = key ∨ t.Held k row) ∧ Keeps t t' fun _ => False := by
  obtain ⟨least, most, ne⟩ := hkey
  obtain ⟨before, s, after, home⟩ := h.upward.home least
  obtain ⟨t', n', row', returns, put, keeps, upward⟩ := h.btreeInsert least home key
  obtain ⟨rows, ins⟩ := put.rows upward keeps h home most ne rfl
  exact ⟨t', n', row', returns, rows, put.head home, ins,
    put.held h.isRow home most ne rfl, keeps⟩

/-- A leaf without the key may be turned around. -/
theorem Rows.turn (h : t.Rows n 0 row) {x : Entry} (mem : x ∈ row) {p : Page}
    (absent : ¬ t.Has x key) (removed : (t.page x.ptr).removeKey key = some (p, false)) :
    (t.write x.ptr p).Rows n 0 row ∧
      (∀ y ∈ row, ((t.write x.ptr p).page y.ptr).live = (t.page y.ptr).live ∧
        ((t.write x.ptr p).page y.ptr).hdr.siblingPtr = (t.page y.ptr).hdr.siblingPtr) ∧
      Keeps t (t.write x.ptr p) fun p => p.hdr.level ≠ 0 := by
  obtain ⟨before, after, hrow⟩ := List.append_of_mem mem
  obtain ⟨-, ⟨ok, -⟩, -⟩ := row_split.mp (hrow ▸ h.isRow)
  obtain ⟨p', removed', ok', live, sibling⟩ := ok.removeKey_not_mem absent
  obtain ⟨rfl, -⟩ := Prod.mk.inj (Option.some.inj (removed.symm.trans removed'))
  obtain ⟨rows, keeps, others, here⟩ := h.writeLeaf hrow ok'
  exact ⟨rows, hrow ▸ written_same others here live sibling, keeps⟩

/-- The first record of the key is taken from its home leaf. -/
theorem Rows.take (h : t.Rows n 0 row) {before after : List Entry} {s : Entry}
    (home : Cut Entry.key key row (before ++ [s]) after) {p : Page} (has : t.Has s key)
    (removed : (t.page s.ptr).removeKey key = some (p, true)) :
    (t.write s.ptr p).Rows n 0 row ∧
      (∃ front back, t.contents row = front ++ ⟨key, key⟩ :: back ∧
        (t.write s.ptr p).contents row = front ++ back) ∧
      Keeps t (t.write s.ptr p) fun p => p.hdr.level ≠ 0 := by
  obtain ⟨-, ⟨ok, -⟩, -⟩ := row_split.mp (home.split ▸ h.isRow)
  obtain ⟨p', front, e, back, removed', ok', hlive, -, hkey, hlive'⟩ := ok.removeKey_mem has
  obtain ⟨rfl, -⟩ := Prod.mk.inj (Option.some.inj (removed.symm.trans removed'))
  obtain ⟨rows, keeps, -⟩ := h.writeLeaf home.split ok'
  obtain ⟨-, -, -, contents⟩ := h.isRow.thin.write h.upward.nodup home.split ok'.thin
  have value : e = ⟨key, key⟩ := by
    have hptr := (ok.leaf rfl).2 e (hlive ▸ by simp)
    rw [hkey] at hptr
    cases e
    exact congrArg₂ Entry.mk hkey hptr
  refine ⟨rows, ⟨t.contents before ++ front, back ++ t.contents after, ?_, ?_⟩, keeps⟩
  · rw [home.split, contents_append, contents_cons, ok.entries_leaf, hlive, value]
    simp only [List.append_assoc, List.cons_append]
  · rw [contents, ok'.entries_leaf, hlive']
    simp only [List.append_assoc]

/-- A deletion that ends keeps the rows, and takes at most one record of its key. -/
theorem Rows.deletes (h : t.Rows n 0 row) (hkey : TreeKey key) {fuel : Nat}
    (run : t.btreeDelete key fuel = some t') :
    t'.Rows n 0 row ∧ Keeps t t' (fun p => p.hdr.level ≠ 0) ∧
      (t'.contents row = t.contents row ∨
        ∃ front back, t.contents row = front ++ ⟨key, key⟩ :: back ∧
          t'.contents row = front ++ back) ∧
      (∀ k ≠ key, (t'.Held k row ↔ t.Held k row)) ∧ (t.Single row → t'.Single row) := by
  obtain ⟨least, most, ne⟩ := hkey
  induction fuel generalizing t with
  | zero => cases run
  | succ fuel ih =>
      obtain ⟨before, s, after, home⟩ := h.upward.home least
      rcases h.btreeDelete_cases least ne home run with
        rfl | ⟨has, -, p, removed, rfl⟩ | ⟨x, mem, absent, p, removed, run⟩
      · exact ⟨h, ⟨rfl, le_rfl, rfl, fun _ _ _ => rfl⟩, Or.inl rfl, fun _ _ => Iff.rfl, id⟩
      · obtain ⟨rows, ⟨front, back, hfront, hback⟩, keeps⟩ := h.take home has removed
        have held : ∀ k ≠ key, ((t.write s.ptr p).Held k row ↔ t.Held k row) := fun k hk => by
          rw [h.held_take home has removed]
          exact and_iff_left fun heq => absurd heq hk
        exact ⟨rows, keeps, Or.inr ⟨front, back, hfront, hback⟩, held, fun single =>
          single.take hfront hback held⟩
      · obtain ⟨rows, same, keeps⟩ := h.turn mem absent removed
        obtain ⟨rows', keeps', change, held', single'⟩ := ih rows run
        have contents : (t.write x.ptr p).contents row = t.contents row := by
          rw [rows.isRow.contents_leaf, h.isRow.contents_leaf]
          exact List.flatMap_congr fun y hy => (same y hy).1
        have held := held_same fun y hy => (same y hy).1
        exact ⟨rows', keeps.trans keeps', contents ▸ change, fun k hk =>
          (held' k hk).trans (held k), fun single => single' (single.same contents held)⟩

end Step

/-! ## Runs -/

/-- The tree after the calls `ops` on `start`, each of which met `guard` and came to its
end. -/
inductive Run (start : BTree) (guard : BTree → TreeOp → Prop) : List TreeOp → BTree → Prop
  | nil : Run start guard [] start
  | step {ops : List TreeOp} {t t' : BTree} (op : TreeOp) : Run start guard ops t → guard t op →
    Returns (fun fuel => op.perform fuel t) t' → Run start guard (ops ++ [op]) t'

section Run

variable {alloc : Allocator} {start t t' : BTree} {guard : BTree → TreeOp → Prop}
  {ops : List TreeOp} {op : TreeOp}

theorem steady_perform (op : TreeOp) (t : BTree) : Steady fun fuel => op.perform fuel t := by
  cases op with
  | insert key => exact steady_btreeInsert key key t
  | delete key => exact steady_btreeDelete key t

/-- A run ends with one tree. -/
theorem Run.unique (run : Run start guard ops t) (run' : Run start guard ops t') : t = t' := by
  generalize hops : ops = ops' at run'
  induction run generalizing ops' t' with
  | nil =>
      cases run' with
      | nil => rfl
      | step => simp at hops
  | step _ run _ returns ih =>
      cases run' with
      | nil => simp at hops
      | step _ run' _ returns' =>
          obtain ⟨rfl, hop⟩ := List.append_inj' hops rfl
          obtain rfl := List.singleton_inj.mp hop
          obtain rfl := ih _ rfl run'
          exact (steady_perform _ _).unique returns returns'

theorem Run.concat (run : Run start guard (ops ++ [op]) t') :
    ∃ t, Run start guard ops t ∧ guard t op ∧ Returns (fun fuel => op.perform fuel t) t' := by
  generalize hops : ops ++ [op] = ops' at run
  cases run with
  | nil => simp at hops
  | step _ run met returns =>
      obtain ⟨rfl, hop⟩ := List.append_inj' hops rfl
      obtain rfl := List.singleton_inj.mp hop
      exact ⟨_, run, met, returns⟩

theorem Run.exists_point (run : Run start guard ops t) {before : List TreeOp}
    (hbefore : before <+: ops) : ∃ t', Run start guard before t' := by
  induction run with
  | nil =>
      obtain rfl := List.prefix_nil.mp hbefore
      exact ⟨_, .nil⟩
  | step op run met returns ih =>
      rcases List.prefix_concat_iff.mp hbefore with rfl | hbefore
      · exact ⟨_, run.step op met returns⟩
      · exact ih hbefore

theorem Run.mono {guard' : BTree → TreeOp → Prop} (run : Run start guard ops t)
    (sub : ∀ t op, guard t op → guard' t op) : Run start guard' ops t := by
  induction run with
  | nil => exact .nil
  | step op _ met returns ih => exact ih.step op (sub _ _ met) returns

theorem Run.keys (run : Run start guard ops t) (keys : ∀ t op, guard t op → TreeKey op.key) :
    ∀ op ∈ ops, TreeKey op.key := by
  induction run with
  | nil => simp
  | step _ _ met _ ih =>
      exact List.forall_mem_append.mpr ⟨ih, List.forall_mem_singleton.mpr (keys _ _ met)⟩

/-- The calls one after another, as long as each passes the test. -/
def calls (test : BTree → TreeOp → Bool) (fuel : Nat) : List TreeOp → BTree → Option BTree
  | [], t => some t
  | op :: ops, t => if test t op then (op.perform fuel t).bind (calls test fuel ops) else none

theorem Run.calls {test : BTree → TreeOp → Bool} {fuel : Nat} {more : List TreeOp}
    (sound : ∀ t op, test t op = true → guard t op) (run : Run start guard ops t)
    (h : calls test fuel more t = some t') : Run start guard (ops ++ more) t' := by
  induction more generalizing ops t with
  | nil =>
      obtain rfl := Option.some.inj h
      rwa [List.append_nil]
  | cons op more ih =>
      rw [BTree.calls] at h
      split at h
      · rename_i met
        obtain ⟨t₁, returns, h⟩ := Option.bind_eq_some_iff.mp h
        simpa using ih (run.step op (sound t op met) ⟨fuel, returns⟩) h
      · cases h

/-- A run whose calls pass the test, to a tree that is what is asked for. -/
theorem exists_run {test : BTree → TreeOp → Bool} {fuel : Nat} {P : BTree → Prop}
    [DecidablePred P] (sound : ∀ t op, test t op = true → guard t op)
    (checked : (calls test fuel ops start).any (fun t => decide (P t)) = true) :
    ∃ t, Run start guard ops t ∧ P t := by
  obtain ⟨t, ran, holds⟩ := (Option.any_eq_true _ _).mp checked
  have run := Run.nil.calls sound ran
  rw [List.nil_append] at run
  exact ⟨t, run, of_decide_eq_true holds⟩

/-- A call keeps the rows with their leftmost leaf, what is allocated, and what the pool
knows of the root; as long as nothing is inserted twice, no key has two records. -/
theorem Rows.perform {n : Nat} {row : List Entry} (h : t.Rows n 0 row) (hkey : TreeKey op.key)
    (returns : Returns (fun fuel => op.perform fuel t) t') :
    ∃ n' row', t'.Rows n' 0 row' ∧ row'.head? = row.head? ∧ Keeps t t' (fun _ => False) ∧
      (t.Single row → (op = .insert op.key → ¬ t.Held op.key row) → t'.Single row') := by
  cases op with
  | insert key =>
      obtain ⟨t₁, n', row', returns', rows', head, ins, held, keeps⟩ := h.inserts hkey
      obtain rfl := (steady_btreeInsert key key t).unique returns returns'
      exact ⟨n', row', rows', head, keeps, fun single new => single.insert (new rfl) ins held⟩
  | delete key =>
      obtain ⟨fuel, hfuel⟩ := returns
      obtain ⟨rows', keeps, -, -, single'⟩ := h.deletes hkey hfuel
      exact ⟨n, row, rows', rfl, keeps.mono fun _ => False.elim, fun single _ => single' single⟩

theorem Run.rows (run : Run start guard ops t) (keys : ∀ t op, guard t op → TreeKey op.key)
    {n : Nat} {row : List Entry} (h : start.Rows n 0 row) :
    ∃ n' row', t.Rows n' 0 row' ∧ row'.head? = row.head? ∧ Keeps start t fun _ => False := by
  induction run with
  | nil => exact ⟨n, row, h, rfl, rfl, le_rfl, rfl, fun _ _ => False.elim⟩
  | step _ _ met returns ih =>
      obtain ⟨n₁, row₁, rows₁, head₁, keeps₁⟩ := ih
      obtain ⟨n', row', rows', head', keeps', -⟩ := rows₁.perform (keys _ _ met) returns
      exact ⟨n', row', rows', head'.trans head₁, keeps₁.trans keeps'⟩

/-- At every point of a run less is allocated. -/
theorem Run.point (run : Run start guard ops t) (keys : ∀ t op, guard t op → TreeKey op.key)
    {n : Nat} {row : List Entry} (h : start.Rows n 0 row) {before : List TreeOp}
    (hbefore : before <+: ops) :
    ∃ t', Run start guard before t' ∧ ∀ p, t'.Allocated p → t.Allocated p := by
  induction run with
  | nil =>
      obtain rfl := List.prefix_nil.mp hbefore
      exact ⟨_, .nil, fun p => id⟩
  | @step ops t t' op run met returns ih =>
      rcases List.prefix_concat_iff.mp hbefore with rfl | hbefore
      · exact ⟨t', run.step op met returns, fun p => id⟩
      · obtain ⟨t₀, run₀, sub⟩ := ih hbefore
        obtain ⟨n₁, row₁, rows₁, -⟩ := run.rows keys h
        obtain ⟨-, -, -, -, keeps, -⟩ := rows₁.perform (keys _ _ met) returns
        exact ⟨t₀, run₀, fun p hp => keeps.allocated_of (sub p hp)⟩

/-- A bump allocator stays above its base. -/
theorem Run.not_allocated {base : Nat} (run : Run (empty (.bump base)) guard ops t)
    (keys : ∀ t op, guard t op → TreeKey op.key) {key : Int} (hkey : key ≤ base) :
    ¬ t.Allocated key := by
  obtain ⟨n, row, -, -, keeps⟩ := run.rows keys (rows_empty _).1
  rintro ⟨i, -, rfl⟩
  rw [keeps.alloc] at hkey
  change (base : Int) + 1 + i ≤ base at hkey
  omega

end Run

end BTree

end F3Tree
