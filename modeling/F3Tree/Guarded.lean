import F3Tree.Lib.Runs
import F3Tree.TreeRun

/-!
# The tree as a set

The replays apply an erase only when a search for its key has just succeeded.  Under
this guard searches answer by the last call on a key exactly as long as every deletion
finds one record of its key in the home leaf (`guarded_run_iff`): a key that was
inserted again while present has two, and its deletion takes only the first.
-/

namespace F3Tree

open Keyed Fuel Runs

/-- The last call on the key inserts it. -/
def LastInsert (ops : List TreeOp) (key : Int) : Prop :=
  (ops.filter fun op => op.key = key).getLast? = some (.insert key)

instance (ops : List TreeOp) (key : Int) : Decidable (LastInsert ops key) :=
  inferInstanceAs (Decidable (_ = _))

theorem lastInsert_concat (ops : List TreeOp) (op : TreeOp) (key : Int) :
    LastInsert (ops ++ [op]) key ↔
      if op.key = key then op = .insert key else LastInsert ops key := by
  rw [LastInsert, LastInsert, List.filter_append]
  split
  · rename_i hkey
    rw [List.filter_cons_of_pos (by simpa using hkey), List.filter_nil, List.getLast?_concat,
      Option.some_inj]
  · rename_i hkey
    rw [List.filter_cons_of_neg (by simpa using hkey), List.filter_nil, List.append_nil]

theorem LastInsert.exists {ops : List TreeOp} {key : Int} (last : LastInsert ops key) :
    ∃ op ∈ ops, op.key = key :=
  ⟨_, (List.mem_filter.mp (List.mem_of_getLast? last)).1, rfl⟩

namespace BTree

/-- A search for the key ends, and finds it or not. -/
def Answers (t : BTree) (key : Int) (found : Prop) : Prop :=
  ∃ v, Returns (t.btreeSearch key) v ∧ (v ≠ 0 ↔ found)

/-- `apply_buffered_op` deletes what a search has just found. -/
def Guarded (t : BTree) (op : TreeOp) : Prop :=
  TreeKey op.key ∧ (op = .delete op.key → t.Answers op.key True)

/-- The leaf that a descent for the key comes to has one record of it. -/
def OneCopy (t : BTree) (key : Int) : Prop :=
  ∀ leaf, Returns (fun fuel => t.descend aboveLeaves key fuel t.root) leaf →
    t.copies leaf key = 1

section Guarded

variable {alloc : Allocator} {t t' : BTree} {n : Nat} {row : List Entry} {key : Int}
  {ops : List TreeOp} {op : TreeOp}

/-- A key that is no page address is not the address of the leaf to the right. -/
theorem Row.apart (h : t.Row 0 row none) {before after : List Entry} {s : Entry}
    (hrow : row = before ++ s :: after) (ne : key ≠ 0) (distinct : ¬ t.Allocated key) :
    key ≠ (t.page s.ptr).hdr.siblingPtr := by
  obtain ⟨-, ⟨ok, -⟩, hafter⟩ := row_split.mp (hrow ▸ h)
  rintro rfl
  cases after with
  | nil => exact ne ok.sibling
  | cons x after => exact distinct (ok.sibling ▸ hafter.2.1)

theorem Rows.answers (h : t.Rows n 0 row) (least : longMin ≤ key)
    (distinct : t.Held key row → ¬ t.Allocated key) (found : Prop) :
    t.Answers key found ↔ (t.Held key row ↔ found) := by
  obtain ⟨before, s, after, home⟩ := h.upward.home least
  have mem : s ∈ row := home.split ▸ by simp
  have returns := h.btreeSearch least home
  have answer : t.Has s key ∧ key ≠ (t.page s.ptr).hdr.siblingPtr ↔ t.Held key row := by
    rw [held_iff home]
    exact and_iff_left_of_imp fun has => h.isRow.apart home.split (h.isRow.ne_zero mem has)
      (distinct ((held_iff home).mpr has))
  have found_iff : ∀ v, Returns (t.btreeSearch key) v → (v ≠ 0 ↔ t.Held key row) := by
    intro v hv
    obtain rfl := (steady_btreeSearch t key).unique hv returns
    rw [← answer]
    split
    · rename_i has
      exact iff_of_true (h.isRow.ne_zero mem has.1) has
    · rename_i has
      exact iff_of_false (not_not.mpr rfl) has
  constructor
  · rintro ⟨v, hv, hfound⟩
    exact (found_iff v hv).symm.trans hfound
  · exact fun hfound => ⟨_, returns, (found_iff _ returns).trans hfound⟩

theorem Rows.oneCopy_iff (h : t.Rows n 0 row) (hkey : TreeKey key) {before after : List Entry}
    {s : Entry} (home : Cut Entry.key key row (before ++ [s]) after) :
    t.OneCopy key ↔ t.copies s.ptr key = 1 := by
  have descends := h.descends hkey.1 home
  constructor
  · exact fun one => one _ descends
  · rintro one leaf hleaf
    rwa [(steady_descend _ _ _ _).unique hleaf descends]

/-- What a guarded call does to the keys that are held. -/
theorem Rows.performs (h : t.Rows n 0 row) (guard : Guarded t op)
    (distinct : ¬ t.Allocated op.key) (returns : Returns (fun fuel => op.perform fuel t) t') :
    ∃ n' row', t'.Rows n' 0 row' ∧ row'.head? = row.head? ∧
      (t.Single row → (op = .insert op.key → ¬ t.Held op.key row) → t'.Single row') ∧
      ∀ k, (k = op.key → (t'.Held k row' ↔ op = .insert k ∨ ¬ t.OneCopy k)) ∧
        (k ≠ op.key → (t'.Held k row' ↔ t.Held k row)) := by
  cases op with
  | insert key =>
      obtain ⟨t₁, n', row', returns', rows', head, ins, held, -⟩ := h.inserts guard.1
      obtain rfl := (steady_btreeInsert key key t).unique returns returns'
      refine ⟨n', row', rows', head, fun single new => single.insert (new rfl) ins held,
        fun k => ?_⟩
      rw [held]
      refine ⟨?_, or_iff_right⟩
      rintro rfl
      exact iff_of_true (Or.inl rfl) (Or.inl rfl)
  | delete key =>
      have hkey : TreeKey key := guard.1
      obtain ⟨before, s, after, home⟩ := h.upward.home hkey.1
      have held := (h.answers hkey.1 (fun _ => distinct) True).mp (guard.2 rfl)
      have has := (held_iff home).mp (held.mpr trivial)
      have apart := h.isRow.apart home.split hkey.2.2 distinct
      obtain ⟨p, removed, returns'⟩ := h.btreeDelete_found hkey.1 home has apart
      obtain rfl := (steady_btreeDelete key t).unique returns returns'
      obtain ⟨rows', ⟨front, back, hfront, hback⟩, -⟩ := h.take home has removed
      have held' := fun k => h.held_take home has removed k
      refine ⟨n, row, rows', rfl, fun single _ => single.take hfront hback fun k hk => ?_,
        fun k => ?_⟩
      · rw [held']
        exact and_iff_left fun heq => absurd heq hk
      · rw [held']
        refine ⟨?_, fun hk => and_iff_left fun heq => absurd heq hk⟩
        rintro rfl
        rw [h.oneCopy_iff hkey home, and_iff_right (held.mpr trivial)]
        exact ⟨fun many => Or.inr (many rfl), fun many _ => many.resolve_left (by simp)⟩

/-- A guarded call ends. -/
theorem Rows.completes (h : t.Rows n 0 row) (guard : Guarded t op)
    (distinct : ¬ t.Allocated op.key) : ∃ t', Returns (fun fuel => op.perform fuel t) t' := by
  cases op with
  | insert key =>
      obtain ⟨t', n', row', returns, -⟩ := h.inserts guard.1
      exact ⟨t', returns⟩
  | delete key =>
      have hkey : TreeKey key := guard.1
      obtain ⟨before, s, after, home⟩ := h.upward.home hkey.1
      have held := (h.answers hkey.1 (fun _ => distinct) True).mp (guard.2 rfl)
      have apart := h.isRow.apart home.split hkey.2.2 distinct
      obtain ⟨p, -, returns⟩ := h.btreeDelete_found hkey.1 home
        ((held_iff home).mp (held.mpr trivial)) apart
      exact ⟨_, returns⟩

/-- No guarded call gets stuck. -/
theorem Run.extends (run : Run (empty alloc) Guarded ops t) (guard : Guarded t op)
    (distinct : ¬ t.Allocated op.key) : ∃ t', Run (empty alloc) Guarded (ops ++ [op]) t' := by
  obtain ⟨n, row, rows, -⟩ := run.rows (fun _ _ guard => guard.1) (rows_empty alloc).1
  obtain ⟨t', returns⟩ := rows.completes guard distinct
  exact ⟨t', run.step op guard returns⟩

/-- The keys held stay those inserted last exactly when a deletion finds one record. -/
theorem Rows.performs_iff (h : t.Rows n 0 row) (guard : Guarded t op)
    (distinct : ¬ t.Allocated op.key) (returns : Returns (fun fuel => op.perform fuel t) t')
    (held : ∀ k, t.Held k row ↔ LastInsert ops k) :
    ∃ n' row', t'.Rows n' 0 row' ∧ row'.head? = row.head? ∧
      (t.Single row → (op = .insert op.key → ¬ t.Held op.key row) → t'.Single row') ∧
      (∀ k, t'.Held k row' → ∃ op' ∈ ops ++ [op], op'.key = k) ∧
      ((∀ k, t'.Held k row' ↔ LastInsert (ops ++ [op]) k) ↔
        ∀ key, op = .delete key → t.OneCopy key) := by
  obtain ⟨n', row', rows', head, single, held'⟩ := h.performs guard distinct returns
  refine ⟨n', row', rows', head, single, fun k hk => ?_, ?_⟩
  · by_cases heq : k = op.key
    · exact ⟨op, by simp, heq.symm⟩
    · obtain ⟨op', mem, hop⟩ := ((held k).mp (((held' k).2 heq).mp hk)).exists
      exact ⟨op', List.mem_append_left _ mem, hop⟩
  constructor
  · rintro same key rfl
    by_contra many
    have last := (same key).mp (((held' key).1 rfl).mpr (Or.inr many))
    rw [lastInsert_concat, if_pos (by rfl)] at last
    cases last
  · intro one k
    rw [lastInsert_concat]
    by_cases hk : k = op.key
    · rw [if_pos hk.symm, (held' k).1 hk]
      refine or_iff_left_of_imp fun many => ?_
      cases op with
      | insert key => exact congrArg TreeOp.insert hk.symm
      | delete key => exact absurd (one k (congrArg TreeOp.delete hk.symm)) many
    · rw [if_neg (Ne.symm hk), (held' k).2 hk, held]

theorem held_empty (alloc : Allocator) (key : Int) :
    ¬ (empty alloc).Held key [⟨longMin, alloc.addr 0⟩] := by
  have live : (Page.new 0).live = [] := (Page.holds_new 0).live_eq
  rintro (⟨⟨-, e, mem, -⟩, -⟩ | held)
  · have mem : e ∈ (Page.new 0).live := mem
    rw [live] at mem
    exact absurd mem List.not_mem_nil
  · exact held

/-- Searches answer by the last call exactly as long as every deletion finds one record
of its key.  Keys are not 0, absent keys are not deleted, and no key is the address of a page
that is allocated at the end of the run. -/
theorem guarded_run_iff (run : Run (empty alloc) Guarded ops t)
    (distinct : ∀ op ∈ ops, ¬ t.Allocated op.key) :
    AtPoints (fun before => ∀ t, Run (empty alloc) Guarded before t → ∀ key, TreeKey key →
      t.Answers key (LastInsert before key)) ops ↔
    StepsMeet (fun before op => ∀ t, Run (empty alloc) Guarded before t → ∀ key, op = .delete key →
      t.OneCopy key) ops := by
  have keys : ∀ (t : BTree) op, Guarded t op → TreeKey op.key := fun _ _ guard => guard.1
  have apart : ∀ {before t'}, before <+: ops → Run (empty alloc) Guarded before t' →
      ∀ op ∈ ops, ¬ t'.Allocated op.key := fun point run' op mem hop => by
    obtain ⟨t₁, run₁, sub⟩ := run.point keys (rows_empty alloc).1 point
    obtain rfl := run₁.unique run'
    exact distinct op mem (sub _ hop)
  -- As long as the steps meet the condition, the keys held are those inserted last.
  have members : ∀ before, before <+: ops →
      StepsMeet (fun before op => ∀ t, Run (empty alloc) Guarded before t → ∀ key, op = .delete key →
        t.OneCopy key) before →
      ∀ t, Run (empty alloc) Guarded before t → ∃ n row, t.Rows n 0 row ∧
        ∀ k, t.Held k row ↔ LastInsert before k := by
    intro before point meet
    refine points_of_steps (fun before => ∀ t, Run (empty alloc) Guarded before t → ∃ n row,
      t.Rows n 0 row ∧ ∀ k, t.Held k row ↔ LastInsert before k) ?_ ?_ meet
    · intro t run
      obtain rfl := run.unique .nil
      exact ⟨0, _, (rows_empty alloc).1, fun k => iff_of_false (held_empty alloc k) (by simp [LastInsert])⟩
    · intro before' op point' ih met t run
      obtain ⟨t₀, run₀, guard, returns⟩ := run.concat
      obtain ⟨n, row, rows, held⟩ := ih t₀ run₀
      have mem : op ∈ ops := (point'.trans point).subset (by simp)
      have prior : before' <+: ops := (List.prefix_append _ _).trans (point'.trans point)
      obtain ⟨n', row', rows', -, -, -, same⟩ :=
        rows.performs_iff guard (apart prior run₀ op mem) returns held
      exact ⟨n', row', rows', same.mpr (met t₀ run₀)⟩
  have answers : ∀ {before t n row}, before <+: ops → t.Rows n 0 row → Run (empty alloc) Guarded before t →
      (∀ k, t.Held k row → ∃ op ∈ before, op.key = k) →
      ((∀ key, TreeKey key → t.Answers key (LastInsert before key)) ↔
        ∀ k, t.Held k row ↔ LastInsert before k) := by
    intro before t n row point rows run' from_ops
    have hdistinct : ∀ k, t.Held k row → ¬ t.Allocated k := fun k hk => by
      obtain ⟨op, mem, rfl⟩ := from_ops k hk
      exact apart point run' op (point.subset mem)
    constructor
    · intro all k
      by_cases hk : TreeKey k
      · exact (rows.answers hk.1 (hdistinct k) _).mp (all k hk)
      · have none : ¬ ∃ op ∈ before, op.key = k := fun ⟨op, mem, hop⟩ =>
          hk (hop ▸ run'.keys keys op mem)
        exact iff_of_false (fun held => none (from_ops k held)) fun last => none last.exists
    · exact fun same k hk => (rows.answers hk.1 (hdistinct k) _).mpr (same k)
  refine points_iff_steps ?_ fun before op point meet => ?_
  · intro t run' key hkey
    obtain ⟨n, row, rows, held⟩ := members [] List.nil_prefix stepsMeet_nil t run'
    refine (answers List.nil_prefix rows run' fun k hk => ((held k).mp hk).exists).mpr held key hkey
  · have prior : before <+: ops := (List.prefix_append _ _).trans point
    have mem : op ∈ ops := point.subset (by simp)
    obtain ⟨t', run', -⟩ := run.point keys (rows_empty alloc).1 point
    obtain ⟨t₀, run₀, guard, returns⟩ := run'.concat
    obtain ⟨n, row, rows, held⟩ := members before prior meet t₀ run₀
    obtain ⟨n', row', rows', -, -, from_ops, same⟩ :=
      rows.performs_iff guard (apart prior run₀ op mem) returns held
    have here := (answers point rows' run' from_ops).trans same
    constructor
    · rintro all t₁ run₁
      obtain rfl := run₁.unique run₀
      exact here.mp (all t' run')
    · rintro one t₁ run₁
      obtain rfl := run₁.unique run'
      exact here.mpr (one t₀ run₀)

theorem guarded_insert (hkey : TreeKey key) : Guarded t (.insert key) :=
  ⟨hkey, fun h => by cases h⟩

theorem guarded_key (t : BTree) (op : TreeOp) (guard : Guarded t op) : TreeKey op.key := guard.1

/-- Calls that pass a test meet what the test stands for. -/
theorem Run.stepsMeet_calls {start : BTree} {guard condition : BTree → TreeOp → Prop}
    {test : BTree → TreeOp → Bool} {fuel : Nat} {more : List TreeOp}
    (sound : ∀ t op, test t op = true → guard t op ∧ condition t op)
    (run : Run start guard ops t)
    (meet : StepsMeet (fun before op => ∀ t, Run start guard before t → condition t op) ops)
    (h : BTree.calls test fuel more t = some t') :
    StepsMeet (fun before op => ∀ t, Run start guard before t → condition t op) (ops ++ more) := by
  induction more generalizing ops t with
  | nil => rwa [List.append_nil]
  | cons op more ih =>
      rw [BTree.calls] at h
      split at h
      · rename_i met
        obtain ⟨t₁, returns, h⟩ := Option.bind_eq_some_iff.mp h
        obtain ⟨guarded, holds⟩ := sound t op met
        have meet' := (stepsMeet_concat ops op).mpr ⟨meet, fun t₀ run₀ => run₀.unique run ▸ holds⟩
        simpa using ih (run.step op guarded ⟨fuel, returns⟩) meet' h
      · cases h

/-- A run whose calls pass such a test, to a tree that is what is asked for. -/
theorem exists_run_meeting {start : BTree} {guard condition : BTree → TreeOp → Prop}
    {test : BTree → TreeOp → Bool} {fuel : Nat} {P : BTree → Prop} [DecidablePred P]
    (sound : ∀ t op, test t op = true → guard t op ∧ condition t op)
    (checked : (BTree.calls test fuel ops start).any (fun t => decide (P t)) = true) :
    ∃ t, Run start guard ops t ∧ P t ∧
      StepsMeet (fun before op => ∀ t, Run start guard before t → condition t op) ops := by
  obtain ⟨t, ran, holds⟩ := (Option.any_eq_true _ _).mp checked
  have run := Run.nil.calls (fun t op h => (sound t op h).1) ran
  have meet := Run.nil.stepsMeet_calls sound stepsMeet_nil ran
  rw [List.nil_append] at run meet
  exact ⟨t, run, of_decide_eq_true holds, meet⟩

/-- A call on a key; what is deleted can be found. -/
def ready (fuel : Nat) (t : BTree) : TreeOp → Bool
  | .insert key => decide (TreeKey key)
  | .delete key => decide (TreeKey key) && (t.btreeSearch key fuel).any (· ≠ 0)

theorem guarded_of_ready {op : TreeOp} {fuel : Nat} (h : t.ready fuel op = true) :
    Guarded t op := by
  cases op with
  | insert key => exact guarded_insert (of_decide_eq_true h)
  | delete key =>
      obtain ⟨hkey, found⟩ := Bool.and_eq_true_iff.mp h
      obtain ⟨v, hv, ne⟩ := (Option.any_eq_true _ _).mp found
      have nonzero : v ≠ 0 := of_decide_eq_true ne
      exact ⟨of_decide_eq_true hkey, fun _ => ⟨v, ⟨fuel, hv⟩, iff_true_intro nonzero⟩⟩

/-- A key that is deleted has one record in its leaf. -/
def lone (fuel : Nat) (t : BTree) : TreeOp → Bool
  | .insert _ => true
  | .delete key => (t.descend aboveLeaves key fuel t.root).any fun leaf => t.copies leaf key = 1

theorem oneCopy_of_lone {fuel : Nat} (h : t.lone fuel (.delete key) = true) : t.OneCopy key := by
  obtain ⟨leaf, hleaf, one⟩ := (Option.any_eq_true _ _).mp h
  intro leaf' returns
  obtain rfl := (steady_descend _ _ _ _).unique returns ⟨fuel, hleaf⟩
  exact of_decide_eq_true one

/-- Insertions that split the only leaf, deletions that empty the second one, and an insertion
into it. -/
def splitAndEmpty : List TreeOp :=
  (List.range 28).map (fun i => .insert (i + 1)) ++
    (List.range 15).map (fun i => .delete (i + 14)) ++ [.insert 20]

/-- Two leaves, one of them emptied and used again. -/
theorem guarded_run_split :
    ∃ t, Run (empty (.bump 100)) Guarded splitAndEmpty t ∧ t.root ≠ t.rootRef.rootPage ∧
      AtPoints (fun before => ∀ t, Run (empty (.bump 100)) Guarded before t → ∀ key, TreeKey key →
        t.Answers key (LastInsert before key)) splitAndEmpty := by
  have checked : (calls (fun t op => t.ready 6 op && t.lone 6 op) 6 splitAndEmpty
      (empty (.bump 100))).any (fun t => decide (t.root ≠ t.rootRef.rootPage)) = true := by
    decide +kernel
  have sound : ∀ t op, (ready 6 t op && lone 6 t op) = true →
      Guarded t op ∧ ∀ key, op = .delete key → t.OneCopy key := by
    intro t op h
    obtain ⟨ready, lone⟩ := Bool.and_eq_true_iff.mp h
    refine ⟨guarded_of_ready ready, fun key hop => ?_⟩
    subst hop
    exact oneCopy_of_lone lone
  obtain ⟨t, run, twoLeaves, meet⟩ := exists_run_meeting sound checked
  have low : ∀ op ∈ splitAndEmpty, op.key ≤ 100 := by decide
  exact ⟨t, run, twoLeaves, (guarded_run_iff run fun op mem =>
    run.not_allocated guarded_key (low op mem)).mpr meet⟩

/-- A key that is inserted twice is still found after its deletion. -/
theorem guarded_run_twice :
    ∃ t, Run (empty (.bump 100)) Guarded [.insert 1, .insert 1, .delete 1] t ∧
      (∀ op ∈ [TreeOp.insert 1, .insert 1, .delete 1], ¬ t.Allocated op.key) ∧
      ¬ t.Answers 1 (LastInsert [.insert 1, .insert 1, .delete 1] 1) := by
  have run : Run (empty (.bump 100)) Guarded [.insert 1, .insert 1, .delete 1] _ :=
    ((Run.nil.step (.insert 1) (guarded_insert (by decide)) ⟨2, rfl⟩).step
      (.insert 1) (guarded_insert (by decide)) ⟨2, rfl⟩).step (.delete 1)
      ⟨by decide, fun _ => ⟨1, ⟨2, rfl⟩, by decide⟩⟩ ⟨2, rfl⟩
  have low : ∀ op ∈ [TreeOp.insert 1, .insert 1, .delete 1], op.key ≤ 100 := by decide
  refine ⟨_, run, fun op mem => run.not_allocated guarded_key (low op mem), ?_⟩
  rintro ⟨v, hv, found⟩
  have one : v = 1 := (steady_btreeSearch _ _).unique hv ⟨2, rfl⟩
  have last : LastInsert [.insert 1, .insert 1, .delete 1] 1 := found.mp (one ▸ by decide)
  exact absurd last (by decide)

end Guarded

end BTree

end F3Tree
