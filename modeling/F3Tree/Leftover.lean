import F3Tree.Restart

/-!
# The records behind the live ones

A page keeps records behind its first null `ptr`: what a split has moved to the right, or
what was never written.  In a leaf they lie above the live ones, and not below the slot of
the next leaf (`Trailing`), so that all records of a leaf are in the order of their keys.
-/

namespace F3Tree

open Keyed Fuel

/-- The least key of the next slot, `LONG_MAX` in the last one. -/
def boundary (next : Option Entry) : Int := (next.map Entry.key).getD longMax

/-- The records of a leaf are in order, those behind the live ones beyond the boundary, and
each that is not null is a key. -/
structure Trailing (p : Page) (next : Option Entry) : Prop where
  ordered : Ordered Entry.key p.records
  dead : ∀ e ∈ p.records.drop p.live.length, boundary next ≤ e.key
  values : ∀ e ∈ p.records, e.ptr = 0 ∨ e.ptr = e.key

section Trailing

variable {p p' : Page} {l : Nat} {s : Entry} {next : Option Entry} {key : Int}

theorem le_boundary (most : key ≤ longMax) (le : ∀ n ∈ next, key ≤ n.key) :
    key ≤ boundary next := by
  cases next with
  | none => exact most
  | some n => exact le n rfl

theorem PageOk.le_boundary (ok : PageOk p l s next) : ∀ e ∈ p.live, e.key ≤ boundary next :=
  fun e mem => F3Tree.le_boundary (ok.range e (ok.mem_records mem)).2 fun n hn =>
    (ok.below n hn).2.1 e mem

theorem Trailing.of_holds {es rest : List Entry} {z : Entry} (h : p.Holds es z rest)
    (ordered : Ordered Entry.key es) (le : ∀ e ∈ es, e.key ≤ boundary next)
    (ordered' : Ordered Entry.key (z :: rest)) (dead : ∀ e ∈ z :: rest, boundary next ≤ e.key)
    (values : ∀ e ∈ es ++ z :: rest, e.ptr = 0 ∨ e.ptr = e.key) : Trailing p next := by
  refine ⟨?_, ?_, h.records ▸ values⟩
  · rw [h.records]
    exact ordered.append ordered' fun x hx y hy => (le x hx).trans (dead y hy)
  · rw [h.live_eq, h.records, List.drop_left]
    exact dead

theorem Trailing.dead_of {es rest : List Entry} {z : Entry} (tr : Trailing p next)
    (h : p.Holds es z rest) :
    Ordered Entry.key (z :: rest) ∧ ∀ e ∈ z :: rest, boundary next ≤ e.key := by
  have dead := tr.dead
  rw [h.live_eq, h.records, List.drop_left] at dead
  have ordered := tr.ordered
  rw [h.records] at ordered
  exact ⟨(List.pairwise_append.mp ordered).2.1, dead⟩

/-- Records that were never written. -/
theorem blank_records (n : Nat) :
    Ordered Entry.key (({} : Entry) :: List.replicate n {}) ∧
      ∀ e ∈ ({} : Entry) :: List.replicate n {}, e.key = longMax := by
  rw [← List.replicate_succ]
  exact ⟨List.pairwise_replicate.mpr (Or.inr (le_refl longMax)), fun e mem =>
    congrArg Entry.key (List.eq_of_mem_replicate mem)⟩

theorem trailing_new : Trailing (Page.new 0) none := by
  obtain ⟨ordered, key⟩ := blank_records (cardinality - 1)
  refine .of_holds (Page.holds_new 0) .nil (by simp) ordered (fun e mem => (key e mem).ge) ?_
  exact fun e mem => Or.inl (congrArg Entry.ptr (List.eq_of_mem_replicate (n := cardinality) mem))

theorem PageOk.least_le_longMax (ok : PageOk p l s next) : s.key ≤ longMax := by
  have size : p.records.length = 28 := ok.size
  cases hrecords : p.records with
  | nil => simp [hrecords] at size
  | cons e rest =>
      have range := ok.range e (hrecords ▸ List.mem_cons_self)
      exact range.1.trans range.2

theorem Trailing.insertKey (tr : Trailing p next) (ok : PageOk p l s next)
    (room : p.live.length < cardinality - 1) (ne : key ≠ 0) (le : key ≤ boundary next) :
    Trailing (p.insertKey key key p.live.length).1 next := by
  obtain ⟨z, rest, holds, -⟩ := ok.holds
  obtain ⟨ordered, dead⟩ := tr.dead_of holds
  have size := ok.size
  rw [holds.records, List.length_append, List.length_cons] at size
  cases rest with
  | nil =>
      rw [List.length_nil] at size
      omega
  | cons z' rest =>
      obtain ⟨below, above, cut, holds'⟩ := holds.insertKey ok.ordered key ne
      obtain ⟨-, tail⟩ := List.pairwise_cons.mp ordered
      have dead' : ∀ e ∈ z' :: rest, boundary next ≤ e.key := fun e mem =>
        dead e (List.mem_cons_of_mem _ mem)
      refine .of_holds holds' (cut.ordered_insert ok.ordered (x := ⟨key, key⟩)) (fun e mem => ?_)
        ?_ ?_ fun e mem => ?_
      · rw [List.mem_append, List.mem_cons] at mem
        rcases mem with mem | rfl | mem
        · exact ok.le_boundary e (cut.eq ▸ List.mem_append_left _ mem)
        · exact le
        · exact ok.le_boundary e (cut.eq ▸ List.mem_append_right _ mem)
      · exact List.pairwise_cons.mpr (List.pairwise_cons.mp tail)
      · exact List.forall_mem_cons.mpr (List.forall_mem_cons.mp dead')
      · have values := tr.values
        rw [holds.records, cut.eq] at values
        simp only [List.mem_append, List.mem_cons] at mem values
        rcases mem with (mem | rfl | mem) | rfl | mem
        · exact values e (Or.inl (Or.inl mem))
        · exact Or.inr rfl
        · exact values e (Or.inl (Or.inr mem))
        · exact Or.inl rfl
        · exact values e (Or.inr (Or.inr (Or.inr mem)))

/-- The halves of a split leaf, the left one with the slot `slot` to its right. -/
theorem Trailing.split (tr : Trailing p next) (ok : PageOk p 0 s next)
    (full : p.live.length = cardinality - 1) (most : ∀ n ∈ next, n.key ≤ longMax)
    (sibling : Int) {halves : Page.Split} (split : halves = p.split p.live.length sibling) :
    Trailing halves.left (some ⟨halves.splitKey, sibling⟩) ∧ Trailing halves.sibling next := by
  obtain ⟨z, rest, holds, -⟩ := ok.holds
  have hcard := cardinality_eq
  have half : (cardinality - 1) / 2 < p.live.length := by omega
  have hlive : p.live = p.live.take ((cardinality - 1) / 2) ++
      p.live[(cardinality - 1) / 2] :: p.live.drop ((cardinality - 1) / 2 + 1) := by
    rw [List.getElem_cons_drop, List.take_append_drop]
  have length : (p.live.take ((cardinality - 1) / 2)).length = (cardinality - 1) / 2 := by
    rw [List.length_take]
    omega
  have ordered := ok.ordered
  have all := tr.ordered
  have le := ok.le_boundary
  have hholds := holds
  rw [hlive] at hholds ordered le
  rw [holds.records, hlive] at all
  obtain ⟨hkey, -, hleft, -, hright, -⟩ := hholds.split_eq ordered
    (by rw [← hlive, length, full]) (by rw [List.length_drop]; omega) sibling
  rw [← hlive, ← split] at hkey hleft hright
  rw [if_pos (ok.leaf rfl).1] at hright
  rw [List.append_assoc, List.cons_append] at all
  obtain ⟨lower, upper, across⟩ := List.pairwise_append.mp all
  obtain ⟨first, behind⟩ := List.pairwise_cons.mp upper
  have values := tr.values
  rw [holds.records, hlive, List.append_assoc, List.cons_append] at values
  obtain ⟨valuesLower, valuesUpper⟩ := List.forall_mem_append.mp values
  obtain ⟨valueMiddle, valuesBehind⟩ := List.forall_mem_cons.mp valuesUpper
  constructor
  · refine .of_holds hleft lower (fun e mem => ?_) (List.pairwise_cons.mpr ⟨first, behind⟩)
      (List.forall_mem_cons.mpr ⟨hkey.le, fun e mem => hkey.le.trans (first e mem)⟩)
      (List.forall_mem_append.mpr ⟨valuesLower, List.forall_mem_cons.mpr
        ⟨Or.inl rfl, valuesBehind⟩⟩)
    exact (across e mem _ List.mem_cons_self).trans hkey.ge
  · obtain ⟨blank, key⟩ := blank_records (cardinality - 1 - (p.live[(cardinality - 1) / 2] ::
      p.live.drop ((cardinality - 1) / 2 + 1)).length)
    refine .of_holds hright (List.pairwise_append.mp ordered).2.1
      (fun e mem => le e (List.mem_append_right _ mem)) blank (fun e mem => ?_)
      (List.forall_mem_append.mpr ⟨List.forall_mem_cons.mpr ⟨valueMiddle, fun e mem =>
        valuesBehind e (List.mem_append_left _ mem)⟩, fun e mem => ?_⟩)
    · rw [key e mem]
      cases next with
      | none => exact le_rfl
      | some n => exact most n rfl
    · rw [← List.replicate_succ] at mem
      exact Or.inl (congrArg Entry.ptr (List.eq_of_mem_replicate mem))

theorem Trailing.insert {sibling : Int} {halves : Page.Split}
    (left : Trailing halves.left (some ⟨halves.splitKey, sibling⟩))
    (right : Trailing halves.sibling next) (sp : SplitOk p 0 s next sibling halves)
    (ne : key ≠ 0) (le : key ≤ boundary next) :
    Trailing (halves.insert key key).1 (some ⟨halves.splitKey, sibling⟩) ∧
      Trailing (halves.insert key key).2 next := by
  rw [Page.Split.insert, sp.leftCnt, sp.siblingCnt]
  split
  · rename_i hlt
    exact ⟨left.insertKey sp.left sp.leftRoom ne hlt.le, right⟩
  · exact ⟨left, right.insertKey sp.right sp.siblingRoom ne le⟩

/-- A removal doubles the record behind the live ones. -/
theorem Trailing.removeKey (tr : Trailing p next) (ok : PageOk p 0 s next) {found : Bool}
    (removed : p.removeKey key = some (p', found)) : Trailing p' next := by
  obtain ⟨z, rest, holds, -⟩ := ok.holds
  obtain ⟨ordered, dead⟩ := tr.dead_of holds
  by_cases has : ∃ e ∈ p.live, e.key = key
  · obtain ⟨front, e, back, hlive, first, hkey⟩ := Page.exists_first has
    have sub : (front ++ back).Sublist p.live :=
      hlive ▸ (List.sublist_cons_self e back).append_left front
    rw [hlive] at holds
    obtain ⟨q, removed', holds', -⟩ := holds.removeKey_of_mem first hkey
    obtain ⟨rfl, -⟩ := Prod.mk.inj (Option.some.inj (removed.symm.trans removed'))
    refine .of_holds holds' (ok.ordered.sublist sub) (fun e mem => ok.le_boundary e (sub.mem mem))
      (List.pairwise_cons.mpr ⟨fun e mem => ?_, ordered⟩)
      (List.forall_mem_cons.mpr ⟨dead z List.mem_cons_self, dead⟩) fun e' mem => ?_
    · rcases List.mem_cons.mp mem with rfl | mem
      · exact le_rfl
      · exact (List.pairwise_cons.mp ordered).1 e mem
    · refine tr.values e' ?_
      rw [holds.records]
      simp only [List.mem_append, List.mem_cons] at mem ⊢
      tauto
  · obtain ⟨q, removed', records, -⟩ :=
      holds.removeKey_of_forall_ne fun e mem heq => has ⟨e, mem, heq⟩
    obtain ⟨rfl, -⟩ := Prod.mk.inj (Option.some.inj (removed.symm.trans removed'))
    have live : p'.live = p.live := congrArg (List.takeWhile _) records
    exact ⟨records ▸ tr.ordered, by rw [records, live]; exact tr.dead, records ▸ tr.values⟩

end Trailing

namespace BTree

/-- The leaves of a row, with the slot `next` to its right, have their records in order. -/
def Trails (t : BTree) : List Entry → Option Entry → Prop
  | [], _ => True
  | s :: row, next => Trailing (t.page s.ptr) (row.head?.or next) ∧ Trails t row next

section Trails

variable {t t' : BTree} {n : Nat} {key : Int} {row row' before after : List Entry} {s : Entry}
  {next : Option Entry}

theorem trails_append :
    t.Trails (row ++ row') next ↔ t.Trails row (row'.head?.or next) ∧ t.Trails row' next := by
  induction row with
  | nil => simp [Trails]
  | cons s row ih =>
      rw [List.cons_append, Trails, Trails, ih, List.head?_append, Option.or_assoc, and_assoc]

theorem trails_split :
    t.Trails (before ++ s :: after) none ↔
      t.Trails before (some s) ∧ Trailing (t.page s.ptr) after.head? ∧ t.Trails after none := by
  simp only [trails_append, Trails, Option.or_none, List.head?_cons]

theorem Trails.congr (h : t.Trails row next) (pages : ∀ s ∈ row, t'.page s.ptr = t.page s.ptr) :
    t'.Trails row next := by
  induction row with
  | nil => trivial
  | cons s row ih =>
      obtain ⟨first, rest⟩ := h
      obtain ⟨same, pages⟩ := List.forall_mem_cons.mp pages
      exact ⟨same ▸ first, ih rest pages⟩

theorem Put.trails (put : Put t t' key key before s after row') (tr : t.Trails row none)
    (h : t.Row 0 row none) (home : Cut Entry.key key row (before ++ [s]) after)
    (most : key ≤ longMax) (ne : key ≠ 0) : t'.Trails row' none := by
  obtain ⟨-, ⟨ok, -⟩, hafter⟩ := row_split.mp (home.split ▸ h)
  obtain ⟨left, here, behind⟩ := trails_split.mp (home.split ▸ tr)
  have le : key ≤ boundary after.head? := le_boundary most fun x hx =>
    (home.lt x (List.mem_of_mem_head? hx)).le
  cases put with
  | room room others written =>
      obtain ⟨others, others'⟩ := List.forall_mem_append.mp others
      exact trails_split.mpr ⟨left.congr others, written ▸ here.insertKey ok room ne le,
        behind.congr others'⟩
  | full halves full split others written right fresh =>
      obtain ⟨others, others'⟩ := List.forall_mem_append.mp others
      have bound : ∀ x ∈ after.head?, x.key ≤ longMax := fun x hx => by
        obtain ⟨_, ok', -⟩ := hafter.pageOk (List.mem_of_mem_head? hx)
        exact ok'.least_le_longMax
      obtain ⟨lower, upper⟩ := here.split ok full bound t.fresh split
      obtain ⟨lower, upper⟩ := lower.insert upper (split ▸ (h.split home full).1) ne le
      have upper' : Trailing (t'.page t.fresh) (after.head?.or none) := by
        rw [Option.or_none, right]
        exact upper
      exact trails_split.mpr ⟨left.congr others, written ▸ lower, upper', behind.congr others'⟩

/-- A leaf from which `remove_key` has taken the key, or turned around. -/
theorem Trails.write (tr : t.Trails row none) (h : t.Rows n 0 row)
    (hrow : row = before ++ s :: after) {p : Page} {found : Bool}
    (removed : (t.page s.ptr).removeKey key = some (p, found)) :
    (t.write s.ptr p).Trails row none := by
  obtain ⟨-, ⟨ok, -⟩, -⟩ := row_split.mp (hrow ▸ h.isRow)
  obtain ⟨left, here, behind⟩ := trails_split.mp (hrow ▸ tr)
  have others : ∀ x ∈ before ++ after, (t.write s.ptr p).page x.ptr = t.page x.ptr :=
    fun x mem => Function.update_of_ne (ne_of_nodup h.upward.nodup hrow x mem) ..
  have written : (t.write s.ptr p).page s.ptr = p := Function.update_self ..
  obtain ⟨others, others'⟩ := List.forall_mem_append.mp others
  rw [hrow]
  exact trails_split.mpr ⟨left.congr others, written.symm ▸ here.removeKey ok removed,
    behind.congr others'⟩

theorem Rows.deletes_trails (h : t.Rows n 0 row) (tr : t.Trails row none) (hkey : TreeKey key)
    {fuel : Nat} (run : t.btreeDelete key fuel = some t') : t'.Trails row none := by
  induction fuel generalizing t with
  | zero => cases run
  | succ fuel ih =>
      obtain ⟨before, s, after, home⟩ := h.upward.home hkey.1
      rcases h.btreeDelete_cases hkey.1 hkey.2.2 home run with
        rfl | ⟨-, -, p, removed, rfl⟩ | ⟨x, mem, absent, p, removed, run⟩
      · exact tr
      · exact tr.write h home.split removed
      · obtain ⟨front, back, hrow⟩ := List.append_of_mem mem
        exact ih (h.turn mem absent removed).1 (tr.write h hrow removed) run

theorem Rows.inserts_trails (h : t.Rows n 0 row) (tr : t.Trails row none) (hkey : TreeKey key)
    (returns : Returns (fun fuel => t.btreeInsert key key fuel) t') :
    ∃ n' row', t'.Rows n' 0 row' ∧ t'.Trails row' none ∧
      (t.Single row → ¬ t.Held key row → t'.Single row') := by
  obtain ⟨least, most, ne⟩ := hkey
  obtain ⟨before, s, after, home⟩ := h.upward.home least
  obtain ⟨t₁, n', row', returns', put, keeps, upward⟩ := h.btreeInsert least home key
  obtain rfl := (steady_btreeInsert key key t).unique returns returns'
  obtain ⟨rows, ins⟩ := put.rows upward keeps h home most ne rfl
  exact ⟨n', row', rows, put.trails tr h.isRow home most ne, fun single new =>
    single.insert new ins (put.held h.isRow home most ne rfl)⟩

theorem trails_empty (alloc : Allocator) :
    (empty alloc).Trails [⟨longMin, alloc.addr 0⟩] none := ⟨trailing_new, trivial⟩

/-- In every run the records of the leaves are in order; as long as nothing is inserted
twice, no key has two records. -/
theorem Run.trails {alloc : Allocator} {guard : BTree → TreeOp → Prop} {ops : List TreeOp}
    (run : Run (empty alloc) guard ops t) (keys : ∀ t op, guard t op → TreeKey op.key) :
    ∃ n row, t.Rows n 0 row ∧ t.Trails row none ∧
      ((∀ t op, guard t op → op = .insert op.key → op.key ∉ t.leafKeys) → t.Single row) := by
  induction run with
  | nil => exact ⟨0, _, (rows_empty alloc).1, trails_empty alloc, fun _ => single_empty alloc⟩
  | @step ops t t' op run met returns ih =>
      obtain ⟨n, row, rows, tr, single⟩ := ih
      cases op with
      | insert key =>
          obtain ⟨n', row', rows', tr', single'⟩ := rows.inserts_trails tr (keys _ _ met) returns
          refine ⟨n', row', rows', tr', fun new => single' (single new) fun held => ?_⟩
          refine new _ _ met rfl ?_
          rw [rows.wellFormed.2]
          obtain ⟨e, mem, hkey⟩ := rows.isRow.exists_iff.mpr held.exists
          exact List.mem_map.mpr ⟨e, mem, hkey⟩
      | delete key =>
          obtain ⟨fuel, hfuel⟩ := returns
          obtain ⟨rows', -, -, -, single'⟩ := rows.deletes (keys _ _ met) hfuel
          exact ⟨n, row, rows', rows.deletes_trails tr (keys _ _ met) hfuel, fun new =>
            single' (single new)⟩

end Trails

end BTree

end F3Tree
