import F3Tree.Restart

/-!
# The placement of the pages

A page address enters the tree next to the values: a record of a leaf is a value, the
step to the next leaf an address, and a search tells them apart by comparing.  Two trees
whose pages lie elsewhere go through the same rows of leaves, as keys (`shape`), as long
as their searches answer alike, and they do so exactly as long as a key that is in its
leaf is the address of the next leaf in both or in neither (`answers_placement_iff`).
-/

namespace F3Tree

open Keyed Fuel Runs

/-! ## One leaf -/

section PageOk

variable {p p' : Page} {s s' : Entry} {next next' : Option Entry} {sibling sibling' : Int}
  {halves halves' : Page.Split}

/-- What a split makes of the records of a leaf. -/
theorem PageOk.split_live (ok : PageOk p 0 s next) (full : p.live.length = cardinality - 1)
    (sibling : Int) :
    (p.split p.live.length sibling).left.live = p.live.take ((cardinality - 1) / 2) ∧
      (p.split p.live.length sibling).sibling.live = p.live.drop ((cardinality - 1) / 2) ∧
      (p.split p.live.length sibling).splitKey =
        (p.live.getD ((cardinality - 1) / 2) {}).key := by
  obtain ⟨z, rest, holds, -⟩ := ok.holds
  have hcard := cardinality_eq
  have half : (cardinality - 1) / 2 < p.live.length := by omega
  have hlive : p.live = p.live.take ((cardinality - 1) / 2) ++
      p.live[(cardinality - 1) / 2] :: p.live.drop ((cardinality - 1) / 2 + 1) := by
    rw [List.getElem_cons_drop, List.take_append_drop]
  have length : (p.live.take ((cardinality - 1) / 2)).length = (cardinality - 1) / 2 := by
    rw [List.length_take]
    omega
  have ordered := ok.ordered
  rw [hlive] at holds ordered
  obtain ⟨hkey, -, hleft, -, hright, -⟩ := holds.split_eq ordered
    (by rw [← hlive, length, full]) (by rw [List.length_drop]; omega) sibling
  rw [← hlive, if_pos (ok.leaf rfl).1, List.getElem_cons_drop] at hright
  rw [← hlive] at hkey hleft
  refine ⟨hleft.live_eq, hright.live_eq, ?_⟩
  rw [hkey, List.getD_eq_getElem _ _ half]

/-- `remove_key` takes the first record of the key. -/
theorem PageOk.removeKey_eraseP (ok : PageOk p 0 s next) {key : Int}
    (has : ∃ e ∈ p.live, e.key = key) :
    ∃ p', p.removeKey key = some (p', true) ∧ PageOk p' 0 s next ∧
      p'.live = p.live.eraseP fun e => e.key = key := by
  obtain ⟨p', front, e, back, removed, ok', hlive, first, hkey, hlive'⟩ := ok.removeKey_mem has
  refine ⟨p', removed, ok', ?_⟩
  rw [hlive, List.eraseP_append_right _ fun e' mem => by simpa using first e' mem,
    List.eraseP_cons_of_pos (by simpa using hkey), hlive']

/-- Halves of one shape take a record alike. -/
theorem SplitOk.insert_live (sp : SplitOk p 0 s next sibling halves)
    (sp' : SplitOk p' 0 s' next' sibling' halves')
    (left : halves.left.live = halves'.left.live)
    (right : halves.sibling.live = halves'.sibling.live)
    (middle : halves.splitKey = halves'.splitKey) {key : Int} (least : s.key ≤ key)
    (least' : s'.key ≤ key) (most : key ≤ longMax) (lt : ∀ n ∈ next, key < n.key)
    (lt' : ∀ n ∈ next', key < n.key) (ne : key ≠ 0) :
    (halves.insert key key).1.live = (halves'.insert key key).1.live ∧
      (halves.insert key key).2.live = (halves'.insert key key).2.live := by
  rw [Page.Split.insert, Page.Split.insert, sp.leftCnt, sp'.leftCnt, sp.siblingCnt,
    sp'.siblingCnt, ← middle]
  split
  · rename_i hlt
    have ins := (sp.left.insertKey sp.leftRoom least most (fun n hn =>
      Option.mem_some_iff.mp hn ▸ hlt) ne fun _ => rfl).2
    have ins' := (sp'.left.insertKey sp'.leftRoom least' most (fun n hn =>
      Option.mem_some_iff.mp hn ▸ middle ▸ hlt) ne fun _ => rfl).2
    rw [← left] at ins' ⊢
    exact ⟨ins.unique ins', right⟩
  · rename_i hge
    have ins := (sp.right.insertKey sp.siblingRoom (not_lt.mp hge) most lt ne fun _ => rfl).2
    have ins' := (sp'.right.insertKey sp'.siblingRoom (middle ▸ not_lt.mp hge) most lt' ne
      fun _ => rfl).2
    rw [← right] at ins' ⊢
    exact ⟨left, ins.unique ins'⟩

end PageOk

namespace BTree

/-- The leaves of a row as keys: the least of each, and its records. -/
def shape (t : BTree) (row : List Entry) : List (Int × List Entry) :=
  row.map fun s => (s.key, (t.page s.ptr).live)

section Shape

variable {t t' u u' : BTree} {key : Int} {n m : Nat} {row row' before after : List Entry}
  {low low' front back : List Entry} {s x : Entry}

theorem shape_append (row row' : List Entry) :
    t.shape (row ++ row') = t.shape row ++ t.shape row' := List.map_append

theorem shape_cons (s : Entry) (row : List Entry) :
    t.shape (s :: row) = (s.key, (t.page s.ptr).live) :: t.shape row := List.map_cons ..

theorem shape_congr (same : ∀ x ∈ row, t'.page x.ptr = t.page x.ptr) :
    t'.shape row = t.shape row :=
  List.map_congr_left fun x mem => by rw [same x mem]

/-- Rows of one shape are cut alike. -/
theorem shape_cut (same : t.shape row = u.shape low)
    (home : Cut Entry.key key row (before ++ [s]) after)
    (home' : Cut Entry.key key low (front ++ [x]) back) :
    t.shape before = u.shape front ∧ s.key = x.key ∧
      (t.page s.ptr).live = (u.page x.ptr).live ∧ t.shape after = u.shape back := by
  have cut : Cut Prod.fst key (t.shape row) (t.shape (before ++ [s])) (t.shape after) :=
    home.map (f := fun s : Entry => (s.key, (t.page s.ptr).live)) fun _ => rfl
  have cut' : Cut Prod.fst key (u.shape low) (u.shape (front ++ [x])) (u.shape back) :=
    home'.map (f := fun s : Entry => (s.key, (u.page s.ptr).live)) fun _ => rfl
  rw [same] at cut
  obtain ⟨upTo, behind⟩ := cut.unique cut'
  rw [shape_append, shape_append] at upTo
  obtain ⟨left, here⟩ := List.append_inj' upTo rfl
  obtain ⟨least, live⟩ := Prod.mk.inj (List.singleton_inj.mp here)
  exact ⟨left, least, live, behind⟩

/-- An insertion makes one shape of rows of one shape. -/
theorem Put.shape_eq (put : Put t t' key key before s after row')
    (put' : Put u u' key key front x back low') (h : t.Row 0 row none) (h' : u.Row 0 low none)
    (same : t.shape row = u.shape low) (home : Cut Entry.key key row (before ++ [s]) after)
    (home' : Cut Entry.key key low (front ++ [x]) back) (most : key ≤ longMax) (ne : key ≠ 0) :
    t'.shape row' = u'.shape low' := by
  obtain ⟨left, least, live, behind⟩ := shape_cut same home home'
  obtain ⟨-, ⟨ok, -⟩, -⟩ := row_split.mp (home.split ▸ h)
  obtain ⟨-, ⟨ok', -⟩, -⟩ := row_split.mp (home'.split ▸ h')
  have lt : ∀ y ∈ after.head?, key < y.key := fun y hy => home.lt y (List.mem_of_mem_head? hy)
  have lt' : ∀ y ∈ back.head?, key < y.key := fun y hy => home'.lt y (List.mem_of_mem_head? hy)
  cases put with
  | room room others written =>
      obtain ⟨others, others₁⟩ := List.forall_mem_append.mp others
      cases put' with
      | room room' others' written' =>
          obtain ⟨others', others₁'⟩ := List.forall_mem_append.mp others'
          have ins := (ok.insertKey room home.last_le most lt ne fun _ => rfl).2
          have ins' := (ok'.insertKey room' home'.last_le most lt' ne fun _ => rfl).2
          rw [← live] at ins'
          rw [shape_append, shape_append, shape_cons, shape_cons, shape_congr others,
            shape_congr others₁, shape_congr others', shape_congr others₁', written, written',
            ← live, ins.unique ins', left, least, behind]
      | full _ full => exact absurd (live ▸ room) full.not_lt
  | full halves full split others written right fresh =>
      obtain ⟨others, others₁⟩ := List.forall_mem_append.mp others
      cases put' with
      | room room => exact absurd (live ▸ room) full.not_lt
      | full halves' full' split' others' written' right' fresh' =>
          obtain ⟨others', others₁'⟩ := List.forall_mem_append.mp others'
          obtain ⟨lower, upper, middle⟩ := split ▸ ok.split_live full t.fresh
          obtain ⟨lower', upper', middle'⟩ := split' ▸ ok'.split_live full' u.fresh
          rw [← live] at lower' upper' middle'
          obtain ⟨hleft, hright⟩ := SplitOk.insert_live (split ▸ (h.split home full).1)
            (split' ▸ (h'.split home' full').1) (lower.trans lower'.symm)
            (upper.trans upper'.symm) (middle.trans middle'.symm) home.last_le home'.last_le most
            lt lt' ne
          rw [shape_append, shape_append, shape_cons, shape_cons, shape_cons, shape_cons,
            shape_congr others, shape_congr others₁, shape_congr others', shape_congr others₁',
            written, written', right, right', hleft, hright, middle, middle', left, least, behind]

/-- The removal of a key makes one shape of rows of one shape. -/
theorem Rows.take_shape (h : t.Rows n 0 row) (h' : u.Rows m 0 low)
    (same : t.shape row = u.shape low) (home : Cut Entry.key key row (before ++ [s]) after)
    (home' : Cut Entry.key key low (front ++ [x]) back) {p q : Page}
    (removed : (t.page s.ptr).removeKey key = some (p, true))
    (removed' : (u.page x.ptr).removeKey key = some (q, true)) (has : t.Has s key) :
    (t.write s.ptr p).shape row = (u.write x.ptr q).shape low := by
  obtain ⟨left, least, live, behind⟩ := shape_cut same home home'
  obtain ⟨-, ⟨ok, -⟩, -⟩ := row_split.mp (home.split ▸ h.isRow)
  obtain ⟨-, ⟨ok', -⟩, -⟩ := row_split.mp (home'.split ▸ h'.isRow)
  have has' : u.Has x key := by rwa [Has, ← live]
  obtain ⟨p', hp, okp, hlive⟩ := ok.removeKey_eraseP has
  obtain ⟨q', hq, okq, hlive'⟩ := ok'.removeKey_eraseP has'
  obtain ⟨rfl, -⟩ := Prod.mk.inj (Option.some.inj (removed.symm.trans hp))
  obtain ⟨rfl, -⟩ := Prod.mk.inj (Option.some.inj (removed'.symm.trans hq))
  obtain ⟨-, -, others, here⟩ := h.writeLeaf home.split okp
  obtain ⟨-, -, others', here'⟩ := h'.writeLeaf home'.split okq
  obtain ⟨others, others₁⟩ := List.forall_mem_append.mp others
  obtain ⟨others', others₁'⟩ := List.forall_mem_append.mp others'
  rw [home.split, home'.split, shape_append, shape_append, shape_cons, shape_cons,
    shape_congr others, shape_congr others₁, shape_congr others', shape_congr others₁', here,
    here', hlive, hlive', left, least, live, behind]

end Shape

/-! ## Calls and their answers -/

end BTree

/-- A call: `btree_insert`, `btree_delete` of what `btree_search` has found, or
`btree_search`. -/
inductive TreeCall
  | insert (key : Int)
  | erase (key : Int)
  | search (key : Int)
deriving DecidableEq, Repr

namespace TreeCall

def key : TreeCall → Int
  | insert key => key
  | erase key => key
  | search key => key

/-- The tree after the call, and whether its `btree_search` found the key. -/
def perform : TreeCall → Nat → BTree → Option (BTree × Option Bool)
  | insert key, fuel, t => do
      let t' ← t.btreeInsert key key fuel
      return (t', none)
  | erase key, fuel, t => do
      let found ← t.btreeSearch key fuel
      if found ≠ 0 then
        let t' ← t.btreeDelete key fuel
        return (t', some true)
      else return (t, some false)
  | search key, fuel, t => do
      let found ← t.btreeSearch key fuel
      return (t, some (found ≠ 0))

end TreeCall

namespace BTree

/-- The tree after the calls on an empty one, and what their searches answered. -/
inductive Calls (alloc : Allocator) : List TreeCall → BTree → List (Option Bool) → Prop
  | nil : Calls alloc [] (empty alloc) []
  | step {calls : List TreeCall} {t t' : BTree} {answers : List (Option Bool)}
    {answer : Option Bool} (call : TreeCall) : Calls alloc calls t answers →
    Returns (fun fuel => call.perform fuel t) (t', answer) →
    Calls alloc (calls ++ [call]) t' (answers ++ [answer])

/-- The key is in its leaf, and is the address of the next leaf. -/
def Confused (t : BTree) (key : Int) : Prop :=
  ∀ leaf, Returns (fun fuel => t.descend aboveLeaves key fuel t.root) leaf →
    (∃ e ∈ (t.page leaf).live, e.key = key) ∧ key = (t.page leaf).hdr.siblingPtr

section Calls

variable {alloc alloc' : Allocator} {t t' u u' : BTree} {n m : Nat} {key : Int}
  {row low before after front back : List Entry} {s x : Entry} {call : TreeCall}
  {calls : List TreeCall} {answer answer' : Option Bool} {answers answers' : List (Option Bool)}

theorem steady_call (call : TreeCall) (t : BTree) : Steady fun fuel => call.perform fuel t := by
  cases call with
  | insert key => exact (steady_btreeInsert key key t).bind fun _ => steady_const _
  | erase key =>
      exact (steady_btreeSearch t key).bind fun _ =>
        .ite _ ((steady_btreeDelete key t).bind fun _ => steady_const _) (steady_const _)
  | search key => exact (steady_btreeSearch t key).bind fun _ => steady_const _

theorem Calls.unique (run : Calls alloc calls t answers) (run' : Calls alloc calls t' answers') :
    t = t' ∧ answers = answers' := by
  generalize hcalls : calls = calls' at run'
  induction run generalizing calls' t' answers' with
  | nil =>
      cases run' with
      | nil => exact ⟨rfl, rfl⟩
      | step => simp at hcalls
  | step call run returns ih =>
      cases run' with
      | nil => simp at hcalls
      | step _ run' returns' =>
          obtain ⟨rfl, hcall⟩ := List.append_inj' hcalls rfl
          obtain rfl := List.singleton_inj.mp hcall
          obtain ⟨rfl, rfl⟩ := ih _ rfl run'
          obtain ⟨rfl, rfl⟩ := Prod.mk.inj ((steady_call _ _).unique returns returns')
          exact ⟨rfl, rfl⟩

theorem Calls.concat (run : Calls alloc (calls ++ [call]) t' answers) :
    ∃ t before answer, answers = before ++ [answer] ∧ Calls alloc calls t before ∧
      Returns (fun fuel => call.perform fuel t) (t', answer) := by
  generalize hcalls : calls ++ [call] = calls' at run
  cases run with
  | nil => simp at hcalls
  | step _ run returns =>
      obtain ⟨rfl, hcall⟩ := List.append_inj' hcalls rfl
      obtain rfl := List.singleton_inj.mp hcall
      exact ⟨_, _, _, rfl, run, returns⟩

theorem Rows.confused_iff (h : t.Rows n 0 row) (least : longMin ≤ key)
    (home : Cut Entry.key key row (before ++ [s]) after) :
    t.Confused key ↔ t.Has s key ∧ key = (t.page s.ptr).hdr.siblingPtr := by
  have descends := h.descends least home
  constructor
  · exact fun confused => confused _ descends
  · rintro here leaf hleaf
    rwa [(steady_descend _ _ _ _).unique hleaf descends]

/-- What a search of a call answers. -/
theorem Rows.found (h : t.Rows n 0 row) (least : longMin ≤ key)
    (home : Cut Entry.key key row (before ++ [s]) after) :
    ∃ v, Returns (t.btreeSearch key) v ∧ (v ≠ 0 ↔ t.Has s key ∧ ¬ t.Confused key) := by
  have mem : s ∈ row := home.split ▸ by simp
  refine ⟨_, h.btreeSearch least home, ?_⟩
  have same : t.Has s key ∧ ¬ t.Confused key ↔
      t.Has s key ∧ key ≠ (t.page s.ptr).hdr.siblingPtr := by
    rw [h.confused_iff least home]
    tauto
  rw [same]
  split
  · rename_i has
    exact iff_of_true (h.isRow.ne_zero mem has.1) has
  · rename_i has
    exact iff_of_false (not_not.mpr rfl) has

theorem Rows.insert_call (h : t.Rows n 0 row) (hkey : TreeKey key)
    (home : Cut Entry.key key row (before ++ [s]) after) :
    ∃ t' n' row', Returns (fun fuel => (TreeCall.insert key).perform fuel t) (t', none) ∧
      t'.Rows n' 0 row' ∧ Put t t' key key before s after row' := by
  obtain ⟨t', n', row', ⟨fuel, hinsert⟩, put, keeps, upward⟩ := h.btreeInsert hkey.1 home key
  refine ⟨t', n', row', ⟨fuel, ?_⟩, (put.rows upward keeps h home hkey.2.1 hkey.2.2 rfl).1, put⟩
  exact Option.bind_eq_some_iff.mpr ⟨t', hinsert, rfl⟩

theorem Rows.search_call (h : t.Rows n 0 row) (hkey : TreeKey key)
    (home : Cut Entry.key key row (before ++ [s]) after) :
    ∃ found : Bool, Returns (fun fuel => (TreeCall.search key).perform fuel t) (t, some found) ∧
      (found = true ↔ t.Has s key ∧ ¬ t.Confused key) := by
  obtain ⟨v, ⟨fuel, hv⟩, hfound⟩ := h.found hkey.1 home
  exact ⟨decide (v ≠ 0), ⟨fuel, Option.bind_eq_some_iff.mpr ⟨v, hv, rfl⟩⟩,
    (decide_eq_true_iff ..).trans hfound⟩

theorem Rows.erase_call (h : t.Rows n 0 row) (hkey : TreeKey key)
    (home : Cut Entry.key key row (before ++ [s]) after) :
    (t.Has s key ∧ ¬ t.Confused key ∧ ∃ p, (t.page s.ptr).removeKey key = some (p, true) ∧
      Returns (fun fuel => (TreeCall.erase key).perform fuel t) (t.write s.ptr p, some true)) ∨
    (¬ (t.Has s key ∧ ¬ t.Confused key) ∧
      Returns (fun fuel => (TreeCall.erase key).perform fuel t) (t, some false)) := by
  obtain ⟨v, hv, hfound⟩ := h.found hkey.1 home
  by_cases found : t.Has s key ∧ ¬ t.Confused key
  · obtain ⟨has, apart⟩ := found
    rw [h.confused_iff hkey.1 home, not_and] at apart
    obtain ⟨p, removed, returns⟩ := h.btreeDelete_found hkey.1 home has (apart has)
    obtain ⟨fuel, hv, hdelete⟩ := hv.both (steady_btreeSearch t key) (steady_btreeDelete key t)
      returns
    refine Or.inl ⟨has, fun confused => apart has ((h.confused_iff hkey.1 home).mp confused).2, p,
      removed, fuel, Option.bind_eq_some_iff.mpr ⟨v, hv, ?_⟩⟩
    rw [if_pos (hfound.mpr ⟨has, fun confused =>
      apart has ((h.confused_iff hkey.1 home).mp confused).2⟩)]
    exact Option.bind_eq_some_iff.mpr ⟨_, hdelete, rfl⟩
  · obtain ⟨fuel, hv⟩ := hv
    refine Or.inr ⟨found, fuel, Option.bind_eq_some_iff.mpr ⟨v, hv, ?_⟩⟩
    rw [if_neg fun hne => found (hfound.mp hne)]
    rfl

/-- No call gets stuck. -/
theorem Rows.completes_call (h : t.Rows n 0 row) (hkey : TreeKey call.key) :
    ∃ t' answer n' row', Returns (fun fuel => call.perform fuel t) (t', answer) ∧
      t'.Rows n' 0 row' := by
  obtain ⟨before, s, after, home⟩ := h.upward.home hkey.1
  cases call with
  | insert key =>
      obtain ⟨t', n', row', returns, rows, -⟩ := h.insert_call hkey home
      exact ⟨t', none, n', row', returns, rows⟩
  | erase key =>
      rcases h.erase_call hkey home with ⟨has, -, p, removed, returns⟩ | ⟨-, returns⟩
      · exact ⟨_, _, n, row, returns, (h.take home has removed).1⟩
      · exact ⟨t, _, n, row, returns, h⟩
  | search key =>
      obtain ⟨found, returns, -⟩ := h.search_call hkey home
      exact ⟨t, _, n, row, returns, h⟩

/-- Keys of one leaf are found alike exactly when they are confused alike. -/
theorem Rows.found_alike (h : t.Rows n 0 row) (h' : u.Rows m 0 low)
    (live : (t.page s.ptr).live = (u.page x.ptr).live) (least : longMin ≤ key)
    (home : Cut Entry.key key row (before ++ [s]) after)
    (home' : Cut Entry.key key low (front ++ [x]) back) :
    ((t.Has s key ∧ ¬ t.Confused key) ↔ (u.Has x key ∧ ¬ u.Confused key)) ↔
      (t.Confused key ↔ u.Confused key) := by
  have has : u.Has x key ↔ t.Has s key := by rw [Has, Has, live]
  have confused : t.Confused key → t.Has s key := fun c => ((h.confused_iff least home).mp c).1
  have confused' : u.Confused key → t.Has s key := fun c =>
    has.mp ((h'.confused_iff least home').mp c).1
  rw [has]
  by_cases hhas : t.Has s key
  · rw [and_iff_right hhas, and_iff_right hhas, not_iff_not]
  · exact iff_of_true (iff_of_false (fun found => hhas found.1) fun found => hhas found.1)
      (iff_of_false (fun c => hhas (confused c)) fun c => hhas (confused' c))

/-- On trees of one shape a call answers alike exactly when its key is confused in both or
in neither, and then it leaves trees of one shape. -/
theorem Rows.call_alike (h : t.Rows n 0 row) (h' : u.Rows m 0 low)
    (same : t.shape row = u.shape low) (hkey : TreeKey call.key)
    (returns : Returns (fun fuel => call.perform fuel t) (t', answer))
    (returns' : Returns (fun fuel => call.perform fuel u) (u', answer')) :
    (answer = answer' ↔
      call = .insert call.key ∨ (t.Confused call.key ↔ u.Confused call.key)) ∧
    (answer = answer' → ∃ n' row' m' low', t'.Rows n' 0 row' ∧ u'.Rows m' 0 low' ∧
      t'.shape row' = u'.shape low') := by
  obtain ⟨before, s, after, home⟩ := h.upward.home hkey.1
  obtain ⟨front, x, back, home'⟩ := h'.upward.home hkey.1
  obtain ⟨-, -, live, -⟩ := shape_cut same home home'
  have ends : ∀ {t₁ a}, Returns (fun fuel => call.perform fuel t) (t₁, a) →
      t' = t₁ ∧ answer = a := fun r => Prod.mk.inj ((steady_call call t).unique returns r)
  have ends' : ∀ {u₁ b}, Returns (fun fuel => call.perform fuel u) (u₁, b) →
      u' = u₁ ∧ answer' = b := fun r => Prod.mk.inj ((steady_call call u).unique returns' r)
  cases call with
  | insert key =>
      obtain ⟨t₁, n', row', r, rows, put⟩ := h.insert_call hkey home
      obtain ⟨u₁, m', low', r', rows', put'⟩ := h'.insert_call hkey home'
      obtain ⟨rfl, rfl⟩ := ends r
      obtain ⟨rfl, rfl⟩ := ends' r'
      exact ⟨iff_of_true rfl (Or.inl rfl), fun _ => ⟨n', row', m', low', rows, rows',
        put.shape_eq put' h.isRow h'.isRow same home home' hkey.2.1 hkey.2.2⟩⟩
  | erase key =>
      have hkey : TreeKey key := hkey
      have home : Cut Entry.key key row (before ++ [s]) after := home
      have home' : Cut Entry.key key low (front ++ [x]) back := home'
      have other : (TreeCall.erase key = .insert key ∨ (t.Confused key ↔ u.Confused key)) ↔
          (t.Confused key ↔ u.Confused key) := or_iff_right (by simp)
      have alike : (_ ↔ _) ↔ (t.Confused key ↔ u.Confused key) :=
        h.found_alike h' live hkey.1 home home'
      change (_ ↔ TreeCall.erase key = .insert key ∨ (t.Confused key ↔ u.Confused key)) ∧
        (answer = answer' → _)
      rw [other, ← alike]
      rcases h.erase_call hkey home with ⟨has, apart, p, removed, r⟩ | ⟨lost, r⟩ <;>
        rcases h'.erase_call hkey home' with ⟨has', apart', q, removed', r'⟩ | ⟨lost', r'⟩ <;>
        obtain ⟨rfl, rfl⟩ := ends r <;> obtain ⟨rfl, rfl⟩ := ends' r'
      · exact ⟨iff_of_true rfl (iff_of_true ⟨has, apart⟩ ⟨has', apart'⟩), fun _ => ⟨n, row, m,
          low, (h.take home has removed).1, (h'.take home' has' removed').1,
          h.take_shape h' same home home' removed removed' has⟩⟩
      · exact ⟨iff_of_false (by simp) fun iff => lost' (iff.mp ⟨has, apart⟩), by simp⟩
      · exact ⟨iff_of_false (by simp) fun iff => lost (iff.mpr ⟨has', apart'⟩), by simp⟩
      · exact ⟨iff_of_true rfl (iff_of_false lost lost'), fun _ => ⟨n, row, m, low, h, h', same⟩⟩
  | search key =>
      have hkey : TreeKey key := hkey
      have home : Cut Entry.key key row (before ++ [s]) after := home
      have home' : Cut Entry.key key low (front ++ [x]) back := home'
      have other : (TreeCall.search key = .insert key ∨ (t.Confused key ↔ u.Confused key)) ↔
          (t.Confused key ↔ u.Confused key) := or_iff_right (by simp)
      have alike : (_ ↔ _) ↔ (t.Confused key ↔ u.Confused key) :=
        h.found_alike h' live hkey.1 home home'
      obtain ⟨found, r, hfound⟩ := h.search_call hkey home
      obtain ⟨found', r', hfound'⟩ := h'.search_call hkey home'
      change (_ ↔ TreeCall.search key = .insert key ∨ (t.Confused key ↔ u.Confused key)) ∧
        (answer = answer' → _)
      rw [other, ← alike, ← hfound, ← hfound']
      obtain ⟨rfl, rfl⟩ := ends r
      obtain ⟨rfl, rfl⟩ := ends' r'
      rw [Option.some_inj, Bool.eq_iff_iff]
      exact ⟨Iff.rfl, fun _ => ⟨n, row, m, low, h, h', same⟩⟩

/-- Every sequence of calls comes to its end. -/
theorem Calls.exists (alloc : Allocator) (keys : ∀ call ∈ calls, TreeKey call.key) :
    ∃ t answers n row, Calls alloc calls t answers ∧ t.Rows n 0 row := by
  induction calls using List.reverseRecOn with
  | nil => exact ⟨_, _, 0, _, .nil, (rows_empty alloc).1⟩
  | append_singleton calls call ih =>
      obtain ⟨prior, hkey⟩ := List.forall_mem_append.mp keys
      obtain ⟨t, answers, n, row, run, rows⟩ := ih prior
      obtain ⟨t', answer, n', row', returns, rows'⟩ :=
        rows.completes_call (hkey call (List.mem_singleton_self call))
      exact ⟨t', _, n', row', run.step call returns, rows'⟩

/-- A search, with two allocators, is for a key that is the address of the leaf next to its
own in both trees or in neither. -/
def SameLook (alloc alloc' : Allocator) (before : List TreeCall) (call : TreeCall) : Prop :=
  ∀ t answers u answers', Calls alloc before t answers → Calls alloc' before u answers' →
    call = .insert call.key ∨ (t.Confused call.key ↔ u.Confused call.key)

theorem Calls.alike (keys : ∀ call ∈ calls, TreeKey call.key) (run : Calls alloc calls t answers)
    (run' : Calls alloc' calls u answers') :
    (answers = answers' ↔ StepsMeet (SameLook alloc alloc') calls) ∧
    (answers = answers' → ∃ n row m low, t.Rows n 0 row ∧ u.Rows m 0 low ∧
      t.shape row = u.shape low) := by
  induction run generalizing u answers' with
  | nil =>
      obtain ⟨rfl, rfl⟩ := run'.unique .nil
      exact ⟨iff_of_true rfl stepsMeet_nil, fun _ => ⟨0, _, 0, _, (rows_empty alloc).1,
        (rows_empty alloc').1, rfl⟩⟩
  | @step calls t₀ t answers answer call run₀ returns ih =>
      obtain ⟨prior, hkey⟩ := List.forall_mem_append.mp keys
      have hkey := hkey call (List.mem_singleton_self call)
      obtain ⟨u₀, answers', answer', rfl, run₀', returns'⟩ := run'.concat
      obtain ⟨ih, shapes⟩ := ih prior run₀'
      have split : answers ++ [answer] = answers' ++ [answer'] ↔
          answers = answers' ∧ answer = answer' :=
        ⟨fun heq => by simpa using List.append_inj' heq rfl, fun ⟨h, h'⟩ => by rw [h, h']⟩
      rw [split, stepsMeet_concat, ← ih]
      refine ⟨and_congr_right fun heq => ?_, fun ⟨heq, hlast⟩ => ?_⟩
      · obtain ⟨n, row, m, low, rows, rows', same⟩ := shapes heq
        rw [(rows.call_alike rows' same hkey returns returns').1]
        constructor
        · intro alike t₁ _ u₁ _ run₁ run₁'
          obtain ⟨rfl, -⟩ := run₁.unique run₀
          obtain ⟨rfl, -⟩ := run₁'.unique run₀'
          exact alike
        · exact fun all => all _ _ _ _ run₀ run₀'
      · obtain ⟨n, row, m, low, rows, rows', same⟩ := shapes heq
        exact (rows.call_alike rows' same hkey returns returns').2 hlast

/-- With two allocators the searches of a sequence of calls on keys other than 0 answer alike
exactly as long as no search is for a key that is the address of the leaf next to its own in one
of the two trees only. -/
theorem answers_placement_iff (alloc alloc' : Allocator)
    (keys : ∀ call ∈ calls, TreeKey call.key) :
    ∃ t answers u answers', Calls alloc calls t answers ∧ Calls alloc' calls u answers' ∧
      (answers = answers' ↔ StepsMeet (SameLook alloc alloc') calls) := by
  obtain ⟨t, answers, -, -, run, -⟩ := Calls.exists alloc keys
  obtain ⟨u, answers', -, -, run', -⟩ := Calls.exists alloc' keys
  exact ⟨t, answers, u, answers', run, run', (run.alike keys run').1⟩

/-! ### Runs on fixed calls -/

/-- Enough insertions for a split, and a search for the least of the keys. -/
def splitAndSearch (least : Int) : List TreeCall :=
  (List.range 28).map (fun i => .insert (least + i)) ++ [.search least]

/-- The calls one after another. -/
def runCalls (fuel : Nat) : List TreeCall → BTree → Option (BTree × List (Option Bool))
  | [], t => some (t, [])
  | call :: calls, t => do
      let (t, answer) ← call.perform fuel t
      let (t, answers) ← runCalls fuel calls t
      return (t, answer :: answers)

theorem Calls.runCalls {fuel : Nat} (run : Calls alloc calls t answers) {more : List TreeCall}
    (h : runCalls fuel more t = some (t', answers')) :
    Calls alloc (calls ++ more) t' (answers ++ answers') := by
  induction more generalizing calls t answers answers' with
  | nil =>
      obtain ⟨rfl, rfl⟩ := Prod.mk.inj (Option.some.inj h)
      simpa using run
  | cons call more ih =>
      obtain ⟨⟨t₁, answer⟩, hcall, h⟩ := Option.bind_eq_some_iff.mp h
      obtain ⟨⟨t₂, rest⟩, hrest, h⟩ := Option.bind_eq_some_iff.mp h
      obtain ⟨rfl, rfl⟩ := Prod.mk.inj (Option.some.inj h)
      simpa using ih (run.step call ⟨fuel, hcall⟩) hrest

/-- The calls lead to a tree in which the key is not the address of the leaf next to its own. -/
def leadsApart (base : Nat) (calls : List TreeCall) (key : Int) : Bool :=
  (runCalls 4 calls (empty (pagesAt base))).any fun r =>
    (r.1.descend aboveLeaves key 4 r.1.root).any fun leaf => key ≠ (r.1.page leaf).hdr.siblingPtr

theorem not_confused_of_leadsApart {base : Nat} (h : leadsApart base calls key = true)
    (run : Calls (pagesAt base) calls t answers) : ¬ t.Confused key := by
  obtain ⟨⟨t', answers'⟩, ran, h⟩ := (Option.any_eq_true _ _).mp h
  obtain ⟨leaf, hleaf, apart⟩ := (Option.any_eq_true _ _).mp h
  have run' : Calls (pagesAt base) ([] ++ calls) t' ([] ++ answers') := Calls.nil.runCalls ran
  obtain ⟨rfl, -⟩ := run.unique run'
  exact fun confused => of_decide_eq_true apart (confused leaf ⟨4, hleaf⟩).2

/-- A search on the first of two leaves, far from the addresses of all pages. -/
theorem answers_placement_split :
    ∃ t answers u answers', Calls (pagesAt 0) (splitAndSearch 7) t answers ∧
      Calls (pagesAt 4096) (splitAndSearch 7) u answers' ∧ answers = answers' := by
  have keys : ∀ call ∈ splitAndSearch 7, TreeKey call.key := by decide
  obtain ⟨t, answers, u, answers', run, run', same⟩ :=
    answers_placement_iff (pagesAt 0) (pagesAt 4096) keys
  refine ⟨t, answers, u, answers', run, run', same.mpr ?_⟩
  rw [splitAndSearch, stepsMeet_concat]
  constructor
  · intro before call point t a u b _ _
    obtain ⟨i, -, rfl⟩ := List.mem_map.mp (point.subset (by simp) : call ∈ _)
    exact Or.inl rfl
  · intro t a u b run run'
    exact Or.inr (iff_of_false (not_confused_of_leadsApart (by decide +kernel) run)
      (not_confused_of_leadsApart (by decide +kernel) run'))

/-- The key 1024 is found, unless the second page lies there. -/
theorem answers_differ :
    ∃ t answers u answers', Calls (pagesAt 0) (splitAndSearch 1024) t answers ∧
      Calls (pagesAt 4096) (splitAndSearch 1024) u answers' ∧
      answers.getLast? = some (some false) ∧ answers'.getLast? = some (some true) := by
  have ran : ∀ base : Nat, ∀ found : Bool,
      (runCalls 4 (splitAndSearch 1024) (empty (pagesAt base))).any (fun r =>
        r.2.getLast? == some (some found)) = true →
      ∃ t answers, Calls (pagesAt base) (splitAndSearch 1024) t answers ∧
        answers.getLast? = some (some found) := by
    intro base found checked
    obtain ⟨⟨t, answers⟩, h, last⟩ := (Option.any_eq_true _ _).mp checked
    exact ⟨t, answers, by simpa using Calls.nil.runCalls h, by simpa using last⟩
  obtain ⟨t, answers, run, last⟩ := ran 0 false (by decide +kernel)
  obtain ⟨u, answers', run', last'⟩ := ran 4096 true (by decide +kernel)
  exact ⟨t, answers, u, answers', run, run', last, last'⟩

end Calls

end BTree

end F3Tree
