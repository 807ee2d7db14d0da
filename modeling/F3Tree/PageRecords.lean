import Mathlib.Data.List.GetD
import F3Tree.Lib.Keyed
import F3Tree.Page

/-!
# What the operations on a page do to its records

`Holds p es z rest` says that the live records of `p` are `es`, that `z` is the
record with the null `ptr` behind them, and that `rest` is left over behind it.
Every operation is described by what it does to these three: an insertion puts the
record at the cut of its key and takes the first left-over record as the new
terminator; a removal doubles the terminator; a split leaves everything it moves
behind the terminator of the left page.
-/

namespace F3Tree

open Keyed

namespace Page

/-- The records of a page and their number. -/
structure Holds (p : Page) (es : List Entry) (z : Entry) (rest : List Entry) : Prop where
  records : p.records = es ++ z :: rest
  live : ∀ e ∈ es, e.ptr ≠ 0
  stop : z.ptr = 0
  lastIndex : p.hdr.lastIndex = es.length - 1

section Holds

variable {p : Page} {es rest : List Entry} {z : Entry}

theorem takeWhile_live {es : List Entry} (live : ∀ e ∈ es, e.ptr ≠ 0) {z : Entry}
    (stop : z.ptr = 0) (rest : List Entry) :
    (es ++ z :: rest).takeWhile (fun e => e.ptr ≠ 0) = es := by
  induction es with
  | nil => simp [stop]
  | cons e es ih =>
      obtain ⟨he, live⟩ := List.forall_mem_cons.mp live
      rw [List.cons_append, List.takeWhile_cons_of_pos (by simpa using he), ih live]

theorem Holds.live_eq (h : p.Holds es z rest) : p.live = es := by
  rw [Page.live, h.records]
  exact takeWhile_live h.live h.stop rest

/-- A count that starts at a null record ends there. -/
theorem count_stop {c : Nat} (hlast : p.hdr.lastIndex + 1 = c) (hz : p.records[c]? = some z)
    (stop : z.ptr = 0) : p.count = some c := by
  have nonneg : ¬ (c : Int) < 0 := by omega
  rw [count, hlast, countLoop, if_neg nonneg, Int.toNat_natCast, hz]
  dsimp only
  rw [if_pos stop, Option.bind_eq_bind, Option.bind_some, if_neg nonneg, Int.toNat_natCast]
  rfl

theorem Holds.count_eq (h : p.Holds es z rest) : p.count = some es.length := by
  have start : p.hdr.lastIndex + 1 = (es.length : Int) := by
    rw [h.lastIndex]
    omega
  exact count_stop start (by simp [h.records]) h.stop

end Holds

/-! ## Insertion -/

/-- The loop shifts the records above the key over the gap `g`. -/
theorem shiftRight_spec (key ptr : Int) (es : List Entry) :
    ∀ (g : Entry) (tail : List Entry), ∃ below above, es = below ++ above ∧
      (∀ e ∈ above, key < e.key) ∧ (∀ e ∈ below.getLast?, e.key ≤ key) ∧
      shiftRight key ptr es.length (es ++ g :: tail) = below ++ ⟨key, ptr⟩ :: above ++ tail := by
  induction es using List.reverseRecOn with
  | nil => exact fun g tail => ⟨[], [], rfl, by simp, by simp, by simp [shiftRight]⟩
  | append_singleton es e ih =>
      intro g tail
      have look : (es ++ [e] ++ g :: tail).getD es.length {} = e := by simp
      have put : ∀ e', (es ++ [e] ++ g :: tail).set (es.length + 1) e' = es ++ e :: e' :: tail := by
        intro e'
        rw [List.set_append_right _ _ (by simp)]
        simp
      rw [List.length_append, List.length_singleton, shiftRight, look]
      by_cases hlt : key < e.key
      · obtain ⟨below, above, rfl, lt, le, heq⟩ := ih e (e :: tail)
        refine ⟨below, above ++ [e], by simp, fun e' mem => ?_, le, ?_⟩
        · rcases List.mem_append.mp mem with mem | mem
          · exact lt e' mem
          · rw [List.mem_singleton.mp mem]
            exact hlt
        · rw [if_pos hlt, put, heq]
          simp
      · refine ⟨es ++ [e], [], by simp, by simp, fun e' mem => ?_, ?_⟩
        · rw [List.getLast?_concat, Option.mem_some_iff] at mem
          exact mem ▸ Int.not_lt.mp hlt
        · rw [if_neg hlt, put]
          simp

theorem setPtr_append (es : List Entry) (z : Entry) (rest : List Entry) (ptr : Int) :
    setPtr (es ++ z :: rest) es.length ptr = es ++ { z with ptr := ptr } :: rest := by
  induction es with
  | nil => rfl
  | cons e es ih => exact congrArg (e :: ·) ih

/-- An insertion puts the record at the cut of its key, whatever its `ptr`. -/
theorem Holds.records_insertKey {p : Page} {es rest : List Entry} {z z' : Entry}
    (h : p.Holds es z (z' :: rest)) (ordered : Ordered Entry.key es) (key ptr : Int) :
    ∃ below above, Cut Entry.key key es below above ∧
      (p.insertKey key ptr es.length).1.records =
        below ++ ⟨key, ptr⟩ :: above ++ { z' with ptr := 0 } :: rest := by
  have stop : (p.records.getD es.length {}).ptr = 0 := by simp [h.records, h.stop]
  have mark : setPtr p.records (es.length + 1) 0 = es ++ z :: { z' with ptr := 0 } :: rest := by
    have := setPtr_append (es ++ [z]) z' rest 0
    simpa [h.records] using this
  obtain ⟨below, above, rfl, lt, last, shifted⟩ :=
    shiftRight_spec key ptr es z ({ z' with ptr := 0 } :: rest)
  have le : ∀ e ∈ below, e.key ≤ key := by
    intro e mem
    obtain ⟨init, e', rfl⟩ := (List.eq_nil_or_concat below).resolve_left (List.ne_nil_of_mem mem)
    have hlast := last e' (by simp)
    rw [List.concat_eq_append] at mem ordered
    rcases List.mem_append.mp mem with mem | mem
    · exact le_trans ((List.pairwise_append.mp (List.pairwise_append.mp ordered).1).2.2 e mem e'
        (by simp)) hlast
    · exact List.mem_singleton.mp mem ▸ hlast
  refine ⟨below, above, ⟨rfl, le, lt⟩, ?_⟩
  simp only [Page.insertKey]
  by_cases empty : (below ++ above).length = 0
  · obtain ⟨rfl, rfl⟩ := List.append_eq_nil_iff.mp (List.length_eq_zero_iff.mp empty)
    simp [h.records, setPtr]
  · rw [if_neg empty, stop, mark, shifted, List.append_assoc]

theorem Holds.insertKey {p : Page} {es rest : List Entry} {z z' : Entry}
    (h : p.Holds es z (z' :: rest)) (ordered : Ordered Entry.key es) (key : Int) {ptr : Int}
    (hptr : ptr ≠ 0) :
    ∃ below above, Cut Entry.key key es below above ∧
      (p.insertKey key ptr es.length).1.Holds (below ++ ⟨key, ptr⟩ :: above)
        { z' with ptr := 0 } rest := by
  obtain ⟨below, above, ⟨rfl, le, lt⟩, records⟩ := h.records_insertKey ordered key ptr
  refine ⟨below, above, ⟨rfl, le, lt⟩, records, fun e mem => ?_, rfl, ?_⟩
  · rcases List.mem_append.mp mem with mem | mem
    · exact h.live e (List.mem_append_left _ mem)
    · rcases List.mem_cons.mp mem with rfl | mem
      · exact hptr
      · exact h.live e (List.mem_append_right _ mem)
  · simp only [Page.insertKey, List.length_append, List.length_cons]
    push_cast
    omega

/-- An insertion makes a page read from left to right. -/
theorem isForward_insertKey (p : Page) (key ptr : Int) (n : Nat) :
    isForward (p.insertKey key ptr n).1.hdr.switchCounter = true := by
  change isForward (if isForward p.hdr.switchCounter then p.hdr.switchCounter
    else p.hdr.switchCounter + 1) = true
  unfold isForward
  split
  · assumption
  · rename_i odd
    rw [beq_iff_eq, ← UInt8.toNat_inj] at odd ⊢
    simp only [UInt8.toNat_mod, UInt8.toNat_add, UInt8.reduceToNat] at odd ⊢
    omega

/-- What an insertion leaves of the header. -/
theorem hdr_insertKey (p : Page) (key ptr : Int) (n : Nat) :
    (p.insertKey key ptr n).1.hdr =
      { p.hdr with
        switchCounter := (p.insertKey key ptr n).1.hdr.switchCounter, lastIndex := n } := rfl

/-! ## Removal -/

theorem shiftLeft_spec (es : List Entry) {z : Entry} (live : ∀ e ∈ es, e.ptr ≠ 0)
    (stop : z.ptr = 0) (rest : List Entry) :
    shiftLeft (es ++ z :: rest) = some (es.tail ++ if es = [] then z :: rest else z :: z :: rest) := by
  induction es with
  | nil => simp [shiftLeft, stop]
  | cons e es ih =>
      obtain ⟨he, live⟩ := List.forall_mem_cons.mp live
      cases es with
      | nil => simp [shiftLeft, he, stop]
      | cons e' es =>
          have := ih live
          rw [List.cons_append] at this
          rw [List.cons_append, List.cons_append, shiftLeft, if_neg he]
          simp only [this]
          simp

theorem removeLoop_of_forall_ne (key : Int) (es : List Entry) {z : Entry}
    (live : ∀ e ∈ es, e.ptr ≠ 0) (stop : z.ptr = 0) (rest : List Entry)
    (absent : ∀ e ∈ es, e.key ≠ key) :
    removeLoop key (es ++ z :: rest) = some (es ++ z :: rest, false) := by
  induction es with
  | nil => simp [removeLoop, stop]
  | cons e es ih =>
      obtain ⟨he, live⟩ := List.forall_mem_cons.mp live
      obtain ⟨hk, absent⟩ := List.forall_mem_cons.mp absent
      rw [List.cons_append, removeLoop, if_neg he, if_neg hk, ih live absent]
      rfl

theorem removeLoop_of_mem (key : Int) (before : List Entry) {e : Entry} (after : List Entry)
    {z : Entry} (live : ∀ e' ∈ before ++ e :: after, e'.ptr ≠ 0) (stop : z.ptr = 0)
    (rest : List Entry) (first : ∀ e' ∈ before, e'.key ≠ key) (hkey : e.key = key) :
    removeLoop key (before ++ e :: after ++ z :: rest) =
      some (before ++ after ++ z :: z :: rest, true) := by
  induction before with
  | nil =>
      have shifted := shiftLeft_spec (e :: after) live stop rest
      rw [List.nil_append] at live ⊢
      rw [List.cons_append] at shifted ⊢
      rw [removeLoop, if_neg (live e List.mem_cons_self), if_pos hkey, shifted]
      simp
  | cons e' before ih =>
      rw [List.cons_append] at live
      obtain ⟨he, live⟩ := List.forall_mem_cons.mp live
      obtain ⟨hk, first⟩ := List.forall_mem_cons.mp first
      simp only [List.cons_append]
      rw [removeLoop, if_neg he, if_neg hk, ih live first]
      rfl

theorem removeKey_eq {p : Page} {key : Int} {records : List Entry} {shift : Bool}
    (loop : removeLoop key p.records = some (records, shift)) :
    ∃ switchCounter, p.removeKey key = some
      ({ hdr :=
          { p.hdr with
            switchCounter := switchCounter
            lastIndex := if shift then p.hdr.lastIndex - 1 else p.hdr.lastIndex }
         records := records }, shift) := by
  rw [removeKey, loop]
  exact ⟨_, rfl⟩

/-- What a removal leaves of the header. -/
theorem hdr_removeKey {p p' : Page} {key : Int} {found : Bool}
    (removed : p.removeKey key = some (p', found)) :
    p'.hdr = { p.hdr with
      switchCounter := p'.hdr.switchCounter, lastIndex := p'.hdr.lastIndex } := by
  obtain ⟨r, -, h⟩ := Option.bind_eq_some_iff.mp removed
  obtain ⟨rfl, -⟩ := Prod.mk.inj (Option.some.inj h)
  rfl

/-- The first record with the key, if there is one. -/
theorem exists_first {es : List Entry} {key : Int} (has : ∃ e ∈ es, e.key = key) :
    ∃ before e after, es = before ++ e :: after ∧ (∀ e' ∈ before, e'.key ≠ key) ∧
      e.key = key := by
  induction es with
  | nil => simp at has
  | cons e es ih =>
      by_cases hk : e.key = key
      · exact ⟨[], e, es, rfl, by simp, hk⟩
      · have has' : ∃ e' ∈ es, e'.key = key := by simpa [hk] using has
        obtain ⟨before, e', after, rfl, first, hkey⟩ := ih has'
        exact ⟨e :: before, e', after, rfl, List.forall_mem_cons.mpr ⟨hk, first⟩, hkey⟩

/-- The first record with the key goes, and the terminator is doubled. -/
theorem Holds.removeKey_of_mem {p : Page} {before after rest : List Entry} {e z : Entry}
    (h : p.Holds (before ++ e :: after) z rest) {key : Int}
    (first : ∀ e' ∈ before, e'.key ≠ key) (hkey : e.key = key) :
    ∃ p', p.removeKey key = some (p', true) ∧ p'.Holds (before ++ after) z (z :: rest) ∧
      p'.hdr = { p.hdr with
        switchCounter := p'.hdr.switchCounter, lastIndex := p'.hdr.lastIndex } := by
  have loop := removeLoop_of_mem key before after h.live h.stop rest first hkey
  rw [← h.records] at loop
  obtain ⟨switchCounter, removed⟩ := removeKey_eq loop
  refine ⟨_, removed, ⟨rfl, fun e' mem => ?_, h.stop, ?_⟩, rfl⟩
  · refine h.live e' ?_
    rcases List.mem_append.mp mem with mem | mem
    · exact List.mem_append_left _ mem
    · exact List.mem_append_right _ (List.mem_cons_of_mem _ mem)
  · simp only [if_true, h.lastIndex, List.length_append, List.length_cons]
    push_cast
    omega

/-- Without a record of the key only the search direction changes. -/
theorem Holds.removeKey_of_forall_ne {p : Page} {es rest : List Entry} {z : Entry}
    (h : p.Holds es z rest) {key : Int} (absent : ∀ e ∈ es, e.key ≠ key) :
    ∃ p', p.removeKey key = some (p', false) ∧ p'.records = p.records ∧
      p'.hdr = { p.hdr with switchCounter := p'.hdr.switchCounter } := by
  have loop := removeLoop_of_forall_ne key es h.live h.stop rest absent
  rw [← h.records] at loop
  obtain ⟨switchCounter, removed⟩ := removeKey_eq loop
  exact ⟨_, removed, rfl, rfl⟩

/-! ## Search in a leaf -/

theorem leafForward_spec {key : Int} (es : List Entry) {z : Entry}
    (values : ∀ e ∈ es, e.ptr = e.key) (live : ∀ e ∈ es, e.ptr ≠ 0) (stop : z.ptr = 0)
    (rest : List Entry) : ∀ prev : Entry, (es ≠ [] → prev.ptr ≠ key) →
      leafForward key prev (es ++ z :: rest) =
        some (if ∃ e ∈ es, e.key = key then key else 0) := by
  induction es with
  | nil => intro prev _; simp [leafForward, stop]
  | cons e es ih =>
      intro prev hprev
      obtain ⟨he, live⟩ := List.forall_mem_cons.mp live
      obtain ⟨hv, values⟩ := List.forall_mem_cons.mp values
      rw [List.cons_append, leafForward, if_neg he]
      by_cases hk : e.key = key
      · have found : ∃ e' ∈ e :: es, e'.key = key := ⟨e, List.mem_cons_self, hk⟩
        rw [if_pos found, if_pos ⟨hk, by rw [hv, hk]; exact hprev (by simp)⟩, hv, hk]
      · have ne : e.ptr ≠ key := by rwa [hv]
        rw [if_neg fun h => hk h.1, ih values live e fun _ => ne]
        simp [hk]

theorem leafBackward_of_forall_ne {key : Int} {records : List Entry} :
    ∀ n, (∀ i < n + 1, (records.getD i {}).key ≠ key) → leafBackward key records n = 0
  | 0, _ => rfl
  | i + 1, absent => by
      rw [leafBackward, if_neg fun h => absent (i + 1) (Nat.lt_succ_self _) h.1]
      exact leafBackward_of_forall_ne i fun j hj => absent j (Nat.lt_succ_of_lt hj)

/-- An answer from right to left is the value of a record with the key. -/
theorem leafBackward_eq {key : Int} {records : List Entry} :
    ∀ n, (∀ i < n + 1, (records.getD i {}).ptr = (records.getD i {}).key) →
      leafBackward key records n = 0 ∨ leafBackward key records n = key
  | 0, _ => Or.inl rfl
  | i + 1, values => by
      rw [leafBackward]
      split
      · rename_i h
        exact Or.inr ((values (i + 1) (Nat.lt_succ_self _)).trans h.1)
      · exact leafBackward_eq i fun j hj => values j (Nat.lt_succ_of_lt hj)

/-- From right to left, the first of the records with the key is found unless it is
`records[0]`. -/
theorem leafBackward_ne_zero {key : Int} {records : List Entry} {j : Nat}
    (hkey : (records.getD (j + 1) {}).key = key)
    (hprev : (records.getD j {}).ptr ≠ (records.getD (j + 1) {}).ptr)
    (hlive : (records.getD (j + 1) {}).ptr ≠ 0) :
    ∀ n, j + 1 ≤ n → leafBackward key records n ≠ 0
  | 0, hle => absurd hle (by omega)
  | i + 1, hle => by
      rw [leafBackward]
      split
      · rename_i h
        exact h.2.2
      · rename_i h
        rcases Nat.lt_or_eq_of_le hle with hlt | heq
        · exact leafBackward_ne_zero hkey hprev hlive i (by omega)
        · have : j = i := by omega
          subst this
          exact absurd ⟨hkey, hprev, hlive⟩ h

/-- What a leaf answers from right to left, the look at `records[0]` included. -/
theorem leafBackward_spec (key : Int) {e : Entry} {es : List Entry} (tail : List Entry)
    (values : ∀ e' ∈ e :: es, e'.ptr = e'.key) (live : ∀ e' ∈ e :: es, e'.ptr ≠ 0) :
    let ret := leafBackward key (e :: es ++ tail) es.length
    (if ret = 0 ∧ e.key = key ∧ e.ptr ≠ 0 then e.ptr else ret) =
      if ∃ e' ∈ e :: es, e'.key = key then key else 0 := by
  intro ret
  have look : ∀ {i : Nat} (hi : i < es.length + 1),
      (e :: es ++ tail).getD i {} = (e :: es)[i] := fun {i} hi =>
    (List.getD_append _ _ _ _ hi).trans (List.getD_eq_getElem _ _ hi)
  have back : ret = 0 ∨ ret = key := leafBackward_eq es.length fun i hi => by
    rw [look hi]
    exact values _ (List.getElem_mem hi)
  by_cases has : ∃ e' ∈ e :: es, e'.key = key
  · rw [if_pos has]
    obtain ⟨before, e', after, split, first, hkey⟩ := exists_first has
    rcases List.eq_nil_or_concat before with rfl | ⟨init, e₀, rfl⟩
    · obtain ⟨rfl, -⟩ := List.cons.inj split
      have hptr : e.ptr = key := (values e List.mem_cons_self).trans hkey
      rcases back with back | back <;> simp +contextual [back, hkey, hptr, eq_comm]
    · -- The record in front of the first one has another value.
      rw [List.concat_eq_append, List.append_assoc, List.singleton_append] at split
      have hlen : init.length + 1 < es.length + 1 := by
        have := congrArg List.length split
        simp only [List.length_cons, List.length_append] at this
        omega
      have here : (e :: es ++ tail).getD (init.length + 1) {} = e' := by
        rw [look hlen]
        simp [split]
      have prev : (e :: es ++ tail).getD init.length {} = e₀ := by
        rw [look (by omega)]
        simp [split]
      have mem : e₀ ∈ e :: es ∧ e' ∈ e :: es := by simp [split]
      have ne : ret ≠ 0 := by
        refine leafBackward_ne_zero (j := init.length) (by rw [here, hkey]) ?_ ?_ _ (by omega)
        · rw [here, prev, values _ mem.1, values _ mem.2, hkey]
          exact first e₀ (by simp)
        · rw [here]
          exact live _ mem.2
      rw [if_neg fun h => ne h.1, back.resolve_left ne]
  · rw [if_neg has]
    have absent : ret = 0 := leafBackward_of_forall_ne es.length fun i hi => by
      rw [look hi]
      exact fun hk => has ⟨_, List.getElem_mem hi, hk⟩
    rw [absent, if_neg fun h => has ⟨e, List.mem_cons_self, h.2.1⟩]

/-- A leaf answers the key of a record, in either direction. -/
theorem Holds.searchLeaf_eq {p : Page} {es rest : List Entry} {z : Entry}
    (h : p.Holds es z rest) (values : ∀ e ∈ es, e.ptr = e.key)
    (second : es = [] → ∃ z' rest', rest = z' :: rest' ∧ z'.ptr = 0) (key : Int) :
    p.searchLeaf key = some (if ∃ e ∈ es, e.key = key then key else 0) := by
  have hrecords := h.records
  cases es with
  | nil =>
      obtain ⟨z', rest', rfl, stop'⟩ := second rfl
      rw [List.nil_append] at hrecords
      rw [searchLeaf, h.count_eq, hrecords]
      simp [h.stop, stop', leafForward, leafBackward]
  | cons e es =>
      have he := h.live e List.mem_cons_self
      have hv := values e List.mem_cons_self
      have backward := leafBackward_spec key (z :: rest) values h.live
      rw [← hrecords] at backward
      rw [List.cons_append] at hrecords
      rw [searchLeaf, h.count_eq]
      split
      · rename_i heq
        rw [hrecords] at heq
        cases heq
      · rename_i first tail heq
        rw [hrecords] at heq
        obtain ⟨rfl, rfl⟩ := List.cons.inj heq
        split
        · by_cases hk : e.key = key
          · have found : ∃ e' ∈ e :: es, e'.key = key := ⟨e, List.mem_cons_self, hk⟩
            rw [if_pos ⟨hk, he⟩, if_pos found, hv, hk]
          · have ne : es ≠ [] → e.ptr ≠ key := fun _ => by rwa [hv]
            rw [if_neg fun h => hk h.1, leafForward_spec es
              (fun e' mem => values e' (List.mem_cons_of_mem _ mem))
              (fun e' mem => h.live e' (List.mem_cons_of_mem _ mem)) h.stop rest e ne]
            simp [hk]
        · rw [Option.bind_eq_bind, Option.bind_some, List.length_cons, Nat.add_sub_cancel,
            ← backward]
          exact (apply_ite some _ _ _).symm

/-! ## Search in an internal page -/

/-- The child for a key: that of the last record up to it, or the leftmost one. -/
def childOf (leftmost : Int) (below : List Entry) : Int :=
  (below.getLast?.map Entry.ptr).getD leftmost

theorem childOf_mem (leftmost : Int) (below : List Entry) :
    childOf leftmost below ∈ leftmost :: below.map Entry.ptr := by
  rcases List.eq_nil_or_concat below with rfl | ⟨init, e, rfl⟩ <;> simp [childOf]

theorem childOf_cons (leftmost : Int) (e : Entry) (below : List Entry) :
    childOf leftmost (e :: below) = childOf e.ptr below := by
  rcases List.eq_nil_or_concat below with rfl | ⟨init, e', rfl⟩ <;>
    simp [childOf, List.getLast?_cons]

/-- The last of the slots, with the one of the leftmost child in front. -/
theorem childOf_slots {lm least : Int} {front init : List Entry} {x : Entry}
    (h : ⟨least, lm⟩ :: front = init ++ [x]) : childOf lm front = x.ptr := by
  cases init with
  | nil =>
      obtain ⟨rfl, rfl⟩ := List.cons.inj h
      rfl
  | cons e init =>
      obtain ⟨-, rfl⟩ := List.cons.inj h
      simp [childOf]

theorem internalForward_spec {key : Int} (above : List Entry) {z : Entry} (stop : z.ptr = 0)
    (rest : List Entry) (lt : ∀ e ∈ above, key < e.key) :
    ∀ (below : List Entry) (prev : Entry), (∀ e ∈ below, e.key ≤ key) →
      (∀ e ∈ below ++ above, e.ptr ≠ 0) →
      (prev.ptr :: (below ++ above).map Entry.ptr).Nodup →
      internalForward key prev (below ++ above ++ z :: rest) = some (childOf prev.ptr below)
  | [], prev, _, live, nodup => by
      cases above with
      | nil => simp [internalForward, stop, childOf]
      | cons e above =>
          have he := live e (by simp)
          have hne : prev.ptr ≠ e.ptr := fun h => by simp [h] at nodup
          simp [internalForward, he, lt e List.mem_cons_self, hne, childOf]
  | e :: below, prev, le, live, nodup => by
      obtain ⟨hle, le⟩ := List.forall_mem_cons.mp le
      rw [List.cons_append] at live nodup
      obtain ⟨he, live⟩ := List.forall_mem_cons.mp live
      rw [List.cons_append, List.cons_append, internalForward, if_neg he,
        if_neg fun h => absurd h.1 (not_lt.mpr hle),
        internalForward_spec above stop rest lt below e le live (List.nodup_cons.mp nodup).2,
        childOf_cons]

theorem internalBackward_spec {key leftmost : Int} {below : List Entry} (tail : List Entry)
    (le : ∀ e ∈ below, e.key ≤ key) (nodup : (leftmost :: below.map Entry.ptr).Nodup) :
    internalBackward key leftmost (below ++ tail) below.length =
      (below.getLast?.map Entry.ptr).getD 0 := by
  rcases List.eq_nil_or_concat below with rfl | ⟨init, e, rfl⟩
  · rfl
  · rw [List.concat_eq_append] at le nodup ⊢
    have look : (init ++ [e] ++ tail).getD init.length {} = e := by simp
    have hle : key ≥ e.key := le e (by simp)
    have hprev : (if init.length = 0 then leftmost
        else ((init ++ [e] ++ tail).getD (init.length - 1) {}).ptr) ≠ e.ptr := by
      rcases List.eq_nil_or_concat init with rfl | ⟨init', e', rfl⟩
      · simpa using nodup
      · have : (init'.concat e' ++ [e] ++ tail).getD ((init'.concat e').length - 1) {} = e' := by
          simp
        rw [if_neg (by simp), this]
        intro h
        simp [h, List.nodup_append] at nodup
    rw [List.length_append, List.length_singleton, internalBackward, look,
      if_pos ⟨hle, hprev⟩]
    simp

theorem internalBackward_skip {key : Int} (leftmost : Int) (below above : List Entry) :
    ∀ tail : List Entry, (∀ e ∈ above, key < e.key) →
      internalBackward key leftmost (below ++ above ++ tail) (below.length + above.length) =
        internalBackward key leftmost (below ++ above ++ tail) below.length := by
  induction above using List.reverseRecOn with
  | nil => exact fun _ _ => rfl
  | append_singleton above e ih =>
      intro tail lt
      have look : (below ++ (above ++ [e]) ++ tail).getD (below.length + above.length) {} = e := by
        have : below ++ (above ++ [e]) ++ tail = (below ++ above) ++ (e :: tail) := by simp
        rw [this, ← List.length_append]
        simp
      have hlt := lt e (by simp)
      have := ih (e :: tail) fun e' mem => lt e' (List.mem_append_left _ mem)
      rw [List.length_append, List.length_singleton, ← Nat.add_assoc, internalBackward, look,
        if_neg fun h => absurd h.1 (not_le.mpr hlt)]
      simpa using this

/-- An internal page answers the child for the key, or null for the leftmost one. -/
theorem Holds.searchInternal_eq {p : Page} {es rest : List Entry} {z : Entry}
    (h : p.Holds es z rest) (nonempty : es ≠ [])
    (nodup : (p.hdr.leftmostPtr :: es.map Entry.ptr).Nodup) {key : Int}
    {below above : List Entry} (cut : Cut Entry.key key es below above) :
    ∃ ret, p.searchInternal key = some ret ∧
      (if ret ≠ 0 then ret else p.hdr.leftmostPtr) = childOf p.hdr.leftmostPtr below := by
  obtain ⟨e, es, rfl⟩ := List.exists_cons_of_ne_nil nonempty
  have hrecords := h.records
  have backward : internalBackward key p.hdr.leftmostPtr p.records (e :: es).length =
      (below.getLast?.map Entry.ptr).getD 0 := by
    have skip := internalBackward_skip p.hdr.leftmostPtr below above (z :: rest) cut.lt
    have hnodup := nodup
    rw [cut.eq, List.map_append, ← List.cons_append] at hnodup
    rw [← List.length_append, ← cut.eq, ← h.records] at skip
    rw [skip, h.records, cut.eq, List.append_assoc,
      internalBackward_spec _ cut.le (List.nodup_append.mp hnodup).1]
  rw [searchInternal, h.count_eq]
  split
  · rename_i heq
    rw [hrecords] at heq
    cases heq
  · rename_i first tail heq
    rw [hrecords, List.cons_append] at heq
    obtain ⟨rfl, rfl⟩ := List.cons.inj heq
    have hlive := h.live
    obtain ⟨heq, le, lt⟩ := cut
    split
    · split
      · rename_i hlt
        refine ⟨_, rfl, ?_⟩
        cases below with
        | nil => simp [childOf]
        | cons e' below =>
            obtain ⟨rfl, -⟩ := List.cons.inj heq
            exact absurd (le e List.mem_cons_self) (not_le.mpr hlt.1)
      · rename_i hge
        cases below with
        | nil =>
            have hmem : e ∈ above := by
              rw [List.nil_append] at heq
              exact heq ▸ List.mem_cons_self
            exact absurd ⟨lt e hmem, fun h => by simp [h] at nodup⟩ hge
        | cons e' below =>
            obtain ⟨rfl, rfl⟩ := List.cons.inj heq
            have found := internalForward_spec above h.stop rest lt below e
              (fun e' mem => le e' (List.mem_cons_of_mem _ mem))
              (fun e' mem => hlive e' (List.mem_cons_of_mem _ mem)) (List.nodup_cons.mp nodup).2
            have ne : childOf e.ptr below ≠ 0 := by
              have mem := childOf_mem e.ptr below
              rw [← List.map_cons, List.mem_map] at mem
              obtain ⟨e', mem, hptr⟩ := mem
              exact hptr ▸ hlive e' (List.mem_append_left above mem)
            refine ⟨_, found, ?_⟩
            rw [if_pos ne, childOf_cons]
    · refine ⟨_, congrArg some backward, ?_⟩
      rcases List.eq_nil_or_concat below with rfl | ⟨init, e', rfl⟩
      · simp [childOf]
      · have he' : e'.ptr ≠ 0 := hlive e' (by simp [heq])
        simp [childOf, he']

/-- A page without a record answers its leftmost child. -/
theorem Holds.searchInternal_thin {p : Page} {es rest : List Entry} {z : Entry}
    (h : p.Holds es z rest) (second : es = [] → ∃ z' rest', rest = z' :: rest' ∧ z'.ptr = 0)
    (nodup : (p.hdr.leftmostPtr :: es.map Entry.ptr).Nodup) {key : Int}
    {below above : List Entry} (cut : Cut Entry.key key es below above) :
    ∃ ret, p.searchInternal key = some ret ∧
      (if ret ≠ 0 then ret else p.hdr.leftmostPtr) = childOf p.hdr.leftmostPtr below := by
  by_cases nonempty : es = []
  · subst nonempty
    obtain ⟨z', rest', rfl, stop'⟩ := second rfl
    obtain ⟨rfl, -⟩ := List.append_eq_nil_iff.mp cut.eq.symm
    have hrecords := h.records
    rw [List.nil_append] at hrecords
    rw [searchInternal, h.count_eq, hrecords]
    dsimp only
    split
    · rw [internalForward, if_pos stop', h.stop]
      split
      · exact ⟨_, rfl, by simp [childOf]⟩
      · exact ⟨_, rfl, by simp [childOf]⟩
    · exact ⟨0, rfl, by simp [childOf]⟩
  · exact h.searchInternal_eq nonempty nodup cut

/-! ## Splitting -/

theorem holds_new (level : Nat) :
    (new level).Holds [] {} (List.replicate (cardinality - 1) {}) :=
  ⟨rfl, by simp, rfl, rfl⟩

/-- Records moved in their order arrive in their order. -/
theorem migrate_spec (level : Nat) (es : List Entry) :
    es.length < cardinality → Ordered Entry.key es → (∀ e ∈ es, e.ptr ≠ 0) →
    (migrate es (new level)).2 = es.length ∧
    (migrate es (new level)).1.Holds es {} (List.replicate (cardinality - 1 - es.length) {}) ∧
    (migrate es (new level)).1.hdr =
      { level := level, lastIndex := (migrate es (new level)).1.hdr.lastIndex
        switchCounter := (migrate es (new level)).1.hdr.switchCounter } := by
  induction es using List.reverseRecOn with
  | nil => exact fun _ _ _ => ⟨rfl, holds_new level, rfl⟩
  | append_singleton es e ih =>
      intro room ordered live
      rw [List.length_append, List.length_singleton] at room
      obtain ⟨ordered', -, last⟩ := List.pairwise_append.mp ordered
      obtain ⟨cnt, holds, hdr⟩ := ih (by omega) ordered' fun e' mem =>
        live e' (List.mem_append_left _ mem)
      have step : migrate (es ++ [e]) (new level) =
          (migrate es (new level)).1.insertKey e.key e.ptr es.length := by
        rw [migrate, List.foldl_append, ← migrate, List.foldl_cons, List.foldl_nil, cnt]
      have more : cardinality - 1 - es.length = cardinality - 1 - (es.length + 1) + 1 := by omega
      rw [more, List.replicate_succ] at holds
      obtain ⟨below, above, cut, holds'⟩ :=
        holds.insertKey ordered' e.key (live e (by simp))
      obtain ⟨rfl, rfl⟩ := cut.unique (.of_forall_le fun e' mem => last e' mem e (by simp))
      rw [step]
      refine ⟨by simp [insertKey], ?_, ?_⟩
      · simpa using holds'
      · rw [hdr_insertKey, hdr]

/-- A split leaves the records before the middle, and moves those from the middle on;
an internal page turns the middle record into the leftmost child of the sibling. -/
theorem Holds.split_eq {p : Page} {before after rest : List Entry} {e z : Entry}
    (h : p.Holds (before ++ e :: after) z rest)
    (ordered : Ordered Entry.key (before ++ e :: after))
    (half : before.length = (before ++ e :: after).length / 2)
    (room : after.length + 1 < cardinality) (siblingPtr : Int) :
    let s := p.split (before ++ e :: after).length siblingPtr
    let moved := if p.hdr.leftmostPtr = 0 then e :: after else after
    s.splitKey = e.key ∧ s.siblingCnt = moved.length ∧
      s.left.Holds before { e with ptr := 0 } (after ++ z :: rest) ∧
      s.left.hdr = { p.hdr with
        siblingPtr := siblingPtr, switchCounter := s.left.hdr.switchCounter
        lastIndex := s.left.hdr.lastIndex } ∧
      s.sibling.Holds moved {} (List.replicate (cardinality - 1 - moved.length) {}) ∧
      s.sibling.hdr =
        { leftmostPtr := if p.hdr.leftmostPtr = 0 then 0 else e.ptr
          siblingPtr := p.hdr.siblingPtr, level := p.hdr.level
          switchCounter := s.sibling.hdr.switchCounter
          lastIndex := s.sibling.hdr.lastIndex } := by
  intro s moved
  have take : p.records.take (before ++ e :: after).length = before ++ e :: after := by
    rw [h.records, List.take_left]
  have look : p.records.getD before.length {} = e := by simp [h.records]
  have hmoved : (if p.hdr.leftmostPtr = 0 then (before ++ e :: after).drop before.length
      else (before ++ e :: after).drop (before.length + 1)) = moved := by
    simp only [moved]
    split
    · exact List.drop_left
    · rw [← List.drop_drop, List.drop_left]
      rfl
  have length : moved.length < cardinality := by
    simp only [moved]
    split
    · exact room
    · exact Nat.lt_of_succ_lt room
  obtain ⟨-, ordered', -⟩ := List.pairwise_append.mp ordered
  have sub : moved.Sublist (e :: after) := by
    simp only [moved]
    split
    · exact List.Sublist.refl _
    · exact List.sublist_cons_self _ _
  obtain ⟨cnt, holds, hdr⟩ := migrate_spec p.hdr.level moved length (ordered'.sublist sub)
    fun e' mem => h.live e' (List.mem_append_right _ (sub.mem mem))
  simp only [s, Page.split, ← half, take, look, hmoved]
  refine ⟨trivial, cnt, ⟨?_, ?_, rfl, rfl⟩, trivial, ⟨holds.records, holds.live, rfl, ?_⟩, ?_⟩
  · rw [h.records, List.append_assoc, List.cons_append, setPtr_append]
  · exact fun e' mem => h.live e' (List.mem_append_left _ mem)
  · exact holds.lastIndex
  · rw [hdr]

end Page

end F3Tree
