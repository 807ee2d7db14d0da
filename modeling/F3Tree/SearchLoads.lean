import Mathlib.Logic.Relation
import F3Tree.Fast
import F3Tree.Lib.Seqlock

/-!
# The loads of a search

`linear_search` takes no lock.  Here its loop over a leaf makes one load a step, and between
two of them a writer that holds the lock of the page makes any number of its stores, one call
of `insert_key` or `remove_key` after another.  Loads and stores take effect in the order of
the program; the two operands of `records[i - 1].ptr != (t = records[i].ptr)` are read in
either order, which the language leaves open.

A pass over the records goes by the `switch_counter` that it reads first, and counts if the
counter is the same at its end: a reader under a version counter (`leafSearch`).  That is a
`uint8_t`, so a pass during which it is stored 256 times could take the last value for the
first, and is left out.

Without a writer a pass is `Page.searchLeaf` (`searches_alone`).
-/

namespace F3Tree

/-- The next load of the loop over a leaf.  `c` is `previous_switch_counter`, `c'` that of
`count`. -/
inductive LeafPhase : Type
  | counter
  | countCounter (c : UInt8)
  | lastIndex (c c' : UInt8)
  | counting (c c' : UInt8) (count : Int)
  | recounting (c c' : UInt8) (count : Nat)
  | countCheck (c c' : UInt8) (count : Int)
  | firstKey (c : UInt8)
  | firstPtr (c : UInt8)
  | firstAgain (c : UInt8) (t : Int)
  | more (c : UInt8) (i : Nat)
  | key (c : UInt8) (i : Nat)
  /-- In front of `records[i - 1].ptr != (t = records[i].ptr)`. -/
  | operands (c : UInt8) (i : Nat)
  | right (c : UInt8) (i : Nat) (prev : Int)
  | left (c : UInt8) (i : Nat) (t : Int)
  | again (c : UInt8) (i : Nat) (t : Int)
  | check (c : UInt8) (ret : Int)
  | done (c : UInt8) (ret : Int)
deriving DecidableEq, Repr

namespace LeafPhase

/-- `while (count >= 0 && …)`, and `count = 0` behind it. -/
def countFrom (c c' : UInt8) (count : Int) : LeafPhase :=
  if count < 0 then .recounting c c' 0 else .counting c c' count

/-- `i > 0` in the loop from right to left, and `records[0]` behind it. -/
def backwardFrom (c : UInt8) (i : Int) : LeafPhase :=
  if i > 0 then .key c i.toNat else .firstKey c

/-- Behind the look at `records[i]` when that is not the one. -/
def next (c : UInt8) (i : Nat) : LeafPhase :=
  if isForward c then .more c (i + 1) else backwardFrom c (i - 1)

/-- Behind the look at `records[0]` when that is not the one. -/
def afterFirst (c : UInt8) : LeafPhase :=
  if isForward c then .more c 1 else .check c 0

/-- From right to left `t` is compared with null as well. -/
def compare (c : UInt8) (i : Nat) (prev t : Int) : LeafPhase :=
  if prev ≠ t ∧ (isForward c ∨ t ≠ 0) then .again c i t else next c i

/-- One load.  Nothing is read outside the array. -/
def load (p : Page) (k : Int) (rightFirst : Bool) : LeafPhase → Option LeafPhase
  | .counter =>
      let c := p.hdr.switchCounter
      some (if isForward c then .firstKey c else .countCounter c)
  | .countCounter c => some (.lastIndex c p.hdr.switchCounter)
  | .lastIndex c c' => some (countFrom c c' (p.hdr.lastIndex + 1))
  | .counting c c' count => (p.records[count.toNat]?).map fun e =>
      if e.ptr = 0 then .countCheck c c' count
      else countFrom c c' (if isForward c' then count + 1 else count - 1)
  | .recounting c c' count => (p.records[count]?).map fun e =>
      if e.ptr = 0 then .countCheck c c' count else .recounting c c' (count + 1)
  | .countCheck c c' count =>
      some (if p.hdr.switchCounter = c' then backwardFrom c (count - 1) else .countCounter c)
  | .firstKey c => (p.records[0]?).map fun e =>
      if e.key = k then .firstPtr c else afterFirst c
  | .firstPtr c => (p.records[0]?).map fun e =>
      if e.ptr ≠ 0 then .firstAgain c e.ptr else afterFirst c
  | .firstAgain c t => (p.records[0]?).map fun e =>
      if e.key = k then .check c t else afterFirst c
  | .more c i => (p.records[i]?).map fun e =>
      if e.ptr = 0 then .check c 0 else .key c i
  | .key c i => (p.records[i]?).map fun e =>
      if e.key = k then .operands c i else next c i
  | .operands c i =>
      if rightFirst then (p.records[i]?).map fun e => .left c i e.ptr
      else (p.records[i - 1]?).map fun e => .right c i e.ptr
  | .right c i prev => (p.records[i]?).map fun e => compare c i prev e.ptr
  | .left c i t => (p.records[i - 1]?).map fun e => compare c i e.ptr t
  | .again c i t => (p.records[i]?).map fun e =>
      if e.key = k then .check c t else next c i
  | .check c ret => some (if p.hdr.switchCounter = c then .done c ret else .counter)
  | .done _ _ => none

end LeafPhase

/-! ## Without a writer -/

section Alone

variable {p : Page} {k ret : Int} {rightFirst : Bool} {c c' : UInt8}

/-- The loads of a reader alone on a page. -/
abbrev Alone (p : Page) (k : Int) (rightFirst : Bool) : LeafPhase → LeafPhase → Prop :=
  Relation.ReflTransGen fun phase phase' => phase.load p k rightFirst = some phase'

theorem Alone.of_load {phase phase'' : LeafPhase} (phase' : LeafPhase)
    (load : phase.load p k rightFirst = some phase') (rest : Alone p k rightFirst phase' phase'') :
    Alone p k rightFirst phase phase'' := .head load rest

/-- Both orders of the operands come to the same comparison. -/
theorem alone_operands {i : Nat} {prev e : Entry} (hprev : p.records[i - 1]? = some prev)
    (he : p.records[i]? = some e) :
    Alone p k rightFirst (.operands c i) (LeafPhase.compare c i prev.ptr e.ptr) := by
  cases rightFirst with
  | true =>
      refine .of_load (.left c i e.ptr) (by simp [LeafPhase.load, he]) (.single ?_)
      simp [LeafPhase.load, hprev]
  | false =>
      refine .of_load (.right c i prev.ptr) (by simp [LeafPhase.load, hprev]) (.single ?_)
      simp [LeafPhase.load, he]

theorem alone_forward (forward : isForward c = true) {i : Nat} {prev : Entry} {rest : List Entry}
    (hprev : p.records[i]? = some prev) (hrest : p.records.drop (i + 1) = rest)
    (h : Page.leafForward k prev rest = some ret) :
    Alone p k rightFirst (.more c (i + 1)) (.check c ret) := by
  induction rest generalizing i prev with
  | nil => cases h
  | cons e rest ih =>
      have he : p.records[i + 1]? = some e := by
        rw [← List.head?_drop, hrest, List.head?_cons]
      have tail : p.records.drop (i + 1 + 1) = rest := by
        rw [← List.tail_drop, hrest, List.tail_cons]
      have more : LeafPhase.next c (i + 1) = .more c (i + 1 + 1) := if_pos forward
      rw [Page.leafForward] at h
      split at h
      · rename_i stop
        obtain rfl := Option.some.inj h
        exact .single (by simp [LeafPhase.load, he, stop])
      · rename_i live
        refine .of_load (.key c (i + 1)) (by simp [LeafPhase.load, he, live]) ?_
        by_cases hkey : e.key = k
        · refine .of_load (.operands c (i + 1)) (by simp [LeafPhase.load, he, hkey]) ?_
          refine (alone_operands (by simpa using hprev) he).trans ?_
          rw [LeafPhase.compare]
          split at h
          · rename_i found
            obtain rfl := Option.some.inj h
            rw [if_pos ⟨found.2, Or.inl forward⟩]
            exact .single (by simp [LeafPhase.load, he, hkey])
          · rename_i other
            rw [if_neg fun found => other ⟨hkey, found.1⟩, more]
            exact ih he tail h
        · rw [if_neg fun found => hkey found.1] at h
          refine .of_load (.more c (i + 1 + 1)) ?_ (ih he tail h)
          simp [LeafPhase.load, he, hkey, more]

theorem alone_backward (backward : isForward c = false) {i : Nat} (hi : i < p.records.length) :
    Alone p k rightFirst (LeafPhase.backwardFrom c i)
      (if Page.leafBackward k p.records i = 0 then .firstKey c
        else .check c (Page.leafBackward k p.records i)) := by
  induction i with
  | zero => exact .refl
  | succ i ih =>
      have he : p.records[i + 1]? = some (p.records.getD (i + 1) {}) := by
        rw [List.getElem?_eq_getElem hi, List.getD_eq_getElem _ _ hi]
      have hprev : p.records[i + 1 - 1]? = some (p.records.getD i {}) := by
        rw [Nat.add_sub_cancel, List.getElem?_eq_getElem (Nat.lt_of_succ_lt hi),
          List.getD_eq_getElem _ _ (Nat.lt_of_succ_lt hi)]
      have next : LeafPhase.next c (i + 1) = LeafPhase.backwardFrom c i := by
        rw [LeafPhase.next, if_neg (by simp [backward])]
        congr 1
        omega
      have start : LeafPhase.backwardFrom c (i + 1 : Nat) = .key c (i + 1) := by
        rw [LeafPhase.backwardFrom, if_pos (by omega), Int.toNat_natCast]
      have value : Page.leafBackward k p.records (i + 1) =
          if (p.records.getD (i + 1) {}).key = k ∧
              (p.records.getD i {}).ptr ≠ (p.records.getD (i + 1) {}).ptr ∧
              (p.records.getD (i + 1) {}).ptr ≠ 0 then (p.records.getD (i + 1) {}).ptr
          else Page.leafBackward k p.records i := rfl
      rw [start]
      by_cases hkey : (p.records.getD (i + 1) {}).key = k
      · refine .of_load (.operands c (i + 1)) (by simp only [LeafPhase.load, he,
          Option.map_some, if_pos hkey]) ?_
        refine (alone_operands hprev he).trans ?_
        rw [LeafPhase.compare]
        by_cases other : (p.records.getD i {}).ptr ≠ (p.records.getD (i + 1) {}).ptr ∧
            (p.records.getD (i + 1) {}).ptr ≠ 0
        · rw [if_pos ⟨hkey, other⟩] at value
          rw [if_pos ⟨other.1, Or.inr other.2⟩, value, if_neg other.2]
          exact .single (by simp only [LeafPhase.load, he, Option.map_some, if_pos hkey])
        · have rejected : ¬ ((p.records.getD i {}).ptr ≠ (p.records.getD (i + 1) {}).ptr ∧
              (isForward c = true ∨ (p.records.getD (i + 1) {}).ptr ≠ 0)) := by
            simpa [backward] using other
          rw [if_neg fun found => other found.2] at value
          rw [if_neg rejected, value, next]
          exact ih (Nat.lt_of_succ_lt hi)
      · rw [if_neg fun found => hkey found.1] at value
        rw [value]
        refine .of_load (LeafPhase.backwardFrom c i) ?_ (ih (Nat.lt_of_succ_lt hi))
        simp only [LeafPhase.load, he, Option.map_some, if_neg hkey, next]

/-- A count ends on a record. -/
theorem countLoop_lt {forward : Bool} {steps : Nat} {count m : Int}
    (h : p.countLoop forward steps count = some m) (nonneg : 0 ≤ m) :
    m.toNat < p.records.length := by
  induction steps generalizing count with
  | zero => cases h
  | succ steps ih =>
      rw [Page.countLoop] at h
      split at h
      · obtain rfl := Option.some.inj h
        omega
      · cases he : p.records[count.toNat]? with
        | none =>
            rw [he] at h
            cases h
        | some e =>
            rw [he] at h
            dsimp only at h
            split at h
            · obtain rfl := Option.some.inj h
              exact (List.getElem?_eq_some_iff.mp he).1
            · exact ih h

theorem alone_recounting {steps n : Nat} {m : Int} (rightFirst : Bool) (c' : UInt8)
    (h : p.countLoop true steps n = some m) :
    0 ≤ m ∧ Alone p k rightFirst (.recounting c c' n) (.countCheck c c' m) := by
  induction steps generalizing n with
  | zero => cases h
  | succ steps ih =>
      rw [Page.countLoop, if_neg (by omega), Int.toNat_natCast] at h
      cases he : p.records[n]? with
      | none =>
          rw [he] at h
          cases h
      | some e =>
          rw [he] at h
          dsimp only at h
          split at h
          · rename_i stop
            obtain rfl := Option.some.inj h
            exact ⟨by omega, .single (by simp [LeafPhase.load, he, stop])⟩
          · rename_i live
            obtain ⟨nonneg, rest⟩ := ih (n := n + 1) (by simpa using h)
            exact ⟨nonneg, .of_load (.recounting c c' (n + 1)) (by
              simp only [LeafPhase.load, he, Option.map_some, if_neg live]) rest⟩

theorem count_lt {n : Nat} (h : p.count = some n) : n < p.records.length := by
  unfold Page.count at h
  obtain ⟨m, first, h⟩ := Option.bind_eq_some_iff.mp h
  split at h
  · obtain ⟨m', second, h⟩ := Option.bind_eq_some_iff.mp h
    have nonneg : 0 ≤ m' := (alone_recounting (k := 0) (c := 0) (n := 0) false 0 second).1
    obtain rfl := Option.some.inj h
    exact countLoop_lt second nonneg
  · rename_i nonneg
    obtain rfl := Option.some.inj h
    exact countLoop_lt first (Int.not_lt.mp nonneg)

theorem alone_counting {steps : Nat} {count m : Int} (rightFirst : Bool)
    (h : p.countLoop (isForward c') steps count = some m) :
    Alone p k rightFirst (LeafPhase.countFrom c c' count)
      (if m < 0 then .recounting c c' 0 else .countCheck c c' m) := by
  induction steps generalizing count with
  | zero => cases h
  | succ steps ih =>
      rw [Page.countLoop] at h
      rw [LeafPhase.countFrom]
      split at h
      · rename_i neg
        obtain rfl := Option.some.inj h
        rw [if_pos neg, if_pos neg]
      · rename_i nonneg
        rw [if_neg nonneg]
        cases he : p.records[count.toNat]? with
        | none =>
            rw [he] at h
            cases h
        | some e =>
            rw [he] at h
            dsimp only at h
            split at h
            · rename_i stop
              obtain rfl := Option.some.inj h
              rw [if_neg nonneg]
              exact .single (by simp only [LeafPhase.load, he, Option.map_some, if_pos stop])
            · rename_i live
              exact .of_load _ (by simp only [LeafPhase.load, he, Option.map_some, if_neg live])
                (ih h)

theorem alone_count {n : Nat} (h : p.count = some n) :
    Alone p k rightFirst (.countCounter c) (LeafPhase.backwardFrom c (n - 1)) := by
  have check : ∀ m : Int, Alone p k rightFirst (.countCheck c p.hdr.switchCounter m)
      (LeafPhase.backwardFrom c (m - 1)) := fun m =>
    .single (by simp [LeafPhase.load])
  refine .of_load (.lastIndex c p.hdr.switchCounter) rfl ?_
  refine .of_load (LeafPhase.countFrom c p.hdr.switchCounter (p.hdr.lastIndex + 1)) rfl ?_
  unfold Page.count at h
  obtain ⟨m, first, h⟩ := Option.bind_eq_some_iff.mp h
  have counted := alone_counting (k := k) (c := c) rightFirst first
  split at h
  · rename_i neg
    rw [if_pos neg] at counted
    obtain ⟨m', second, h⟩ := Option.bind_eq_some_iff.mp h
    obtain ⟨nonneg, recounted⟩ := alone_recounting (k := k) (c := c) (n := 0) rightFirst
      p.hdr.switchCounter second
    obtain rfl := Option.some.inj h
    rw [Int.toNat_of_nonneg nonneg]
    exact (counted.trans recounted).trans (check m')
  · rename_i nonneg
    rw [if_neg nonneg] at counted
    obtain rfl := Option.some.inj h
    rw [Int.toNat_of_nonneg (Int.not_lt.mp nonneg)]
    exact counted.trans (check m)

/-- A reader alone on a leaf finds what `searchLeaf` says. -/
theorem searches_alone (h : p.searchLeaf k = some ret) :
    Alone p k rightFirst .counter (.done p.hdr.switchCounter ret) := by
  have check : ∀ ret, Alone p k rightFirst (.check p.hdr.switchCounter ret)
      (.done p.hdr.switchCounter ret) := fun ret => .single (by simp [LeafPhase.load])
  unfold Page.searchLeaf at h
  split at h
  · cases h
  rename_i first rest hrecords
  have hfirst : p.records[0]? = some first := by rw [hrecords]; rfl
  -- The look at `records[0]`, and where it goes on.
  have look : ∀ c, Alone p k rightFirst (.firstKey c)
      (if first.key = k ∧ first.ptr ≠ 0 then .check c first.ptr else LeafPhase.afterFirst c) := by
    intro c
    by_cases hkey : first.key = k
    · refine .of_load (.firstPtr c) (by simp [LeafPhase.load, hfirst, hkey]) ?_
      by_cases live : first.ptr ≠ 0
      · rw [if_pos ⟨hkey, live⟩]
        refine .of_load (.firstAgain c first.ptr) (by
          simp [LeafPhase.load, hfirst, live]) (.single ?_)
        simp [LeafPhase.load, hfirst, hkey]
      · rw [if_neg fun found => live found.2]
        exact .single (by simp only [LeafPhase.load, hfirst, Option.map_some, if_neg live])
    · rw [if_neg fun found => hkey found.1]
      exact .single (by simp [LeafPhase.load, hfirst, hkey])
  split at h
  · rename_i forward
    refine .of_load (.firstKey p.hdr.switchCounter) (by
      simp [LeafPhase.load, forward]) ((look _).trans ?_)
    split at h
    · rename_i found
      obtain rfl := Option.some.inj h
      rw [if_pos found]
      exact check _
    · rename_i other
      rw [if_neg other, LeafPhase.afterFirst, if_pos forward]
      exact (alone_forward (i := 0) forward hfirst (by rw [hrecords]; rfl) h).trans (check ret)
  · rename_i backward
    rw [Bool.not_eq_true] at backward
    obtain ⟨n, count, h⟩ := Option.bind_eq_some_iff.mp h
    refine .of_load (.countCounter p.hdr.switchCounter) (by
      simp [LeafPhase.load, backward]) ((alone_count count).trans ?_)
    have start : LeafPhase.backwardFrom p.hdr.switchCounter ((n : Int) - 1) =
        LeafPhase.backwardFrom p.hdr.switchCounter ((n - 1 : Nat) : Int) := by
      cases n with
      | zero => rfl
      | succ n => congr 1; omega
    rw [start]
    refine (alone_backward backward (Nat.lt_of_le_of_lt (Nat.sub_le _ _) (count_lt count))).trans ?_
    by_cases none : Page.leafBackward k p.records (n - 1) = 0
    · rw [if_pos none]
      refine (look _).trans ?_
      by_cases found : first.key = k ∧ first.ptr ≠ 0
      · rw [if_pos ⟨none, found⟩] at h
        obtain rfl := Option.some.inj h
        rw [if_pos found]
        exact check _
      · rw [if_neg fun both => found both.2] at h
        obtain rfl := Option.some.inj h
        rw [if_neg found, LeafPhase.afterFirst, if_neg (by simp [backward]), none]
        exact check 0
    · rw [if_neg none]
      rw [if_neg fun both => none both.1] at h
      obtain rfl := Option.some.inj h
      exact check _

end Alone

/-! ## A reader and a writer -/

/-- The counter that a pass goes by. -/
def LeafPhase.previous : LeafPhase → Option UInt8
  | .counter | .done _ _ => none
  | .countCounter c | .lastIndex c _ | .counting c _ _ | .recounting c _ _ | .countCheck c _ _
  | .firstKey c | .firstPtr c | .firstAgain c _ | .more c _ | .key c _ | .operands c _
  | .right c _ _ | .left c _ _ | .again c _ _ | .check c _ => some c

namespace LeafPhase

section Previous

variable (c c' : UInt8) (i : Nat) (n prev t : Int)

theorem previous_countFrom : (countFrom c c' n).previous = some c := by
  unfold countFrom
  split <;> rfl

theorem previous_backwardFrom : (backwardFrom c n).previous = some c := by
  unfold backwardFrom
  split <;> rfl

theorem previous_next : (next c i).previous = some c := by
  unfold next
  split
  · rfl
  · exact previous_backwardFrom c _

theorem previous_afterFirst : (afterFirst c).previous = some c := by
  unfold afterFirst
  split <;> rfl

theorem previous_compare : (compare c i prev t).previous = some c := by
  unfold compare
  split
  · rfl
  · exact previous_next c i

end Previous

/-- A load begins a pass, stays in it, or ends it. -/
theorem previous_load {p : Page} {k : Int} {rightFirst : Bool} {phase phase' : LeafPhase}
    (load : phase.load p k rightFirst = some phase') :
    phase = .counter ∧ phase'.previous = some p.hdr.switchCounter ∨
    phase ≠ .counter ∧ phase'.previous = phase.previous ∨
    ∃ c ret, phase = .check c ret ∧
      phase' = if p.hdr.switchCounter = c then .done c ret else .counter := by
  cases phase with
  | counter =>
      obtain rfl := Option.some.inj load
      exact Or.inl ⟨rfl, by split <;> rfl⟩
  | check c ret =>
      obtain rfl := Option.some.inj load
      exact Or.inr (Or.inr ⟨c, ret, rfl, rfl⟩)
  | done c ret => cases load
  | countCounter c | lastIndex c c' | countCheck c c' count =>
      obtain rfl := Option.some.inj load
      refine Or.inr (Or.inl ⟨by simp, ?_⟩)
      first
        | rfl
        | exact previous_countFrom c c' _
        | split <;> first | rfl | exact previous_backwardFrom c _
  | operands c i =>
      refine Or.inr (Or.inl ⟨by simp, ?_⟩)
      rw [LeafPhase.load] at load
      split at load <;>
      · obtain ⟨e, -, rfl⟩ := Option.map_eq_some_iff.mp load
        rfl
  | _ =>
      refine Or.inr (Or.inl ⟨by simp, ?_⟩)
      obtain ⟨e, -, rfl⟩ := Option.map_eq_some_iff.mp load
      first
        | exact previous_compare _ _ _ _
        | split <;> first
            | rfl
            | exact previous_countFrom _ _ _
            | exact previous_afterFirst _
            | exact previous_next _ _

end LeafPhase

/-- The stores to the counter. -/
def PageStore.turns : PageStore → Bool
  | .switchCounter _ => true
  | _ => false

/-- The calls of a writer that leaves `k` alone: it inserts keys that the leaf does not have. -/
inductive LeafCall (k : Int) (p : Page) : List PageStore → Prop
  | insert (key : Int) {n : Nat} : key ≠ 0 → key ≠ k → (∀ e ∈ p.live, e.key ≠ key) →
    p.count = some n → n < cardinality - 1 → LeafCall k p (p.insertKeyStores key key n)
  | remove (key : Int) : key ≠ k → LeafCall k p (p.removeKeyStores key)

/-- A reader who looks for `k` in a leaf, and the writer that holds its lock. -/
def leafSearch (k : Int) : Seqlock Page PageStore LeafPhase UInt8 where
  version p := p.hdr.switchCounter
  next c := c + 1
  period := 256
  perform := Page.perform
  Turns s := s.turns
  Call := LeafCall k
  Load p phase phase' := ∃ rightFirst, phase.load p k rightFirst = some phase'
  pass := LeafPhase.previous
  initial := .counter

namespace LeafPhase

theorem add_ofNat_eq_self {c : UInt8} {n : Nat} (hn : n < 256) (h : c + UInt8.ofNat n = c) :
    n = 0 := by
  rw [← UInt8.toNat_inj, UInt8.toNat_add, UInt8.toNat_ofNat'] at h
  have := c.toNat_lt
  omega

theorem iterate_next (c : UInt8) (n : Nat) : (· + 1)^[n] c = c + UInt8.ofNat n := by
  induction n with
  | zero => exact (UInt8.add_zero c).symm
  | succ n ih =>
      rw [Function.iterate_succ_apply', ih, UInt8.ofNat_add, UInt8.add_assoc]
      rfl

end LeafPhase

theorem leafSearch_lawful (k : Int) : (leafSearch k).Lawful where
  initial := rfl
  period_pos := Nat.zero_lt_succ 255
  distinct c n hn h := LeafPhase.add_ofNat_eq_self hn ((LeafPhase.iterate_next c n).symm.trans h)
  load := by
    rintro p phase phase' ⟨rightFirst, load⟩
    rcases LeafPhase.previous_load load with ⟨rfl, previous⟩ | ⟨inside, previous⟩ |
        ⟨c, ret, rfl, rfl⟩
    · exact Or.inl ⟨rfl, previous⟩
    · refine Or.inr (Or.inl ⟨fun outside => ?_, previous⟩)
      cases phase with
      | counter => exact inside rfl
      | done c ret => cases load
      | _ => cases outside
    · refine Or.inr (Or.inr ⟨c, rfl, ?_⟩)
      by_cases same : p.hdr.switchCounter = c
      · rw [if_pos same]
        exact ⟨rfl, Or.inl same⟩
      · rw [if_neg same]
        exact ⟨rfl, Or.inr rfl⟩

/-- The machine of a reader of a leaf and its writer. -/
abbrev LeafMachine : Type := Seqlock.Machine Page PageStore LeafPhase

/-- What a schedule has next: a call of the writer, its next store, or the reader's next load. -/
inductive LeafMove : Type
  | insert (key : Int)
  | remove (key : Int)
  | store
  | load (rightFirst : Bool)

namespace LeafMachine

variable {k : Int} {m m' : LeafMachine}

def move (k : Int) (m : LeafMachine) : LeafMove → Option LeafMachine
  | .insert key => m.mem.count.bind fun n =>
      if m.pending = [] ∧ key ≠ 0 ∧ key ≠ k ∧ (∀ e ∈ m.mem.live, e.key ≠ key) ∧
          n < cardinality - 1 then
        some { m with pending := m.mem.insertKeyStores key key n }
      else none
  | .remove key =>
      if m.pending = [] ∧ key ≠ k then some { m with pending := m.mem.removeKeyStores key }
      else none
  | .store =>
      match m.pending with
      | [] => none
      | s :: rest =>
          if s.turns then
            if m.turns + 1 < 256 then
              some { m with mem := m.mem.perform s, pending := rest, turns := m.turns + 1 }
            else none
          else some { m with mem := m.mem.perform s, pending := rest }
  | .load rightFirst => (m.phase.load m.mem k rightFirst).map fun phase =>
      { m with phase := phase, turns := if m.phase.previous.isSome then m.turns else 0 }

theorem move_step {move : LeafMove} (h : m.move k move = some m') : (leafSearch k).Step m m' := by
  cases move with
  | insert key =>
      obtain ⟨n, count, h⟩ := Option.bind_eq_some_iff.mp h
      split at h
      · rename_i call
        obtain rfl := Option.some.inj h
        obtain ⟨idle, live, other, new, room⟩ := call
        exact .call idle (.insert key live other new count room)
      · cases h
  | remove key =>
      rw [LeafMachine.move] at h
      split at h
      · rename_i call
        obtain rfl := Option.some.inj h
        exact .call call.1 (.remove key call.2)
      · cases h
  | store =>
      rw [LeafMachine.move] at h
      split at h
      · cases h
      · rename_i s rest hpending
        split at h
        · rename_i turns
          split at h
          · rename_i bound
            obtain rfl := Option.some.inj h
            exact .turn hpending turns bound
          · cases h
        · rename_i turns
          obtain rfl := Option.some.inj h
          exact .store hpending turns
  | load rightFirst =>
      obtain ⟨phase, load, rfl⟩ := Option.map_eq_some_iff.mp h
      exact .load ⟨rightFirst, load⟩

/-- A schedule is one of the interleavings. -/
theorem reach_of_moves {moves : List LeafMove} (h : moves.foldlM (move k) m = some m') :
    (leafSearch k).Reach m m' := by
  induction moves generalizing m with
  | nil => exact Option.some.inj h ▸ .refl
  | cons first moves ih =>
      rw [List.foldlM_cons] at h
      obtain ⟨m₁, step, h⟩ := Option.bind_eq_some_iff.mp h
      exact .head (move_step step) (ih h)

end LeafMachine

end F3Tree
