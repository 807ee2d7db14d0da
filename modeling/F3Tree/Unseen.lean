import F3Tree.LockFree

/-!
# Searches for a key that is not there

`remove_key` leaves keys behind the end of a page, and `insert_key` gives a record its pointer
before its key.  A search that ends on a pass from left to right still does not report a key
that the leaf does not have, whatever insertions and removals of other keys go on meanwhile
(`LeafOk.misses`): during such a pass, where the key stands, the pointer is null or that of the
record in front (`Hides`).
-/

namespace F3Tree

open Keyed

/-- No record in front of the terminator `records[e]` shows `k`. -/
structure Hides (p : Page) (k : Int) (e : Nat) : Prop where
  pos : 0 < e
  stop : ∀ z, p.records[e]? = some z → z.ptr = 0
  first : ∀ x, p.records[0]? = some x → x.key = k → x.ptr = 0
  behind : ∀ i x y, 0 < i → i < e → p.records[i - 1]? = some x → p.records[i]? = some y →
    y.key = k → y.ptr = 0 ∨ y.ptr = x.ptr

/-- Where `k` stands, it stood before, and behind a record that has not changed. -/
structure Keeps (p q : Page) (k : Int) (e : Nat) : Prop where
  key : ∀ i y, i < e → q.records[i]? = some y → y.key = k →
    ∃ y', p.records[i]? = some y' ∧ y'.key = k ∧ (y'.ptr ≠ 0 → y.ptr = y'.ptr)
  prev : ∀ i y, 0 < i → i < e → q.records[i]? = some y → y.key = k →
    q.records[i - 1]? = p.records[i - 1]?

/-- How the records behave while stores are made to a page that does not have `k`.  Nothing is
said of a page that is read from right to left. -/
inductive Veiled (k : Int) : Page → List PageStore → Nat → Prop
  | rest {p : Page} : LeafOk p → (∀ e ∈ p.live, e.key ≠ k) → Veiled k p [] (max 1 p.live.length)
  | turn {p : Page} {stores : List PageStore} {e e' : Nat} : Hides p k e →
    Veiled k (p.perform (.switchCounter (p.hdr.switchCounter + 1))) stores e' →
    Veiled k p (.switchCounter (p.hdr.switchCounter + 1) :: stores) e
  | forward {p : Page} {s : PageStore} {stores : List PageStore} {e e' : Nat} :
    isForward p.hdr.switchCounter = true → s.turns = false → Hides p k e → e ≤ e' →
    Keeps p (p.perform s) k e → Veiled k (p.perform s) stores e' → Veiled k p (s :: stores) e
  | backward {p : Page} {s : PageStore} {stores : List PageStore} {e e' : Nat} :
    isForward p.hdr.switchCounter = false → s.turns = false → Veiled k (p.perform s) stores e' →
    Veiled k p (s :: stores) e

section Veiled

variable {p q : Page} {k : Int} {e : Nat} {stores : List PageStore}

/-! ## The reader -/

namespace LeafPhase

/-- What a reader of a page that has not been turned since has of `k`. -/
def Misses (p : Page) (k : Int) (e : Nat) : LeafPhase → Prop
  | .countCounter c | .lastIndex c _ | .counting c _ _ | .recounting c _ _ | .countCheck c _ _ =>
      isForward c = false
  | .firstAgain c _ => isForward c = true → 0 < e ∧ ∀ x, p.records[0]? = some x → x.key ≠ k
  | .more c i => isForward c = true → 0 < i ∧ i ≤ e
  | .key c i | .operands c i => isForward c = true → 0 < i ∧ i < e ∧
      ∀ x y, p.records[i - 1]? = some x → p.records[i]? = some y → y.key = k →
        y.ptr ≠ 0 ∧ y.ptr = x.ptr
  | .right c i prev => isForward c = true → 0 < i ∧ i < e ∧
      ∀ y, p.records[i]? = some y → y.key = k → y.ptr ≠ 0 ∧ y.ptr = prev
  | .left c i t => isForward c = true → 0 < i ∧ i < e ∧
      ∀ x y, p.records[i - 1]? = some x → p.records[i]? = some y → y.key = k →
        y.ptr ≠ 0 ∧ x.ptr = t
  | .again c i _ => isForward c = true → 0 < i ∧ i < e ∧
      ∀ y, p.records[i]? = some y → y.key ≠ k
  | .check c ret => isForward c = true → ret = 0
  | .done c ret => isForward c = true → ret = 0
  | _ => True

theorem misses_of_backward {phase : LeafPhase} {c : UInt8} (hc : phase.previous = some c)
    (backward : isForward c = false) : phase.Misses p k e := by
  have never : ∀ {P : Prop}, (isForward c = true → P) := fun forward => by
    rw [backward] at forward
    exact Bool.noConfusion forward
  cases phase with
  | counter | done c ret => cases hc
  | firstKey c | firstPtr c => trivial
  | countCounter c | lastIndex c c' | counting c c' n | recounting c c' n | countCheck c c' n =>
      obtain rfl := Option.some.inj hc
      exact backward
  | _ =>
      obtain rfl := Option.some.inj hc
      exact never

end LeafPhase

/-- Past a record. -/
theorem misses_next {c : UInt8} {i : Nat} (forward : isForward c = true) (lt : i < e) :
    (LeafPhase.next c i).Misses p k e := by
  rw [LeafPhase.next, if_pos forward]
  exact fun _ => ⟨Nat.succ_pos i, lt⟩

theorem misses_afterFirst {c : UInt8} (forward : isForward c = true) (hides : Hides p k e) :
    (LeafPhase.afterFirst c).Misses p k e := by
  rw [LeafPhase.afterFirst, if_pos forward]
  exact fun _ => ⟨Nat.one_pos, hides.pos⟩

/-- A load of a page that is read from left to right. -/
theorem LeafPhase.Misses.load {phase phase' : LeafPhase} {rightFirst : Bool} {c : UInt8}
    (misses : phase.Misses p k e) (hides : Hides p k e) (hc : phase.previous = some c)
    (forward : isForward c = true) (load : phase.load p k rightFirst = some phase') :
    phase'.Misses p k e := by
  cases phase with
  | counter | done c ret => cases hc
  | countCounter c | lastIndex c c' | counting c c' n | recounting c c' n | countCheck c c' n =>
      obtain rfl := Option.some.inj hc
      exact absurd forward (Bool.eq_false_iff.mp misses)
  | firstKey c =>
      obtain rfl := Option.some.inj hc
      obtain ⟨x, hx, rfl⟩ := Option.map_eq_some_iff.mp load
      split
      · trivial
      · exact misses_afterFirst forward hides
  | firstPtr c =>
      obtain rfl := Option.some.inj hc
      obtain ⟨x, hx, rfl⟩ := Option.map_eq_some_iff.mp load
      split
      · rename_i live
        refine fun _ => ⟨hides.pos, fun y hy hkey => ?_⟩
        obtain rfl := Option.some.inj (hx.symm.trans hy)
        exact live (hides.first x hx hkey)
      · exact misses_afterFirst forward hides
  | firstAgain c t =>
      obtain rfl := Option.some.inj hc
      obtain ⟨x, hx, rfl⟩ := Option.map_eq_some_iff.mp load
      rw [if_neg ((misses forward).2 x hx)]
      exact misses_afterFirst forward hides
  | more c i =>
      obtain rfl := Option.some.inj hc
      obtain ⟨hi, hle⟩ := misses forward
      obtain ⟨y, hy, rfl⟩ := Option.map_eq_some_iff.mp load
      split
      · exact fun _ => rfl
      · rename_i live
        have lt : i < e := Nat.lt_of_le_of_ne hle fun heq => live (hides.stop y (heq ▸ hy))
        refine fun _ => ⟨hi, lt, fun x y' hx hy' hkey => ?_⟩
        obtain rfl := Option.some.inj (hy.symm.trans hy')
        exact ⟨live, (hides.behind i x y hi lt hx hy hkey).resolve_left live⟩
  | key c i =>
      obtain rfl := Option.some.inj hc
      obtain ⟨y, hy, rfl⟩ := Option.map_eq_some_iff.mp load
      split
      · exact misses
      · exact misses_next forward (misses forward).2.1
  | operands c i =>
      obtain rfl := Option.some.inj hc
      obtain ⟨hi, lt, doubled⟩ := misses forward
      rw [LeafPhase.load] at load
      split at load
      · obtain ⟨y, hy, rfl⟩ := Option.map_eq_some_iff.mp load
        refine fun _ => ⟨hi, lt, fun x y' hx hy' hkey => ?_⟩
        obtain rfl := Option.some.inj (hy.symm.trans hy')
        obtain ⟨live, same⟩ := doubled x y hx hy hkey
        exact ⟨live, same.symm⟩
      · obtain ⟨x, hx, rfl⟩ := Option.map_eq_some_iff.mp load
        exact fun _ => ⟨hi, lt, fun y hy hkey => doubled x y hx hy hkey⟩
  | right c i prev =>
      obtain rfl := Option.some.inj hc
      obtain ⟨hi, lt, same⟩ := misses forward
      obtain ⟨y, hy, rfl⟩ := Option.map_eq_some_iff.mp load
      unfold LeafPhase.compare
      split
      · rename_i differ
        refine fun _ => ⟨hi, lt, fun y' hy' hkey => ?_⟩
        obtain rfl := Option.some.inj (hy.symm.trans hy')
        exact differ.1 (same y hy hkey).2.symm
      · exact misses_next forward lt
  | left c i t =>
      obtain rfl := Option.some.inj hc
      obtain ⟨hi, lt, same⟩ := misses forward
      obtain ⟨x, hx, rfl⟩ := Option.map_eq_some_iff.mp load
      unfold LeafPhase.compare
      split
      · rename_i differ
        exact fun _ => ⟨hi, lt, fun y hy hkey => differ.1 (same x y hx hy hkey).2⟩
      · exact misses_next forward lt
  | again c i t =>
      obtain rfl := Option.some.inj hc
      obtain ⟨hi, lt, other⟩ := misses forward
      obtain ⟨y, hy, rfl⟩ := Option.map_eq_some_iff.mp load
      rw [if_neg (other y hy)]
      exact misses_next forward lt
  | check c ret =>
      obtain rfl := Option.some.inj load
      split
      · exact misses
      · trivial

/-- A store to a page that is read from left to right. -/
theorem LeafPhase.Misses.store {phase : LeafPhase} {e' : Nat} (misses : phase.Misses p k e)
    (keeps : Keeps p q k e) (le : e ≤ e') : phase.Misses q k e' := by
  cases phase with
  | firstAgain c t =>
      intro forward
      obtain ⟨pos, other⟩ := misses forward
      refine ⟨pos.trans_le le, fun x hx hkey => ?_⟩
      obtain ⟨x', hx', hkey', -⟩ := keeps.key 0 x pos hx hkey
      exact other x' hx' hkey'
  | more c i => exact fun forward => ⟨(misses forward).1, (misses forward).2.trans le⟩
  | key c i | operands c i =>
      intro forward
      obtain ⟨hi, lt, doubled⟩ := misses forward
      refine ⟨hi, lt.trans_le le, fun x y hx hy hkey => ?_⟩
      obtain ⟨y', hy', hkey', same⟩ := keeps.key i y lt hy hkey
      rw [keeps.prev i y hi lt hy hkey] at hx
      obtain ⟨live, heq⟩ := doubled x y' hx hy' hkey'
      rw [same live]
      exact ⟨live, heq⟩
  | right c i prev =>
      intro forward
      obtain ⟨hi, lt, doubled⟩ := misses forward
      refine ⟨hi, lt.trans_le le, fun y hy hkey => ?_⟩
      obtain ⟨y', hy', hkey', same⟩ := keeps.key i y lt hy hkey
      obtain ⟨live, heq⟩ := doubled y' hy' hkey'
      rw [same live]
      exact ⟨live, heq⟩
  | left c i t =>
      intro forward
      obtain ⟨hi, lt, doubled⟩ := misses forward
      refine ⟨hi, lt.trans_le le, fun x y hx hy hkey => ?_⟩
      obtain ⟨y', hy', hkey', same⟩ := keeps.key i y lt hy hkey
      rw [keeps.prev i y hi lt hy hkey] at hx
      obtain ⟨live, heq⟩ := doubled x y' hx hy' hkey'
      rw [same live]
      exact ⟨live, heq⟩
  | again c i t =>
      intro forward
      obtain ⟨hi, lt, other⟩ := misses forward
      refine ⟨hi, lt.trans_le le, fun y hy hkey => ?_⟩
      obtain ⟨y', hy', hkey', -⟩ := keeps.key i y lt hy hkey
      exact other y' hy' hkey'
  | countCounter c | lastIndex c c' | counting c c' n | recounting c c' n | countCheck c c' n
  | check c ret | done c ret => exact misses
  | _ => trivial

/-! ## The writer -/

variable {front es tail : List Entry} {x x' : Entry} {key : Int}

/-- The records while an insertion shifts them, when the leaf does not have `k`. -/
structure Veil (p : Page) (k : Int) (front : List Entry) (x : Entry) (es tail : List Entry) :
    Prop where
  records : p.records = front ++ x :: (es ++ tail)
  absent : ∀ e ∈ front ++ es, e.key ≠ k
  gap : x.key = k → x.ptr = 0 ∨ x.ptr = Page.childOf 0 front
  stop : ∀ z ∈ tail.head?, z.ptr = 0

/-- Only the gap can have the key. -/
theorem eq_gap_of_key {records : List Entry} (hrecords : records = front ++ x :: (es ++ tail))
    (absent : ∀ e ∈ front ++ es, e.key ≠ k) {i : Nat} {y : Entry}
    (lt : i < front.length + 1 + es.length) (hy : records[i]? = some y) (hkey : y.key = k) :
    i = front.length ∧ y = x := by
  rw [hrecords] at hy
  rcases Nat.lt_trichotomy i front.length with hlt | rfl | hgt
  · rw [List.getElem?_append_left hlt] at hy
    exact absurd hkey (absent y (List.mem_append_left _ (List.mem_of_getElem? hy)))
  · rw [List.getElem?_append_right le_rfl, Nat.sub_self, List.getElem?_cons_zero] at hy
    exact ⟨rfl, (Option.some.inj hy).symm⟩
  · obtain ⟨m, rfl⟩ := Nat.exists_eq_add_of_lt hgt
    rw [List.getElem?_append_right (by omega), Nat.add_assoc, Nat.add_sub_cancel_left,
      List.getElem?_cons_succ, List.getElem?_append_left (by omega)] at hy
    exact absurd hkey (absent y (List.mem_append_right _ (List.mem_of_getElem? hy)))

theorem Veil.hides (h : Veil p k front x es tail) : Hides p k (front.length + 1 + es.length) := by
  obtain ⟨hrecords, absent, gap, stop⟩ := h
  refine ⟨by omega, fun z hz => ?_, fun y hy hkey => ?_, fun i w y hi lt hw hy hkey => ?_⟩
  · rw [hrecords, List.getElem?_append_right (by omega), Nat.add_assoc, Nat.add_sub_cancel_left,
      Nat.add_comm 1, List.getElem?_cons_succ, List.getElem?_append_right le_rfl, Nat.sub_self,
      ← List.head?_eq_getElem?] at hz
    exact stop z hz
  · obtain ⟨heq, rfl⟩ := eq_gap_of_key hrecords absent (by omega) hy hkey
    have nil : front = [] := List.length_eq_zero_iff.mp heq.symm
    rw [nil] at gap
    exact (gap hkey).elim id id
  · obtain ⟨rfl, rfl⟩ := eq_gap_of_key hrecords absent lt hy hkey
    rw [hrecords, List.getElem?_append_left (by omega), ← List.getLast?_eq_getElem?] at hw
    have child : Page.childOf 0 front = w.ptr := by rw [Page.childOf, hw]; rfl
    exact child ▸ gap hkey

/-- A store into the gap. -/
theorem Veil.put (h : Veil p k front x es tail) (hq : q.records = front ++ x' :: (es ++ tail))
    (hx : x'.key = k → x.key = k ∧ x'.ptr = Page.childOf 0 front) :
    Veil q k front x' es tail ∧ Keeps p q k (front.length + 1 + es.length) := by
  obtain ⟨hrecords, absent, gap, stop⟩ := h
  refine ⟨⟨hq, absent, fun hkey => Or.inr (hx hkey).2, stop⟩, fun i y lt hy hkey => ?_,
    fun i y hi lt hy hkey => ?_⟩
  · obtain ⟨rfl, rfl⟩ := eq_gap_of_key hq absent lt hy hkey
    obtain ⟨hkey', child⟩ := hx hkey
    refine ⟨x, by simp [hrecords], hkey', fun live => ?_⟩
    rw [child, (gap hkey').resolve_left live]
  · obtain ⟨rfl, rfl⟩ := eq_gap_of_key hq absent lt hy hkey
    rw [hq, hrecords, List.getElem?_append_left (by omega), List.getElem?_append_left (by omega)]

/-- One store of an insertion into the gap. -/
theorem Veil.veiled (h : Veil p k front x es tail) (forward : isForward p.hdr.switchCounter = true)
    {s : PageStore} (turn : s.turns = false)
    (hs : p.perform s = { p with records := front ++ x' :: (es ++ tail) })
    (hx : x'.key = k → x.key = k ∧ x'.ptr = Page.childOf 0 front)
    (later : Veil (p.perform s) k front x' es tail →
      Veiled k (p.perform s) stores (front.length + 1 + es.length)) :
    Veiled k p (s :: stores) (front.length + 1 + es.length) := by
  obtain ⟨veil, keeps⟩ := h.put (q := p.perform s) (by rw [hs]) hx
  exact .forward forward turn h.hides le_rfl keeps (later veil)

/-- The loop of an insertion. -/
theorem Veil.veiled_shiftRight (h : Veil p k front x es tail)
    (forward : isForward p.hdr.switchCounter = true) (other : key ≠ k)
    (later : Hides (p.performs (Page.shiftRightStores 0 key key front.length p.records)) k
        (front.length + 1 + es.length) →
      Veiled k (p.performs (Page.shiftRightStores 0 key key front.length p.records)) stores
        (front.length + 1 + es.length)) :
    Veiled k p (Page.shiftRightStores 0 key key front.length p.records ++ stores)
      (front.length + 1 + es.length) := by
  rw [h.records] at later ⊢
  refine shiftRightStores_induction (I := fun front x es shifts => ∀ p,
    Veil p k front x es tail → isForward p.hdr.switchCounter = true →
    (Hides (p.performs shifts) k (front.length + 1 + es.length) →
      Veiled k (p.performs shifts) stores (front.length + 1 + es.length)) →
    Veiled k p (shifts ++ stores) (front.length + 1 + es.length)) 0 tail ?new ?copy
    front x es p h forward later
  case new =>
    intro front x es p h forward later
    refine h.veiled forward rfl (perform_ptr rfl h.records _) (fun hkey => ⟨hkey, rfl⟩) fun h₁ => ?_
    refine h₁.veiled forward rfl (perform_key rfl h₁.records key) (fun hkey => absurd hkey other)
      fun h₂ => ?_
    refine h₂.veiled forward rfl (perform_ptr rfl h₂.records key) (fun hkey => absurd hkey other)
      fun h₃ => ?_
    exact later h₃.hides
  case copy =>
    intro front e x es shifts ih p h forward later
    have absent : e.key ≠ k := h.absent e (by simp)
    have hlen : (front ++ [e]).length + 1 + es.length = front.length + 1 + (e :: es).length := by
      simp only [List.length_append, List.length_cons, List.length_nil]
      omega
    refine h.veiled forward rfl (perform_ptr rfl h.records e.ptr)
      (fun hkey => ⟨hkey, by simp [Page.childOf]⟩) fun h₁ => ?_
    refine h₁.veiled forward rfl (perform_key rfl h₁.records e.key)
      (fun hkey => absurd hkey absent) fun h₂ => ?_
    rw [hlen] at later ⊢
    refine ih _ ⟨by simpa using h₂.records, ?_, fun hkey => absurd hkey absent, h.stop⟩ forward later
    simpa using h.absent

/-! ### Between two calls -/

theorem Keeps.of_agree (h : ∀ i < e, q.records[i]? = p.records[i]?) : Keeps p q k e := by
  refine ⟨fun i y lt hy hkey => ⟨y, h i lt ▸ hy, hkey, fun _ => rfl⟩, fun i y _ lt _ _ => ?_⟩
  exact h (i - 1) (by omega)

/-- The first null pointer behind `records[0]` ends a leaf. -/
theorem LeafOk.hides (ok : LeafOk p) (absent : ∀ e ∈ p.live, e.key ≠ k) :
    Hides p k (max 1 p.live.length) := by
  obtain ⟨z, rest, holds, second⟩ := ok.holds
  have hrecords := holds.records
  cases empty : p.live with
  | nil =>
      obtain ⟨z', rest', rfl, stop⟩ := second empty
      rw [empty, List.nil_append] at hrecords
      have veil : Veil p k [] z [] (z' :: rest') :=
        ⟨hrecords, by simp, fun _ => Or.inl holds.stop, by simpa using stop⟩
      exact veil.hides
  | cons first es =>
      rw [empty] at hrecords absent
      have hlen : max 1 (first :: es).length = 0 + 1 + es.length := by
        rw [List.length_cons]
        omega
      have veil : Veil p k [] first es (z :: rest) :=
        ⟨hrecords, fun e mem => absent e (List.mem_cons_of_mem _ mem),
          fun hkey => absurd hkey (absent first List.mem_cons_self), by simpa using holds.stop⟩
      exact hlen ▸ veil.hides

theorem Veiled.hides (h : Veiled k p stores e) (forward : isForward p.hdr.switchCounter = true) :
    Hides p k e := by
  cases h with
  | rest ok absent => exact ok.hides absent
  | turn hides _ | forward _ _ hides _ _ _ => exact hides
  | backward backward _ _ =>
      rw [forward] at backward
      exact Bool.noConfusion backward

/-- The stores of `insert_key` to the records, and `last_index`. -/
theorem LeafOk.veiled_records (ok : LeafOk p) (absent : ∀ e ∈ p.live, e.key ≠ k)
    (other : key ≠ k) (room : p.live.length < cardinality - 1) (hq : q.records = p.records)
    (forward : isForward q.hdr.switchCounter = true)
    (final : ∀ q', q' = (q.performs (p.recordStores key key p.live.length)).perform
      (.lastIndex p.live.length) → LeafOk q' ∧ (∀ e ∈ q'.live, e.key ≠ k) ∧
        q'.live.length = p.live.length + 1) :
    Veiled k q (p.recordStores key key p.live.length ++ [.lastIndex p.live.length])
      (max 1 p.live.length) := by
  obtain ⟨z, z', rest, holds, second⟩ := ok.holds_room room
  have hides : Hides q k (max 1 p.live.length) := by
    obtain ⟨pos, stop, first, behind⟩ := ok.hides absent
    exact ⟨pos, hq ▸ stop, hq ▸ first, hq ▸ behind⟩
  -- The store to `last_index`.
  have last : ∀ (q' : Page) (e : Nat), Hides q' k e → e = p.live.length + 1 →
      isForward q'.hdr.switchCounter = true →
      q' = q.performs (p.recordStores key key p.live.length) →
      Veiled k q' [.lastIndex p.live.length] e := by
    intro q' e hides' he forward' heq
    obtain ⟨ok', absent', hlen⟩ :=
      final _ (congrArg (Page.perform · (.lastIndex p.live.length)) heq)
    exact .forward forward' rfl hides' (by omega) (.of_agree fun _ _ => rfl) (.rest ok' absent')
  by_cases empty : p.live = []
  · have hrecords := hq.trans holds.records
    rw [empty, List.nil_append] at hrecords
    have veil : Veil q k [] z [] (z' :: rest) :=
      ⟨hrecords, by simp, fun _ => Or.inl holds.stop, by simpa using second empty⟩
    have hstores : p.recordStores key key p.live.length =
        [.key 0 key, .ptr 0 key, .ptr 1 0] := by
      rw [Page.recordStores, if_pos (by simp [empty])]
    rw [hstores] at last ⊢
    have hlen : max 1 p.live.length = 0 + 1 + 0 := by simp [empty]
    rw [hlen]
    refine veil.veiled forward rfl (perform_key rfl veil.records key)
      (fun hkey => absurd hkey other) fun h₁ => ?_
    refine h₁.veiled forward rfl (perform_ptr rfl h₁.records key)
      (fun hkey => absurd hkey other) fun h₂ => ?_
    have two : ((q.perform (.key 0 key)).perform (.ptr 0 key)).records =
        [⟨key, key⟩] ++ z' :: rest := h₂.records
    have marked := perform_ptr (i := 1) rfl two 0
    have h₃ : Veil (((q.perform (.key 0 key)).perform (.ptr 0 key)).perform (.ptr 1 0)) k []
        ⟨key, key⟩ [] ({ z' with ptr := 0 } :: rest) :=
      ⟨by rw [marked]; rfl, by simp, fun hkey => absurd hkey other, by simp⟩
    refine .forward forward rfl h₂.hides le_rfl (.of_agree fun i lt => ?_)
      (last _ _ h₃.hides (by simp [empty]) forward rfl)
    obtain rfl : i = 0 := by simpa using lt
    rw [h₃.records, h₂.records]
    rfl
  · obtain ⟨mark, records⟩ := ok.recordStores_eq empty holds key
    have pos : 0 < p.live.length := List.length_pos_iff.mpr empty
    have marked : (q.perform (.ptr (p.live.length + 1) 0)).records =
        p.live ++ z :: ([] ++ { z' with ptr := 0 } :: rest) := by
      rw [Page.perform, hq, mark]
    have veil : Veil (q.perform (.ptr (p.live.length + 1) 0)) k p.live z []
        ({ z' with ptr := 0 } :: rest) :=
      ⟨marked, by simpa using absent, fun _ => Or.inl holds.stop, by simp⟩
    rw [records, ← marked] at last ⊢
    refine .forward forward rfl hides ?_ (.of_agree fun i lt => ?_)
      (veil.veiled_shiftRight forward other fun shown => ?_)
    · rw [List.length_nil]
      omega
    · rw [marked, hq, holds.records, List.getElem?_append_left (by omega),
        List.getElem?_append_left (by omega)]
    · refine last _ _ shown rfl ?_ rfl
      have hdr := (performs_below (below_shiftRightStores 0 key key p.live.length
        (q.perform (.ptr (p.live.length + 1) 0)).records)
        (q.perform (.ptr (p.live.length + 1) 0))).1
      rw [hdr]
      exact forward

/-- The stores of `insert_key`. -/
theorem LeafOk.veiled_insert (ok : LeafOk p) (absent : ∀ e ∈ p.live, e.key ≠ k) (live : key ≠ 0)
    (other : key ≠ k) (new : ∀ e ∈ p.live, e.key ≠ key) (room : p.live.length < cardinality - 1) :
    Veiled k p (p.insertKeyStores key key p.live.length) (max 1 p.live.length) := by
  obtain ⟨ok', perm⟩ := ok.insertKey live new room
  have final : (∀ e ∈ (p.insertKey key key p.live.length).1.live, e.key ≠ k) ∧
      (p.insertKey key key p.live.length).1.live.length = p.live.length + 1 := by
    refine ⟨fun e mem => ?_, perm.length_eq⟩
    rcases List.mem_cons.mp (perm.mem_iff.mp mem) with rfl | mem
    · exact other
    · exact absent e mem
  rw [← performs_insertKeyStores p key key p.live.length] at ok' final
  by_cases forward : isForward p.hdr.switchCounter = true
  · rw [insertKeyStores_forward forward] at ok' final ⊢
    rw [performs_append] at ok' final
    exact ok.veiled_records absent other room rfl forward fun q' hq => hq ▸ ⟨ok', final⟩
  · rw [insertKeyStores_turn forward] at ok' final ⊢
    rw [performs_cons, performs_append] at ok' final
    exact .turn (ok.hides absent) (ok.veiled_records absent other room rfl
      (isForward_turned forward) fun q' hq => hq ▸ ⟨ok', final⟩)

theorem turns_shiftLeftStores (i : Nat) (es : List Entry) :
    ∀ s ∈ Page.shiftLeftStores i es, s.turns = false := by
  fun_induction Page.shiftLeftStores i es with
  | case1 => simp
  | case2 i e next rest live ih => simpa [PageStore.turns] using ih
  | case3 => simp

theorem turns_removeLoopStores (i : Nat) (prev : Int) (es : List Entry) :
    ∀ s ∈ Page.removeLoopStores key i prev es, s.turns = false := by
  fun_induction Page.removeLoopStores key i prev es with
  | case1 | case2 => simp
  | case3 i prev e rest live hkey =>
      exact List.forall_mem_cons.mpr ⟨rfl, turns_shiftLeftStores i (e :: rest)⟩
  | case4 i prev e rest live other ih => exact ih

/-- Stores to a page that is read from right to left. -/
theorem Veiled.of_backward (turns : ∀ s ∈ stores, s.turns = false)
    (backward : isForward p.hdr.switchCounter = false) (ok : LeafOk (p.performs stores))
    (absent : ∀ e ∈ (p.performs stores).live, e.key ≠ k) :
    Veiled k p stores (max 1 p.live.length) := by
  induction stores generalizing p with
  | nil => exact .rest ok absent
  | cons s stores ih =>
      have turn := turns s List.mem_cons_self
      exact .backward backward turn (ih (fun s mem => turns s (List.mem_cons_of_mem _ mem))
        (by rw [switchCounter_perform turn, backward]) ok absent)

/-- What a removal leaves, of a key that the leaf has or has not. -/
theorem LeafOk.removed (ok : LeafOk p) (key : Int) :
    LeafOk (p.performs (p.removeKeyStores key)) ∧
      ∀ e ∈ (p.performs (p.removeKeyStores key)).live, e ∈ p.live := by
  by_cases has : ∃ e ∈ p.live, e.key = key
  · obtain ⟨before, e, after, heq, -, hkey⟩ := Page.exists_first has
    obtain ⟨p', removed, ok', live⟩ := ok.removeKey heq hkey
    rw [performs_removeKeyStores removed, live, heq]
    exact ⟨ok', fun e' mem => by
      rcases List.mem_append.mp mem with mem | mem <;> simp [mem]⟩
  · obtain ⟨z, rest, holds, -⟩ := ok.holds
    obtain ⟨p', removed, records, hdr⟩ :=
      holds.removeKey_of_forall_ne fun e mem heq => has ⟨e, mem, heq⟩
    have turned : p' = p.perform (.switchCounter p'.hdr.switchCounter) := by
      cases p'
      cases p
      simp only at records hdr
      simp only [Page.perform]
      rw [records, hdr]
    rw [performs_removeKeyStores removed, turned]
    exact ⟨ok.turned _, fun e mem => mem⟩

/-- The stores of `remove_key`. -/
theorem LeafOk.veiled_remove (ok : LeafOk p) (absent : ∀ e ∈ p.live, e.key ≠ k) (key : Int) :
    Veiled k p (p.removeKeyStores key) (max 1 p.live.length) := by
  obtain ⟨ok', sub⟩ := ok.removed key
  have absent' := fun e mem => absent e (sub e mem)
  let loop := Page.removeLoopStores key 0 p.hdr.leftmostPtr p.records
  let stores := loop ++ if loop.isEmpty then [] else [.lastIndex (p.hdr.lastIndex - 1)]
  have turns : ∀ s ∈ stores, s.turns = false := by
    intro s mem
    rcases List.mem_append.mp mem with mem | mem
    · exact turns_removeLoopStores 0 p.hdr.leftmostPtr p.records s mem
    · split at mem
      · cases mem
      · rw [List.mem_singleton.mp mem]
        rfl
  by_cases forward : isForward p.hdr.switchCounter = true
  · have hstores : p.removeKeyStores key = .switchCounter (p.hdr.switchCounter + 1) :: stores := by
      rw [Page.removeKeyStores, if_pos forward]
      rfl
    rw [hstores] at ok' absent' ⊢
    exact .turn (ok.hides absent) (.of_backward turns (isForward_succ forward) ok' absent')
  · have hstores : p.removeKeyStores key = stores := by
      rw [Page.removeKeyStores, if_neg forward]
      rfl
    rw [hstores] at ok' absent' ⊢
    exact .of_backward turns (Bool.eq_false_iff.mpr forward) ok' absent'

end Veiled

/-! ## The reader beside the writer -/

section Rule

variable {p : Page} {k : Int}

theorem LeafPhase.Misses.outside {phase : LeafPhase} {q : Page} {e e' : Nat}
    (outside : phase.previous = none) (misses : phase.Misses p k e) : phase.Misses q k e' := by
  cases phase with
  | counter => trivial
  | done c ret => exact misses
  | _ => cases outside

/-- A reader of a page that has not been turned since has not been shown `k`. -/
theorem misses_rule :
    (leafSearch k).Rule (Veiled k) (fun p e phase => phase.Misses p k e) where
  initial _ _ := trivial
  call := by
    intro p e stores course call
    cases course with
    | rest ok absent =>
        cases call with
        | insert key live other new count room =>
            obtain ⟨z, rest, holds, -⟩ := ok.holds
            obtain rfl := Option.some.inj (holds.count_eq.symm.trans count)
            exact ok.veiled_insert absent live other new room
        | remove key _ => exact ok.veiled_remove absent key
  turn := by
    intro p s rest e course turns
    cases course with
    | turn _ later => exact ⟨rfl, _, later⟩
    | forward _ turn _ _ _ _ => exact absurd turns (by simp [leafSearch, turn])
    | backward _ turn _ => exact absurd turns (by simp [leafSearch, turn])
  store := by
    intro p s rest e course turns
    cases course with
    | turn _ _ => exact absurd rfl turns
    | forward _ turn _ le keeps later =>
        exact ⟨switchCounter_perform turn, _, later, fun phase _ misses =>
          LeafPhase.Misses.store misses keeps le⟩
    | backward backward turn later =>
        refine ⟨switchCounter_perform turn, _, later, fun phase pass _ => ?_⟩
        exact LeafPhase.misses_of_backward pass backward
  load := by
    rintro p stores e phase phase' course ⟨rightFirst, load⟩ same misses
    cases hc : phase.previous with
    | none =>
        cases phase with
        | counter =>
            obtain rfl := Option.some.inj load
            split
            · trivial
            · rename_i backward
              exact Bool.eq_false_iff.mpr backward
        | done c ret => cases load
        | _ => cases hc
    | some c =>
        cases forward : isForward c with
        | true =>
            have here : p.hdr.switchCounter = c := same c hc
            exact LeafPhase.Misses.load misses (course.hides (here ▸ forward)) hc forward load
        | false =>
            -- The pass goes from right to left, and so does the next phase of it.
            rcases LeafPhase.previous_load load with ⟨rfl, -⟩ | ⟨-, previous⟩ | ⟨c', ret, rfl, rfl⟩
            · cases hc
            · exact LeafPhase.misses_of_backward (previous.trans hc) forward
            · obtain rfl := Option.some.inj hc
              split
              · exact fun turned => absurd turned (Bool.eq_false_iff.mp forward)
              · trivial
  outside := LeafPhase.Misses.outside

/-- A search that ends on a pass from left to right does not report a key that the leaf does
not have. -/
theorem LeafOk.misses (ok : LeafOk p) (absent : ∀ e ∈ p.live, e.key ≠ k)
    {m : LeafMachine}
    (run : (leafSearch k).Reach ((leafSearch k).start p) m) {c : UInt8} {ret : Int}
    (done : m.phase = .done c ret) (forward : isForward c = true) : ret = 0 := by
  obtain ⟨e, misses⟩ := run.relies (leafSearch_lawful k) misses_rule (.rest ok absent)
    (by rw [done]; rfl)
  rw [done] at misses
  exact misses forward

end Rule

namespace BTree

variable {alloc : Allocator} {ops : List TreeOp} {t : BTree} {p : Int}

/-- The loop of a search without a lock that ends on a pass from left to right does not report a
key that the leaf does not have, whatever insertions of other keys and removals go on meanwhile.
What is inserted is not 0 and not in the leaf, which has room for it, and fewer than 256 turns of
the leaf fall into one pass. -/
theorem search_absent_meanwhile (run : Run (empty alloc) NewKeys ops t)
    (mem : p ∈ t.level t.depth) {k : Int} (absent : ∀ e ∈ (t.page p).live, e.key ≠ k)
    {m : LeafMachine} (reach : (leafSearch k).Reach ((leafSearch k).start (t.page p)) m)
    {c : UInt8} {ret : Int} (done : m.phase = .done c ret) (forward : isForward c = true) :
    ret = 0 :=
  (leafOk_run run mem).misses absent reach done forward

/-- 7 is looked for in a leaf with 5 and 9 while 9 is removed and 8 inserted. -/
def removesAndInserts : List LeafMove :=
  .load true :: .remove 9 :: List.replicate 5 .store ++ .insert 8 :: List.replicate 4 .store ++
    [.load true, .load true, .load true, .load true, .store, .load true, .store] ++
    List.replicate 6 (.load true)

theorem search_absent_meanwhile_two :
    ∃ t m, Run (empty (.bump 100)) NewKeys [.insert 5, .insert 9] t ∧
      (leafSearch 7).Reach ((leafSearch 7).start (t.page t.root)) m ∧
      ∃ ret, m.phase = .done 2 ret ∧ ret = 0 := by
  obtain ⟨t, run, mem, absent, ends⟩ : ∃ t,
      Run (empty (.bump 100)) NewKeys [.insert 5, .insert 9] t ∧ t.root ∈ t.level t.depth ∧
      (∀ e ∈ (t.page t.root).live, e.key ≠ 7) ∧
      (removesAndInserts.foldlM (LeafMachine.move 7) ((leafSearch 7).start (t.page t.root))).map
        Seqlock.Machine.phase = some (.done 2 0) :=
    ⟨_, (Run.nil.step (.insert 5) ⟨by decide, fun _ => by decide⟩ ⟨2, rfl⟩).step (.insert 9)
      ⟨by decide, fun _ => by decide⟩ ⟨2, rfl⟩, by decide, by decide, by decide⟩
  obtain ⟨m, moves, done⟩ := Option.map_eq_some_iff.mp ends
  have reach := LeafMachine.reach_of_moves moves
  exact ⟨t, m, run, reach, 0, done, search_absent_meanwhile run mem absent reach done (by decide)⟩

end BTree

end F3Tree
