import F3Tree.SearchLoads

/-!
# Searches without a lock

A key that a leaf holds all the time is found, whatever insertions and removals of other keys
go on meanwhile and however their stores fall between the loads (`LeafMachine.finds`).

During a pass that counts, all stores to the records are of one direction: an insertion moves
records to the right, and is read from left to right; a removal moves them to the left, and is
read from right to left.  The record of the key can be seen at one index at a time
(`ShowsAt`), which never passes the reader.
-/

namespace F3Tree

open Keyed

/-- A leaf between two calls. -/
structure LeafOk (p : Page) : Prop where
  leaf : p.hdr.leftmostPtr = 0
  holds : ∃ z rest, p.Holds p.live z rest ∧
    (p.live = [] → ∃ z' rest', rest = z' :: rest' ∧ z'.ptr = 0)
  size : p.records.length = cardinality
  ordered : Ordered Entry.key p.live
  values : ∀ e ∈ p.live, e.ptr = e.key
  keys : (p.live.map Entry.key).Nodup

/-- The record of `k` can be seen at `records[j]`, and none up to there ends the page. -/
structure ShowsAt (p : Page) (k : Int) (j : Nat) : Prop where
  record : p.records[j]? = some ⟨k, k⟩
  prev : ∀ e, 0 < j → p.records[j - 1]? = some e → e.ptr ≠ k
  live : ∀ i e, 0 < i → i ≤ j → p.records[i]? = some e → e.ptr ≠ 0

/-- `count` goes no further than `last_index`, and that is behind `records[j]`. -/
def EndsBehind (p : Page) (j : Nat) : Prop :=
  ∃ n : Nat, p.hdr.lastIndex + 1 = n ∧ j < n ∧ ∃ z, p.records[n]? = some z ∧ z.ptr = 0

/-- No record behind the first gets a pointer that had none. -/
def StaysNull (p q : Page) : Prop :=
  ∀ i e, 0 < i → p.records[i]? = some e → e.ptr = 0 →
    ∃ e', q.records[i]? = some e' ∧ e'.ptr = 0

/-- How the record of `k` moves while the stores are made. -/
inductive Course (k : Int) : Page → List PageStore → Nat → Prop
  | rest {p : Page} {j : Nat} : LeafOk p → ShowsAt p k j → EndsBehind p j → Course k p [] j
  | turn {p : Page} {stores : List PageStore} {j : Nat} : ShowsAt p k j → EndsBehind p j →
    Course k (p.perform (.switchCounter (p.hdr.switchCounter + 1))) stores j →
    Course k p (.switchCounter (p.hdr.switchCounter + 1) :: stores) j
  | forward {p : Page} {s : PageStore} {stores : List PageStore} {j j' : Nat} :
    isForward p.hdr.switchCounter = true → s.turns = false → ShowsAt p k j → j ≤ j' →
    Course k (p.perform s) stores j' → Course k p (s :: stores) j
  | backward {p : Page} {s : PageStore} {stores : List PageStore} {j j' : Nat} :
    isForward p.hdr.switchCounter = false → s.turns = false → ShowsAt p k j → EndsBehind p j →
    j' ≤ j → StaysNull p (p.perform s) → Course k (p.perform s) stores j' →
    Course k p (s :: stores) j

section Course

variable {p : Page} {k : Int} {j : Nat} {stores : List PageStore}

theorem Course.showsAt (h : Course k p stores j) : ShowsAt p k j := by
  cases h with
  | rest _ shows _ | turn shows _ _ | forward _ _ shows _ _ | backward _ _ shows _ _ _ _ =>
      exact shows

/-! ## The reader -/

/-- From left to right the record is not behind the reader, from right to left not in front of
it. -/
def Ahead (c : UInt8) (i j : Nat) : Prop := if isForward c then i ≤ j else j ≤ i

theorem ahead_forward {c : UInt8} (forward : isForward c = true) (i j : Nat) :
    Ahead c i j ↔ i ≤ j := by rw [Ahead, if_pos forward]

theorem ahead_backward {c : UInt8} (backward : isForward c = false) (i j : Nat) :
    Ahead c i j ↔ j ≤ i := by rw [Ahead, if_neg (by simp [backward])]

namespace LeafPhase

/-- What a reader of a page that has not been turned since can rely on. -/
def Finds (p : Page) (k : Int) (j : Nat) : LeafPhase → Prop
  | .counter => True
  | .countCounter c => isForward c = false
  | .lastIndex c c' => isForward c = false ∧ c' = c
  | .counting c c' count => isForward c = false ∧ c' = c ∧
      ∃ n : Nat, count = n ∧ j < n ∧ ∃ z, p.records[n]? = some z ∧ z.ptr = 0
  | .recounting _ _ _ => False
  | .countCheck c c' count => isForward c = false ∧ c' = c ∧ ∃ n : Nat, count = n ∧ j < n
  | .firstKey c | .firstPtr c => Ahead c 0 j
  | .firstAgain c t => Ahead c 0 j ∧ t ≠ 0
  | .more c i => isForward c = true ∧ 0 < i ∧ i ≤ j
  | .key c i | .operands c i => 0 < i ∧ Ahead c i j
  | .right c i prev => 0 < i ∧ Ahead c i j ∧ (i = j → prev ≠ k)
  | .left c i t => 0 < i ∧ Ahead c i j ∧ (i = j → t = k) ∧ (isForward c = true → t ≠ 0)
  | .again c i t => 0 < i ∧ Ahead c i j ∧ t ≠ 0
  | .check _ ret => ret ≠ 0
  | .done _ ret => ret ≠ 0

end LeafPhase

/-- Past a record that is not at `records[j]`. -/
theorem finds_next {c : UInt8} {i : Nat} (hi : 0 < i) (ahead : Ahead c i j) (ne : i ≠ j) :
    (LeafPhase.next c i).Finds p k j := by
  unfold LeafPhase.next
  cases turned : isForward c with
  | true =>
      rw [ahead_forward turned] at ahead
      exact ⟨turned, Nat.succ_pos i, Nat.lt_of_le_of_ne ahead ne⟩
  | false =>
      rw [ahead_backward turned] at ahead
      rw [if_neg Bool.false_ne_true]
      unfold LeafPhase.backwardFrom
      split
      · exact ⟨by omega, (ahead_backward turned _ j).mpr (by omega)⟩
      · exact (ahead_backward turned 0 j).mpr (by omega)

/-- Past `records[0]`. -/
theorem finds_afterFirst {c : UInt8} (ahead : Ahead c 0 j) (ne : 0 ≠ j) :
    (LeafPhase.afterFirst c).Finds p k j := by
  unfold LeafPhase.afterFirst
  cases turned : isForward c with
  | true => exact ⟨turned, Nat.one_pos, Nat.pos_of_ne_zero ne.symm⟩
  | false =>
      rw [ahead_backward turned] at ahead
      omega

/-- A load of a page whose counter is that of the pass. -/
theorem LeafPhase.Finds.load {phase phase' : LeafPhase} {rightFirst : Bool}
    (finds : phase.Finds p k j) (hk : k ≠ 0) (shows : ShowsAt p k j)
    (ends : isForward p.hdr.switchCounter = false → EndsBehind p j)
    (same : ∀ c ∈ phase.previous, p.hdr.switchCounter = c)
    (load : phase.load p k rightFirst = some phase') : phase'.Finds p k j := by
  have record : ∀ e, p.records[j]? = some e → e = ⟨k, k⟩ := fun e he =>
    (Option.some.inj (shows.record.symm.trans he)).symm
  cases phase with
  | counter =>
      obtain rfl := Option.some.inj load
      split
      · rename_i forward
        exact (ahead_forward forward 0 j).mpr (Nat.zero_le j)
      · rename_i backward
        exact Bool.eq_false_iff.mpr backward
  | countCounter c =>
      obtain rfl := Option.some.inj load
      exact ⟨finds, same c rfl⟩
  | lastIndex c c' =>
      obtain ⟨backward, rfl⟩ := finds
      obtain ⟨n, hn, hj, stop⟩ := ends (same c' rfl ▸ backward)
      obtain rfl := Option.some.inj load
      rw [LeafPhase.countFrom, if_neg (by omega)]
      exact ⟨backward, rfl, n, hn, hj, stop⟩
  | counting c c' count =>
      obtain ⟨backward, rfl, n, rfl, hj, z, hz, stop⟩ := finds
      rw [LeafPhase.load, Int.toNat_natCast, hz, Option.map_some, if_pos stop] at load
      obtain rfl := Option.some.inj load
      exact ⟨backward, rfl, n, rfl, hj⟩
  | recounting c c' count => exact finds.elim
  | countCheck c c' count =>
      obtain ⟨backward, rfl, n, rfl, hj⟩ := finds
      rw [LeafPhase.load, if_pos (same c' rfl)] at load
      obtain rfl := Option.some.inj load
      unfold LeafPhase.backwardFrom
      split
      · exact ⟨by omega, (ahead_backward backward _ j).mpr (by omega)⟩
      · exact (ahead_backward backward 0 j).mpr (by omega)
  | firstKey c =>
      obtain ⟨e, he, rfl⟩ := Option.map_eq_some_iff.mp load
      split
      · exact finds
      · rename_i other
        refine finds_afterFirst finds fun heq => other ?_
        subst heq
        rw [record e he]
  | firstPtr c =>
      obtain ⟨e, he, rfl⟩ := Option.map_eq_some_iff.mp load
      split
      · rename_i live
        exact ⟨finds, live⟩
      · rename_i null
        refine finds_afterFirst finds fun heq => null ?_
        subst heq
        rwa [record e he]
  | firstAgain c t =>
      obtain ⟨e, he, rfl⟩ := Option.map_eq_some_iff.mp load
      split
      · exact finds.2
      · rename_i other
        refine finds_afterFirst finds.1 fun heq => other ?_
        subst heq
        rw [record e he]
  | more c i =>
      obtain ⟨forward, hi, hle⟩ := finds
      obtain ⟨e, he, rfl⟩ := Option.map_eq_some_iff.mp load
      rw [if_neg (shows.live i e hi hle he)]
      exact ⟨hi, (ahead_forward forward i j).mpr hle⟩
  | key c i =>
      obtain ⟨hi, ahead⟩ := finds
      obtain ⟨e, he, rfl⟩ := Option.map_eq_some_iff.mp load
      split
      · exact ⟨hi, ahead⟩
      · rename_i other
        refine finds_next hi ahead fun heq => other ?_
        subst heq
        rw [record e he]
  | operands c i =>
      obtain ⟨hi, ahead⟩ := finds
      rw [LeafPhase.load] at load
      split at load
      · obtain ⟨e, he, rfl⟩ := Option.map_eq_some_iff.mp load
        refine ⟨hi, ahead, fun heq => ?_, fun forward => ?_⟩
        · subst heq
          rw [record e he]
        · exact shows.live i e hi ((ahead_forward forward i j).mp ahead) he
      · obtain ⟨e, he, rfl⟩ := Option.map_eq_some_iff.mp load
        refine ⟨hi, ahead, fun heq => ?_⟩
        subst heq
        exact shows.prev e hi he
  | right c i prev =>
      obtain ⟨hi, ahead, fresh⟩ := finds
      obtain ⟨e, he, rfl⟩ := Option.map_eq_some_iff.mp load
      unfold LeafPhase.compare
      split
      · rename_i differ
        refine ⟨hi, ahead, ?_⟩
        rcases differ.2 with forward | live
        · exact shows.live i e hi ((ahead_forward forward i j).mp ahead) he
        · exact live
      · rename_i alike
        refine finds_next hi ahead fun heq => alike ?_
        have prev := fresh heq
        subst heq
        rw [record e he]
        exact ⟨prev, Or.inr hk⟩
  | left c i t =>
      obtain ⟨hi, ahead, value, live⟩ := finds
      obtain ⟨e, he, rfl⟩ := Option.map_eq_some_iff.mp load
      unfold LeafPhase.compare
      split
      · rename_i differ
        exact ⟨hi, ahead, differ.2.elim live id⟩
      · rename_i alike
        refine finds_next hi ahead fun heq => alike ?_
        rw [value heq]
        subst heq
        exact ⟨shows.prev e hi he, Or.inr hk⟩
  | again c i t =>
      obtain ⟨hi, ahead, live⟩ := finds
      obtain ⟨e, he, rfl⟩ := Option.map_eq_some_iff.mp load
      split
      · exact live
      · rename_i other
        refine finds_next hi ahead fun heq => other ?_
        subst heq
        rw [record e he]
  | check c ret =>
      rw [LeafPhase.load, if_pos (same c rfl)] at load
      obtain rfl := Option.some.inj load
      exact finds
  | done c ret => cases load

/-- A store that moves the record to the right. -/
theorem LeafPhase.Finds.forward {q : Page} {phase : LeafPhase} {j' : Nat} (finds : phase.Finds p k j)
    (hj : j ≤ j') (forward : ∀ c ∈ phase.previous, isForward c = true) : phase.Finds q k j' := by
  have ahead : ∀ {c : UInt8} {i : Nat}, phase.previous = some c → Ahead c i j →
      Ahead c i j' ∧ (i = j' → i = j) := by
    intro c i hc h
    rw [ahead_forward (forward c hc)] at h ⊢
    exact ⟨Nat.le_trans h hj, fun heq => by omega⟩
  have turned : ∀ {c : UInt8}, phase.previous = some c → isForward c = false → False := by
    intro c hc h
    rw [forward c hc] at h
    exact Bool.noConfusion h
  cases phase with
  | counter => trivial
  | countCounter c => exact (turned rfl finds).elim
  | lastIndex c c' | counting c c' count | countCheck c c' count =>
      exact (turned rfl finds.1).elim
  | recounting c c' count => exact finds.elim
  | firstKey c | firstPtr c => exact (ahead rfl finds).1
  | firstAgain c t => exact ⟨(ahead rfl finds.1).1, finds.2⟩
  | more c i => exact ⟨finds.1, finds.2.1, finds.2.2.trans hj⟩
  | key c i | operands c i => exact ⟨finds.1, (ahead rfl finds.2).1⟩
  | right c i prev =>
      obtain ⟨hi, h, fresh⟩ := finds
      exact ⟨hi, (ahead rfl h).1, fun heq => fresh ((ahead rfl h).2 heq)⟩
  | left c i t =>
      obtain ⟨hi, h, value, live⟩ := finds
      exact ⟨hi, (ahead rfl h).1, fun heq => value ((ahead rfl h).2 heq), live⟩
  | again c i t => exact ⟨finds.1, (ahead rfl finds.2.1).1, finds.2.2⟩
  | check c ret | done c ret => exact finds

/-- A store that moves the record to the left. -/
theorem LeafPhase.Finds.backward {q : Page} {phase : LeafPhase} {j' : Nat}
    (finds : phase.Finds p k j) (hj : j' ≤ j) (null : StaysNull p q)
    (backward : ∀ c ∈ phase.previous, isForward c = false) : phase.Finds q k j' := by
  have ahead : ∀ {c : UInt8} {i : Nat}, phase.previous = some c → Ahead c i j →
      Ahead c i j' ∧ (i = j' → i = j) := by
    intro c i hc h
    rw [ahead_backward (backward c hc)] at h ⊢
    exact ⟨Nat.le_trans hj h, fun heq => by omega⟩
  cases phase with
  | counter => trivial
  | countCounter c | lastIndex c c' => exact finds
  | counting c c' count =>
      obtain ⟨h, heq, n, hn, hlt, z, hz, stop⟩ := finds
      exact ⟨h, heq, n, hn, by omega, null n z (by omega) hz stop⟩
  | recounting c c' count => exact finds.elim
  | countCheck c c' count =>
      obtain ⟨h, heq, n, hn, hlt⟩ := finds
      exact ⟨h, heq, n, hn, by omega⟩
  | firstKey c | firstPtr c => exact (ahead rfl finds).1
  | firstAgain c t => exact ⟨(ahead rfl finds.1).1, finds.2⟩
  | more c i =>
      have turned := backward c rfl
      rw [finds.1] at turned
      exact Bool.noConfusion turned
  | key c i | operands c i => exact ⟨finds.1, (ahead rfl finds.2).1⟩
  | right c i prev =>
      obtain ⟨hi, h, fresh⟩ := finds
      exact ⟨hi, (ahead rfl h).1, fun heq => fresh ((ahead rfl h).2 heq)⟩
  | left c i t =>
      obtain ⟨hi, h, value, live⟩ := finds
      exact ⟨hi, (ahead rfl h).1, fun heq => value ((ahead rfl h).2 heq), live⟩
  | again c i t => exact ⟨finds.1, (ahead rfl finds.2.1).1, finds.2.2⟩
  | check c ret | done c ret => exact finds

end Course

/-! ## The writer -/

section Writer

variable {p : Page} {k : Int} {j : Nat} {stores : List PageStore}
  {front back es tail : List Entry}
  {e x : Entry} {key ptr : Int}

/-- Where the record of `k` can be seen when the records are `front ++ x :: es`, with a gap
at `x`. -/
inductive Seen (k : Int) (front : List Entry) (x : Entry) (es : List Entry) : Nat → Prop
  | front {before after : List Entry} : front = before ++ ⟨k, k⟩ :: after →
    Seen k front x es before.length
  | gap {after : List Entry} : es = ⟨k, k⟩ :: after → x = ⟨k, k⟩ → Seen k front x es front.length
  | behind {before after : List Entry} : es = before ++ ⟨k, k⟩ :: after →
    (before = [] → x.ptr ≠ k) → Seen k front x es (front.length + 1 + before.length)

/-- The records while a call shifts them: the live ones but for the gap, which lies between
`front` and `es`. -/
structure Gap (p : Page) (k : Int) (front : List Entry) (x : Entry) (es tail : List Entry)
    (j : Nat) : Prop where
  records : p.records = front ++ x :: (es ++ tail)
  live : ∀ e ∈ front ++ es, e.ptr ≠ 0
  nodup : ((front ++ es).map Entry.ptr).Nodup
  inner : front ≠ [] → es ≠ [] → x.ptr ≠ 0
  seen : Seen k front x es j

theorem showsAt_of (before after : List Entry)
    (hrecords : p.records = before ++ ⟨k, k⟩ :: after) (hk : k ≠ 0)
    (prev : ∀ e ∈ before.getLast?, e.ptr ≠ k) (live : ∀ e ∈ before.tail, e.ptr ≠ 0) :
    ShowsAt p k before.length := by
  refine ⟨by simp [hrecords], fun e hj he => prev e ?_, fun i e hi hle he => ?_⟩
  · rw [hrecords, List.getElem?_append_left (by omega)] at he
    rw [List.getLast?_eq_getElem?]
    exact he
  · rcases Nat.lt_or_eq_of_le hle with hlt | rfl
    · rw [hrecords, List.getElem?_append_left hlt] at he
      refine live e ?_
      obtain ⟨i, rfl⟩ := Nat.exists_eq_succ_of_ne_zero hi.ne'
      rw [← List.getElem?_tail] at he
      exact List.mem_of_getElem? he
    · rw [hrecords, List.getElem?_append_right le_rfl, Nat.sub_self, List.getElem?_cons_zero] at he
      rw [← Option.some.inj he]
      exact hk

theorem Gap.showsAt (h : Gap p k front x es tail j) (hk : k ≠ 0) : ShowsAt p k j := by
  obtain ⟨hrecords, live, nodup, inner, seen⟩ := h
  have apart : ∀ before after : List Entry, front ++ es = before ++ ⟨k, k⟩ :: after →
      ∀ e ∈ before, e.ptr ≠ k := by
    intro before after heq e mem hptr
    rw [heq, List.map_append, List.map_cons] at nodup
    exact (List.nodup_append.mp nodup).2.2 _ (List.mem_map_of_mem mem) k List.mem_cons_self hptr
  cases seen with
  | @front before after heq =>
      subst heq
      refine showsAt_of before (after ++ x :: (es ++ tail)) (by simp [hrecords]) hk ?_ ?_
      · exact fun e mem => apart before (after ++ es) (by simp) e (List.mem_of_mem_getLast? mem)
      · exact fun e mem => live e (by simp [List.mem_of_mem_tail mem])
  | @gap after hes hx =>
      subst hes hx
      refine showsAt_of front (⟨k, k⟩ :: (after ++ tail)) (by simp [hrecords]) hk ?_ ?_
      · exact fun e mem => apart front after rfl e (List.mem_of_mem_getLast? mem)
      · exact fun e mem => live e (by simp [List.mem_of_mem_tail mem])
  | @behind before after hes hx =>
      subst hes
      have hlen : front.length + 1 + before.length = (front ++ x :: before).length := by
        rw [List.length_append, List.length_cons]
        omega
      rw [hlen]
      refine showsAt_of (front ++ x :: before) (after ++ tail) (by simp [hrecords]) hk ?_ ?_
      · intro e mem
        cases before with
        | nil =>
            rw [List.getLast?_concat, Option.mem_some_iff] at mem
            exact mem ▸ hx rfl
        | cons b before =>
            have last : (front ++ x :: b :: before).getLast? = (b :: before).getLast? := by
              rw [List.append_cons, List.getLast?_append_of_ne_nil _ (List.cons_ne_nil b before)]
            rw [last] at mem
            exact apart (front ++ b :: before) after (by simp) e
              (List.mem_append_right _ (List.mem_of_mem_getLast? mem))
      · intro e mem
        cases front with
        | nil => exact live e (by simpa using Or.inl mem)
        | cons f front =>
            rw [List.cons_append, List.tail_cons] at mem
            rcases List.mem_append.mp mem with mem | mem
            · exact live e (by simp [mem])
            · rcases List.mem_cons.mp mem with rfl | mem
              · exact inner (by simp) (by simp)
              · exact live e (by simp [mem])

/-- Another record is written into the gap. -/
theorem Gap.put (h : Gap p k front x es tail j) {q : Page} {x' : Entry}
    (hq : q.records = front ++ x' :: (es ++ tail))
    (hx : x'.ptr = k → k ∈ front.map Entry.ptr) (inner : front ≠ [] → es ≠ [] → x'.ptr ≠ 0) :
    ∃ j' ≥ j, Gap q k front x' es tail j' := by
  obtain ⟨-, live, nodup, -, seen⟩ := h
  have other : ∀ {before after : List Entry}, es = before ++ ⟨k, k⟩ :: after → x'.ptr ≠ k := by
    intro before after heq hptr
    have mem : k ∈ es.map Entry.ptr := by simp [heq]
    rw [List.map_append] at nodup
    exact (List.nodup_append.mp nodup).2.2 k (hx hptr) k mem rfl
  cases seen with
  | front heq => exact ⟨_, le_rfl, hq, live, nodup, inner, .front heq⟩
  | @gap after hes _ =>
      exact ⟨front.length + 1, Nat.le_succ _, hq, live, nodup, inner,
        @Seen.behind k front x' es [] after hes fun _ => @other [] after hes⟩
  | behind hes _ => exact ⟨_, le_rfl, hq, live, nodup, inner, .behind hes fun _ => other hes⟩

/-- The record in front of the gap has been copied into it: the gap is where it was. -/
theorem Gap.shift (h : Gap p k (front ++ [e]) e es tail j) : Gap p k front e (e :: es) tail j := by
  obtain ⟨hrecords, live, nodup, -, seen⟩ := h
  have split : front ++ [e] ++ es = front ++ e :: es := by simp
  rw [split] at live nodup
  refine ⟨by simpa using hrecords, live, nodup, fun _ _ => live e (by simp), ?_⟩
  cases seen with
  | @front before after heq =>
      rcases List.eq_nil_or_concat after with rfl | ⟨after, last, rfl⟩
      · obtain ⟨rfl, he⟩ := List.append_inj' heq rfl
        exact .gap (by rw [List.singleton_inj.mp he]) (List.singleton_inj.mp he)
      · rw [List.concat_eq_append, ← List.cons_append, ← List.append_assoc] at heq
        exact .front (List.append_inj' heq rfl).1
  | gap hes he =>
      subst hes he
      rw [List.map_append] at nodup
      have twice := (List.nodup_append.mp nodup).2.1
      simp at twice
  | @behind before after hes hx =>
      have hlen : (front ++ [e]).length + 1 + before.length =
          front.length + 1 + (e :: before).length := by
        simp only [List.length_append, List.length_cons, List.length_nil]
        omega
      rw [hlen]
      exact .behind (by rw [hes]; rfl) fun heq => nomatch heq

/-- The next record has been copied into the gap: the gap is behind it. -/
theorem Gap.unshift (h : Gap p k front e (e :: es) tail j) : Gap p k (front ++ [e]) e es tail j := by
  obtain ⟨hrecords, live, nodup, -, seen⟩ := h
  have split : front ++ e :: es = front ++ [e] ++ es := by simp
  have he : e.ptr ≠ 0 := live e (by simp)
  rw [split] at live nodup
  refine ⟨by simpa using hrecords, live, nodup, fun _ _ => he, ?_⟩
  cases seen with
  | @front before after heq =>
      exact .front (by rw [heq, List.append_assoc, List.cons_append])
  | gap hes hx => exact .front (by rw [hx])
  | @behind before after hes hx =>
      cases before with
      | nil =>
          rw [List.nil_append] at hes
          exact absurd (by rw [(List.cons.inj hes).1]) (hx rfl)
      | cons b before =>
          obtain ⟨rfl, rfl⟩ := List.cons.inj hes
          have hlen : front.length + 1 + (e :: before).length =
              (front ++ [e]).length + 1 + before.length := by
            simp only [List.length_append, List.length_cons, List.length_nil]
            omega
          rw [hlen]
          refine .behind rfl fun _ hptr => ?_
          rw [List.append_assoc, List.singleton_append, List.map_append, List.map_cons] at nodup
          have apart := (List.nodup_cons.mp (List.nodup_append.mp nodup).2.1).1
          exact apart (hptr ▸ by simp)

/-! ### An insertion -/

/-- The pointer of the record in front of a gap is that of a record in front, or null. -/
theorem childOf_front (hk : k ≠ 0) (h : Page.childOf 0 front = k) : k ∈ front.map Entry.ptr := by
  rcases List.mem_cons.mp (Page.childOf_mem 0 front) with heq | mem
  · exact absurd (h.symm.trans heq) hk
  · exact h ▸ mem

theorem childOf_live (hf : front ≠ []) (live : ∀ e ∈ front, e.ptr ≠ 0) :
    Page.childOf 0 front ≠ 0 := by
  cases front with
  | nil => exact absurd rfl hf
  | cons first front => exact childOf_ne_zero live 0

/-- One store of an insertion into the gap. -/
theorem Gap.course_forward (h : Gap p k front x es tail j) (hk : k ≠ 0)
    (forward : isForward p.hdr.switchCounter = true) {s : PageStore} {x' : Entry}
    (turn : s.turns = false)
    (hs : p.perform s = { p with records := front ++ x' :: (es ++ tail) })
    (hx : x'.ptr = k → k ∈ front.map Entry.ptr) (inner : front ≠ [] → es ≠ [] → x'.ptr ≠ 0)
    (later : ∀ j' ≥ j, Gap (p.perform s) k front x' es tail j' →
      Course k (p.perform s) stores j') : Course k p (s :: stores) j := by
  obtain ⟨j', hj, gap⟩ := h.put (q := p.perform s) (by rw [hs]) hx inner
  exact .forward forward turn (h.showsAt hk) hj (later j' hj gap)

/-- The loop of an insertion writes into a gap, the new record or a copy of the record in front
of it, which is then the gap. -/
theorem shiftRightStores_induction {I : List Entry → Entry → List Entry → List PageStore → Prop}
    (leftmost : Int) (tail : List Entry)
    (new : ∀ front x es, I front x es [.ptr front.length (Page.childOf leftmost front),
      .key front.length key, .ptr front.length ptr])
    (copy : ∀ front e x es stores, I front e (e :: es) stores → I (front ++ [e]) x es
      (.ptr (front ++ [e]).length e.ptr :: .key (front ++ [e]).length e.key :: stores))
    (front : List Entry) (x : Entry) (es : List Entry) :
    I front x es
      (Page.shiftRightStores leftmost key ptr front.length (front ++ x :: (es ++ tail))) := by
  induction front using List.reverseRecOn generalizing x es with
  | nil => exact new [] x es
  | append_singleton front e ih =>
      have hlook : (front ++ [e] ++ x :: (es ++ tail)).getD front.length {} = e := by simp
      have hput : (front ++ [e] ++ x :: (es ++ tail)).set (front.length + 1) e =
          front ++ e :: (e :: es ++ tail) := by
        rw [List.set_append_right _ _ (by simp)]
        simp
      have hlen : (front ++ [e]).length = front.length + 1 := by simp
      have child : Page.childOf leftmost (front ++ [e]) = e.ptr := by simp [Page.childOf]
      rw [hlen, Page.shiftRightStores, hlook, hput]
      split
      · rw [← hlen]
        exact copy front e x es _ (ih e (e :: es))
      · rw [← hlen, ← child]
        exact new (front ++ [e]) x es

/-- The loop of an insertion. -/
theorem Gap.course_shiftRight (h : Gap p k front x es tail j) (hk : k ≠ 0)
    (forward : isForward p.hdr.switchCounter = true) (hptr : ptr ≠ k) (live : ptr ≠ 0)
    (later : ∀ j' ≥ j,
      ShowsAt (p.performs (Page.shiftRightStores 0 key ptr front.length p.records)) k j' →
      Course k (p.performs (Page.shiftRightStores 0 key ptr front.length p.records)) stores j') :
    Course k p (Page.shiftRightStores 0 key ptr front.length p.records ++ stores) j := by
  rw [h.records] at later ⊢
  refine shiftRightStores_induction (I := fun front x es shifts => ∀ p j,
    Gap p k front x es tail j → isForward p.hdr.switchCounter = true →
    (∀ j' ≥ j, ShowsAt (p.performs shifts) k j' → Course k (p.performs shifts) stores j') →
    Course k p (shifts ++ stores) j) 0 tail ?new ?copy front x es p j h forward later
  case new =>
    intro front x es p j h forward later
    have hprev : Page.childOf 0 front = k → k ∈ front.map Entry.ptr := childOf_front hk
    have inner : front ≠ [] → Page.childOf 0 front ≠ 0 := fun hf =>
      childOf_live hf fun e mem => h.live e (List.mem_append_left _ mem)
    refine h.course_forward hk forward rfl (perform_ptr rfl h.records _) hprev
      (fun hf _ => inner hf) fun j₁ hj₁ h₁ => ?_
    refine h₁.course_forward hk forward rfl (perform_key rfl h₁.records key) hprev
      (fun hf _ => inner hf) fun j₂ hj₂ h₂ => ?_
    refine h₂.course_forward hk forward rfl (perform_ptr rfl h₂.records ptr)
      (fun heq => absurd heq hptr) (fun _ _ => live) fun j₃ hj₃ h₃ => ?_
    exact later j₃ (by omega) (h₃.showsAt hk)
  case copy =>
    intro front e x es shifts ih p j h forward later
    have mem : e.ptr ∈ (front ++ [e]).map Entry.ptr := by simp
    have he : e.ptr ≠ 0 := h.live e (by simp)
    refine h.course_forward hk forward rfl (perform_ptr rfl h.records e.ptr)
      (fun heq => heq ▸ mem) (fun _ _ => he) fun j₁ hj₁ h₁ => ?_
    refine h₁.course_forward hk forward rfl (perform_key rfl h₁.records e.key)
      (fun heq => heq ▸ mem) (fun _ _ => he) fun j₂ hj₂ h₂ => ?_
    exact ih _ j₂ h₂.shift forward fun j₃ hj₃ => later j₃ (by omega)

/-! ### Between two calls -/

theorem LeafOk.cut (ok : LeafOk p) (hk : k ≠ 0) (shows : ShowsAt p k j) :
    ∃ before after, p.live = before ++ ⟨k, k⟩ :: after ∧ before.length = j := by
  obtain ⟨z, rest, holds, second⟩ := ok.holds
  have stop : p.records[p.live.length]? = some z := by
    rw [holds.records, List.getElem?_append_right le_rfl, Nat.sub_self, List.getElem?_cons_zero]
  have hj : j < p.live.length := by
    by_contra hle
    rcases Nat.eq_zero_or_pos p.live.length with hzero | hpos
    · have empty : p.live = [] := List.length_eq_zero_iff.mp hzero
      obtain ⟨z', rest', rfl, stop'⟩ := second empty
      rw [hzero] at stop
      cases j with
      | zero =>
          have here := Option.some.inj (stop.symm.trans shows.record)
          exact hk (by rw [← holds.stop, here])
      | succ j =>
          refine shows.live 1 z' Nat.one_pos (Nat.le_add_left 1 j) ?_ stop'
          rw [holds.records, empty]
          rfl
    · exact shows.live _ z hpos (Nat.le_of_not_lt hle) stop holds.stop
  have record := shows.record
  rw [holds.records, List.getElem?_append_left hj] at record
  obtain ⟨hlt, hget⟩ := List.getElem?_eq_some_iff.mp record
  refine ⟨p.live.take j, p.live.drop (j + 1), ?_, List.length_take_of_le hj.le⟩
  rw [← hget, List.cons_getElem_drop_succ, List.take_append_drop]

theorem LeafOk.endsBehind (ok : LeafOk p) (hk : k ≠ 0) (shows : ShowsAt p k j) : EndsBehind p j := by
  obtain ⟨before, after, heq, rfl⟩ := ok.cut hk shows
  obtain ⟨z, rest, holds, -⟩ := ok.holds
  refine ⟨p.live.length, ?_, by rw [heq]; simp, z, ?_, holds.stop⟩
  · rw [holds.lastIndex]
    omega
  · rw [holds.records, List.getElem?_append_right le_rfl, Nat.sub_self, List.getElem?_cons_zero]

theorem LeafOk.nodup (ok : LeafOk p) : (p.live.map Entry.ptr).Nodup := by
  rw [List.map_congr_left ok.values]
  exact ok.keys

/-- The terminator of a leaf with room has a record behind it. -/
theorem LeafOk.holds_room (ok : LeafOk p) (room : p.live.length < cardinality - 1) :
    ∃ z z' rest, p.Holds p.live z (z' :: rest) ∧ (p.live = [] → z'.ptr = 0) := by
  obtain ⟨z, rest, holds, second⟩ := ok.holds
  cases rest with
  | nil =>
      have size := ok.size
      rw [holds.records, List.length_append, List.length_singleton] at size
      omega
  | cons z' rest =>
      refine ⟨z, z', rest, holds, fun empty => ?_⟩
      obtain ⟨_, _, heq, stop⟩ := second empty
      exact (List.cons.inj heq).1 ▸ stop

theorem LeafOk.insertKey (ok : LeafOk p) (live : key ≠ 0) (new : ∀ e ∈ p.live, e.key ≠ key)
    (room : p.live.length < cardinality - 1) :
    LeafOk (p.insertKey key key p.live.length).1 ∧
      (p.insertKey key key p.live.length).1.live.Perm (⟨key, key⟩ :: p.live) := by
  obtain ⟨z, z', rest, holds, -⟩ := ok.holds_room room
  obtain ⟨below, above, cut, holds'⟩ := holds.insertKey ok.ordered key live
  have perm : (below ++ ⟨key, key⟩ :: above).Perm (⟨key, key⟩ :: p.live) := by
    rw [cut.eq]
    exact List.perm_middle
  have shown := holds'.live_eq
  refine ⟨⟨ok.leaf, ⟨_, rest, shown.symm ▸ holds', fun empty => ?_⟩, ?_, ?_, ?_, ?_⟩, shown ▸ perm⟩
  · rw [shown] at empty
    simp at empty
  · rw [holds'.records, ← ok.size, holds.records, cut.eq]
    simp only [List.length_append, List.length_cons]
    omega
  · rw [shown]
    exact Cut.ordered_insert ok.ordered cut
  · rw [shown]
    intro e mem
    rcases List.mem_cons.mp (perm.mem_iff.mp mem) with rfl | mem
    · rfl
    · exact ok.values e mem
  · rw [shown, (perm.map Entry.key).nodup_iff]
    refine List.nodup_cons.mpr ⟨fun mem => ?_, ok.keys⟩
    obtain ⟨e, he, heq⟩ := List.mem_map.mp mem
    exact new e he heq

/-- The stores of `insert_key` to the records of a leaf that has some. -/
theorem LeafOk.recordStores_eq (ok : LeafOk p) (nonempty : p.live ≠ []) {z z' : Entry}
    {rest : List Entry} (holds : p.Holds p.live z (z' :: rest)) (key : Int) :
    setPtr p.records (p.live.length + 1) 0 = p.live ++ z :: ([] ++ { z' with ptr := 0 } :: rest) ∧
    p.recordStores key key p.live.length =
      .ptr (p.live.length + 1) 0 :: Page.shiftRightStores 0 key key p.live.length
        (p.live ++ z :: ([] ++ { z' with ptr := 0 } :: rest)) := by
  have hlook : (p.records.getD p.live.length {}).ptr = 0 := by simp [holds.records, holds.stop]
  have mark : setPtr p.records (p.live.length + 1) 0 =
      p.live ++ z :: ([] ++ { z' with ptr := 0 } :: rest) := by
    have := Page.setPtr_append (p.live ++ [z]) z' rest 0
    rw [holds.records]
    simpa using this
  refine ⟨mark, ?_⟩
  rw [Page.recordStores, if_neg (by simpa using nonempty)]
  dsimp only
  rw [hlook, mark, ok.leaf]

theorem isForward_turned (backward : ¬ isForward p.hdr.switchCounter = true) :
    isForward (p.hdr.switchCounter + 1) = true := by
  have := Page.isForward_insertKey p 0 0 0
  simpa only [Page.insertKey, if_neg backward] using this

theorem insertKeyStores_forward (forward : isForward p.hdr.switchCounter = true) (n : Nat) :
    p.insertKeyStores key ptr n = p.recordStores key ptr n ++ [.lastIndex n] := by
  rw [Page.insertKeyStores, if_pos forward]
  rfl

theorem insertKeyStores_turn (backward : ¬ isForward p.hdr.switchCounter = true) (n : Nat) :
    p.insertKeyStores key ptr n = .switchCounter (p.hdr.switchCounter + 1) ::
      (p.recordStores key ptr n ++ [.lastIndex n]) := by
  rw [Page.insertKeyStores, if_neg backward]
  rfl

/-- The stores of `insert_key`. -/
theorem LeafOk.course_insert (ok : LeafOk p) (hk : k ≠ 0) (shows : ShowsAt p k j) (live : key ≠ 0)
    (other : key ≠ k) (new : ∀ e ∈ p.live, e.key ≠ key) (room : p.live.length < cardinality - 1) :
    Course k p (p.insertKeyStores key key p.live.length) j := by
  obtain ⟨before, after, heq, rfl⟩ := ok.cut hk shows
  obtain ⟨z, z', rest, holds, -⟩ := ok.holds_room room
  obtain ⟨mark, records⟩ := ok.recordStores_eq (by simp [heq]) holds key
  have whole := performs_insertKeyStores p key key p.live.length
  have after' := (ok.insertKey live new room).1
  rw [← whole] at after'
  -- The stores to the records, on a page that is read from left to right.
  have course : ∀ q : Page, q.records = p.records → isForward q.hdr.switchCounter = true →
      (∀ q', q' = (q.performs (p.recordStores key key p.live.length)).perform
        (.lastIndex p.live.length) → LeafOk q') →
      Course k q (p.recordStores key key p.live.length ++ [.lastIndex p.live.length])
        before.length := by
    intro q hq forward final
    have marked : (q.perform (.ptr (p.live.length + 1) 0)).records =
        p.live ++ z :: ([] ++ { z' with ptr := 0 } :: rest) := by
      rw [Page.perform, hq, mark]
    have gap : Gap (q.perform (.ptr (p.live.length + 1) 0)) k p.live z []
        ({ z' with ptr := 0 } :: rest) before.length :=
      ⟨marked, by simpa using holds.live, by simpa using ok.nodup, fun _ h => absurd rfl h,
        .front heq⟩
    rw [records, ← marked, performs_cons] at final
    rw [records, ← marked, List.cons_append]
    have shows' : ShowsAt q k before.length :=
      ⟨hq ▸ shows.record, hq ▸ shows.prev, hq ▸ shows.live⟩
    refine .forward forward rfl shows' le_rfl ?_
    refine gap.course_shiftRight hk forward other live fun j' _ shown => ?_
    have ok' := final _ rfl
    have shown' : ShowsAt (((q.perform (.ptr (p.live.length + 1) 0)).performs
        (Page.shiftRightStores 0 key key p.live.length
          (q.perform (.ptr (p.live.length + 1) 0)).records)).perform
          (.lastIndex p.live.length)) k j' := ⟨shown.record, shown.prev, shown.live⟩
    have hdr := (performs_below (below_shiftRightStores 0 key key p.live.length
      (q.perform (.ptr (p.live.length + 1) 0)).records) (q.perform (.ptr (p.live.length + 1) 0))).1
    exact .forward (by rw [hdr]; exact forward) rfl shown le_rfl
      (.rest ok' shown' (ok'.endsBehind hk shown'))
  by_cases forward : isForward p.hdr.switchCounter = true
  · rw [insertKeyStores_forward forward] at after' ⊢
    rw [performs_append] at after'
    exact course p rfl forward fun q' hq => hq ▸ after'
  · rw [insertKeyStores_turn forward] at after' ⊢
    rw [performs_cons, performs_append] at after'
    exact .turn shows (ok.endsBehind hk shows)
      (course _ rfl (isForward_turned forward) fun q' hq => hq ▸ after')

/-! ### A removal -/

theorem LeafOk.removeKey (ok : LeafOk p) {before after : List Entry}
    (heq : p.live = before ++ e :: after) (hkey : e.key = key) :
    ∃ p', p.removeKey key = some (p', true) ∧ LeafOk p' ∧ p'.live = before ++ after := by
  obtain ⟨z, rest, holds, -⟩ := ok.holds
  have nodup := ok.keys
  rw [heq, List.map_append, List.map_cons] at nodup
  have first : ∀ e' ∈ before, e'.key ≠ key := fun e' mem hk =>
    (List.nodup_append.mp nodup).2.2 _ (List.mem_map_of_mem mem) key
      (hkey ▸ List.mem_cons_self) hk
  rw [heq] at holds
  obtain ⟨p', removed, holds', hdr⟩ := holds.removeKey_of_mem first hkey
  have sub : List.Sublist (before ++ after) p.live := by
    rw [heq]
    exact (List.sublist_cons_self e after).append_left before
  have shown := holds'.live_eq
  refine ⟨p', removed, ⟨by rw [hdr, ← ok.leaf], ⟨z, z :: rest, shown.symm ▸ holds', fun _ =>
    ⟨z, rest, rfl, holds.stop⟩⟩, ?_, ?_, ?_, ?_⟩, shown⟩
  · rw [holds'.records, ← ok.size, holds.records]
    simp only [List.length_append, List.length_cons]
    omega
  · exact shown.symm ▸ ok.ordered.sublist sub
  · exact fun e' mem => ok.values e' (sub.subset (shown ▸ mem))
  · rw [shown]
    exact ok.keys.sublist (sub.map Entry.key)

theorem staysNull_gap (h : p.records = front ++ x :: back) {q : Page} {x' : Entry}
    (hq : q.records = front ++ x' :: back) (hx : front ≠ [] → x.ptr ≠ 0) : StaysNull p q := by
  intro i e' hi he null
  rcases Nat.lt_trichotomy i front.length with hlt | rfl | hgt
  · exact ⟨e', by rw [hq, List.getElem?_append_left hlt, ← List.getElem?_append_left hlt, ← h, he],
      null⟩
  · rw [h, List.getElem?_append_right le_rfl, Nat.sub_self, List.getElem?_cons_zero] at he
    obtain rfl := Option.some.inj he
    exact absurd null (hx (List.ne_nil_of_length_pos hi))
  · obtain ⟨m, rfl⟩ := Nat.exists_eq_add_of_lt hgt
    refine ⟨e', ?_, null⟩
    rw [← he, hq, h, List.getElem?_append_right (by omega), List.getElem?_append_right (by omega)]
    have : front.length + m + 1 - front.length = m + 1 := by omega
    rw [this, List.getElem?_cons_succ, List.getElem?_cons_succ]

theorem LeafOk.turned (ok : LeafOk p) (c : UInt8) : LeafOk (p.perform (.switchCounter c)) := by
  obtain ⟨leaf, ⟨z, rest, holds, second⟩, size, ordered, values, keys⟩ := ok
  exact ⟨leaf, ⟨z, rest, ⟨holds.records, holds.live, holds.stop, holds.lastIndex⟩, second⟩, size,
    ordered, values, keys⟩

/-- A record that is hidden stays so. -/
theorem Gap.hide (h : Gap p k front x es tail j) {q : Page} {x' : Entry}
    (hq : q.records = front ++ x' :: (es ++ tail)) (hx : x.ptr = k → k ∈ front.map Entry.ptr)
    (hx' : x'.ptr = k → k ∈ front.map Entry.ptr) (inner : front ≠ [] → es ≠ [] → x'.ptr ≠ 0) :
    Gap q k front x' es tail j := by
  obtain ⟨-, live, nodup, -, seen⟩ := h
  rw [List.map_append] at nodup
  have apart : ∀ {before after : List Entry}, es = before ++ ⟨k, k⟩ :: after →
      k ∉ front.map Entry.ptr := fun heq mem =>
    (List.nodup_append.mp nodup).2.2 k mem k (by simp [heq]) rfl
  rw [← List.map_append] at nodup
  refine ⟨hq, live, nodup, inner, ?_⟩
  cases seen with
  | front heq => exact .front heq
  | @gap after hes hgap => exact absurd (hx (by rw [hgap])) (@apart [] after hes)
  | behind hes _ => exact .behind hes fun _ hptr => apart hes (hx' hptr)

/-- The next record is copied into the gap. -/
theorem Gap.pull (h : Gap p k front x (e :: es) tail j) {q : Page}
    (hq : q.records = front ++ e :: (e :: es ++ tail)) :
    ∃ j' ≤ j, Gap q k front e (e :: es) tail j' := by
  obtain ⟨-, live, nodup, -, seen⟩ := h
  have he : front ≠ [] → e :: es ≠ [] → e.ptr ≠ 0 := fun _ _ => live e (by simp)
  cases seen with
  | front heq => exact ⟨_, le_rfl, hq, live, nodup, he, .front heq⟩
  | gap hes hx => exact ⟨_, le_rfl, hq, live, nodup, he, .gap hes (List.cons.inj hes).1⟩
  | @behind before after hes hx =>
      cases before with
      | nil => exact ⟨front.length, by omega, hq, live, nodup, he, .gap hes (List.cons.inj hes).1⟩
      | cons b before => exact ⟨_, le_rfl, hq, live, nodup, he, .behind hes fun heq => nomatch heq⟩

theorem Gap.endsBehind {z : Entry} {rest : List Entry} (h : Gap p k front x es (z :: rest) j)
    (stop : z.ptr = 0) (hlast : p.hdr.lastIndex + 1 = (front.length + 1 + es.length : Nat)) :
    EndsBehind p j := by
  refine ⟨_, hlast, ?_, z, ?_, stop⟩
  · cases h.seen with
    | front heq => simp [heq]; omega
    | gap hes _ => omega
    | behind hes _ => simp [hes]
  · rw [h.records, List.getElem?_append_right (by omega)]
    have : front.length + 1 + es.length - front.length = es.length + 1 := by omega
    rw [this, List.getElem?_cons_succ, List.getElem?_append_right le_rfl, Nat.sub_self,
      List.getElem?_cons_zero]

/-- The shifting loop of a removal. -/
theorem Gap.course_shiftLeft {z : Entry} {rest : List Entry}
    (h : Gap p k front x es (z :: rest) j) (hk : k ≠ 0) (stop : z.ptr = 0)
    (backward : isForward p.hdr.switchCounter = false) (hx : x.ptr = Page.childOf 0 front)
    (he : e.ptr ≠ 0) (hlast : p.hdr.lastIndex + 1 = (front.length + 1 + es.length : Nat))
    (later : ∀ q, q = p.performs (Page.shiftLeftStores front.length (e :: (es ++ z :: rest))) →
      ∀ j' ≤ j, q.hdr = p.hdr → ShowsAt q k j' → EndsBehind q j' → Course k q stores j') :
    Course k p (Page.shiftLeftStores front.length (e :: (es ++ z :: rest)) ++ stores) j := by
  have hidden : x.ptr = k → k ∈ front.map Entry.ptr := fun hptr => childOf_front hk (hx ▸ hptr)
  have inner : front ≠ [] → x.ptr ≠ 0 := by
    intro hf
    cases front with
    | nil => exact absurd rfl hf
    | cons f front =>
        rw [hx]
        exact childOf_ne_zero (fun e mem => h.live e (List.mem_append_left _ mem)) 0
  have ends := h.endsBehind stop hlast
  induction es generalizing front x e p j with
  | nil =>
      have hrecords : p.records = front ++ x :: z :: rest := h.records
      have last : Page.shiftLeftStores (front.length + 1) (z :: rest) = [] := by
        cases rest with
        | nil => rfl
        | cons _ _ => exact if_pos stop
      have hstores : Page.shiftLeftStores front.length (e :: ([] ++ z :: rest)) =
          [.key front.length z.key, .ptr front.length z.ptr] := by
        rw [List.nil_append, Page.shiftLeftStores, if_neg he, last]
      have hkey := perform_key rfl hrecords z.key
      have h₁ : Gap (p.perform (.key front.length z.key)) k front { x with key := z.key } []
          (z :: rest) j := h.hide (by rw [hkey]; rfl) hidden hidden fun _ h => absurd rfl h
      have hptr := perform_ptr rfl h₁.records z.ptr
      have h₂ : Gap ((p.perform (.key front.length z.key)).perform (.ptr front.length z.ptr)) k
          front z [] (z :: rest) j :=
        h₁.hide (by rw [hptr]) hidden (fun heq => absurd (heq.symm.trans stop) hk)
          fun _ h => absurd rfl h
      rw [hstores] at later ⊢
      refine .backward backward rfl (h.showsAt hk) ends le_rfl
        (staysNull_gap hrecords (by rw [hkey]) inner) ?_
      refine .backward backward rfl (h₁.showsAt hk) (h₁.endsBehind stop (by rw [hkey]; exact hlast))
        le_rfl (staysNull_gap h₁.records (by rw [hptr]) inner) ?_
      exact later _ rfl j le_rfl rfl (h₂.showsAt hk) (h₂.endsBehind stop hlast)
  | cons n es ih =>
      have hn : n.ptr ≠ 0 := h.live n (by simp)
      have hstores : Page.shiftLeftStores front.length (e :: (n :: es ++ z :: rest)) =
          .key front.length n.key :: .ptr front.length n.ptr ::
            Page.shiftLeftStores (front.length + 1) (n :: (es ++ z :: rest)) := by
        rw [List.cons_append, Page.shiftLeftStores, if_neg he]
      have hkey := perform_key rfl h.records n.key
      have h₁ : Gap (p.perform (.key front.length n.key)) k front { x with key := n.key } (n :: es)
          (z :: rest) j := h.hide (by rw [hkey]) hidden hidden fun hf _ => inner hf
      have hptr := perform_ptr rfl h₁.records n.ptr
      obtain ⟨j', hj, h₂⟩ := h₁.pull
        (q := (p.perform (.key front.length n.key)).perform (.ptr front.length n.ptr))
        (by rw [hptr])
      have hlen : (front ++ [n]).length = front.length + 1 := by simp
      rw [hstores] at later ⊢
      rw [List.cons_append, List.cons_append]
      refine .backward backward rfl (h.showsAt hk) ends le_rfl
        (staysNull_gap h.records (by rw [hkey]) inner) ?_
      refine .backward backward rfl (h₁.showsAt hk) (h₁.endsBehind stop (by rw [hkey]; exact hlast))
        hj (staysNull_gap h₁.records (by rw [hptr]) inner) ?_
      rw [← hlen] at later ⊢
      have hcount : (front ++ [n]).length + 1 + es.length = front.length + 1 + (n :: es).length := by
        simp only [List.length_append, List.length_cons, List.length_nil]
        omega
      exact ih h₂.unshift backward (by simp [Page.childOf]) hn (by rw [hcount]; exact hlast)
        (fun q hq j'' hj'' => later q hq j'' (hj''.trans hj)) (fun heq => by simp [heq])
        (fun _ => hn) (h₂.endsBehind stop hlast)

theorem isForward_succ {c : UInt8} (forward : isForward c = true) : isForward (c + 1) = false := by
  unfold isForward at forward ⊢
  rw [beq_iff_eq, ← UInt8.toNat_inj] at forward
  rw [beq_eq_false_iff_ne, ne_eq, ← UInt8.toNat_inj]
  simp only [UInt8.toNat_mod, UInt8.toNat_add, UInt8.reduceToNat] at forward ⊢
  omega

/-- The gap that a removal makes in place of another record. -/
theorem Seen.of_live {before after : List Entry} (heq : front ++ x :: es = before ++ ⟨k, k⟩ :: after)
    (hx : x.ptr ≠ k) : Seen k front x es before.length := by
  rcases List.append_eq_append_iff.mp heq with ⟨mid, rfl, hmid⟩ | ⟨mid, rfl, hmid⟩
  · cases mid with
    | nil =>
        rw [List.nil_append] at hmid
        exact absurd (by rw [(List.cons.inj hmid).1]) hx
    | cons m mid =>
        obtain ⟨rfl, rfl⟩ := List.cons.inj hmid
        have hlen : (front ++ x :: mid).length = front.length + 1 + mid.length := by
          simp only [List.length_append, List.length_cons]
          omega
        rw [hlen]
        exact .behind rfl fun _ => hx
  · cases mid with
    | nil =>
        rw [List.nil_append] at hmid
        exact absurd (by rw [← (List.cons.inj hmid).1]) hx
    | cons m mid =>
        obtain ⟨rfl, rfl⟩ := List.cons.inj hmid
        exact .front rfl

theorem LeafOk.gap (ok : LeafOk p) (hk : k ≠ 0) (shows : ShowsAt p k j)
    {before after rest : List Entry} {z : Entry} (heq : p.live = before ++ e :: after)
    (holds : p.Holds p.live z rest) (other : e.key ≠ k) {q : Page} (hq : q.records = p.records) :
    Gap q k before e after (z :: rest) j := by
  obtain ⟨before', after', heq', rfl⟩ := ok.cut hk shows
  have sub : List.Sublist (before ++ after) p.live := by
    rw [heq]
    exact (List.sublist_cons_self e after).append_left before
  have mem : e ∈ p.live := by simp [heq]
  refine ⟨?_, fun e' mem' => holds.live e' (sub.subset mem'), ok.nodup.sublist (sub.map Entry.ptr),
    fun _ _ => holds.live e mem, ?_⟩
  · rw [hq, holds.records, heq]
    simp
  · exact .of_live (heq.symm.trans heq') (ok.values e mem ▸ other)

/-- The stores of `remove_key`. -/
theorem LeafOk.course_remove (ok : LeafOk p) (hk : k ≠ 0) (shows : ShowsAt p k j)
    (other : key ≠ k) : Course k p (p.removeKeyStores key) j := by
  obtain ⟨z, rest, holds, -⟩ := ok.holds
  let loop := Page.removeLoopStores key 0 p.hdr.leftmostPtr p.records
  let stores := loop ++ if loop.isEmpty then [] else [.lastIndex (p.hdr.lastIndex - 1)]
  -- The loop, on a page that is read from right to left.
  have course : ∀ q : Page, q.records = p.records → q.hdr.lastIndex = p.hdr.lastIndex →
      LeafOk q → isForward q.hdr.switchCounter = false →
      (∀ p', p.removeKey key = some (p', true) → q.performs stores = p') →
      Course k q stores j := by
    intro q hq hindex ok' backward final
    have shows' : ShowsAt q k j := ⟨hq ▸ shows.record, hq ▸ shows.prev, hq ▸ shows.live⟩
    by_cases has : ∃ e ∈ p.live, e.key = key
    · obtain ⟨before, e, after, heq, first, hkey⟩ := Page.exists_first has
      have gap := ok.gap hk shows heq holds (hkey ▸ other) hq
      have he : e.ptr ≠ 0 := holds.live e (by simp [heq])
      have hloop : loop = .ptr before.length (Page.childOf 0 before) ::
          Page.shiftLeftStores before.length (e :: (after ++ z :: rest)) := by
        change Page.removeLoopStores key 0 p.hdr.leftmostPtr p.records = _
        rw [holds.records, heq, List.append_assoc, List.cons_append, ok.leaf,
          removeLoopStores_eq (fun e' mem => holds.live e' (by simp [heq, mem])) he first hkey,
          Nat.zero_add]
      have hstores : stores = .ptr before.length (Page.childOf 0 before) ::
          (Page.shiftLeftStores before.length (e :: (after ++ z :: rest)) ++
            [.lastIndex (p.hdr.lastIndex - 1)]) := by
        change loop ++ _ = _
        rw [hloop]
        rfl
      obtain ⟨p', removed, ok₁, -⟩ := ok.removeKey heq hkey
      have last := final p' removed
      rw [hstores] at last ⊢
      have hput := perform_ptr rfl gap.records (Page.childOf 0 before)
      have gap₁ : Gap (q.perform (.ptr before.length (Page.childOf 0 before))) k before
          { e with ptr := Page.childOf 0 before } after (z :: rest) j := by
        refine gap.hide (by rw [hput]) (fun hptr => ?_) (childOf_front hk) fun hf _ => ?_
        · exact absurd ((ok.values e (by simp [heq])).symm.trans hptr) (hkey ▸ other)
        · refine childOf_live hf fun e' mem => holds.live e' ?_
          rw [heq]
          exact List.mem_append_left _ mem
      have hlast : q.hdr.lastIndex + 1 = (before.length + 1 + after.length : Nat) := by
        rw [hindex, holds.lastIndex, heq]
        simp only [List.length_append, List.length_cons]
        omega
      refine .backward backward rfl shows' (ok'.endsBehind hk shows') le_rfl
        (staysNull_gap gap.records (by rw [hput]) fun _ => he) ?_
      refine gap₁.course_shiftLeft hk holds.stop backward rfl he hlast fun q₁ hq₁ j' _ hdr s₁ e₁ => ?_
      have final₁ : LeafOk (q₁.perform (.lastIndex (p.hdr.lastIndex - 1))) := by
        rw [performs_cons, performs_append, ← hq₁] at last
        subst last
        exact ok₁
      have s₂ : ShowsAt (q₁.perform (.lastIndex (p.hdr.lastIndex - 1))) k j' :=
        ⟨s₁.record, s₁.prev, s₁.live⟩
      refine .backward (by rw [hdr]; exact backward) rfl s₁ e₁ le_rfl
        (fun i e' _ he' null => ⟨e', he', null⟩) (.rest final₁ s₂ (final₁.endsBehind hk s₂))
    · have absent : ∀ e ∈ p.live, e.key ≠ key := fun e mem heq => has ⟨e, mem, heq⟩
      have unchanged := Page.removeLoop_of_forall_ne key p.live holds.live holds.stop rest absent
      rw [← holds.records] at unchanged
      have empty : loop = [] := List.isEmpty_iff.mp
        (performs_removeLoopStores (p := p) [] unchanged p.hdr.leftmostPtr rfl).2
      have hstores : stores = [] := by
        change loop ++ _ = _
        rw [empty]
        rfl
      rw [hstores]
      exact .rest ok' shows' (ok'.endsBehind hk shows')
  have whole : ∀ p', p.removeKey key = some (p', true) → p.performs (p.removeKeyStores key) = p' :=
    fun p' removed => performs_removeKeyStores removed
  by_cases forward : isForward p.hdr.switchCounter = true
  · have hstores : p.removeKeyStores key = .switchCounter (p.hdr.switchCounter + 1) :: stores := by
      rw [Page.removeKeyStores, if_pos forward]
      rfl
    rw [hstores] at whole ⊢
    exact .turn shows (ok.endsBehind hk shows)
      (course _ rfl rfl (ok.turned _) (isForward_succ forward) whole)
  · have hstores : p.removeKeyStores key = stores := by
      rw [Page.removeKeyStores, if_neg forward]
      rfl
    rw [hstores] at whole ⊢
    exact course p rfl rfl ok (Bool.eq_false_iff.mpr forward) whole

end Writer

/-! ## The reader beside the writer -/

section Rule

variable {p : Page} {k : Int} {j : Nat}

theorem Course.ends {stores : List PageStore} (h : Course k p stores j)
    (backward : isForward p.hdr.switchCounter = false) : EndsBehind p j := by
  cases h with
  | rest _ _ ends | turn _ ends _ | backward _ _ _ ends _ _ _ => exact ends
  | forward forward _ _ _ _ =>
      rw [backward] at forward
      exact Bool.noConfusion forward

/-- A reader between two passes. -/
theorem LeafPhase.Finds.outside {phase : LeafPhase} {q : Page} {j' : Nat}
    (outside : phase.previous = none) (finds : phase.Finds p k j) : phase.Finds q k j' := by
  cases phase with
  | counter => trivial
  | done c ret => exact finds
  | _ => cases outside

theorem switchCounter_perform {s : PageStore} (turn : s.turns = false) :
    (p.perform s).hdr.switchCounter = p.hdr.switchCounter := by
  cases s with
  | switchCounter c => cases turn
  | _ => rfl

/-- A reader of a page that has not been turned since has not missed the record of `k`. -/
theorem finds_rule (hk : k ≠ 0) :
    (leafSearch k).Rule (Course k) (fun p j phase => phase.Finds p k j) where
  initial _ _ := trivial
  call := by
    intro p j stores course call
    cases course with
    | rest ok shows _ =>
        cases call with
        | insert key live other new count room =>
            obtain ⟨z, rest, holds, -⟩ := ok.holds
            obtain rfl := Option.some.inj (holds.count_eq.symm.trans count)
            exact ok.course_insert hk shows live other new room
        | remove key other => exact ok.course_remove hk shows other
  turn := by
    intro p s rest j course turns
    cases course with
    | turn _ _ later => exact ⟨rfl, j, later⟩
    | forward _ turn _ _ _ => exact absurd turns (by simp [leafSearch, turn])
    | backward _ turn _ _ _ _ _ => exact absurd turns (by simp [leafSearch, turn])
  store := by
    intro p s rest j course turns
    cases course with
    | turn _ _ _ => exact absurd rfl turns
    | @forward _ _ _ j j' forward turn _ hj later =>
        refine ⟨switchCounter_perform turn, j', later, fun phase pass finds => ?_⟩
        exact LeafPhase.Finds.forward finds hj fun c hc =>
          Option.some.inj (pass.symm.trans hc) ▸ forward
    | @backward _ _ _ j j' backward turn _ _ hj null later =>
        refine ⟨switchCounter_perform turn, j', later, fun phase pass finds => ?_⟩
        exact LeafPhase.Finds.backward finds hj null fun c hc =>
          Option.some.inj (pass.symm.trans hc) ▸ backward
  load := by
    rintro p stores j phase phase' course ⟨rightFirst, load⟩ same finds
    exact LeafPhase.Finds.load finds hk course.showsAt (Course.ends course) same load
  outside := LeafPhase.Finds.outside

theorem LeafOk.course_rest (ok : LeafOk p) (has : ∃ e ∈ p.live, e.key = k) :
    k ≠ 0 ∧ ∃ j, Course k p [] j := by
  obtain ⟨e, mem, rfl⟩ := has
  obtain ⟨z, rest, holds, -⟩ := ok.holds
  have he : e = ⟨e.key, e.key⟩ := congrArg (Entry.mk e.key) (ok.values e mem)
  have hk : e.key ≠ 0 := ok.values e mem ▸ holds.live e mem
  obtain ⟨before, after, heq⟩ := List.append_of_mem mem
  rw [he] at heq
  have nodup := ok.nodup
  rw [heq, List.map_append, List.map_cons] at nodup
  have shows : ShowsAt p e.key before.length := by
    refine showsAt_of before (after ++ z :: rest) ?_ hk (fun e' mem' hptr => ?_) fun e' mem' => ?_
    · rw [holds.records, heq, List.append_assoc]
      rfl
    · exact (List.nodup_append.mp nodup).2.2 _
        (List.mem_map_of_mem (List.mem_of_mem_getLast? mem')) e.key List.mem_cons_self hptr
    · refine holds.live e' ?_
      rw [heq]
      exact List.mem_append_left _ (List.mem_of_mem_tail mem')
  exact ⟨hk, _, .rest ok shows (ok.endsBehind hk shows)⟩

/-- A key that the leaf has all the time is found. -/
theorem LeafOk.finds (ok : LeafOk p) (has : ∃ e ∈ p.live, e.key = k)
    {m : LeafMachine}
    (run : (leafSearch k).Reach ((leafSearch k).start p) m) {c : UInt8} {ret : Int}
    (done : m.phase = .done c ret) : ret ≠ 0 := by
  obtain ⟨hk, j, course⟩ := ok.course_rest has
  obtain ⟨j', finds⟩ := run.relies (leafSearch_lawful k) (finds_rule hk) course
    (by rw [done]; rfl)
  rw [done] at finds
  exact finds

end Rule

/-! ## The leaves of a tree -/

namespace BTree

variable {alloc : Allocator} {ops : List TreeOp} {t : BTree} {p : Int}

/-- A leaf of a tree that holds no key twice. -/
theorem leafOk_run (run : Run (empty alloc) NewKeys ops t) (mem : p ∈ t.level t.depth) :
    LeafOk (t.page p) := by
  obtain ⟨n, row, rows, -, single⟩ := run.trails fun _ _ => And.left
  have single := single fun _ _ => And.right
  obtain ⟨s, next, ok, -, -⟩ := rows.pageOk_level le_rfl mem
  rw [Nat.sub_self] at ok
  obtain ⟨leaf, values⟩ := ok.leaf rfl
  have root : t.depth = n := rows.root.trans (Nat.zero_add n)
  rw [root, rows.upward.level_eq] at mem
  obtain ⟨x, hx, rfl⟩ := List.mem_map.mp mem
  exact ⟨leaf, ok.holds, ok.size, ok.ordered, values, single.nodup_live rows.isRow hx⟩

/-- A search without a lock finds a key that the leaf has all the time, if it ends, whatever
insertions and removals of other keys go on meanwhile, in whatever order their stores and its
loads come.  What is inserted is not 0 and not in the leaf, which has room for it, and fewer than
256 turns of the leaf fall into one pass. -/
theorem search_meanwhile (run : Run (empty alloc) NewKeys ops t) (mem : p ∈ t.level t.depth)
    {k : Int} (has : ∃ e ∈ (t.page p).live, e.key = k) {m : LeafMachine}
    (reach : (leafSearch k).Reach ((leafSearch k).start (t.page p)) m) {c : UInt8} {ret : Int}
    (done : m.phase = .done c ret) : ret ≠ 0 :=
  (leafOk_run run mem).finds has reach done

/-- 9 is looked for in a leaf with 5 and 9 while 7 is inserted and 5 removed. -/
def insertsAndRemoves : List LeafMove :=
  [.load false, .load false, .insert 7, .store, .store, .load false, .load false, .store,
    .load true, .store, .load true, .store, .store, .store, .remove 5, .store, .load true,
    .load true, .load true, .load true, .load true, .load true, .store, .store, .store, .store] ++
  List.replicate 11 (.load true)

theorem search_meanwhile_two :
    ∃ t m, Run (empty (.bump 100)) NewKeys [.insert 5, .insert 9] t ∧
      (leafSearch 9).Reach ((leafSearch 9).start (t.page t.root)) m ∧
      ∃ ret ≠ 0, m.phase = .done 1 ret := by
  obtain ⟨t, run, mem, has, ends⟩ : ∃ t,
      Run (empty (.bump 100)) NewKeys [.insert 5, .insert 9] t ∧ t.root ∈ t.level t.depth ∧
      (∃ e ∈ (t.page t.root).live, e.key = 9) ∧
      (insertsAndRemoves.foldlM (LeafMachine.move 9) ((leafSearch 9).start (t.page t.root))).map
        Seqlock.Machine.phase = some (.done 1 9) :=
    ⟨_, (Run.nil.step (.insert 5) ⟨by decide, fun _ => by decide⟩ ⟨2, rfl⟩).step (.insert 9)
      ⟨by decide, fun _ => by decide⟩ ⟨2, rfl⟩, by decide, by decide, by decide⟩
  obtain ⟨m, moves, done⟩ := Option.map_eq_some_iff.mp ends
  have reach := LeafMachine.reach_of_moves moves
  exact ⟨t, m, run, reach, 9, search_meanwhile run mem has reach done, done⟩

end BTree

end F3Tree
