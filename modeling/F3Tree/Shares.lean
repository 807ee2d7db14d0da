import F3Tree.Rebalance
import F3Tree.Store

/-!
# What two leaves share

A leaf that has fallen short of records either gives them all to its left sibling
(`PageOk.merge`) or takes the upper records of it, the first of which becomes the separator
(`PageOk.takeFromLeft`).  Either way the leaves keep their form, and their records.
-/

namespace F3Tree

open Keyed

namespace Page

variable {p : Page} {es rest : List Entry} {z : Entry}

theorem upToNull_eq (live : ∀ e ∈ es, e.ptr ≠ 0) (stop : z.ptr = 0) (rest : List Entry) :
    upToNull (es ++ z :: rest) = some es := by
  induction es with
  | nil => exact if_pos stop
  | cons e es ih =>
      obtain ⟨he, live⟩ := List.forall_mem_cons.mp live
      rw [List.cons_append, upToNull, if_neg he, ih live]
      rfl

theorem insertAll_cons (p : Page) (n : Nat) (e : Entry) (es : List Entry) :
    p.insertAll n (e :: es) = (p.insertKey e.key e.ptr n).1.insertAll (n + 1) es := rfl

/-- Insertions do not look at the sibling. -/
theorem insertAll_setSibling (p : Page) (sibling : Int) (n : Nat) (es : List Entry) :
    (p.setSibling sibling).insertAll n es =
      ((p.insertAll n es).1.setSibling sibling, (p.insertAll n es).2) := by
  induction es generalizing p n with
  | nil => rfl
  | cons e es ih =>
      rw [insertAll_cons, insertAll_cons, ← ih]
      rfl

theorem live_setSibling (p : Page) (sibling : Int) : (p.setSibling sibling).live = p.live := rfl

theorem Holds.cutOff {before after : List Entry} {e : Entry}
    (h : p.Holds (before ++ e :: after) z rest) :
    (p.cutOff before.length).Holds before { e with ptr := 0 } (after ++ z :: rest) := by
  refine ⟨?_, fun e' mem => h.live e' (List.mem_append_left _ mem), rfl, rfl⟩
  rw [Page.cutOff, h.records, List.append_assoc, List.cons_append, setPtr_append]

end Page

section PageOk

variable {p left : Page} {s x : Entry} {next next' : Option Entry}

/-- A leaf gets another neighbour. -/
theorem PageOk.relink (ok : PageOk p 0 s next)
    (lt : ∀ n ∈ next', s.key ≤ n.key ∧ ∀ e ∈ p.live, e.key < n.key) :
    PageOk (p.setSibling ((next'.map Entry.ptr).getD 0)) 0 s next' := by
  obtain ⟨z, rest, holds, second⟩ := ok.holds
  refine ⟨⟨z, rest, ⟨holds.records, holds.live, holds.stop, holds.lastIndex⟩, second⟩, ok.size,
    ok.alive, ok.level, rfl, ok.ordered, ok.range, fun n hn => ?_, ok.leaf, ok.internal⟩
  obtain ⟨hle, hlive⟩ := lt n hn
  have none : p.live.filter (fun e => e.key = n.key) = [] :=
    List.filter_eq_nil_iff.mpr fun e mem => by simpa using (hlive e mem).ne
  refine ⟨hle, fun e mem => (hlive e mem).le, ?_⟩
  rw [Page.live_setSibling, none]
  exact Nat.zero_le _

/-- A leaf loses its upper records to the page in the slot `n`. -/
theorem PageOk.cutOff (ok : PageOk p 0 s next) {before after : List Entry} {e n : Entry}
    (hlive : p.live = before ++ e :: after) (nonempty : before ≠ [])
    (sibling : p.hdr.siblingPtr = n.ptr) (hle : s.key ≤ n.key)
    (lt : ∀ e' ∈ before, e'.key < n.key) :
    PageOk (p.cutOff before.length) 0 s (some n) ∧ (p.cutOff before.length).live = before := by
  obtain ⟨z, rest, holds, -⟩ := ok.holds
  rw [hlive] at holds
  have holds' := holds.cutOff
  have none : before.filter (fun e => e.key = n.key) = [] :=
    List.filter_eq_nil_iff.mpr fun e mem => by simpa using (lt e mem).ne
  have ordered := ok.ordered
  rw [hlive] at ordered
  have size := ok.size
  rw [holds.records] at size
  refine ⟨.of_holds holds' (fun h => absurd h nonempty) ?_ ok.alive ok.level sibling
    (List.pairwise_append.mp ordered).1 (fun e' mem => ?_) (fun n' hn => ?_) (fun hl => ?_)
    fun hl => absurd hl (lt_irrefl 0), holds'.live_eq⟩
  · simp only [List.length_append, List.length_cons] at size ⊢
    omega
  · have range := ok.range
    rw [holds.records] at range
    simp only [List.mem_append, List.mem_cons] at mem range
    rcases mem with mem | rfl | mem | mem
    · exact range e' (Or.inl (Or.inl mem))
    · exact range e (Or.inl (Or.inr (Or.inl rfl)))
    · exact range e' (Or.inl (Or.inr (Or.inr mem)))
    · exact range e' (Or.inr mem)
  · obtain rfl := Option.mem_some_iff.mp hn
    exact ⟨hle, fun e' mem => (lt e' mem).le, none ▸ Nat.zero_le _⟩
  · exact ⟨(ok.leaf hl).1, fun e' mem =>
      (ok.leaf hl).2 e' (hlive ▸ List.mem_append_left _ mem)⟩

/-- The records that a leaf in the slot `s` can take. -/
def FitsSlot (s : Entry) (next : Option Entry) (e : Entry) : Prop :=
  s.key ≤ e.key ∧ e.key ≤ longMax ∧ (∀ n ∈ next, e.key < n.key) ∧ e.ptr ≠ 0 ∧ e.ptr = e.key

theorem PageOk.insertAll {es : List Entry} (ok : PageOk p 0 s next)
    (room : p.live.length + es.length ≤ cardinality - 1) (fits : ∀ e ∈ es, FitsSlot s next e) :
    PageOk (p.insertAll p.live.length es).1 0 s next ∧
      (p.insertAll p.live.length es).1.live.Perm (es ++ p.live) := by
  induction es generalizing p with
  | nil => exact ⟨ok, .refl _⟩
  | cons e es ih =>
      obtain ⟨⟨least, most, lt, hptr, value⟩, fits⟩ := List.forall_mem_cons.mp fits
      rw [List.length_cons] at room
      obtain ⟨ok', ins⟩ := ok.insertKey (by omega) least most lt hptr fun _ => value
      have length : (p.insertKey e.key e.ptr p.live.length).1.live.length = p.live.length + 1 :=
        ins.perm.length_eq
      obtain ⟨ok'', perm⟩ := ih ok' (by omega) fits
      rw [length] at ok'' perm
      exact ⟨ok'', perm.trans (((ins.perm).append_left es).trans List.perm_middle)⟩

theorem PageOk.fits (ok : PageOk p 0 s next) (hle : x.key ≤ s.key) {e : Entry}
    (mem : e ∈ p.live) (lt : ∀ n ∈ next', e.key < n.key) : FitsSlot x next' e := by
  obtain ⟨z, rest, holds, -⟩ := ok.holds
  obtain ⟨least, most⟩ := ok.range e (ok.mem_records mem)
  exact ⟨hle.trans least, most, lt, holds.live e mem, (ok.leaf rfl).2 e mem⟩

/-- The left sibling takes all records. -/
theorem PageOk.merge (ok : PageOk p 0 s next) (okLeft : PageOk left 0 x (some s))
    (room : left.live.length + p.live.length ≤ cardinality - 1)
    (lt : ∀ e ∈ p.live, ∀ n ∈ next, e.key < n.key) (ltLeft : ∀ e ∈ left.live, e.key < s.key)
    (deletedKey : Int) :
    ∃ left', p.merge left left.live.length deletedKey = some left' ∧ PageOk left' 0 x next ∧
      left'.live.Perm (p.live ++ left.live) := by
  have hle : x.key ≤ s.key := (okLeft.below s rfl).1
  obtain ⟨z, rest, holds, -⟩ := ok.holds
  have linked : PageOk (left.setSibling p.hdr.siblingPtr) 0 x next := by
    rw [ok.sibling]
    exact okLeft.relink fun n hn =>
      ⟨hle.trans (ok.below n hn).1, fun e mem => (ltLeft e mem).trans_le (ok.below n hn).1⟩
  have fits : ∀ e ∈ p.live, FitsSlot x next e := fun e mem => ok.fits hle mem (lt e mem)
  have inserted := linked.insertAll room fits
  rw [Page.live_setSibling, Page.insertAll_setSibling] at inserted
  refine ⟨_, ?_, inserted⟩
  rw [Page.merge, holds.records, Page.upToNull_eq holds.live holds.stop]
  simp [(ok.leaf rfl).1]

/-- The upper records of the left sibling move to the page. -/
theorem PageOk.takeFromLeft (ok : PageOk p 0 s next) (okLeft : PageOk left 0 x (some s))
    {before after : List Entry} {e : Entry} (hleft : left.live = before ++ e :: after)
    (nonempty : before ≠ []) (room : p.live.length + (after.length + 1) ≤ cardinality - 1)
    (lt : ∀ e' ∈ left.live, e'.key < s.key) (nodup : (left.live.map Entry.key).Nodup)
    (deletedKey : Int) :
    ∃ p', p.takeFromLeft left p.live.length left.live.length before.length deletedKey =
        (p', left.cutOff before.length, e.key) ∧
      PageOk p' 0 ⟨e.key, s.ptr⟩ next ∧ p'.live.Perm (e :: after ++ p.live) ∧
      PageOk (left.cutOff before.length) 0 x (some ⟨e.key, s.ptr⟩) ∧
      (left.cutOff before.length).live = before := by
  have he : e ∈ left.live := hleft ▸ by simp
  have hes : e.key < s.key := lt e he
  have ordered := okLeft.ordered
  rw [hleft] at ordered nodup
  obtain ⟨-, behind, -⟩ := List.pairwise_append.mp ordered
  -- The records that stay lie below the first that moves.
  have kept : ∀ e' ∈ before, e'.key < e.key := ordered.lt_of_nodup nodup
  have least : ∀ e' ∈ e :: after, e.key ≤ e'.key := fun e' mem => by
    rcases List.mem_cons.mp mem with rfl | mem
    · exact le_rfl
    · exact (List.pairwise_cons.mp behind).1 e' mem
  have lower : PageOk p 0 ⟨e.key, s.ptr⟩ next := ok.lower hes.le
  have fits : ∀ e' ∈ (e :: after).reverse, FitsSlot ⟨e.key, s.ptr⟩ next e' := fun e' mem => by
    have mem := List.mem_reverse.mp mem
    have mem' : e' ∈ left.live := hleft ▸ List.mem_append_right _ mem
    have below : ∀ n ∈ next, e'.key < n.key := fun n hn =>
      (lt e' mem').trans_le (ok.below n hn).1
    obtain ⟨-, most, -, live, value⟩ := okLeft.fits le_rfl mem' below
    exact ⟨least e' mem, most, below, live, value⟩
  obtain ⟨inserted, perm⟩ := lower.insertAll (by simpa using room) fits
  have perm : (p.insertAll p.live.length (e :: after).reverse).1.live.Perm
      (e :: after ++ p.live) := perm.trans ((List.reverse_perm _).append_right _)
  have first := inserted.firstKey_eq ⟨e, perm.mem_iff.mpr (by simp), rfl⟩
  obtain ⟨z, rest, holds, -⟩ := okLeft.holds
  have records : (left.records.take left.live.length).drop before.length = e :: after := by
    rw [holds.records, List.take_left, hleft, List.drop_left]
  refine ⟨_, ?_, inserted, perm, okLeft.cutOff hleft nonempty okLeft.sibling
    (okLeft.range e (okLeft.mem_records he)).1 kept⟩
  rw [Page.takeFromLeft, if_pos (ok.leaf rfl).1, records]
  exact congrArg (fun k => (_, left.cutOff before.length, k)) first

end PageOk

end F3Tree
