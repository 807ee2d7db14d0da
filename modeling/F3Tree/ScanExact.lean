import Mathlib.Data.List.Sort
import F3Tree.RangeScan

/-!
# Exact range scans

What a scan writes follows from the leaves that it comes to: from their direction, from their
own keys, and from the leaf that ends it.  A leaf that is read forward adds its keys; one that
is read backward must have one key of the interval at most, among the records where the reading
begins, and no record left over behind (`Page.ReadsOwn`).  A leaf that ends the scan adds its
keys if it is read forward, and else nothing (`InTurn`).

There is one exception, leaves that are empty and keep the keys which a split has moved on, in
front of a leaf that ends the scan early (`Redeemed`).
-/

namespace F3Tree

open Keyed Fuel

namespace Page

/-- The values of the live records in the interval. -/
def own (p : Page) (min max : Int) : List Int := within min max p.live

/-- The live records that a walk looks at: from left to right all of them, from right to left
those among the first `numEntries`. -/
def reached (p : Page) (numEntries : Nat) : List Entry :=
  if isForward p.hdr.switchCounter then p.live else p.live.take (max numEntries 1)

/-- The values of the interval in the records behind the live ones, as far as a walk from right
to left looks at them.  Records side by side with one `ptr` count as one. -/
def leftover (p : Page) (numEntries : Nat) (min max : Int) : List Int :=
  if isForward p.hdr.switchCounter then []
  else within min max
    (firsts 0 ((p.records.take (Max.max numEntries 1)).drop (p.live.length + 1)))

/-- A walk that goes on behind the leaf comes by its keys of the interval in their order, and by
nothing else: it is read from left to right, or it has one such key at most, in reach, and none
is left over. -/
def ReadsOwn (p : Page) (numEntries : Nat) (min max : Int) : Prop :=
  isForward p.hdr.switchCounter = true ∨
    (p.own min max).length ≤ 1 ∧ p.own min max = within min max (p.reached numEntries) ∧
      p.leftover numEntries min max = []

instance (p : Page) (numEntries : Nat) (min max : Int) :
    Decidable (p.ReadsOwn numEntries min max) :=
  inferInstanceAs (Decidable (_ ∨ _))

end Page

/-- Empty leaves keep, one each at most and in order, what the leaves behind them have of the
interval, and the first of these ends the walk without a look at its keys. -/
def Redeemed (c : Nat) (min max : Int) (ps : List Page) : Prop :=
  ∃ front last back, ps = front ++ last :: back ∧
    (∀ p ∈ front, p.live = [] ∧ ¬ p.Ends c max ∧ (p.leftover c min max).length ≤ 1) ∧
    last.Ends c max ∧ (isForward last.hdr.switchCounter = true → last.own min max = []) ∧
    front.flatMap (fun p => p.leftover c min max) =
      (last :: back).flatMap fun p => p.own min max

/-- The leaves are read in turn up to the one that ends the walk; that one is read from left to
right or has no key of the interval, and the leaves behind it have none. -/
def InTurn (c : Nat) (min max : Int) : List Page → Prop
  | [] => True
  | p :: ps =>
      if p.Ends c max then
        (isForward p.hdr.switchCounter = true ∨ p.own min max = []) ∧
          ∀ q ∈ ps, q.own min max = []
      else (p.ReadsOwn c min max ∧ InTurn c min max ps) ∨ Redeemed c min max (p :: ps)

section Page

variable {p : Page} {s : Entry} {next : Option Entry} {c : Nat} {min max : Int}

/-- Without duplicates every record counts. -/
theorem firsts_of_nodup {es : List Entry} (live : ∀ e ∈ es, e.ptr ≠ 0)
    (nodup : (es.map Entry.ptr).Nodup) : firsts 0 es = es := by
  have general : ∀ prev, prev ∉ es.map Entry.ptr → firsts prev es = es := by
    clear live
    induction es with
    | nil => exact fun _ _ => rfl
    | cons e es ih =>
        intro prev notMem
        rw [List.map_cons, List.mem_cons, not_or] at notMem
        rw [List.map_cons, List.nodup_cons] at nodup
        rw [firsts, if_neg (Ne.symm notMem.1), ih nodup.2 _ nodup.1]
  refine general 0 fun mem => ?_
  obtain ⟨e, he, heq⟩ := List.mem_map.mp mem
  exact live e he heq

theorem scan_append {front : List Page} (goesOn : ∀ p ∈ front, ¬ p.Ends c max) (ps : List Page) :
    scan c min max (front ++ ps) =
      front.flatMap (fun p => p.shown c min max) ++ scan c min max ps := by
  induction front with
  | nil => rfl
  | cons p front ih =>
      obtain ⟨here, goesOn⟩ := List.forall_mem_cons.mp goesOn
      rw [List.cons_append, scan, if_neg here, ih goesOn, List.flatMap_cons, List.append_assoc]

/-- What a leaf shows are keys of its records. -/
theorem PageOk.mem_shown (ok : PageOk p 0 s next) (tr : Trailing p next) {k : Int}
    (mem : k ∈ p.shown c min max) : s.key ≤ k ∧ min < k ∧ k < max := by
  have hk : k ∈ within min max (firsts 0 (p.looked c)) := by
    rw [Page.shown] at mem
    split at mem
    · exact mem
    · split at mem
      · exact absurd mem List.not_mem_nil
      · exact List.mem_reverse.mp mem
  obtain ⟨e, he, rfl⟩ := List.mem_map.mp hk
  obtain ⟨he, interval⟩ := List.mem_filter.mp he
  rw [decide_eq_true_iff] at interval
  have mem : e ∈ p.records := (List.take_sublist _ _).mem ((firsts_sublist _ _).mem he)
  rw [(tr.values e mem).resolve_left interval.1]
  exact ⟨(ok.range e mem).1, interval.2⟩

theorem PageOk.mem_own (ok : PageOk p 0 s next) {k : Int} :
    k ∈ p.own min max ↔ (∃ e ∈ p.live, e.key = k) ∧ min < k ∧ k < max := by
  obtain ⟨z, rest, holds, -⟩ := ok.holds
  rw [Page.own, within, List.mem_map]
  constructor
  · rintro ⟨e, he, rfl⟩
    obtain ⟨he, interval⟩ := List.mem_filter.mp he
    rw [decide_eq_true_iff] at interval
    rw [(ok.leaf rfl).2 e he]
    exact ⟨⟨e, he, rfl⟩, interval.2⟩
  · rintro ⟨⟨e, he, rfl⟩, interval⟩
    refine ⟨e, List.mem_filter.mpr ⟨he, ?_⟩, (ok.leaf rfl).2 e he⟩
    exact decide_eq_true ⟨holds.live e he, interval⟩

/-- With distinct keys the live records all count. -/
theorem PageOk.firsts_live (ok : PageOk p 0 s next) (strict : p.live.Pairwise (·.key < ·.key))
    {es : List Entry} (sub : es.Sublist p.live) : firsts 0 es = es := by
  obtain ⟨z, rest, holds, -⟩ := ok.holds
  refine firsts_of_nodup (fun e he => holds.live e (sub.mem he)) (List.pairwise_map.mpr ?_)
  refine (strict.sublist sub).imp_of_mem fun {x y} hx hy hlt heq => ?_
  rw [(ok.leaf rfl).2 x (sub.mem hx), (ok.leaf rfl).2 y (sub.mem hy)] at heq
  exact hlt.ne heq

/-- A null `ptr` in front changes nothing. -/
theorem within_firsts_null {z : Entry} (stop : z.ptr = 0) (prev : Int) (es : List Entry) :
    within min max (firsts prev (z :: es)) = within min max (firsts 0 es) := by
  rw [firsts, stop]
  split
  · rfl
  · rw [within_cons, if_neg fun h => h.1 stop]

/-- A leaf that is read over its live records looks at them, or at one that is null. -/
theorem PageOk.within_live (ok : PageOk p 0 s next) :
    within min max (firsts 0 (p.records.take (Max.max p.live.length 1))) =
      within min max (firsts 0 p.live) := by
  obtain ⟨z, rest, holds, -⟩ := ok.holds
  cases hlive : p.live with
  | nil =>
      have look : p.records.take (Max.max ([] : List Entry).length 1) = [z] := by
        rw [holds.records, hlive]
        rfl
      rw [look, within_firsts_null holds.stop]
  | cons e es =>
      have look : p.records.take (Max.max (e :: es).length 1) = p.live := by
        rw [holds.records, hlive, Nat.max_eq_left (by simp), List.take_left]
      rw [look, hlive]

theorem PageOk.shown_of_forward (ok : PageOk p 0 s next)
    (forward : isForward p.hdr.switchCounter = true) :
    p.shown c min max = within min max (firsts 0 p.live) := by
  rw [Page.shown, if_pos forward, Page.looked_forward forward, ok.within_live]

theorem PageOk.shown_forward (ok : PageOk p 0 s next) (strict : p.live.Pairwise (·.key < ·.key))
    (forward : isForward p.hdr.switchCounter = true) : p.shown c min max = p.own min max := by
  rw [ok.shown_of_forward forward, ok.firsts_live strict (.refl _), Page.own]

theorem within_pairwise {es : List Entry} (ordered : Ordered Entry.key es)
    (values : ∀ e ∈ es, e.ptr = 0 ∨ e.ptr = e.key) : (within min max es).Pairwise (· ≤ ·) := by
  rw [within, List.pairwise_map]
  have value : ∀ e ∈ es.filter (fun e => e.ptr ≠ 0 ∧ min < e.key ∧ e.key < max), e.ptr = e.key :=
    fun e he => (values e (List.mem_of_mem_filter he)).resolve_left
      (of_decide_eq_true (List.mem_filter.mp he).2).1
  refine (ordered.filter _).imp_of_mem fun {x y} hx hy hle => ?_
  rw [value x hx, value y hy]
  exact hle

/-- What is left over is in the order of the keys. -/
theorem Trailing.leftover_pairwise (tr : Trailing p next) :
    (p.leftover c min max).Pairwise (· ≤ ·) := by
  rw [Page.leftover]
  split
  · exact .nil
  · have sub := (firsts_sublist 0 _).trans
      ((List.drop_sublist (p.live.length + 1) _).trans (List.take_sublist (Max.max c 1) p.records))
    exact within_pairwise (tr.ordered.sublist sub) fun e he => tr.values e (sub.mem he)

/-- From right to left a walk looks at the live records in reach and at what is left over. -/
theorem PageOk.within_looked (ok : PageOk p 0 s next)
    (backward : ¬ isForward p.hdr.switchCounter = true) :
    within min max (firsts 0 (p.looked c)) =
      within min max (firsts 0 (p.reached c)) ++ p.leftover c min max := by
  obtain ⟨z, rest, holds, -⟩ := ok.holds
  rw [Page.looked, if_neg backward, Page.reached, if_neg backward, Page.leftover, if_neg backward]
  generalize Max.max c 1 = n
  have split : p.records.take n = p.live.take n ++ (z :: rest).take (n - p.live.length) := by
    rw [holds.records, List.take_append]
  have behind :
      (p.records.take n).drop (p.live.length + 1) = rest.take (n - p.live.length - 1) := by
    rw [List.drop_take, holds.records, List.drop_append, List.drop_eq_nil_of_le (by omega)]
    simp
    omega
  rw [behind, split, firsts_append, within_append]
  congr 1
  cases n - p.live.length with
  | zero => rfl
  | succ m => rw [List.take_succ_cons, within_firsts_null holds.stop, Nat.add_sub_cancel]

/-- A leaf that is read from right to left shows what it is looked at, the other way round. -/
theorem PageOk.shown_turned (ok : PageOk p 0 s next)
    (backward : ¬ isForward p.hdr.switchCounter = true) (goesOn : ¬ p.Ends c max) :
    p.shown c min max =
      (within min max (firsts 0 (p.reached c)) ++ p.leftover c min max).reverse := by
  rw [Page.shown, if_neg backward, if_neg goesOn, ok.within_looked backward]

/-- Nothing is left over where the records in reach do not come to an end. -/
theorem Page.leftover_eq_nil (p : Page) (few : Max.max c 1 ≤ p.live.length) :
    p.leftover c min max = [] := by
  rw [Page.leftover]
  split
  · rfl
  · rw [List.drop_eq_nil_of_le ((List.length_take_le _ _).trans (few.trans (Nat.le_succ _)))]
    rfl

/-- An empty leaf shows what is left over. -/
theorem PageOk.shown_empty (ok : PageOk p 0 s next) (empty : p.live = [])
    (goesOn : ¬ p.Ends c max) : p.shown c min max = (p.leftover c min max).reverse := by
  by_cases forward : isForward p.hdr.switchCounter = true
  · have strict : p.live.Pairwise (·.key < ·.key) := empty ▸ .nil
    rw [ok.shown_forward strict forward, Page.own, empty, Page.leftover, if_pos forward]
    rfl
  · have none : p.reached c = [] := by rw [Page.reached, if_neg forward, empty, List.take_nil]
    rw [ok.shown_turned forward goesOn, none]
    rfl

/-- The first leaf of a scan, read backward, shows its keys in reverse. -/
theorem PageOk.shown_reverse (ok : PageOk p 0 s next) (strict : p.live.Pairwise (·.key < ·.key))
    (backward : ¬ isForward p.hdr.switchCounter = true) (count : c = p.live.length)
    (goesOn : ¬ p.Ends c max) : p.shown c min max = (p.own min max).reverse := by
  rw [Page.shown, if_neg backward, if_neg goesOn, Page.looked, if_neg backward, count,
    ok.within_live, ok.firsts_live strict (.refl _), Page.own]

/-- Both ways in order: a list that ascends, of which the reverse strictly ascends. -/
theorem length_le_one_of_reverse {l : List Int} (weak : l.Pairwise (· ≤ ·))
    (strict : l.reverse.Pairwise (· < ·)) : l.length ≤ 1 := by
  rw [List.pairwise_reverse] at strict
  cases l with
  | nil => exact Nat.zero_le 1
  | cons a l =>
      cases l with
      | nil => exact le_rfl
      | cons b l =>
          have le := (List.pairwise_cons.mp weak).1 b List.mem_cons_self
          have lt := (List.pairwise_cons.mp strict).1 b List.mem_cons_self
          exact absurd le (not_le.mpr lt)

theorem reverse_of_length_le_one {l : List Int} (few : l.length ≤ 1) : l.reverse = l := by
  cases l with
  | nil => rfl
  | cons a l =>
      obtain rfl : l = [] := List.length_eq_zero_iff.mp (by simpa using few)
      rfl

theorem PageOk.own_pairwise (ok : PageOk p 0 s next) (strict : p.live.Pairwise (·.key < ·.key)) :
    (p.own min max).Pairwise (· < ·) := by
  rw [Page.own, within, List.pairwise_map]
  refine (strict.filter _).imp_of_mem fun {x y} hx hy hlt => ?_
  rw [(ok.leaf rfl).2 x (List.mem_of_mem_filter hx), (ok.leaf rfl).2 y (List.mem_of_mem_filter hy)]
  exact hlt

theorem Page.reached_sublist (p : Page) (c : Nat) : (p.reached c).Sublist p.live := by
  rw [Page.reached]
  split
  · exact .refl _
  · exact List.take_sublist _ _

/-- What a leaf in front of the end of the walk shows are its own keys exactly if it is read as
`ReadsOwn` says. -/
theorem PageOk.shown_eq_own_iff (ok : PageOk p 0 s next) (tr : Trailing p next)
    (strict : p.live.Pairwise (·.key < ·.key)) (goesOn : ¬ p.Ends c max) :
    p.shown c min max = p.own min max ↔ p.ReadsOwn c min max := by
  by_cases forward : isForward p.hdr.switchCounter = true
  · exact iff_of_true (ok.shown_forward strict forward) (Or.inl forward)
  rw [ok.shown_turned forward goesOn, ok.firsts_live strict (p.reached_sublist c)]
  constructor
  · intro same
    refine Or.inr ?_
    -- Both lists ascend, and one is the other from right to left.
    have few : (within min max (p.reached c) ++ p.leftover c min max).length ≤ 1 := by
      refine length_le_one_of_reverse ?_ (same ▸ ok.own_pairwise strict)
      rw [← ok.firsts_live strict (p.reached_sublist c), ← ok.within_looked forward]
      have sub := (firsts_sublist 0 (p.looked c)).trans (List.take_sublist _ p.records)
      exact within_pairwise (tr.ordered.sublist sub) fun e he => tr.values e (sub.mem he)
    rw [reverse_of_length_le_one few] at same
    have none : p.leftover c min max = [] := by
      by_contra some
      have reach : within min max (p.reached c) = [] := by
        have := List.length_pos_iff.mpr some
        rw [List.length_append] at few
        exact List.length_eq_zero_iff.mp (by omega)
      rcases Nat.lt_or_ge (Max.max c 1) p.live.length with beyond | all
      · exact some (p.leftover_eq_nil beyond.le)
      · rw [Page.reached, if_neg forward, List.take_of_length_le all] at reach
        rw [Page.own, reach, Page.reached, if_neg forward, List.take_of_length_le all, reach]
          at same
        exact some same
    rw [none, List.append_nil] at same few
    exact ⟨same ▸ few, same.symm, none⟩
  · rintro (h | ⟨few, reach, none⟩)
    · exact absurd h forward
    · rw [none, List.append_nil, ← reach, reverse_of_length_le_one few]

/-- A leaf that ends the walk shows its own keys if it is read forward, else none. -/
theorem PageOk.shown_of_ends_iff (ok : PageOk p 0 s next)
    (strict : p.live.Pairwise (·.key < ·.key)) (ends : p.Ends c max) :
    p.shown c min max = p.own min max ↔
      isForward p.hdr.switchCounter = true ∨ p.own min max = [] := by
  by_cases forward : isForward p.hdr.switchCounter = true
  · exact iff_of_true (ok.shown_forward strict forward) (Or.inl forward)
  · have none : p.shown c min max = [] := by rw [Page.shown, if_neg forward, if_pos ends]
    rw [none, or_iff_right forward]
    exact eq_comm

/-- A leaf whose first record is in the interval shows it last when it is read backward. -/
theorem PageOk.shown_last (ok : PageOk p 0 s next) {e : Entry} {es : List Entry}
    (hlive : p.live = e :: es) (backward : ¬ isForward p.hdr.switchCounter = true)
    (least : min < e.key) (goesOn : ¬ p.Ends c max) :
    (∃ others, p.shown c min max = others ++ [e.key]) ∧
      p.own min max = e.key :: within min max es := by
  obtain ⟨z, rest, holds, -⟩ := ok.holds
  have hrecords := holds.records
  rw [hlive, List.cons_append] at hrecords
  have looked := Page.looked_backward backward c hrecords
  have most : e.key < max := by
    by_contra hge
    exact goesOn ⟨e, looked ▸ List.mem_cons_self, not_lt.mp hge⟩
  have he : e ∈ p.live := hlive ▸ List.mem_cons_self
  have value : e.ptr = e.key := (ok.leaf rfl).2 e he
  constructor
  · rw [Page.shown, if_neg backward, if_neg goesOn, looked, firsts, if_neg (holds.live e he),
      within_cons, if_pos ⟨holds.live e he, least, most⟩, List.reverse_cons, value]
    exact ⟨_, rfl⟩
  · rw [Page.own, hlive, within_cons, if_pos ⟨holds.live e he, least, most⟩, value]

/-- A leaf that does not end the scan shows its first key in the interval. -/
theorem PageOk.first_shown (ok : PageOk p 0 s next) (strict : p.live.Pairwise (·.key < ·.key))
    {e : Entry} {es : List Entry} (hlive : p.live = e :: es) (least : min < e.key)
    (goesOn : ¬ p.Ends c max) :
    e.key ∈ p.shown c min max ∧ p.own min max = e.key :: within min max es := by
  by_cases forward : isForward p.hdr.switchCounter = true
  · obtain ⟨z, rest, holds, -⟩ := ok.holds
    have he : e ∈ p.live := hlive ▸ List.mem_cons_self
    have most : e.key < max := by
      by_contra hge
      refine goesOn ⟨e, ?_, not_lt.mp hge⟩
      rw [Page.looked_forward forward, holds.records, hlive, Nat.max_eq_left (by simp),
        List.take_left]
      exact List.mem_cons_self
    have own : p.own min max = e.key :: within min max es := by
      rw [Page.own, hlive, within_cons, if_pos ⟨holds.live e he, least, most⟩,
        (ok.leaf rfl).2 e he]
    rw [ok.shown_forward strict forward, own]
    exact ⟨List.mem_cons_self, rfl⟩
  · obtain ⟨⟨others, shown⟩, own⟩ := ok.shown_last hlive forward least goesOn
    exact ⟨shown ▸ by simp, own⟩

/-- A leaf that ends the scan shows its keys, or nothing. -/
theorem PageOk.shown_of_ends (ok : PageOk p 0 s next) (strict : p.live.Pairwise (·.key < ·.key))
    (ends : p.Ends c max) : p.shown c min max = p.own min max ∨ p.shown c min max = [] := by
  by_cases forward : isForward p.hdr.switchCounter = true
  · exact Or.inl (ok.shown_forward strict forward)
  · exact Or.inr (by rw [Page.shown, if_neg forward, if_pos ends])

end Page

namespace BTree

/-- The keys of the leaves ascend. -/
def Strict (t : BTree) : List Entry → Prop
  | [] => True
  | s :: row =>
      ((t.page s.ptr).live.Pairwise (·.key < ·.key) ∧
        ∀ e ∈ (t.page s.ptr).live, ∀ x ∈ row, e.key < x.key) ∧ Strict t row

section Scan

variable {t : BTree} {n c : Nat} {row before after : List Entry} {s : Entry} {min max : Int}

theorem strict_append {row' : List Entry} (h : t.Strict (row ++ row')) : t.Strict row' := by
  induction row with
  | nil => exact h
  | cons s row ih => exact ih h.2

theorem Single.strict (single : t.Single row) (h : t.Row 0 row none) : t.Strict row := by
  have all : ∀ before after, row = before ++ after → t.Strict after := by
    intro before after hrow
    induction after generalizing before with
    | nil => trivial
    | cons s after ih =>
        obtain ⟨-, ⟨ok, -⟩, -⟩ := row_split.mp (hrow ▸ h)
        have mem : s ∈ row := hrow ▸ by simp
        refine ⟨⟨?_, fun e he x hx => ?_⟩, ih (before ++ [s]) (by rw [hrow]; simp)⟩
        · have nodup := single.nodup_live h mem
          exact (ok.ordered.and (List.pairwise_map.mp nodup)).imp fun h => lt_of_le_of_ne h.1 h.2
        · have has : t.Has s e.key := ⟨e, he, rfl⟩
          have held := single.held e (by
            rw [h.contents_leaf]
            exact List.mem_flatMap.mpr ⟨s, mem, he⟩)
          rw [hrow, held_append, Held] at held
          rcases held with ⟨held, -⟩ | ⟨-, lt⟩ | held
          · obtain ⟨y, hy, has'⟩ := held.exists
            exact absurd has' (single.not_before h hrow has y hy)
          · exact lt x hx
          · obtain ⟨y, hy, has'⟩ := held.exists
            have eq := single.leaf_unique h mem (hrow ▸ by simp [hy]) has has'
            obtain ⟨mid, back, rfl⟩ := List.append_of_mem hy
            have hrow' : row = (before ++ s :: mid) ++ y :: back := by rw [hrow]; simp
            exact absurd has (single.not_before h hrow' has' s (by simp))
  exact all [] row rfl

/-- The pages of a row. -/
def pages (t : BTree) (row : List Entry) : List Page := row.map fun s => t.page s.ptr

/-- The keys of the interval in the leaves of a row. -/
def ownKeys (t : BTree) (min max : Int) (row : List Entry) : List Int :=
  (t.pages row).flatMap fun p => p.own min max

theorem ownKeys_cons (s : Entry) (row : List Entry) :
    t.ownKeys min max (s :: row) = (t.page s.ptr).own min max ++ t.ownKeys min max row := rfl

theorem Row.mem_ownKeys {next : Option Entry} (h : t.Row 0 row next) {k : Int} :
    k ∈ t.ownKeys min max row ↔ (∃ x ∈ row, t.Has x k) ∧ min < k ∧ k < max := by
  rw [ownKeys, pages, List.flatMap_map, List.mem_flatMap]
  constructor
  · rintro ⟨x, hx, mem⟩
    obtain ⟨_, ok, -⟩ := h.pageOk hx
    obtain ⟨has, interval⟩ := ok.mem_own.mp mem
    exact ⟨⟨x, hx, has⟩, interval⟩
  · rintro ⟨⟨x, hx, has⟩, interval⟩
    obtain ⟨_, ok, -⟩ := h.pageOk hx
    exact ⟨x, hx, ok.mem_own.mpr ⟨has, interval⟩⟩

theorem Row.ownKeys_pairwise {next : Option Entry} (h : t.Row 0 row next) (strict : t.Strict row) :
    (t.ownKeys min max row).Pairwise (· < ·) := by
  induction row with
  | nil => exact .nil
  | cons s row ih =>
      obtain ⟨ok, -, rest⟩ := h
      obtain ⟨⟨ascending, below⟩, strict⟩ := strict
      rw [ownKeys_cons]
      refine List.pairwise_append.mpr ⟨?_, ih rest strict, fun k hk k' hk' => ?_⟩
      · rw [Page.own, within, List.pairwise_map]
        refine (ascending.filter _).imp_of_mem fun {x y} hx hy hlt => ?_
        rw [(ok.leaf rfl).2 x (List.mem_of_mem_filter hx),
          (ok.leaf rfl).2 y (List.mem_of_mem_filter hy)]
        exact hlt
      · obtain ⟨⟨e, he, rfl⟩, -⟩ := ok.mem_own.mp hk
        obtain ⟨⟨x, hx, e', he', rfl⟩, -⟩ := rest.mem_ownKeys.mp hk'
        obtain ⟨_, ok', -⟩ := rest.pageOk hx
        exact (below e he x hx).trans_le (ok'.range e' (ok'.mem_records he')).1

/-- What leaves show lies behind the first of their slots. -/
theorem Row.mem_scan {next : Option Entry} (h : t.Row 0 row next) (tr : t.Trails row next)
    {k : Int} (mem : k ∈ scan c min max (t.pages row)) : ∃ x ∈ row, x.key ≤ k := by
  induction row with
  | nil => exact absurd mem List.not_mem_nil
  | cons s row ih =>
      obtain ⟨ok, -, rest⟩ := h
      obtain ⟨here, behind⟩ := tr
      have shown : k ∈ (t.page s.ptr).shown c min max → ∃ x ∈ s :: row, x.key ≤ k := fun mem =>
        ⟨s, List.mem_cons_self, (ok.mem_shown here mem).1⟩
      rw [pages, List.map_cons, scan] at mem
      split at mem
      · exact shown mem
      · rcases List.mem_append.mp mem with mem | mem
        · exact shown mem
        · obtain ⟨x, hx, hle⟩ := ih rest behind mem
          exact ⟨x, List.mem_cons_of_mem _ hx, hle⟩

/-- Leaves that do not show the first of their keys: empty ones, until one of them ends the
scan. -/
theorem Row.scan_short {next : Option Entry} (h : t.Row 0 row next) (tr : t.Trails row next)
    (strict : t.Strict row) (least : ∀ x ∈ row, min < x.key) {missed : List Int}
    (nonempty : missed ≠ [])
    (short : t.ownKeys min max row = missed ++ scan c min max (t.pages row)) :
    ∃ front last back, t.pages row = front ++ last :: back ∧
      (∀ p ∈ front, p.live = [] ∧ ¬ p.Ends c max) ∧ last.Ends c max ∧
      last.shown c min max = [] ∧
      front.flatMap (fun p => p.shown c min max) = scan c min max (t.pages row) := by
  induction row generalizing missed with
  | nil =>
      have none : missed = [] := (List.append_eq_nil_iff.mp short.symm).1
      exact absurd none nonempty
  | cons s row ih =>
      have ascending : (t.ownKeys min max (s :: row)).Pairwise (· < ·) := h.ownKeys_pairwise strict
      rw [short] at ascending
      obtain ⟨-, -, apart⟩ := List.pairwise_append.mp ascending
      obtain ⟨ok, -, rest⟩ := h
      obtain ⟨here, behind⟩ := tr
      obtain ⟨⟨strictHere, below⟩, strict⟩ := strict
      obtain ⟨leastHere, least⟩ := List.forall_mem_cons.mp least
      obtain ⟨g, missed, rfl⟩ := List.exists_cons_of_ne_nil nonempty
      have first : ∀ {k l}, (t.page s.ptr).own min max = k :: l → k = g := fun {k l} hk => by
        rw [ownKeys_cons, hk] at short
        exact (List.cons.inj short).1
      rw [pages, List.map_cons, ← pages, scan] at short apart ⊢
      by_cases ends : (t.page s.ptr).Ends c max
      · rw [if_pos ends] at short apart ⊢
        have none : (t.page s.ptr).shown c min max = [] := by
          rcases ok.shown_of_ends strictHere ends with hshown | hshown
          · cases hown : (t.page s.ptr).own min max with
            | nil => rw [hshown, hown]
            | cons k l =>
                have lt := apart g List.mem_cons_self k (by rw [hshown, hown]; simp)
                exact absurd lt (first hown ▸ lt_irrefl _)
          · exact hshown
        exact ⟨[], _, _, rfl, by simp, ends, none, none.symm⟩
      · rw [if_neg ends] at short apart ⊢
        have empty : (t.page s.ptr).live = [] := by
          cases hlive : (t.page s.ptr).live with
          | nil => rfl
          | cons e es =>
              have he : e ∈ (t.page s.ptr).live := hlive ▸ List.mem_cons_self
              have least' := leastHere.trans_le (ok.range e (ok.mem_records he)).1
              obtain ⟨shown, own⟩ := ok.first_shown strictHere hlive least' ends
              have lt := apart g List.mem_cons_self e.key (List.mem_append_left _ shown)
              exact absurd lt (first own ▸ lt_irrefl _)
        have own : (t.page s.ptr).own min max = [] := by
          rw [Page.own, empty]
          rfl
        rw [ownKeys_cons, own, List.nil_append, ← List.append_assoc] at short
        obtain ⟨front, last, back, hps, hfront, hends, hshown, heq⟩ :=
          ih rest behind strict least (by simp) short
        refine ⟨_ :: front, last, back, by rw [hps, List.cons_append],
          List.forall_mem_cons.mpr ⟨⟨empty, ends⟩, hfront⟩, hends, hshown, ?_⟩
        rw [List.flatMap_cons, heq]

theorem Row.leaf_of_mem {next : Option Entry} (h : t.Row 0 row next) (tr : t.Trails row next)
    (strict : t.Strict row) {p : Page} (mem : p ∈ t.pages row) :
    ∃ s next, PageOk p 0 s next ∧ Trailing p next ∧ p.live.Pairwise (·.key < ·.key) := by
  induction row with
  | nil => exact absurd mem List.not_mem_nil
  | cons s row ih =>
      rcases List.mem_cons.mp mem with rfl | mem
      · exact ⟨s, _, h.1, tr.1, strict.1.1⟩
      · exact ih h.2.2 tr.2 strict.2 mem

theorem flatMap_own_eq_nil {ps : List Page} (empty : ∀ p ∈ ps, p.live = []) :
    ps.flatMap (fun p => p.own min max) = [] :=
  List.flatMap_eq_nil_iff.mpr fun p mem => by
    rw [Page.own, empty p mem]
    rfl

/-- Empty leaves that show all there is, in front of the end of the walk. -/
theorem Row.redeemed {next : Option Entry} (h : t.Row 0 row next) (tr : t.Trails row next)
    (strict : t.Strict row) {front back : List Page} {last : Page}
    (hps : t.pages row = front ++ last :: back)
    (empty : ∀ p ∈ front, p.live = [] ∧ ¬ p.Ends c max) (ends : last.Ends c max)
    (hlast : last.shown c min max = [])
    (heq : front.flatMap (fun p => p.shown c min max) = t.ownKeys min max row) :
    Redeemed c min max (t.pages row) := by
  have ascending : (t.ownKeys min max row).Pairwise (· < ·) := h.ownKeys_pairwise strict
  rw [← heq] at ascending
  have few : ∀ p ∈ front, (p.leftover c min max).length ≤ 1 ∧
      p.shown c min max = p.leftover c min max := by
    intro p mem
    obtain ⟨s, n, ok, here, -⟩ := h.leaf_of_mem tr strict (hps ▸ List.mem_append_left _ mem)
    have shown : p.shown c min max = (p.leftover c min max).reverse :=
      ok.shown_empty (empty p mem).1 (empty p mem).2
    have sub : (p.shown c min max).Sublist (front.flatMap fun p => p.shown c min max) := by
      rw [List.flatMap_def]
      exact List.sublist_flatten_of_mem (List.mem_map_of_mem mem)
    have few := length_le_one_of_reverse here.leftover_pairwise (shown ▸ ascending.sublist sub)
    exact ⟨few, shown.trans (reverse_of_length_le_one few)⟩
  have none : front.flatMap (fun p => p.own min max) = [] :=
    flatMap_own_eq_nil fun p mem => (empty p mem).1
  obtain ⟨s, n, ok, -, strictLast⟩ := h.leaf_of_mem tr strict (hps ▸ by simp : last ∈ t.pages row)
  refine ⟨front, last, back, hps, fun p mem => ⟨(empty p mem).1, (empty p mem).2, (few p mem).1⟩,
    ends, fun forward => ?_, ?_⟩
  · rw [← ok.shown_forward strictLast forward, hlast]
  · rw [← List.flatMap_congr fun p mem => (few p mem).2, heq, ownKeys, hps, List.flatMap_append,
      none, List.nil_append]

theorem Row.scan_redeemed {next : Option Entry} (h : t.Row 0 row next) (tr : t.Trails row next)
    (strict : t.Strict row) (redeemed : Redeemed c min max (t.pages row)) :
    scan c min max (t.pages row) = t.ownKeys min max row := by
  obtain ⟨front, last, back, hps, empty, ends, hlast, heq⟩ := redeemed
  have shown : ∀ p ∈ front, p.shown c min max = p.leftover c min max := by
    intro p mem
    obtain ⟨hlive, goesOn, few⟩ := empty p mem
    obtain ⟨s, n, ok, -⟩ := h.leaf_of_mem tr strict (hps ▸ List.mem_append_left _ mem)
    exact (ok.shown_empty hlive goesOn).trans (reverse_of_length_le_one few)
  have none : front.flatMap (fun p => p.own min max) = [] :=
    flatMap_own_eq_nil fun p mem => (empty p mem).1
  obtain ⟨s, n, ok, -, strictLast⟩ := h.leaf_of_mem tr strict (hps ▸ by simp : last ∈ t.pages row)
  have nothing : last.shown c min max = [] := by
    by_cases forward : isForward last.hdr.switchCounter = true
    · rw [ok.shown_forward strictLast forward, hlast forward]
    · rw [Page.shown, if_neg forward, if_pos ends]
  rw [ownKeys, hps, scan_append fun p mem => (empty p mem).2.1, scan, if_pos ends, nothing,
    List.append_nil, List.flatMap_congr shown, heq, List.flatMap_append, none, List.nil_append]

theorem forall_own_eq_nil : (∀ q ∈ t.pages row, q.own min max = []) ↔ t.ownKeys min max row = [] := by
  rw [ownKeys, List.flatMap_eq_nil_iff]

/-- A leaf that is read from right to left shows its first key last, so in an exact scan there
is nothing before it. -/
theorem Row.shown_of_backward {next n : Option Entry} (rest : t.Row 0 row next)
    (ok : PageOk (t.page s.ptr) 0 s n) (tr : t.Trails row next)
    (below : ∀ e ∈ (t.page s.ptr).live, ∀ x ∈ row, e.key < x.key) {e : Entry} {es : List Entry}
    (hlive : (t.page s.ptr).live = e :: es)
    (backward : ¬ isForward (t.page s.ptr).hdr.switchCounter = true) (first : min < s.key)
    (ends : ¬ (t.page s.ptr).Ends c max)
    (heq : (t.page s.ptr).shown c min max ++ scan c min max (t.pages row) =
      (t.page s.ptr).own min max ++ t.ownKeys min max row)
    (ascending : ((t.page s.ptr).shown c min max ++ scan c min max (t.pages row)).Pairwise (· < ·)) :
    (t.page s.ptr).shown c min max = (t.page s.ptr).own min max := by
  have he : e ∈ (t.page s.ptr).live := hlive ▸ List.mem_cons_self
  have least := first.trans_le (ok.range e (ok.mem_records he)).1
  obtain ⟨⟨others, hshown⟩, hown⟩ := ok.shown_last hlive backward least ends
  cases others with
  | cons v others =>
      rw [hshown, List.cons_append, List.cons_append] at heq ascending
      rw [hown, List.cons_append] at heq
      obtain rfl := (List.cons.inj heq).1
      have lt := (List.pairwise_cons.mp ascending).1 e.key (by simp)
      exact absurd lt (lt_irrefl _)
  | nil =>
      rw [List.nil_append] at hshown
      rw [hshown, hown, List.cons_append] at heq
      have heq : scan c min max (t.pages row) =
          within min max es ++ t.ownKeys min max row := (List.cons.inj heq).2
      have none : within min max es = [] := by
        rw [List.eq_nil_iff_forall_not_mem]
        intro k mem
        obtain ⟨x, hx, hle⟩ := rest.mem_scan tr (heq ▸ List.mem_append_left _ mem)
        have mem' : k ∈ (t.page s.ptr).own min max := hown ▸ List.mem_cons_of_mem _ mem
        obtain ⟨⟨e', he', rfl⟩, -⟩ := ok.mem_own.mp mem'
        exact absurd hle (not_le.mpr (below e' he' x hx))
      rw [hshown, hown, none]

/-- A leaf in front of leaves: that of `min`, or one that is read up to its last record. -/
theorem Row.scan_cons_iff {next : Option Entry} (h : t.Row 0 (s :: row) next)
    (tr : t.Trails (s :: row) next) (strict : t.Strict (s :: row))
    (first : min < s.key ∨ c = (t.page s.ptr).live.length) (least : ∀ x ∈ row, min < x.key)
    (behind : scan c min max (t.pages row) = t.ownKeys min max row ↔
      InTurn c min max (t.pages row)) :
    scan c min max (t.pages (s :: row)) = t.ownKeys min max (s :: row) ↔
      InTurn c min max (t.pages (s :: row)) := by
  have ascending : (t.ownKeys min max (s :: row)).Pairwise (· < ·) := h.ownKeys_pairwise strict
  have whole := h
  have trWhole := tr
  have strictWhole := strict
  obtain ⟨ok, -, rest⟩ := h
  obtain ⟨here, trRest⟩ := tr
  obtain ⟨⟨strictHere, below⟩, strictRest⟩ := strict
  by_cases ends : (t.page s.ptr).Ends c max
  · rw [pages, List.map_cons, ← pages, scan, InTurn, if_pos ends, if_pos ends,
      forall_own_eq_nil, ownKeys_cons, ← ok.shown_of_ends_iff strictHere ends]
    constructor
    · intro heq
      rcases ok.shown_of_ends strictHere ends with hshown | hshown
      · rw [hshown] at heq ⊢
        exact ⟨rfl, List.self_eq_append_right.mp heq⟩
      · rw [hshown] at heq ⊢
        obtain ⟨hown, hbehind⟩ := List.append_eq_nil_iff.mp heq.symm
        exact ⟨hown.symm, hbehind⟩
    · rintro ⟨hshown, hbehind⟩
      rw [hshown, hbehind, List.append_nil]
  · have own_iff : (t.page s.ptr).shown c min max = (t.page s.ptr).own min max ↔
        (t.page s.ptr).ReadsOwn c min max := ok.shown_eq_own_iff here strictHere ends
    constructor
    · intro heq
      rw [heq.symm] at ascending
      rw [pages, List.map_cons, ← pages, scan, if_neg ends] at heq ascending
      rw [ownKeys_cons] at heq
      rw [pages, List.map_cons, ← pages, InTurn, if_neg ends]
      have turn : (t.page s.ptr).shown c min max = (t.page s.ptr).own min max →
          (t.page s.ptr).ReadsOwn c min max ∧ InTurn c min max (t.pages row) := fun hshown => by
        rw [hshown] at heq
        exact ⟨own_iff.mp hshown, behind.mp (List.append_cancel_left heq)⟩
      by_cases forward : isForward (t.page s.ptr).hdr.switchCounter = true
      · exact Or.inl (turn (ok.shown_forward strictHere forward))
      rcases first with first | first
      · cases hlive : (t.page s.ptr).live with
        | nil =>
            have own : (t.page s.ptr).own min max = [] := by
              rw [Page.own, hlive]
              rfl
            by_cases hshown : (t.page s.ptr).shown c min max = []
            · exact Or.inl (turn (hshown.trans own.symm))
            · rw [own, List.nil_append] at heq
              obtain ⟨front, last, back, hps, hfront, hends, hlast, hfm⟩ :=
                rest.scan_short trRest strictRest least hshown heq.symm
              have split : t.pages (s :: row) = (t.page s.ptr :: front) ++ last :: back := by
                rw [pages, List.map_cons, ← pages, hps]
                rfl
              refine Or.inr (whole.redeemed trWhole strictWhole split
                (List.forall_mem_cons.mpr ⟨⟨hlive, ends⟩, hfront⟩) hends hlast ?_)
              rw [List.flatMap_cons, hfm, ownKeys_cons, own, List.nil_append]
              exact heq
        | cons e es =>
            exact Or.inl (turn (rest.shown_of_backward ok trRest below hlive forward first ends heq
              ascending))
      · have hshown : _ = ((t.page s.ptr).own min max).reverse :=
          ok.shown_reverse strictHere forward first ends
        rw [hshown] at heq
        have same := (List.append_inj heq (by rw [List.length_reverse])).1
        exact Or.inl (turn (hshown.trans same))
    · intro inTurn
      rw [pages, List.map_cons, ← pages, InTurn, if_neg ends] at inTurn
      rcases inTurn with ⟨reads, inTurn⟩ | redeemed
      · rw [pages, List.map_cons, ← pages, scan, if_neg ends, own_iff.mpr reads,
          behind.mpr inTurn]
        rfl
      · exact whole.scan_redeemed trWhole strictWhole redeemed

theorem Row.scan_iff {next : Option Entry} (h : t.Row 0 row next) (tr : t.Trails row next)
    (strict : t.Strict row) (least : ∀ x ∈ row, min < x.key) :
    scan c min max (t.pages row) = t.ownKeys min max row ↔ InTurn c min max (t.pages row) := by
  induction row with
  | nil => exact iff_of_true rfl trivial
  | cons s row ih =>
      obtain ⟨leastHere, least'⟩ := List.forall_mem_cons.mp least
      exact h.scan_cons_iff tr strict (Or.inl leastHere) least' (ih h.2.2 tr.2 strict.2 least')

end Scan

/-! ## Reachable trees -/

/-- The buffer lists the keys of the interval in ascending order. -/
def Lists (t : BTree) (min max : Int) (buf : List Int) : Prop :=
  buf.Pairwise (· < ·) ∧ ∀ k, k ∈ buf ↔ k ∈ t.leafKeys ∧ min < k ∧ k < max

/-- An insertion is of a key that is not in the tree, a deletion of one that is. -/
def KeyCall (t : BTree) (op : TreeOp) : Prop :=
  TreeKey op.key ∧ (op.key ∈ t.leafKeys ↔ op = .delete op.key)

instance (t : BTree) (op : TreeOp) : Decidable (t.KeyCall op) :=
  inferInstanceAs (Decidable (TreeKey op.key ∧ (op.key ∈ t.leafKeys ↔ op = .delete op.key)))

section Reachable

variable {alloc : Allocator} {t : BTree} {n : Nat} {row before after : List Entry} {s : Entry}
  {min max : Int} {ops : List TreeOp}

theorem Rows.mem_leafKeys (h : t.Rows n 0 row) {k : Int} :
    k ∈ t.leafKeys ↔ ∃ x ∈ row, t.Has x k := by
  rw [h.wellFormed.2, List.mem_map]
  exact h.isRow.exists_iff

theorem Rows.lists_iff (h : t.Rows n 0 row) (strict : t.Strict row)
    (home : Cut Entry.key min row (before ++ [s]) after) {buf : List Int} :
    t.Lists min max buf ↔ buf = t.ownKeys min max (s :: after) := by
  obtain ⟨hbefore, ⟨ok, alloc⟩, hafter⟩ := row_split.mp (home.split ▸ h.isRow)
  have behind : t.Row 0 (s :: after) none := ⟨by rwa [Option.or_none], alloc, hafter⟩
  have strict' : t.Strict (s :: after) := strict_append (home.split ▸ strict)
  have members : ∀ k, k ∈ t.ownKeys min max (s :: after) ↔
      k ∈ t.leafKeys ∧ min < k ∧ k < max := by
    intro k
    rw [behind.mem_ownKeys, h.mem_leafKeys, home.split]
    refine and_congr_left fun interval => ?_
    constructor
    · rintro ⟨x, hx, has⟩
      exact ⟨x, List.mem_append_right _ hx, has⟩
    · rintro ⟨x, hx, e, he, rfl⟩
      rcases List.mem_append.mp hx with hx | hx
      · obtain ⟨_, okx, -⟩ := hbefore.pageOk hx
        have entry : e ∈ (t.page x.ptr).entries x.key := by
          rw [Page.entries, if_pos (okx.leaf rfl).1]
          exact he
        have hle := ((hbefore.le_next rfl hx).2 e entry).trans home.last_le
        exact absurd interval.1 (not_lt.mpr hle)
      · exact ⟨x, hx, e, he, rfl⟩
  have ascending : (t.ownKeys min max (s :: after)).Pairwise (· < ·) :=
    behind.ownKeys_pairwise strict'
  constructor
  · rintro ⟨sorted, mem⟩
    exact sorted.eq_of_mem_iff ascending fun k => (mem k).trans (members k).symm
  · rintro rfl
    exact ⟨ascending, members⟩

/-- A range scan is exact exactly if the leaves, from that of `min` on, show their keys in
turn.  The tree is one of insertions of keys that are not there and of deletions of keys that
are, none of them 0. -/
theorem search_range_iff (run : Run (empty alloc) KeyCall ops t) (least : longMin ≤ min)
    (lt : min < max) :
    ∃ buf leaf front back, Returns (t.btreeSearchRange min max) buf ∧
      Returns (fun fuel => t.descend aboveLeaves min fuel t.root) leaf ∧
      t.level t.depth = front ++ leaf :: back ∧
      (t.Lists min max buf ↔
        InTurn (t.page leaf).live.length min max ((leaf :: back).map t.page)) := by
  obtain ⟨n, row, rows, tr, single⟩ := run.trails fun _ _ call => call.1
  have single := single fun t op call hop mem => by
    have hdelete := call.2.mp mem
    rw [hop] at hdelete
    cases hdelete
  have strict := single.strict rows.isRow
  obtain ⟨before, s, after, home⟩ := rows.upward.home least
  have leaves : t.level t.depth = row.map Entry.ptr := by
    have depth : t.depth = n := rows.root.trans (Nat.zero_add n)
    rw [depth, rows.upward.level_eq]
  refine ⟨_, s.ptr, before.map Entry.ptr, after.map Entry.ptr,
    rows.btreeSearchRange tr least lt home, rows.descends least home, ?_, ?_⟩
  · rw [leaves, home.split, List.map_append, List.map_cons]
  · obtain ⟨-, ⟨ok, alloc⟩, hafter⟩ := row_split.mp (home.split ▸ rows.isRow)
    obtain ⟨-, here, behind⟩ := trails_split.mp (home.split ▸ tr)
    have strict' : t.Strict (s :: after) := strict_append (home.split ▸ strict)
    have inTurn : (s.ptr :: after.map Entry.ptr).map t.page = t.pages (s :: after) := by
      rw [pages, ← List.map_cons (f := Entry.ptr), List.map_map]
      rfl
    rw [rows.lists_iff strict home, inTurn]
    exact Row.scan_cons_iff ⟨by rwa [Option.or_none], alloc, hafter⟩
      ⟨by rwa [Option.or_none], behind⟩ strict' (Or.inr rfl) home.lt
      (hafter.scan_iff behind strict'.2 home.lt)

/-- The first of a list, split off where it stands. -/
theorem split_first {α : Type} {a : α} {rest front back : List α} (fresh : a ∉ rest)
    (split : a :: rest = front ++ a :: back) : front = [] ∧ back = rest := by
  cases front with
  | nil => exact ⟨rfl, (List.cons.inj split).2.symm⟩
  | cons x front =>
      have behind : rest = front ++ a :: back := (List.cons.inj split).2
      exact absurd (behind ▸ List.mem_append_right front List.mem_cons_self) fresh

/-- Insertions that split the only leaf, and deletions that leave one key in the first half. -/
def turnsFirst : List TreeOp :=
  (List.range 28).map (fun i => .insert (i + 1)) ++ (List.range 12).map fun i => .delete (i + 2)

/-- A leaf that is read backward, with one key, and the leaf behind it, which is read forward and
ends the scan. -/
theorem search_range_two :
    ∃ t, Run (empty (.bump 100)) KeyCall turnsFirst t ∧
      Returns (t.btreeSearchRange 0 17) [1, 14, 15, 16] ∧ t.Lists 0 17 [1, 14, 15, 16] := by
  have checked : (calls (fun t op => decide (t.KeyCall op)) 6 turnsFirst (empty (.bump 100))).any
      (fun t => decide (t.descend aboveLeaves 0 6 t.root = some 101 ∧
        t.level t.depth = [101, 102] ∧ t.btreeSearchRange 0 17 6 = some [1, 14, 15, 16] ∧
        ¬ (t.page 101).Ends (t.page 101).live.length 17 ∧
        (t.page 101).ReadsOwn (t.page 101).live.length 0 17 ∧
        (t.page 102).Ends (t.page 101).live.length 17 ∧
        isForward (t.page 102).hdr.switchCounter = true)) = true := by decide +kernel
  have sound : ∀ (t : BTree) (op : TreeOp), decide (t.KeyCall op) = true → t.KeyCall op :=
    fun _ _ => of_decide_eq_true
  obtain ⟨t, run, down, level, written, goesOn, reads, ends, forward⟩ := exists_run sound checked
  obtain ⟨buf, leaf, front, back, returns, descends, leaves, exact_iff⟩ :=
    search_range_iff run (by decide : longMin ≤ 0) (by decide : (0 : Int) < 17)
  obtain rfl := (steady_descend _ _ _ _).unique descends ⟨6, down⟩
  obtain rfl := (steady_btreeSearchRange _ _ _).unique returns ⟨6, written⟩
  obtain ⟨rfl, rfl⟩ := split_first (by decide) (level.symm.trans leaves)
  have last : InTurn (t.page 101).live.length 0 17 [t.page 102] := by
    rw [InTurn, if_pos ends]
    exact ⟨Or.inl forward, fun q mem => absurd mem List.not_mem_nil⟩
  have inTurn : InTurn (t.page 101).live.length 0 17 [t.page 101, t.page 102] := by
    rw [InTurn, if_neg goesOn]
    exact Or.inl ⟨reads, last⟩
  exact ⟨t, run, returns, exact_iff.mpr inTurn⟩

/-- A leaf that a deletion has turned around is written from right to left. -/
theorem search_range_reversed :
    ∃ t buf, Run (empty (.bump 100)) KeyCall [.insert 1, .insert 2, .insert 3, .delete 3] t ∧
      Returns (t.btreeSearchRange 0 5) buf ∧ buf = [2, 1] ∧ ¬ t.Lists 0 5 buf := by
  have run : Run (empty (.bump 100)) KeyCall [.insert 1, .insert 2, .insert 3, .delete 3] _ :=
    (((Run.nil.step (.insert 1) ⟨by decide, by decide⟩ ⟨2, rfl⟩).step
      (.insert 2) ⟨by decide, by decide⟩ ⟨2, rfl⟩).step
      (.insert 3) ⟨by decide, by decide⟩ ⟨2, rfl⟩).step
      (.delete 3) ⟨by decide, by decide⟩ ⟨2, rfl⟩
  refine ⟨_, [2, 1], run, ⟨2, rfl⟩, rfl, fun lists => ?_⟩
  exact absurd lists.1 (by decide)

end Reachable

end BTree

end F3Tree
