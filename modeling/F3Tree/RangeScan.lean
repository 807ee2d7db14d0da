import F3Tree.Leftover

/-!
# Range scans

`btree_search_range` goes down to the leaf of `min` and from there along the siblings.  A
leaf that an insertion touched last is read from left to right, up to its first null
`ptr`; one that a removal touched last is read from right to left, from the record where
the first leaf of the walk has its last one.  A key at or above `max` ends the walk.

What a leaf shows to the walk is written down without the loops in `Page.shown`
(`PageOk.range_eq`), and the walk is the leaves' showings up to the one that ends it
(`Row.walk`).
-/

namespace F3Tree

open Keyed Fuel

namespace Page

/-- `linear_search_range` on a leaf from left to right, behind the record `prev`: the values
written to the buffer, and whether the walk ends. -/
def rangeForward (min max : Int) : Entry → List Entry → Option (List Int × Bool)
  | _, [] => none
  | prev, e :: rest =>
      if e.ptr = 0 then some ([], false)
      else if e.key > min then
        if e.key < max then do
          let (out, ends) ← rangeForward min max e rest
          return (if e.ptr ≠ prev.ptr then e.ptr :: out else out, ends)
        else some ([], true)
      else rangeForward min max e rest

/-- `linear_search_range` on a leaf from right to left, down to `records[1]`. -/
def rangeBackward (min max : Int) (records : List Entry) : Nat → Option (List Int × Bool)
  | 0 => some ([], false)
  | i + 1 => do
      let e ← records[i + 1]?
      let prev ← records[i]?
      if e.key > min then
        if e.key < max then do
          let (out, ends) ← rangeBackward min max records i
          return (if e.ptr ≠ prev.ptr ∧ e.ptr ≠ 0 then e.ptr :: out else out, ends)
        else some ([], true)
      else rangeBackward min max records i

/-- `linear_search_range` on one leaf, `numEntries` being the `count()` of the page that
the call is for. -/
def range (p : Page) (numEntries : Nat) (min max : Int) : Option (List Int × Bool) :=
  match p.records with
  | [] => none
  | first :: rest =>
      if isForward p.hdr.switchCounter then
        if first.key > min then
          if first.key < max then do
            let (out, ends) ← rangeForward min max first rest
            return (if first.ptr ≠ 0 then first.ptr :: out else out, ends)
          else some ([], true)
        else rangeForward min max first rest
      else do
        let (out, ends) ← rangeBackward min max p.records (numEntries - 1)
        if ends then return (out, true)
        else if first.key > min then
          if first.key < max then return (if first.ptr ≠ 0 then out ++ [first.ptr] else out, false)
          else return (out, true)
        else return (out, false)

end Page

namespace BTree

/-- `p->linear_search_range(min, max, buf)`: the walk from the leaf `current`. -/
def linearSearchRange (t : BTree) (p : Page) (min max : Int) : Nat → Int → Option (List Int)
  | 0, _ => none
  | fuel + 1, current =>
      if current = 0 then some []
      else do
        let numEntries ← p.count
        let (out, ends) ← (t.page current).range numEntries min max
        if ends then return out
        else
          let rest ← linearSearchRange t p min max fuel (t.page current).hdr.siblingPtr
          return out ++ rest

/-- `btree_search_range`: what it writes to the buffer. -/
def btreeSearchRange (t : BTree) (min max : Int) (fuel : Nat) : Option (List Int) := do
  let leaf ← t.descend aboveLeaves min fuel t.root
  t.linearSearchRange (t.page leaf) min max fuel leaf

end BTree

/-! ## What a leaf shows -/

/-- The records whose `ptr` differs from that of the record in front. -/
def firsts (prev : Int) : List Entry → List Entry
  | [] => []
  | e :: es => if e.ptr = prev then firsts e.ptr es else e :: firsts e.ptr es

/-- The values of the interval. -/
def within (min max : Int) (es : List Entry) : List Int :=
  (es.filter fun e => e.ptr ≠ 0 ∧ min < e.key ∧ e.key < max).map Entry.ptr

namespace Page

/-- The records that a walk looks at: of a leaf that is read forward the live ones, else the
first `numEntries`; in any case one. -/
def looked (p : Page) (numEntries : Nat) : List Entry :=
  p.records.take (max (if isForward p.hdr.switchCounter then p.live.length else numEntries) 1)

/-- The leaf ends the walk. -/
def Ends (p : Page) (numEntries : Nat) (max : Int) : Prop :=
  ∃ e ∈ p.looked numEntries, max ≤ e.key

instance (p : Page) (numEntries : Nat) (max : Int) : Decidable (p.Ends numEntries max) :=
  inferInstanceAs (Decidable (∃ e ∈ p.looked numEntries, max ≤ e.key))

/-- The values that a leaf adds to the buffer.  One that is read backward adds none if it
ends the walk. -/
def shown (p : Page) (numEntries : Nat) (min max : Int) : List Int :=
  let values := within min max (firsts 0 (p.looked numEntries))
  if isForward p.hdr.switchCounter then values
  else if p.Ends numEntries max then []
  else values.reverse

end Page

theorem firsts_append (prev : Int) (es es' : List Entry) :
    firsts prev (es ++ es') =
      firsts prev es ++ firsts ((es.getLast?.map Entry.ptr).getD prev) es' := by
  induction es generalizing prev with
  | nil => rfl
  | cons x es ih =>
      have last : ((x :: es).getLast?.map Entry.ptr).getD prev =
          (es.getLast?.map Entry.ptr).getD x.ptr := by
        cases es with
        | nil => rfl
        | cons y es => rw [List.getLast?_cons_cons, List.getLast?_eq_some_getLast (by simp)]; rfl
      rw [List.cons_append, firsts, firsts, ih, last]
      split <;> rfl

theorem firsts_concat (prev : Int) (es : List Entry) (e : Entry) :
    firsts prev (es ++ [e]) =
      firsts prev es ++ if e.ptr = (es.getLast?.map Entry.ptr).getD prev then [] else [e] := by
  rw [firsts_append]
  rfl

theorem firsts_sublist (prev : Int) (es : List Entry) : (firsts prev es).Sublist es := by
  induction es generalizing prev with
  | nil => exact .slnil
  | cons e es ih =>
      rw [firsts]
      split
      · exact (ih _).cons e
      · exact (ih _).cons_cons e

section Range

variable {p : Page} {s : Entry} {next : Option Entry} {min max : Int}

theorem within_cons (min max : Int) (e : Entry) (es : List Entry) :
    within min max (e :: es) =
      if e.ptr ≠ 0 ∧ min < e.key ∧ e.key < max then e.ptr :: within min max es
      else within min max es := by
  rw [within, List.filter_cons]
  simp only [decide_eq_true_iff]
  split <;> rfl

theorem within_append (min max : Int) (es es' : List Entry) :
    within min max (es ++ es') = within min max es ++ within min max es' := by
  rw [within, List.filter_append, List.map_append]
  rfl

/-- Nothing of the interval is at or above its end. -/
theorem within_of_ge {es : List Entry} (ge : ∀ e ∈ es, max ≤ e.key) : within min max es = [] := by
  rw [within, List.map_eq_nil_iff, List.filter_eq_nil_iff]
  intro e mem
  rw [decide_eq_true_iff]
  exact fun h => absurd h.2.2 (not_lt.mpr (ge e mem))

theorem rangeForward_eq {es rest : List Entry} {z : Entry} (live : ∀ e ∈ es, e.ptr ≠ 0)
    (stop : z.ptr = 0) (ordered : Ordered Entry.key es) (lt : min < max) (prev : Entry) :
    Page.rangeForward min max prev (es ++ z :: rest) =
      some (within min max (firsts prev.ptr es), decide (∃ e ∈ es, max ≤ e.key)) := by
  induction es generalizing prev with
  | nil =>
      rw [List.nil_append, Page.rangeForward, if_pos stop]
      simp [firsts, within]
  | cons e es ih =>
      obtain ⟨he, live⟩ := List.forall_mem_cons.mp live
      obtain ⟨first, ordered⟩ := List.pairwise_cons.mp ordered
      have ends : e.key < max → (decide (∃ x ∈ e :: es, max ≤ x.key) =
          decide (∃ x ∈ es, max ≤ x.key)) := fun hlt => by
        simp only [List.exists_mem_cons_iff, not_le.mpr hlt, false_or]
      rw [List.cons_append, Page.rangeForward, if_neg he, ih live ordered e]
      by_cases hmin : min < e.key
      · rw [if_pos hmin]
        by_cases hmax : e.key < max
        · rw [if_pos hmax, ends hmax]
          simp only [Option.bind_eq_bind, Option.bind_some]
          by_cases same : e.ptr = prev.ptr
          · rw [firsts, if_pos same, if_neg (not_not.mpr same)]
            rfl
          · rw [firsts, if_neg same, if_pos same, within_cons, if_pos ⟨he, hmin, hmax⟩]
            rfl
        · have hge : ∀ x ∈ e :: es, max ≤ x.key := List.forall_mem_cons.mpr
            ⟨not_lt.mp hmax, fun x mem => (not_lt.mp hmax).trans (first x mem)⟩
          rw [if_neg hmax, within_of_ge fun x mem => hge x ((firsts_sublist _ _).mem mem),
            decide_eq_true ⟨e, List.mem_cons_self, not_lt.mp hmax⟩]
      · have shown : within min max (firsts prev.ptr (e :: es)) =
            within min max (firsts e.ptr es) := by
          rw [firsts]
          split
          · rfl
          · rw [within_cons, if_neg fun h => hmin h.2.1]
        rw [if_neg hmin, shown, ends ((not_lt.mp hmin).trans_lt lt)]

theorem rangeBackward_ends {records : List Entry} {i : Nat} {e : Entry}
    (look : records[i + 1]? = some e) (ge : max ≤ e.key) (lt : min < max) :
    Page.rangeBackward min max records (i + 1) = some ([], true) := by
  have prev : records[i]? ≠ none := by
    have := (List.getElem?_eq_some_iff.mp look).1
    rw [Ne, List.getElem?_eq_none_iff]
    omega
  obtain ⟨x, hx⟩ := Option.ne_none_iff_exists'.mp prev
  rw [Page.rangeBackward, look, hx]
  simp only [Option.bind_eq_bind, Option.bind_some]
  rw [if_pos (lt.trans_le ge), if_neg (not_lt.mpr ge)]

theorem rangeBackward_eq {records : List Entry} {first : Entry} {rest : List Entry}
    (hrecords : records = first :: rest) {i : Nat} (hi : i ≤ rest.length)
    (lt : ∀ e ∈ rest.take i, e.key < max) :
    Page.rangeBackward min max records i =
      some ((within min max (firsts first.ptr (rest.take i))).reverse, false) := by
  induction i with
  | zero =>
      rw [List.take_zero]
      rfl
  | succ i ih =>
      have bound : i < rest.length := hi
      have look : records[i + 1]? = some rest[i] := by
        rw [hrecords, List.getElem?_cons_succ, List.getElem?_eq_getElem bound]
      have prev : records[i]? = some ((rest.take i).getLast?.getD first) := by
        cases i with
        | zero => rw [hrecords]; rfl
        | succ j =>
            have : j < rest.length := Nat.lt_of_succ_lt bound
            rw [hrecords, List.getElem?_cons_succ, List.getElem?_eq_getElem this,
              List.take_succ_eq_append_getElem this, List.getLast?_concat]
            rfl
      have htake : rest.take (i + 1) = rest.take i ++ [rest[i]] :=
        List.take_succ_eq_append_getElem bound
      rw [htake] at lt ⊢
      obtain ⟨lt, hlast⟩ := List.forall_mem_append.mp lt
      have hlast := hlast rest[i] (List.mem_singleton_self _)
      have last : ((rest.take i).getLast?.map Entry.ptr).getD first.ptr =
          ((rest.take i).getLast?.getD first).ptr := by
        cases (rest.take i).getLast? <;> rfl
      rw [Page.rangeBackward, look, prev, ih bound.le lt, firsts_concat, within_append,
        List.reverse_append, last]
      simp only [Option.bind_eq_bind, Option.bind_some]
      by_cases hmin : min < rest[i].key
      · rw [if_pos hmin, if_pos hlast]
        by_cases same : rest[i].ptr = ((rest.take i).getLast?.getD first).ptr
        · rw [if_pos same, if_neg fun h => h.1 same]
          rfl
        · rw [if_neg same, within_cons]
          by_cases null : rest[i].ptr = 0
          · rw [if_neg fun h => h.2 null, if_neg fun h => h.1 null]
            rfl
          · rw [if_pos ⟨same, null⟩, if_pos ⟨null, hmin, hlast⟩]
            rfl
      · have none : within min max (if rest[i].ptr = ((rest.take i).getLast?.getD first).ptr
            then [] else [rest[i]]) = [] := by
          split
          · rfl
          · rw [within_cons, if_neg fun h => hmin h.2.1]
            rfl
        rw [if_neg hmin, none]
        rfl

theorem Page.range_forward {first : Entry} {rest : List Entry}
    (hrecords : p.records = first :: rest) (forward : isForward p.hdr.switchCounter = true)
    (c : Nat) (lt : min < max) {out : List Int} {ends : Bool}
    (hrest : Page.rangeForward min max first rest = some (out, ends)) :
    p.range c min max = some (if max ≤ first.key then ([], true)
      else (if first.ptr ≠ 0 ∧ min < first.key then first.ptr :: out else out, ends)) := by
  rw [Page.range, hrecords]
  simp only [forward, if_true, hrest, Option.bind_eq_bind, Option.bind_some]
  by_cases hmax : first.key < max
  · rw [if_neg (not_le.mpr hmax), if_pos hmax]
    by_cases hmin : min < first.key
    · by_cases null : first.ptr = 0
      · rw [if_pos hmin, if_neg (not_not.mpr null), if_neg fun h => h.1 null]
        rfl
      · rw [if_pos hmin, if_pos null, if_pos ⟨null, hmin⟩]
        rfl
    · rw [if_neg hmin, if_neg fun h => hmin h.2]
  · rw [if_pos (lt.trans_le (not_lt.mp hmax)), if_neg hmax, if_pos (not_lt.mp hmax)]

theorem firsts_zero_cons (first : Entry) (es : List Entry) (hmax : first.key < max) :
    within min max (firsts 0 (first :: es)) =
      if first.ptr ≠ 0 ∧ min < first.key then
        first.ptr :: within min max (firsts first.ptr es)
      else within min max (firsts first.ptr es) := by
  rw [firsts]
  by_cases null : first.ptr = 0
  · rw [if_pos null, if_neg fun h => h.1 null]
  · rw [if_neg null, within_cons]
    refine if_congr ?_ rfl rfl
    exact ⟨fun h => ⟨h.1, h.2.1⟩, fun h => ⟨h.1, h.2, hmax⟩⟩

theorem Page.looked_forward (forward : isForward p.hdr.switchCounter = true) (c : Nat) :
    p.looked c = p.records.take (Max.max p.live.length 1) := by
  rw [Page.looked, if_pos forward]

theorem Page.looked_backward (backward : ¬ isForward p.hdr.switchCounter = true) (c : Nat)
    {first : Entry} {rest : List Entry} (hrecords : p.records = first :: rest) :
    p.looked c = first :: rest.take (c - 1) := by
  have count : Max.max c 1 = c - 1 + 1 := by omega
  rw [Page.looked, if_neg backward, hrecords, count, List.take_succ_cons]

/-- A leaf that is read forward shows its live records. -/
theorem PageOk.range_of_forward (ok : PageOk p 0 s next) (lt : min < max)
    (forward : isForward p.hdr.switchCounter = true) (c : Nat) :
    p.range c min max = some (p.shown c min max, decide (p.Ends c max)) := by
  obtain ⟨z, rest, holds, second⟩ := ok.holds
  have hrecords := holds.records
  rw [Page.shown, if_pos forward]
  simp only [Page.Ends, Page.looked_forward forward]
  cases hlive : p.live with
  | nil =>
      obtain ⟨z', rest', rfl, stop'⟩ := second hlive
      rw [hlive, List.nil_append] at hrecords
      have hrest : Page.rangeForward min max z (z' :: rest') = some ([], false) := if_pos stop'
      have look : p.records.take (Max.max ([] : List Entry).length 1) = [z] := by
        rw [hrecords]
        rfl
      have null : ¬ (z.ptr ≠ 0 ∧ min < z.key) := fun h => h.1 holds.stop
      rw [Page.range_forward hrecords forward c lt hrest, look, if_neg null]
      simp only [firsts, holds.stop, if_true, List.mem_singleton, exists_eq_left]
      by_cases hmax : max ≤ z.key
      · rw [if_pos hmax, decide_eq_true hmax]
        rfl
      · rw [if_neg hmax, decide_eq_false hmax]
        rfl
  | cons e es =>
      rw [hlive] at hrecords holds
      have ordered := ok.ordered
      rw [hlive] at ordered
      obtain ⟨first, ordered⟩ := List.pairwise_cons.mp ordered
      have hrest : Page.rangeForward min max e (es ++ z :: rest) = _ :=
        rangeForward_eq (fun x mem => holds.live x (List.mem_cons_of_mem _ mem)) holds.stop
          ordered lt e
      have look : p.records.take (Max.max (e :: es).length 1) = e :: es := by
        rw [hrecords, Nat.max_eq_left (by simp), List.take_left]
      rw [List.cons_append] at hrecords
      rw [Page.range_forward hrecords forward c lt hrest, look]
      by_cases hmax : max ≤ e.key
      · have hge : ∀ x ∈ e :: es, max ≤ x.key := List.forall_mem_cons.mpr
          ⟨hmax, fun x mem => hmax.trans (first x mem)⟩
        rw [if_pos hmax, within_of_ge fun x mem => hge x ((firsts_sublist _ _).mem mem),
          decide_eq_true ⟨e, List.mem_cons_self, hmax⟩]
      · rw [if_neg hmax, firsts_zero_cons e es (not_le.mp hmax)]
        simp only [List.exists_mem_cons_iff, hmax, false_or]

/-- A leaf that is read backward shows the records in front of the place where the walk
begins, from right to left. -/
theorem PageOk.range_of_backward (ok : PageOk p 0 s next) (tr : Trailing p next)
    (lt : min < max) (backward : ¬ isForward p.hdr.switchCounter = true) {c : Nat}
    (bound : c ≤ cardinality) :
    p.range c min max = some (p.shown c min max, decide (p.Ends c max)) := by
  have size := ok.size
  cases hrecords : p.records with
  | nil =>
      rw [hrecords] at size
      exact absurd size (by decide)
  | cons first rest =>
      have ordered := tr.ordered
      rw [hrecords] at size ordered
      have hc : c - 1 ≤ rest.length := by
        rw [List.length_cons] at size
        omega
      obtain ⟨hfirst, ordered⟩ := List.pairwise_cons.mp ordered
      rw [Page.range, hrecords, Page.shown, if_neg backward]
      simp only [Page.Ends, Page.looked_backward backward c hrecords, if_neg backward]
      by_cases ends : ∃ e ∈ first :: rest.take (c - 1), max ≤ e.key
      · rw [if_pos ends, decide_eq_true ends]
        cases hi : c - 1 with
        | zero =>
            rw [hi, List.take_zero] at ends
            obtain ⟨e, mem, hmax⟩ := ends
            obtain rfl := List.mem_singleton.mp mem
            have hmin : e.key > min := lt.trans_le hmax
            simp [Page.rangeBackward, hmin, not_lt.mpr hmax]
        | succ i =>
            have hbound : i < rest.length := by omega
            have look : (first :: rest)[i + 1]? = some rest[i] := by
              rw [List.getElem?_cons_succ, List.getElem?_eq_getElem hbound]
            obtain ⟨e, mem, hmax⟩ := ends
            have last : e.key ≤ rest[i].key := by
              rcases List.mem_cons.mp mem with rfl | mem
              · exact hfirst _ (List.getElem_mem hbound)
              · obtain ⟨j, hj, rfl⟩ := List.mem_iff_getElem.mp mem
                rw [List.length_take] at hj
                rw [List.getElem_take]
                rcases Nat.lt_or_ge j i with hlt | hge
                · exact List.pairwise_iff_getElem.mp ordered j i _ hbound hlt
                · have : j = i := by omega
                  subst this
                  exact le_rfl
            rw [rangeBackward_ends look (hmax.trans last) lt]
            rfl
      · have all : ∀ e ∈ first :: rest.take (c - 1), e.key < max := fun e mem =>
          not_le.mp fun hmax => ends ⟨e, mem, hmax⟩
        obtain ⟨hmax, all⟩ := List.forall_mem_cons.mp all
        rw [if_neg ends, decide_eq_false ends, rangeBackward_eq rfl hc all,
          firsts_zero_cons first _ hmax]
        simp only [Option.bind_eq_bind, Option.bind_some]
        by_cases hmin : min < first.key
        · by_cases null : first.ptr = 0
          · rw [if_neg (by simp), if_pos hmin, if_pos hmax, if_neg (not_not.mpr null),
              if_neg fun h => h.1 null]
            rfl
          · rw [if_neg (by simp), if_pos hmin, if_pos hmax, if_pos null, if_pos ⟨null, hmin⟩,
              List.reverse_cons]
            rfl
        · rw [if_neg (by simp), if_neg hmin, if_neg fun h => hmin h.2]
          rfl

/-- A leaf shows the records that the walk looks at, and ends it at a key beyond. -/
theorem PageOk.range_eq (ok : PageOk p 0 s next) (tr : Trailing p next) (lt : min < max)
    {c : Nat} (bound : c ≤ cardinality) :
    p.range c min max = some (p.shown c min max, decide (p.Ends c max)) := by
  by_cases forward : isForward p.hdr.switchCounter = true
  · exact ok.range_of_forward lt forward c
  · exact ok.range_of_backward tr lt forward bound

end Range

/-- What leaves in a row show to a walk. -/
def scan (numEntries : Nat) (min max : Int) : List Page → List Int
  | [] => []
  | p :: ps =>
      if p.Ends numEntries max then p.shown numEntries min max
      else p.shown numEntries min max ++ scan numEntries min max ps

namespace BTree

/-! ## The walk -/

section Walk

variable {t : BTree} {n c : Nat} {row before after : List Entry} {s : Entry} {min max : Int}

theorem steady_linearSearchRange (t : BTree) (p : Page) (min max current : Int) :
    Steady fun fuel => t.linearSearchRange p min max fuel current := by
  intro fuel
  induction fuel generalizing current with
  | zero => exact Extends.of_none _
  | succ fuel ih =>
      simp only [linearSearchRange]
      exact Extends.ite _ (.refl _) <| .const_bind _ fun _ => .const_bind _ fun _ =>
        .ite _ (.refl _) (.bind (ih _) fun _ => .refl _)

theorem steady_btreeSearchRange (t : BTree) (min max : Int) :
    Steady (t.btreeSearchRange min max) :=
  (steady_descend t _ min _).bind fun leaf => steady_linearSearchRange t _ min max leaf

/-- The walk along leaves writes what they show. -/
theorem Row.walk (h : t.Row 0 row none) (tr : t.Trails row none) (lt : min < max) {p : Page}
    (count : p.count = some c) (bound : c ≤ cardinality) :
    Returns (fun fuel => t.linearSearchRange p min max fuel ((row.head?.map Entry.ptr).getD 0))
      (scan c min max (row.map fun s => t.page s.ptr)) := by
  induction row with
  | nil => exact ⟨1, rfl⟩
  | cons s row ih =>
      obtain ⟨ok, alloc, rest⟩ := h
      obtain ⟨here, behind⟩ := tr
      obtain ⟨fuel, walk⟩ := ih rest behind
      have sibling : (t.page s.ptr).hdr.siblingPtr = (row.head?.map Entry.ptr).getD 0 := by
        rw [ok.sibling, Option.or_none]
      refine ⟨fuel + 1, ?_⟩
      change t.linearSearchRange p min max (fuel + 1) s.ptr = _
      rw [linearSearchRange, if_neg (Allocator.ne_null_of alloc), count, sibling]
      simp only [Option.bind_eq_bind, Option.bind_some, ok.range_eq here lt bound, walk]
      rw [List.map_cons, scan]
      by_cases ends : (t.page s.ptr).Ends c max
      · rw [if_pos ends, decide_eq_true ends]
        rfl
      · rw [if_neg ends, decide_eq_false ends]
        rfl

/-- A range scan writes what the leaves from that of `min` on show. -/
theorem Rows.btreeSearchRange (h : t.Rows n 0 row) (tr : t.Trails row none)
    (least : longMin ≤ min) (lt : min < max)
    (home : Cut Entry.key min row (before ++ [s]) after) :
    Returns (t.btreeSearchRange min max)
      (scan (t.page s.ptr).live.length min max ((s :: after).map fun s => t.page s.ptr)) := by
  obtain ⟨-, ⟨ok, alloc⟩, hafter⟩ := row_split.mp (home.split ▸ h.isRow)
  obtain ⟨-, here, behind⟩ := trails_split.mp (home.split ▸ tr)
  have row' : t.Row 0 (s :: after) none := ⟨by rwa [Option.or_none], alloc, hafter⟩
  have trails' : t.Trails (s :: after) none := ⟨by rwa [Option.or_none], behind⟩
  obtain ⟨fuel, hdescend, hwalk⟩ := (h.descends least home).both (steady_descend _ _ _ _)
    (steady_linearSearchRange _ _ _ _ _) (row'.walk trails' lt ok.count_eq ok.length_live.le)
  refine ⟨fuel, ?_⟩
  rw [BTree.btreeSearchRange, hdescend]
  exact hwalk

end Walk

end BTree

end F3Tree
