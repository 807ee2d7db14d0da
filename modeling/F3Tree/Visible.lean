import F3Tree.Directions

/-!
# The records that a search sees

A search skips a record with the `ptr` of the record in front of it, and ends at a null
one.  The records that are left (`Page.visible`) decide what it answers, whatever else
the page holds: a key that is overwritten, a record that is there twice.
-/

namespace F3Tree

open Keyed

/-- The records that are seen behind the pointer `prev`. -/
def visibleFrom : Int → List Entry → List Entry
  | _, [] => []
  | prev, e :: rest =>
      if e.ptr = 0 then []
      else if e.ptr = prev then visibleFrom prev rest
      else e :: visibleFrom e.ptr rest

/-- The value of a key, null if there is none. -/
def valueOf (key : Int) (es : List Entry) : Int :=
  ((es.find? fun e => e.key = key).map Entry.ptr).getD 0

/-- The child for a key. -/
def follow (key : Int) : Int → List Entry → Int
  | child, [] => child
  | child, e :: es => if key < e.key then child else follow key e.ptr es

namespace Page

/-- The records of a page that are seen.  No search ends at `records[0]`. -/
def visible (p : Page) : List Entry :=
  match p.records with
  | [] => []
  | first :: rest =>
      if first.ptr = p.hdr.leftmostPtr then visibleFrom first.ptr rest
      else first :: visibleFrom first.ptr rest

/-- `linear_search`, up to the look at the sibling. -/
def search (p : Page) (key : Int) : Option Int :=
  if p.hdr.leftmostPtr = 0 then p.searchLeaf key else p.searchInternal key

/-- The answer of a page whose visible records are `es`. -/
def answer (p : Page) (es : List Entry) (key : Int) : Int :=
  if p.hdr.leftmostPtr = 0 then valueOf key es else follow key p.hdr.leftmostPtr es

end Page

/-- The records are seen to be `es` behind any pointer that is not one of theirs. -/
def Reads (es records : List Entry) : Prop :=
  ∀ prev, prev ∉ es.map Entry.ptr → visibleFrom prev records = es

/-! ## What is seen -/

section Visible

variable {p : Page} {e x z : Entry} {es front rest records : List Entry} {prev : Int}

theorem reads_stop (stop : z.ptr = 0) (rest : List Entry) : Reads [] (z :: rest) := by
  intro prev _
  rw [visibleFrom, if_pos stop]

/-- A record behind which `es` is seen. -/
theorem Reads.cons (h : Reads es records) (he : e.ptr ≠ 0) (new : e.ptr ∉ es.map Entry.ptr) :
    Reads (e :: es) (e :: records) := by
  intro prev hprev
  rw [List.map_cons, List.mem_cons, not_or] at hprev
  rw [visibleFrom, if_neg he, if_neg (Ne.symm hprev.1), h _ new]

theorem Reads.append (h : Reads es records) (front : List Entry) (live : ∀ e ∈ front, e.ptr ≠ 0)
    (nodup : ((front ++ es).map Entry.ptr).Nodup) : Reads (front ++ es) (front ++ records) := by
  induction front with
  | nil => exact h
  | cons e front ih =>
      obtain ⟨he, live⟩ := List.forall_mem_cons.mp live
      rw [List.cons_append, List.map_cons, List.nodup_cons] at nodup
      exact (ih live nodup.2).cons he nodup.1

/-- The live records in front of a terminator. -/
theorem reads_live (live : ∀ e ∈ es, e.ptr ≠ 0) (nodup : (es.map Entry.ptr).Nodup)
    (stop : z.ptr = 0) (rest : List Entry) : Reads es (es ++ z :: rest) := by
  have appended := (reads_stop stop rest).append es live (by rwa [List.append_nil])
  rwa [List.append_nil] at appended

/-- Behind a live record no pointer to repeat is null. -/
theorem childOf_ne_zero {first : Entry} (live : ∀ e ∈ first :: front, e.ptr ≠ 0) (child : Int) :
    Page.childOf child (first :: front) ≠ 0 := by
  rw [Page.childOf_cons]
  have mem := Page.childOf_mem first.ptr front
  rw [← List.map_cons] at mem
  obtain ⟨e, hmem, hptr⟩ := List.mem_map.mp mem
  rw [← hptr]
  exact live e hmem

/-- A record with the pointer of the one before it is not seen. -/
theorem visibleFrom_hidden (h : Reads es records) (live : ∀ e ∈ front, e.ptr ≠ 0)
    (nodup : (prev :: (front ++ es).map Entry.ptr).Nodup) (hx : x.ptr = Page.childOf prev front)
    (ne : x.ptr ≠ 0) : visibleFrom prev (front ++ x :: records) = front ++ es := by
  induction front generalizing prev with
  | nil =>
      have hprev : x.ptr = prev := hx
      rw [List.nil_append, visibleFrom, if_neg ne, if_pos hprev]
      exact h prev (List.nodup_cons.mp nodup).1
  | cons e front ih =>
      obtain ⟨he, live⟩ := List.forall_mem_cons.mp live
      rw [List.cons_append, List.map_cons, List.nodup_cons] at nodup
      have hprev : e.ptr ≠ prev := fun heq => nodup.1 (heq ▸ List.mem_cons_self)
      rw [List.cons_append, visibleFrom, if_neg he, if_neg hprev]
      rw [ih live nodup.2 (hx.trans (Page.childOf_cons _ _ _))]
      rfl

/-- The page shows `front` and `es` when the record between them has the pointer of the
one before it: the leftmost child if there is none. -/
theorem Page.visible_hidden (front : List Entry)
    (hrecords : p.records = front ++ x :: records) (h : Reads es records) (live : ∀ e ∈ front, e.ptr ≠ 0)
    (nodup : (p.hdr.leftmostPtr :: (front ++ es).map Entry.ptr).Nodup)
    (hx : x.ptr = Page.childOf p.hdr.leftmostPtr front) : p.visible = front ++ es := by
  unfold Page.visible
  rw [hrecords]
  cases front with
  | nil =>
      have hx' : x.ptr = p.hdr.leftmostPtr := hx
      rw [List.nil_append]
      dsimp only
      rw [if_pos hx', hx']
      exact h _ (List.nodup_cons.mp nodup).1
  | cons e front =>
      obtain ⟨he, live'⟩ := List.forall_mem_cons.mp live
      rw [List.cons_append, List.map_cons, List.nodup_cons] at nodup
      have hfirst : e.ptr ≠ p.hdr.leftmostPtr := fun heq => nodup.1 (heq ▸ List.mem_cons_self)
      have ne : x.ptr ≠ 0 := by
        rw [hx]
        exact childOf_ne_zero live _
      rw [Page.childOf_cons] at hx
      rw [List.cons_append]
      dsimp only
      rw [if_neg hfirst, visibleFrom_hidden h live' nodup.2 hx ne]
      rfl

/-- Behind the first null pointer nothing is seen. -/
theorem visibleFrom_stop (prev : Int) (es : List Entry) (stop : z.ptr = 0) (rest : List Entry) :
    visibleFrom prev (es ++ z :: rest) = visibleFrom prev es := by
  induction es generalizing prev with
  | nil => exact if_pos stop
  | cons e es ih => rw [List.cons_append, visibleFrom, visibleFrom, ih, ih]

theorem visibleFrom_concat (live : ∀ e ∈ es, e.ptr ≠ 0) (he : e.ptr ≠ 0) (prev : Int) :
    visibleFrom prev (es ++ [e]) =
      visibleFrom prev es ++ if e.ptr = Page.childOf prev es then [] else [e] := by
  induction es generalizing prev with
  | nil => exact if_neg he
  | cons e' es ih =>
      obtain ⟨he', live⟩ := List.forall_mem_cons.mp live
      rw [List.cons_append, visibleFrom, visibleFrom, if_neg he', if_neg he', Page.childOf_cons]
      split
      · rename_i hprev
        rw [ih live, hprev]
      · rw [ih live]
        rfl

/-- The records of a page that are live are seen. -/
theorem Page.visible_live (hrecords : p.records = es ++ z :: rest) (live : ∀ e ∈ es, e.ptr ≠ 0)
    (stop : z.ptr = 0)
    (second : es = [] → p.hdr.leftmostPtr = 0 ∧ ∃ z' rest', rest = z' :: rest' ∧ z'.ptr = 0)
    (nodup : (p.hdr.leftmostPtr :: es.map Entry.ptr).Nodup) : p.visible = es := by
  cases es with
  | nil =>
      obtain ⟨leaf, z', rest', rfl, stop'⟩ := second rfl
      exact Page.visible_hidden [] hrecords (reads_stop stop' rest') live nodup
        (stop.trans leaf.symm)
  | cons e es =>
      obtain ⟨-, live⟩ := List.forall_mem_cons.mp live
      rw [List.map_cons, List.nodup_cons] at nodup
      have hfirst : e.ptr ≠ p.hdr.leftmostPtr := fun heq => nodup.1 (heq ▸ List.mem_cons_self)
      have hes := reads_live live (List.nodup_cons.mp nodup.2).2 stop rest
      unfold Page.visible
      rw [hrecords, List.cons_append]
      dsimp only
      rw [if_neg hfirst, hes _ (List.nodup_cons.mp nodup.2).1]

/-- The null child of a leaf is no pointer of its records. -/
theorem nodup_leaf {leftmost : Int} (leaf : leftmost = 0) (live : ∀ e ∈ es, e.ptr ≠ 0)
    (nodup : (es.map Entry.ptr).Nodup) : (leftmost :: es.map Entry.ptr).Nodup := by
  refine List.nodup_cons.mpr ⟨fun mem => ?_, nodup⟩
  obtain ⟨e, he, hptr⟩ := List.mem_map.mp mem
  exact live e he (hptr.trans leaf)

end Visible

/-! ## The answers -/

section Answers

variable {p : Page} {e first z : Entry} {es mid rest records : List Entry} {key : Int} {c m : Nat}

theorem valueOf_cons (key : Int) (e : Entry) (es : List Entry) :
    valueOf key (e :: es) = if e.key = key then e.ptr else valueOf key es := by
  unfold valueOf
  rw [List.find?_cons]
  split
  · rename_i heq
    rw [if_pos (by simpa using heq)]
    rfl
  · rename_i hne
    rw [if_neg (by simpa using hne)]

theorem valueOf_eq_zero (absent : ∀ e ∈ es, e.key ≠ key) : valueOf key es = 0 := by
  have none : (es.find? fun e => e.key = key) = none :=
    List.find?_eq_none.mpr fun e mem => by simpa using absent e mem
  rw [valueOf, none]
  rfl

theorem valueOf_of_mem (nodup : (es.map Entry.key).Nodup) (mem : e ∈ es) :
    valueOf e.key es = e.ptr := by
  induction es with
  | nil => cases mem
  | cons e' es ih =>
      rw [List.map_cons, List.nodup_cons] at nodup
      rw [valueOf_cons]
      rcases List.mem_cons.mp mem with rfl | mem
      · rw [if_pos rfl]
      · have ne : e'.key ≠ e.key := fun heq => nodup.1 (heq ▸ List.mem_map_of_mem mem)
        rw [if_neg ne, ih nodup.2 mem]

/-- The order of the records does not matter to the value of a key. -/
theorem valueOf_reverse (nodup : (es.map Entry.key).Nodup) (key : Int) :
    valueOf key es.reverse = valueOf key es := by
  by_cases has : ∃ e ∈ es, e.key = key
  · obtain ⟨e, mem, rfl⟩ := has
    rw [valueOf_of_mem nodup mem]
    refine valueOf_of_mem ?_ (List.mem_reverse.mpr mem)
    rw [List.map_reverse]
    exact List.nodup_reverse.mpr nodup
  · have absent : ∀ e ∈ es, e.key ≠ key := fun e mem heq => has ⟨e, mem, heq⟩
    rw [valueOf_eq_zero absent]
    exact valueOf_eq_zero fun e mem => absent e (List.mem_reverse.mp mem)

/-! ### From left to right -/

theorem leafForward_eq (key : Int) (prev : Entry) (stop : ∃ z ∈ records, z.ptr = 0) :
    Page.leafForward key prev records = some (valueOf key (visibleFrom prev.ptr records)) := by
  induction records generalizing prev with
  | nil => simp at stop
  | cons e rest ih =>
      rw [Page.leafForward, visibleFrom]
      by_cases he : e.ptr = 0
      · rw [if_pos he, if_pos he]
        rfl
      · have stop' : ∃ z ∈ rest, z.ptr = 0 := by simpa [he] using stop
        rw [if_neg he, if_neg he, ih e stop']
        by_cases hprev : e.ptr = prev.ptr
        · rw [if_neg fun h => h.2 hprev.symm, if_pos hprev, hprev]
        · rw [if_neg hprev, valueOf_cons]
          by_cases hk : e.key = key
          · rw [if_pos ⟨hk, Ne.symm hprev⟩, if_pos hk]
          · rw [if_neg fun h => hk h.1, if_neg hk]

theorem internalForward_eq (key : Int) (prev : Entry) (stop : ∃ z ∈ records, z.ptr = 0) :
    Page.internalForward key prev records =
      some (follow key prev.ptr (visibleFrom prev.ptr records)) := by
  induction records generalizing prev with
  | nil => simp at stop
  | cons e rest ih =>
      rw [Page.internalForward, visibleFrom]
      by_cases he : e.ptr = 0
      · rw [if_pos he, if_pos he]
        rfl
      · have stop' : ∃ z ∈ rest, z.ptr = 0 := by simpa [he] using stop
        rw [if_neg he, if_neg he, ih e stop']
        by_cases hprev : e.ptr = prev.ptr
        · rw [if_neg fun h => h.2 hprev.symm, if_pos hprev, hprev]
        · rw [if_neg hprev, follow]
          by_cases hlt : key < e.key
          · rw [if_pos ⟨hlt, Ne.symm hprev⟩, if_pos hlt]
          · rw [if_neg fun h => hlt h.1, if_neg hlt]

/-- A page that is read from left to right answers by the records it shows. -/
theorem Page.search_forward (forward : isForward p.hdr.switchCounter = true)
    (stop : ∃ z ∈ p.records.tail, z.ptr = 0) (key : Int) :
    p.search key = some (p.answer p.visible key) := by
  obtain ⟨first, rest, hrecords⟩ : ∃ first rest, p.records = first :: rest := by
    cases hrecords : p.records with
    | nil => simp [hrecords] at stop
    | cons first rest => exact ⟨first, rest, rfl⟩
  rw [hrecords, List.tail_cons] at stop
  unfold Page.search Page.answer Page.visible Page.searchLeaf Page.searchInternal
  rw [hrecords]
  dsimp only
  rw [if_pos forward, if_pos forward, leafForward_eq key first stop,
    internalForward_eq key first stop]
  by_cases leaf : p.hdr.leftmostPtr = 0
  · rw [if_pos leaf, if_pos leaf, leaf]
    by_cases hfirst : first.ptr = 0
    · rw [if_neg fun h => h.2 hfirst, if_pos hfirst]
    · rw [if_neg hfirst, valueOf_cons]
      by_cases hk : first.key = key
      · rw [if_pos ⟨hk, hfirst⟩, if_pos hk]
      · rw [if_neg fun h => hk h.1, if_neg hk]
  · rw [if_neg leaf, if_neg leaf]
    by_cases hfirst : first.ptr = p.hdr.leftmostPtr
    · rw [if_neg fun h => h.2 hfirst.symm, if_pos hfirst, hfirst]
    · rw [if_neg hfirst, follow]
      by_cases hlt : key < first.key
      · rw [if_pos ⟨hlt, Ne.symm hfirst⟩, if_pos hlt]
      · rw [if_neg fun h => hlt h.1, if_neg hlt]

/-! ### From right to left -/

theorem leafBackward_eq_valueOf (key : Int) (first : Entry) (live : ∀ e ∈ mid, e.ptr ≠ 0)
    (rest : List Entry) :
    Page.leafBackward key (first :: (mid ++ rest)) mid.length =
      valueOf key (visibleFrom first.ptr mid).reverse := by
  induction mid using List.reverseRecOn generalizing rest with
  | nil => rfl
  | append_singleton mid e ih =>
      obtain ⟨live, he⟩ := List.forall_mem_append.mp live
      have he : e.ptr ≠ 0 := he e (List.mem_singleton_self e)
      have here : (first :: (mid ++ [e] ++ rest)).getD (mid.length + 1) {} = e := by simp
      have prev : ((first :: (mid ++ [e] ++ rest)).getD mid.length {}).ptr =
          Page.childOf first.ptr mid := by
        rcases List.eq_nil_or_concat mid with rfl | ⟨init, e', rfl⟩
        · rfl
        · simp [Page.childOf]
      rw [List.length_append, List.length_singleton, Page.leafBackward, here, prev,
        visibleFrom_concat live he]
      have rest' := ih live (e :: rest)
      rw [List.append_assoc, List.singleton_append, rest']
      by_cases same : e.ptr = Page.childOf first.ptr mid
      · rw [if_neg fun h => h.2.1 same.symm, if_pos same, List.append_nil]
      · rw [if_neg same, List.reverse_append, List.reverse_singleton, List.singleton_append,
          valueOf_cons]
        by_cases hk : e.key = key
        · rw [if_pos ⟨hk, Ne.symm same, he⟩, if_pos hk]
        · rw [if_neg fun h => hk h.1, if_neg hk]

/-- The records behind `records[0]` have pointers up to `records[m]`, which may have lost
its own. -/
def Page.EndsAt (p : Page) (m : Nat) : Prop :=
  ∃ first mid z rest, p.records = first :: (mid ++ z :: rest) ∧ (∀ e ∈ mid, e.ptr ≠ 0) ∧
    z.ptr = 0 ∧ (m = mid.length ∨ m = mid.length + 1)

/-- A leaf that is read from right to left answers by the records it shows. -/
theorem Page.search_backward (backward : isForward p.hdr.switchCounter = false)
    (leaf : p.hdr.leftmostPtr = 0) (count : p.count = some c) (ends : p.EndsAt (c - 1))
    (nodup : (p.visible.map Entry.key).Nodup) (key : Int) :
    p.search key = some (p.answer p.visible key) := by
  obtain ⟨first, mid, z, rest, hrecords, live, stop, hm⟩ := ends
  have hvisible : p.visible = if first.ptr = 0 then visibleFrom first.ptr mid
      else first :: visibleFrom first.ptr mid := by
    rw [Page.visible, hrecords]
    dsimp only
    rw [leaf, visibleFrom_stop _ _ stop]
  -- A null record at the end is passed over.
  have hret : Page.leafBackward key p.records (c - 1) =
      valueOf key (visibleFrom first.ptr mid).reverse := by
    rw [hrecords, ← leafBackward_eq_valueOf key first live (z :: rest)]
    rcases hm with hm | hm
    · rw [hm]
    · have here : (first :: (mid ++ z :: rest)).getD (mid.length + 1) {} = z := by simp
      rw [hm, Page.leafBackward, here, if_neg fun h => h.2.2 stop]
  unfold Page.search Page.answer Page.searchLeaf
  rw [if_pos leaf, if_pos leaf, count, backward]
  simp only [Bool.false_eq_true, if_false, Option.bind_eq_bind, Option.bind_some, hret]
  rw [hrecords]
  dsimp only
  rw [hvisible] at nodup ⊢
  by_cases hfirst : first.ptr = 0
  · rw [if_pos hfirst] at nodup
    rw [if_neg fun h => h.2.2 hfirst, if_pos hfirst, valueOf_reverse nodup]
    rfl
  · rw [if_neg hfirst, List.map_cons, List.nodup_cons] at nodup
    rw [if_neg hfirst, valueOf_cons, valueOf_reverse nodup.2]
    by_cases hk : first.key = key
    · have absent : valueOf key (visibleFrom first.ptr mid) = 0 :=
        valueOf_eq_zero fun e mem heq => nodup.1 (by
          rw [hk, ← heq]
          exact List.mem_map_of_mem mem)
      rw [if_pos ⟨absent, hk, hfirst⟩, if_pos hk]
      rfl
    · rw [if_neg fun h => hk h.2.1, if_neg hk]
      rfl

end Answers

/-! ## The count -/

section Count

variable {p : Page} {e z : Entry} {c : Nat}

/-- Counting upwards, one record behind the last one that was counted. -/
theorem Page.count_next (forward : isForward p.hdr.switchCounter = true)
    (hlast : p.hdr.lastIndex + 1 = c) (he : p.records[c]? = some e) (ne : e.ptr ≠ 0)
    (hz : p.records[c + 1]? = some z) (stop : z.ptr = 0) : p.count = some (c + 1) := by
  have nonneg : ¬ (c : Int) < 0 := by omega
  have nonneg' : ¬ (c : Int) + 1 < 0 := by omega
  have next : ((c : Int) + 1).toNat = c + 1 := by omega
  rw [Page.count, hlast, Page.countLoop, if_neg nonneg, Int.toNat_natCast, he]
  dsimp only
  rw [if_neg ne, if_pos forward, cardinality_eq, Page.countLoop, if_neg nonneg', next, hz]
  dsimp only
  rw [if_pos stop, Option.bind_eq_bind, Option.bind_some, if_neg nonneg', next]
  rfl

end Count

end F3Tree
