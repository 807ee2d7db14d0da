import F3Tree.Lib.Runs
import F3Tree.Leftover
import F3Tree.Visible

/-!
# FAST

The stores that `insert_key` and `remove_key` make, in their order, and what a search
finds in the page between two of them.  Up to one of the stores it finds the records from
before the call, from there on those from after it (`searchable_run`): a record on its way
has the pointer of the record in front of it, and is not seen.
-/

namespace F3Tree

open Keyed Runs

/-- A store to a page. -/
inductive PageStore
  | switchCounter (c : UInt8)
  | lastIndex (n : Int)
  | key (i : Nat) (key : Int)
  | ptr (i : Nat) (ptr : Int)
deriving DecidableEq, Repr

namespace Page

def perform (p : Page) : PageStore → Page
  | .switchCounter c => { p with hdr := { p.hdr with switchCounter := c } }
  | .lastIndex n => { p with hdr := { p.hdr with lastIndex := n } }
  | .key i key => { p with records := p.records.modify i fun e => { e with key := key } }
  | .ptr i ptr => { p with records := setPtr p.records i ptr }

def performs (p : Page) (stores : List PageStore) : Page := stores.foldl perform p

/-- The page has the property before the stores, between any two of them, and behind them. -/
def Throughout (p : Page) (stores : List PageStore) (property : Page → Prop) : Prop :=
  AtPoints (fun before => property (p.performs before)) stores

/-! ## The stores of `insert_key` -/

/-- The stores of the shifting loop, `i` records left to look at. -/
def shiftRightStores (leftmost key ptr : Int) : Nat → List Entry → List PageStore
  | 0, _ => [.ptr 0 leftmost, .key 0 key, .ptr 0 ptr]
  | i + 1, records =>
      let e := records.getD i {}
      if key < e.key then
        .ptr (i + 1) e.ptr :: .key (i + 1) e.key ::
          shiftRightStores leftmost key ptr i (records.set (i + 1) e)
      else [.ptr (i + 1) e.ptr, .key (i + 1) key, .ptr (i + 1) ptr]

/-- The stores of `insert_key` to the records. -/
def recordStores (p : Page) (key ptr : Int) (numEntries : Nat) : List PageStore :=
  if numEntries = 0 then [.key 0 key, .ptr 0 ptr, .ptr 1 0]
  else
    let last := (p.records.getD numEntries {}).ptr
    .ptr (numEntries + 1) last ::
      shiftRightStores p.hdr.leftmostPtr key ptr numEntries
        (setPtr p.records (numEntries + 1) last)

def insertKeyStores (p : Page) (key ptr : Int) (numEntries : Nat) : List PageStore :=
  let turn :=
    if isForward p.hdr.switchCounter then [] else [.switchCounter (p.hdr.switchCounter + 1)]
  turn ++ p.recordStores key ptr numEntries ++ [.lastIndex numEntries]

/-! ## The stores of `remove_key` -/

/-- The stores of the loop once it shifts, from `records[i]` on. -/
def shiftLeftStores : Nat → List Entry → List PageStore
  | i, e :: next :: rest =>
      if e.ptr = 0 then []
      else .key i next.key :: .ptr i next.ptr :: shiftLeftStores (i + 1) (next :: rest)
  | _, _ => []

/-- The stores of the loop from `records[i]` on, behind the pointer `prev`. -/
def removeLoopStores (key : Int) : Nat → Int → List Entry → List PageStore
  | _, _, [] => []
  | i, prev, e :: rest =>
      if e.ptr = 0 then []
      else if e.key = key then .ptr i prev :: shiftLeftStores i (e :: rest)
      else removeLoopStores key (i + 1) e.ptr rest

def removeKeyStores (p : Page) (key : Int) : List PageStore :=
  let turn :=
    if isForward p.hdr.switchCounter then [.switchCounter (p.hdr.switchCounter + 1)] else []
  let loop := removeLoopStores key 0 p.hdr.leftmostPtr p.records
  -- `shift` is set with the first of these.
  turn ++ loop ++ if loop.isEmpty then [] else [.lastIndex (p.hdr.lastIndex - 1)]

end Page

/-! ## The stores make the call -/

section Performs

variable {hdr : Header} {e x : Entry} {front back rest records : List Entry} {key ptr : Int}
  {i n : Nat} {p : Page}

theorem performs_cons (p : Page) (s : PageStore) (stores : List PageStore) :
    p.performs (s :: stores) = (p.perform s).performs stores := rfl

theorem performs_append (p : Page) (stores stores' : List PageStore) :
    p.performs (stores ++ stores') = (p.performs stores).performs stores' := List.foldl_append

theorem modify_append (front : List Entry) (x : Entry) (back : List Entry) (f : Entry → Entry) :
    (front ++ x :: back).modify front.length f = front ++ f x :: back := by
  induction front with
  | nil => rfl
  | cons e front ih => exact congrArg (e :: ·) ih

theorem perform_ptr (hi : i = front.length) (hrecords : p.records = front ++ x :: back)
    (ptr : Int) :
    p.perform (.ptr i ptr) = { p with records := front ++ { x with ptr := ptr } :: back } := by
  subst hi
  rw [Page.perform, hrecords, setPtr, modify_append]

theorem perform_key (hi : i = front.length) (hrecords : p.records = front ++ x :: back)
    (key : Int) :
    p.perform (.key i key) = { p with records := front ++ { x with key := key } :: back } := by
  subst hi
  rw [Page.perform, hrecords, modify_append]

/-- A record that is written on its way: first the pointer, then the key. -/
theorem perform_copy (p : Page) (i : Nat) (e : Entry) :
    (p.perform (.ptr i e.ptr)).perform (.key i e.key) =
      { p with records := p.records.set i e } := by
  simp only [Page.perform, setPtr, List.modify_modify_eq, List.set_eq_modify]
  rfl

/-- The new record: its key is written under the pointer of the record in front. -/
theorem performs_new (p : Page) (i : Nat) (prev key ptr : Int) :
    p.performs [.ptr i prev, .key i key, .ptr i ptr] =
      { p with records := p.records.set i ⟨key, ptr⟩ } := by
  simp only [Page.performs, List.foldl_cons, List.foldl_nil, Page.perform, setPtr,
    List.modify_modify_eq, List.set_eq_modify]
  rfl

theorem performs_shiftRightStores (leftmost key ptr : Int) (n : Nat) (p : Page) :
    p.performs (Page.shiftRightStores leftmost key ptr n p.records) =
      { p with records := Page.shiftRight key ptr n p.records } := by
  induction n generalizing p with
  | zero => exact performs_new p 0 leftmost key ptr
  | succ i ih =>
      unfold Page.shiftRightStores Page.shiftRight
      dsimp only
      split
      · rw [performs_cons, performs_cons, perform_copy]
        exact ih { p with records := p.records.set (i + 1) (p.records.getD i {}) }
      · exact performs_new p (i + 1) _ key ptr

theorem performs_recordStores {q : Page} (hq : q.records = p.records) (key ptr : Int) (n : Nat) :
    q.performs (p.recordStores key ptr n) =
      { q with records := (p.insertKey key ptr n).1.records } := by
  unfold Page.recordStores Page.insertKey
  dsimp only
  split
  · simp only [Page.performs, List.foldl_cons, List.foldl_nil, Page.perform, setPtr,
      List.modify_modify_eq, List.set_eq_modify, hq]
    rfl
  · rw [performs_cons, Page.perform, hq]
    exact performs_shiftRightStores _ key ptr n
      { q with records := setPtr p.records (n + 1) (p.records.getD n {}).ptr }

/-- The stores of `insert_key` make the call. -/
theorem performs_insertKeyStores (p : Page) (key ptr : Int) (n : Nat) :
    p.performs (p.insertKeyStores key ptr n) = (p.insertKey key ptr n).1 := by
  unfold Page.insertKeyStores
  dsimp only
  by_cases forward : isForward p.hdr.switchCounter
  · rw [if_pos forward, List.nil_append, performs_append, performs_recordStores rfl]
    simp only [Page.insertKey, if_pos forward]
    rfl
  · rw [if_neg forward, performs_append, performs_append,
      performs_recordStores (by rfl : (p.performs [_]).records = p.records)]
    simp only [Page.insertKey, if_neg forward]
    rfl

/-- The loop once it shifts, whatever the record that it shifts over. -/
theorem performs_shiftLeftStores (front : List Entry) (he : e.ptr ≠ 0) {shifted : List Entry}
    (h : Page.shiftLeft (e :: rest) = some shifted) (hrecords : p.records = front ++ x :: rest) :
    p.performs (Page.shiftLeftStores front.length (e :: rest)) =
      { p with records := front ++ shifted } := by
  induction rest generalizing front e x p shifted with
  | nil => simp [Page.shiftLeft, he] at h
  | cons next rest ih =>
      rw [Page.shiftLeft, if_neg he] at h
      obtain ⟨shifted', hshift, rfl⟩ := Option.map_eq_some_iff.mp h
      rw [Page.shiftLeftStores, if_neg he, performs_cons, performs_cons, perform_key rfl hrecords,
        perform_ptr rfl rfl]
      by_cases live : next.ptr = 0
      · have stop : Page.shiftLeftStores (front.length + 1) (next :: rest) = [] := by
          cases rest with
          | nil => rfl
          | cons _ _ => exact if_pos live
        have same : Page.shiftLeft (next :: rest) = some (next :: rest) := by
          unfold Page.shiftLeft
          rw [if_pos live]
        obtain rfl := Option.some.inj (same.symm.trans hshift)
        rw [stop]
        rfl
      · have here := ih (front ++ [next]) (x := next) live hshift
          (p := { p with records := front ++ next :: next :: rest }) (by simp)
        rw [List.length_append, List.length_singleton] at here
        simpa using here

theorem performs_removeLoopStores (front : List Entry) {removed : List Entry} {shift : Bool}
    (h : Page.removeLoop key rest = some (removed, shift)) (prev : Int)
    (hrecords : p.records = front ++ rest) :
    p.performs (Page.removeLoopStores key front.length prev rest) =
        { p with records := front ++ removed } ∧
      (Page.removeLoopStores key front.length prev rest).isEmpty = !shift := by
  induction rest generalizing front prev removed with
  | nil => exact nomatch h
  | cons e rest ih =>
      rw [Page.removeLoop] at h
      rw [Page.removeLoopStores]
      split at h
      · rename_i stop
        obtain ⟨rfl, rfl⟩ := Prod.mk.inj (Option.some.inj h)
        rw [if_pos stop]
        exact ⟨by rw [← hrecords]; rfl, rfl⟩
      · rename_i live
        rw [if_neg live]
        split at h
        · rename_i hkey
          obtain ⟨shifted, hshift, heq⟩ := Option.map_eq_some_iff.mp h
          obtain ⟨rfl, rfl⟩ := Prod.mk.inj heq
          rw [if_pos hkey, performs_cons, perform_ptr rfl hrecords]
          exact ⟨performs_shiftLeftStores front live hshift rfl, rfl⟩
        · rename_i hkey
          obtain ⟨⟨removed', shift'⟩, hloop, heq⟩ := Option.map_eq_some_iff.mp h
          obtain ⟨rfl, rfl⟩ := Prod.mk.inj heq
          have here := ih (front ++ [e]) hloop e.ptr (by simpa using hrecords)
          rw [List.length_append, List.length_singleton] at here
          rw [if_neg hkey]
          simpa using here

/-- The stores of `remove_key` make the call. -/
theorem performs_removeKeyStores {p' : Page} {shift : Bool}
    (h : p.removeKey key = some (p', shift)) : p.performs (p.removeKeyStores key) = p' := by
  obtain ⟨⟨removed, shift'⟩, hloop, heq⟩ := Option.bind_eq_some_iff.mp h
  obtain ⟨rfl, rfl⟩ := Prod.mk.inj (Option.some.inj heq)
  unfold Page.removeKeyStores
  dsimp only
  have loop : ∀ q : Page, q.records = p.records →
      q.performs (Page.removeLoopStores key 0 p.hdr.leftmostPtr p.records) =
          { q with records := removed } ∧
        (Page.removeLoopStores key 0 p.hdr.leftmostPtr p.records).isEmpty = !shift' :=
    fun q hq => performs_removeLoopStores [] hloop p.hdr.leftmostPtr hq
  rw [(loop p rfl).2, performs_append, performs_append, (loop _ (by split <;> rfl)).1]
  cases shift' <;> by_cases forward : isForward p.hdr.switchCounter <;> simp [forward] <;> rfl

end Performs

/-! ## Between two stores -/

/-- The store is to a record in front of `records[m]`. -/
def PageStore.Below (m : Nat) : PageStore → Prop
  | .key i _ => i < m
  | .ptr i _ => i < m
  | _ => False

section Between

variable {e x z : Entry} {es front back rest : List Entry} {key ptr : Int} {i m n : Nat} {p : Page}
  {stores : List PageStore}

theorem performs_below (below : ∀ s ∈ stores, s.Below m) (p : Page) :
    (p.performs stores).hdr = p.hdr ∧ (p.performs stores).records[m]? = p.records[m]? := by
  induction stores generalizing p with
  | nil => exact ⟨rfl, rfl⟩
  | cons s stores ih =>
      obtain ⟨hs, below⟩ := List.forall_mem_cons.mp below
      obtain ⟨hdr, records⟩ := ih below (p.perform s)
      rw [performs_cons, hdr, records]
      cases s with
      | switchCounter | lastIndex => exact hs.elim
      | key i k => exact ⟨rfl, List.getElem?_modify_ne _ _ (Nat.ne_of_lt hs)⟩
      | ptr i q => exact ⟨rfl, List.getElem?_modify_ne _ _ (Nat.ne_of_lt hs)⟩

theorem below_shiftRightStores (leftmost key ptr : Int) (n : Nat) (records : List Entry) :
    ∀ s ∈ Page.shiftRightStores leftmost key ptr n records, s.Below (n + 1) := by
  suffices h : ∀ m, n < m → ∀ s ∈ Page.shiftRightStores leftmost key ptr n records, s.Below m from
    h (n + 1) (Nat.lt_succ_self n)
  intro m hm
  induction n generalizing records with
  | zero => simpa [Page.shiftRightStores, PageStore.Below] using hm
  | succ i ih =>
      unfold Page.shiftRightStores
      dsimp only
      split
      · exact List.forall_mem_cons.mpr ⟨hm, List.forall_mem_cons.mpr
          ⟨hm, ih _ (Nat.lt_of_succ_lt hm)⟩⟩
      · simpa [PageStore.Below] using hm

theorem below_shiftLeftStores (live : ∀ e ∈ es, e.ptr ≠ 0) (stop : z.ptr = 0) (i : Nat)
    (rest : List Entry) :
    ∀ s ∈ Page.shiftLeftStores i (es ++ z :: rest), s.Below (i + es.length) := by
  induction es generalizing i with
  | nil => cases rest <;> simp [Page.shiftLeftStores, stop]
  | cons e es ih =>
      obtain ⟨he, live⟩ := List.forall_mem_cons.mp live
      have here := ih live (i + 1)
      have last : i < i + (e :: es).length := by simp
      have hlen : i + 1 + es.length = i + (e :: es).length := by
        rw [List.length_cons]
        omega
      rw [hlen] at here
      cases es with
      | nil =>
          rw [List.cons_append, List.nil_append, Page.shiftLeftStores, if_neg he]
          exact List.forall_mem_cons.mpr ⟨last, List.forall_mem_cons.mpr ⟨last, here⟩⟩
      | cons e' es =>
          rw [List.cons_append, List.cons_append, Page.shiftLeftStores, if_neg he]
          exact List.forall_mem_cons.mpr ⟨last, List.forall_mem_cons.mpr ⟨last, here⟩⟩

/-! ### An insertion -/

/-- While a record is written under the pointer of the record in front, it is not seen. -/
theorem visible_new (hi : i = front.length) (hrecords : p.records = front ++ x :: back)
    (h : Reads es back) (live : ∀ e ∈ front, e.ptr ≠ 0)
    (nodup : (p.hdr.leftmostPtr :: (front ++ es).map Entry.ptr).Nodup)
    (start : p.visible = front ++ es) {prev : Int}
    (hprev : prev = Page.childOf p.hdr.leftmostPtr front) (key : Int) {after : List PageStore}
    (later : AtPoints (fun before => before = after ∨
      ((p.performs [.ptr i prev, .key i key]).performs before).visible = front ++ es) after) :
    AtPoints (fun before => before = .ptr i prev :: .key i key :: after ∨
      (p.performs before).visible = front ++ es) (.ptr i prev :: .key i key :: after) := by
  have hptr := perform_ptr hi hrecords prev
  refine atPoints_cons.mpr ⟨Or.inr start, atPoints_cons.mpr ⟨Or.inr ?_, ?_⟩⟩
  · rw [performs_cons, hptr]
    exact Page.visible_hidden front rfl h live nodup hprev
  · intro before point
    rcases later before point with rfl | same
    · exact Or.inl rfl
    · exact Or.inr same

theorem visible_last (hi : i = front.length) (hrecords : p.records = front ++ x :: back)
    (h : Reads es back) (live : ∀ e ∈ front, e.ptr ≠ 0)
    (nodup : (p.hdr.leftmostPtr :: (front ++ es).map Entry.ptr).Nodup)
    (start : p.visible = front ++ es) {prev : Int}
    (hprev : prev = Page.childOf p.hdr.leftmostPtr front) (key ptr : Int) :
    AtPoints (fun before => before = [.ptr i prev, .key i key, .ptr i ptr] ∨
      (p.performs before).visible = front ++ es) [.ptr i prev, .key i key, .ptr i ptr] := by
  refine visible_new hi hrecords h live nodup start hprev key ?_
  refine atPoints_cons.mpr ⟨Or.inr ?_, atPoints_nil.mpr (Or.inl rfl)⟩
  rw [performs_cons, performs_cons, perform_ptr hi hrecords, perform_key hi rfl]
  exact Page.visible_hidden front rfl h live nodup hprev

/-- Only the last store of the shifting loop changes what is seen. -/
theorem visible_shiftRightStores (front : List Entry) (hrecords : p.records = front ++ x :: back)
    (h : Reads es back) (live : ∀ e ∈ front, e.ptr ≠ 0)
    (nodup : (p.hdr.leftmostPtr :: (front ++ es).map Entry.ptr).Nodup)
    (start : p.visible = front ++ es) (key ptr : Int) :
    let stores := Page.shiftRightStores p.hdr.leftmostPtr key ptr front.length p.records
    AtPoints (fun before => before = stores ∨ (p.performs before).visible = front ++ es)
      stores := by
  induction front using List.reverseRecOn generalizing p x back es with
  | nil => exact visible_last rfl hrecords h live nodup start rfl key ptr
  | append_singleton front e ih =>
      have hlook : p.records.getD front.length {} = e := by simp [hrecords]
      have hput : p.records.set (front.length + 1) e = front ++ e :: e :: back := by
        rw [hrecords, List.set_append_right _ _ (by simp)]
        simp
      have hprev : e.ptr = Page.childOf p.hdr.leftmostPtr (front ++ [e]) := by
        simp [Page.childOf]
      intro stores
      have hstores : stores = if key < e.key then
          .ptr (front.length + 1) e.ptr :: .key (front.length + 1) e.key ::
            Page.shiftRightStores p.hdr.leftmostPtr key ptr front.length
              (p.records.set (front.length + 1) e)
          else [.ptr (front.length + 1) e.ptr, .key (front.length + 1) key,
            .ptr (front.length + 1) ptr] := by
        simp only [stores]
        rw [List.length_append, List.length_singleton, Page.shiftRightStores, hlook]
      rw [hstores]
      split
      · have hlen : front.length + 1 = (front ++ [e]).length := by simp
        refine visible_new hlen hrecords h live nodup start hprev e.key ?_
        have hcopy := perform_copy p (front.length + 1) e
        rw [performs_cons, performs_cons, hcopy, hput]
        -- The record is there twice now; the gap is the first of the two.
        obtain ⟨live', last⟩ := List.forall_mem_append.mp live
        have he : e.ptr ≠ 0 := last e (List.mem_singleton_self e)
        have split : front ++ [e] ++ es = front ++ e :: es := by simp
        have new : e.ptr ∉ es.map Entry.ptr := by
          have tail := (List.nodup_cons.mp nodup).2
          rw [split, List.map_append, List.map_cons] at tail
          exact (List.nodup_cons.mp (List.nodup_append.mp tail).2.1).1
        have visible : ({ p with records := front ++ e :: e :: back } : Page).visible =
            front ++ e :: es := by
          rw [← split]
          exact Page.visible_hidden (front ++ [e]) (by simp) h live nodup hprev
        rw [split] at nodup ⊢
        exact ih (p := { p with records := front ++ e :: e :: back }) rfl (h.cons he new) live'
          nodup visible
      · exact visible_last (by simp) hrecords h live nodup start hprev key ptr

/-- The stores of an insertion to the records show the old ones or the new ones. -/
theorem visible_recordStores {z' : Entry} (h : p.Holds es z (z' :: rest))
    (second : es = [] → p.hdr.leftmostPtr = 0 ∧ z'.ptr = 0)
    (nodup : (p.hdr.leftmostPtr :: es.map Entry.ptr).Nodup) (key ptr : Int) :
    AtPoints (fun before => (p.performs before).visible = es ∨
        (p.performs before).visible = (p.insertKey key ptr es.length).1.visible)
      (p.recordStores key ptr es.length) := by
  have whole : (p.performs (p.recordStores key ptr es.length)).visible =
      (p.insertKey key ptr es.length).1.visible := by
    rw [performs_recordStores rfl]
    rfl
  have start : p.visible = es := Page.visible_live h.records h.live h.stop
    (fun hes => ⟨(second hes).1, z', rest, rfl, (second hes).2⟩) nodup
  cases es with
  | nil =>
      obtain ⟨leaf, stop'⟩ := second rfl
      have hrecords : p.records = [] ++ z :: z' :: rest := h.records
      refine atPoints_cons.mpr ⟨Or.inl start, atPoints_cons.mpr ⟨Or.inl ?_, atPoints_cons.mpr
        ⟨Or.inr ?_, atPoints_nil.mpr (Or.inr whole)⟩⟩⟩
      · rw [performs_cons, perform_key (i := 0) rfl hrecords]
        exact Page.visible_hidden [] rfl (reads_stop stop' rest) h.live nodup
          (h.stop.trans leaf.symm)
      · -- The terminator was there before.
        rw [← whole]
        have same : setPtr (⟨key, ptr⟩ :: z' :: rest) 1 0 = ⟨key, ptr⟩ :: z' :: rest := by
          obtain ⟨k, q⟩ := z'
          obtain rfl : q = 0 := stop'
          rfl
        have two : p.performs [.key 0 key, .ptr 0 ptr] =
            { p with records := ⟨key, ptr⟩ :: z' :: rest } := by
          simp [Page.performs, Page.perform, setPtr, hrecords]
        have three : p.performs (p.recordStores key ptr ([] : List Entry).length) =
            (p.performs [.key 0 key, .ptr 0 ptr]).perform (.ptr 1 0) := rfl
        rw [three, two, Page.perform, same]
  | cons e es =>
      have hlook : (p.records.getD (e :: es).length {}).ptr = 0 := by simp [h.records, h.stop]
      have mark : setPtr p.records ((e :: es).length + 1) 0 =
          e :: es ++ z :: { z' with ptr := 0 } :: rest := by
        have := Page.setPtr_append (e :: es ++ [z]) z' rest 0
        simpa [h.records] using this
      have hstores : p.recordStores key ptr (e :: es).length =
          .ptr ((e :: es).length + 1) 0 :: Page.shiftRightStores p.hdr.leftmostPtr key ptr
            (e :: es).length (e :: es ++ z :: { z' with ptr := 0 } :: rest) := by
        rw [Page.recordStores, if_neg (by simp)]
        dsimp only
        rw [hlook, mark]
      have marked : p.perform (.ptr ((e :: es).length + 1) 0) =
          { p with records := e :: es ++ z :: { z' with ptr := 0 } :: rest } := by
        rw [Page.perform, mark]
      have loop := visible_shiftRightStores (e :: es) (x := z)
        (p := { p with records := e :: es ++ z :: { z' with ptr := 0 } :: rest }) rfl
        (reads_stop (z := { z' with ptr := 0 }) rfl rest) h.live (by rwa [List.append_nil])
        (by
          rw [List.append_nil]
          exact Page.visible_live rfl h.live h.stop (by simp) nodup) key ptr
      rw [List.append_nil] at loop
      rw [← whole, hstores]
      refine atPoints_cons.mpr ⟨Or.inl start, fun before point => ?_⟩
      rcases loop before point with rfl | same
      · exact Or.inr rfl
      · rw [performs_cons, marked]
        exact Or.inl same

theorem throughout_append {property : Page → Prop} {stores' : List PageStore} :
    p.Throughout (stores ++ stores') property ↔
      p.Throughout stores property ∧ (p.performs stores).Throughout stores' property := by
  unfold Page.Throughout
  rw [atPoints_append]
  simp only [performs_append]

theorem throughout_cons {property : Page → Prop} {s : PageStore} :
    p.Throughout (s :: stores) property ↔
      property p ∧ (p.perform s).Throughout stores property := atPoints_cons

/-- The page `q` between two stores of a call on `p` answers by `before` or by `after`, and is
counted within its records. -/
structure Page.Passes (p : Page) (before after : List Entry) (q : Page) : Prop where
  leftmost : q.hdr.leftmostPtr = p.hdr.leftmostPtr
  sibling : q.hdr.siblingPtr = p.hdr.siblingPtr
  shows : q.visible = before ∨ q.visible = after
  search : ∀ key, q.search key = some (q.answer q.visible key)
  count : ∃ c < cardinality, q.count = some c

/-- A page with a terminator right behind the record that is being added, or in its place. -/
theorem count_between (forward : isForward p.hdr.switchCounter = true)
    (hlast : p.hdr.lastIndex + 1 = n) (hz : p.records[n + 1]? = some z) (stop : z.ptr = 0) :
    (∃ z ∈ p.records.tail, z.ptr = 0) ∧ ∃ c ≤ n + 1, p.count = some c := by
  refine ⟨⟨z, ?_, stop⟩, ?_⟩
  · rw [← List.getElem?_tail] at hz
    exact List.mem_of_getElem? hz
  · obtain ⟨hlen, -⟩ := List.getElem?_eq_some_iff.mp hz
    have here : p.records[n]? = some p.records[n] := List.getElem?_eq_getElem (by omega)
    by_cases he : p.records[n].ptr = 0
    · exact ⟨n, Nat.le_succ n, Page.count_stop hlast here he⟩
    · exact ⟨n + 1, le_rfl, Page.count_next forward hlast here he hz stop⟩

/-- While the records are written, the page ends where it did or one record further. -/
theorem count_recordStores {z' : Entry} (h : p.Holds es z (z' :: rest))
    (second : es = [] → z'.ptr = 0) (forward : isForward p.hdr.switchCounter = true)
    (key ptr : Int) :
    p.Throughout (p.recordStores key ptr es.length) fun q => q.hdr = p.hdr ∧
      (∃ z ∈ q.records.tail, z.ptr = 0) ∧ ∃ c ≤ es.length + 1, q.count = some c := by
  have hlast : p.hdr.lastIndex + 1 = (es.length : Int) := by
    rw [h.lastIndex]
    omega
  have ends : ∀ {q : Page} {w : Entry}, q.hdr = p.hdr → q.records[es.length + 1]? = some w →
      w.ptr = 0 → q.hdr = p.hdr ∧ (∃ z ∈ q.records.tail, z.ptr = 0) ∧
        ∃ c ≤ es.length + 1, q.count = some c := fun {q w} hdr hw stop =>
    ⟨hdr, count_between (hdr ▸ forward) (hdr ▸ hlast) hw stop⟩
  cases es with
  | nil =>
      have stop' := second rfl
      refine atPoints_cons.mpr ⟨?_, atPoints_cons.mpr ⟨?_, atPoints_cons.mpr
        ⟨?_, atPoints_nil.mpr ?_⟩⟩⟩
      · exact ends (w := z') rfl (by
          simp [Page.performs, h.records]) stop'
      · exact ends (w := z') rfl (by
          simp [Page.performs, Page.perform, h.records]) stop'
      · exact ends (w := z') rfl (by
          simp [Page.performs, Page.perform, setPtr, h.records]) stop'
      · exact ends (w := { z' with ptr := 0 }) rfl (by
          simp [Page.performs, Page.perform, setPtr, h.records]) rfl
  | cons e es =>
      have hlook : (p.records.getD (e :: es).length {}).ptr = 0 := by simp [h.records, h.stop]
      rw [Page.recordStores, if_neg (by simp)]
      dsimp only
      rw [hlook]
      refine throughout_cons.mpr ⟨⟨rfl, ⟨z, ?_, h.stop⟩, (e :: es).length, Nat.le_succ _,
        h.count_eq⟩, fun before point => ?_⟩
      · rw [h.records]
        simp
      · have below : ∀ s ∈ before, s.Below ((e :: es).length + 1) := fun s mem =>
          below_shiftRightStores _ _ _ _ _ s (point.subset mem)
        obtain ⟨hdr, records⟩ := performs_below below
          (p.perform (.ptr ((e :: es).length + 1) 0))
        refine ends (w := { z' with ptr := 0 }) hdr ?_ rfl
        rw [records, Page.perform, h.records, setPtr, List.getElem?_modify_eq]
        simp

/-- Every store of an insertion leaves a page that answers as before or as after it. -/
theorem passes_insert {z' : Entry} (h : p.Holds es z (z' :: rest))
    (second : es = [] → p.hdr.leftmostPtr = 0 ∧ z'.ptr = 0)
    (ordered : Ordered Entry.key es) (forward : isForward p.hdr.switchCounter = true)
    (room : es.length < cardinality - 1)
    (nodup : (p.hdr.leftmostPtr :: es.map Entry.ptr).Nodup) (key : Int) (hptr : ptr ≠ 0) :
    p.Throughout (p.insertKeyStores key ptr es.length)
      (p.Passes es (p.insertKey key ptr es.length).1.visible) := by
  have shows := visible_recordStores h second nodup key ptr
  have counts := count_recordStores h (fun hes => (second hes).2) forward key ptr
  have between : p.Throughout (p.recordStores key ptr es.length)
      (p.Passes es (p.insertKey key ptr es.length).1.visible) := by
    intro before point
    obtain ⟨hdr, stop, c, hc, count⟩ := counts before point
    exact ⟨by rw [hdr], by rw [hdr], shows before point,
      Page.search_forward (hdr ▸ forward) stop, c, by omega, count⟩
  have hstores : p.insertKeyStores key ptr es.length =
      p.recordStores key ptr es.length ++ [.lastIndex es.length] := by
    rw [Page.insertKeyStores, if_pos forward]
    rfl
  have whole := performs_insertKeyStores p key ptr es.length
  rw [hstores, performs_append] at whole
  rw [hstores]
  refine throughout_append.mpr ⟨between, throughout_cons.mpr ⟨between.self, ?_⟩⟩
  refine atPoints_nil.mpr ?_
  obtain ⟨below, above, cut, holds⟩ := h.insertKey ordered key hptr
  have hdr := Page.hdr_insertKey p key ptr es.length
  have hlen : (below ++ ⟨key, ptr⟩ :: above).length = es.length + 1 := by
    rw [cut.eq]
    simp only [List.length_append, List.length_cons]
    omega
  have stop : ∃ w ∈ (p.insertKey key ptr es.length).1.records.tail, w.ptr = 0 := by
    refine ⟨_, ?_, holds.stop⟩
    rw [holds.records]
    cases below <;> simp
  change p.Passes es _ ((p.performs (p.recordStores key ptr es.length)).performs [_])
  rw [whole]
  exact ⟨by rw [hdr], by rw [hdr], Or.inr rfl,
    Page.search_forward (Page.isForward_insertKey p key ptr es.length) stop,
    es.length + 1, by omega, hlen ▸ holds.count_eq⟩

/-! ### A removal -/

theorem removeLoopStores_eq {after : List Entry} (live : ∀ e' ∈ front, e'.ptr ≠ 0) (he : e.ptr ≠ 0)
    (first : ∀ e' ∈ front, e'.key ≠ key) (hkey : e.key = key) (i : Nat) (prev : Int) :
    Page.removeLoopStores key i prev (front ++ e :: after) =
      .ptr (i + front.length) (Page.childOf prev front) ::
        Page.shiftLeftStores (i + front.length) (e :: after) := by
  induction front generalizing i prev with
  | nil =>
      rw [List.nil_append, Page.removeLoopStores, if_neg he, if_pos hkey]
      rfl
  | cons e' front ih =>
      obtain ⟨he', live⟩ := List.forall_mem_cons.mp live
      obtain ⟨hk, first⟩ := List.forall_mem_cons.mp first
      have hlen : i + 1 + front.length = i + (e' :: front).length := by
        rw [List.length_cons]
        omega
      rw [List.cons_append, Page.removeLoopStores, if_neg he', if_neg hk, ih live first, hlen,
        Page.childOf_cons]

/-- A record with the pointer of the one in front does not end the page. -/
theorem endsAt_hidden (hrecords : p.records = front ++ x :: (es ++ z :: rest))
    (hx : x.ptr = Page.childOf p.hdr.leftmostPtr front) (livef : ∀ e ∈ front, e.ptr ≠ 0)
    (live : ∀ e ∈ es, e.ptr ≠ 0) (stop : z.ptr = 0) :
    p.EndsAt (front.length + es.length) := by
  cases front with
  | nil => exact ⟨x, es, z, rest, hrecords, live, stop, Or.inl (Nat.zero_add _)⟩
  | cons first front =>
      have ne : x.ptr ≠ 0 := by
        rw [hx]
        exact childOf_ne_zero livef _
      obtain ⟨-, livef⟩ := List.forall_mem_cons.mp livef
      refine ⟨first, front ++ x :: es, z, rest, by simp [hrecords], ?_, stop, Or.inl ?_⟩
      · exact List.forall_mem_append.mpr ⟨livef, List.forall_mem_cons.mpr ⟨ne, live⟩⟩
      · simp only [List.length_append, List.length_cons]
        omega

/-- The live records and a terminator. -/
theorem endsAt_live (hrecords : p.records = es ++ z :: rest) (live : ∀ e ∈ es, e.ptr ≠ 0)
    (stop : z.ptr = 0) (second : es = [] → ∃ z' rest', rest = z' :: rest' ∧ z'.ptr = 0)
    (hm : m = es.length ∨ m = es.length - 1) : p.EndsAt m := by
  cases es with
  | nil =>
      obtain ⟨z', rest', rfl, stop'⟩ := second rfl
      exact ⟨z, [], z', rest', hrecords, by simp, stop', Or.inl (by simpa using hm)⟩
  | cons first es =>
      obtain ⟨-, live⟩ := List.forall_mem_cons.mp live
      rw [List.length_cons] at hm
      exact ⟨first, es, z, rest, hrecords, live, stop, by omega⟩

theorem shown_hidden (front : List Entry)
    (hrecords : p.records = front ++ x :: (es ++ z :: rest))
    (hx : x.ptr = Page.childOf p.hdr.leftmostPtr front) (leaf : p.hdr.leftmostPtr = 0)
    (live : ∀ e ∈ front ++ es, e.ptr ≠ 0) (stop : z.ptr = 0)
    (nodup : ((front ++ es).map Entry.ptr).Nodup) :
    p.visible = front ++ es ∧ p.EndsAt (front.length + es.length) := by
  obtain ⟨livef, livees⟩ := List.forall_mem_append.mp live
  have tail : (es.map Entry.ptr).Nodup := by
    rw [List.map_append] at nodup
    exact (List.nodup_append.mp nodup).2.1
  have hreads := reads_live livees tail stop rest
  have hleft := nodup_leaf leaf live nodup
  exact ⟨Page.visible_hidden front hrecords hreads livef hleft hx,
    endsAt_hidden hrecords hx livef livees stop⟩

/-- While the shift goes on, the same records are seen. -/
theorem visible_shiftLeftStores (front : List Entry)
    (hrecords : p.records = front ++ x :: (es ++ z :: rest))
    (hx : x.ptr = Page.childOf p.hdr.leftmostPtr front) (leaf : p.hdr.leftmostPtr = 0)
    (he : e.ptr ≠ 0) (live : ∀ e ∈ front ++ es, e.ptr ≠ 0) (stop : z.ptr = 0)
    (nodup : ((front ++ es).map Entry.ptr).Nodup) :
    p.Throughout (Page.shiftLeftStores front.length (e :: (es ++ z :: rest))) fun q =>
      q.visible = front ++ es ∧ q.EndsAt (front.length + es.length) := by
  induction es generalizing front x e p with
  | nil =>
      have here := shown_hidden front hrecords hx leaf live stop nodup
      have last : Page.shiftLeftStores (front.length + 1) (z :: rest) = [] := by
        cases rest with
        | nil => rfl
        | cons _ _ => exact if_pos stop
      rw [List.nil_append] at hrecords ⊢
      rw [Page.shiftLeftStores, if_neg he, last, stop]
      have hkey := perform_key rfl hrecords z.key
      refine throughout_cons.mpr ⟨here, throughout_cons.mpr ⟨?_, atPoints_nil.mpr ?_⟩⟩
      · rw [hkey]
        exact shown_hidden front rfl hx leaf live stop nodup
      · -- The terminator is there twice now.
        rw [hkey, perform_ptr rfl rfl]
        rw [List.append_nil] at live nodup ⊢
        exact ⟨Page.visible_live rfl live rfl (fun _ => ⟨leaf, z, rest, rfl, stop⟩)
            (nodup_leaf leaf live nodup),
          endsAt_live rfl live rfl (fun _ => ⟨z, rest, rfl, stop⟩) (Or.inl rfl)⟩
  | cons next es ih =>
      have here := shown_hidden front hrecords hx leaf live stop nodup
      have hkey := perform_key rfl hrecords next.key
      have split : front ++ next :: es = front ++ [next] ++ es := by simp
      have hlen : front.length + (next :: es).length = front.length + 1 + es.length := by
        rw [List.length_cons]
        omega
      rw [List.cons_append, Page.shiftLeftStores, if_neg he]
      refine throughout_cons.mpr ⟨here, throughout_cons.mpr ⟨?_, ?_⟩⟩
      · rw [hkey]
        exact shown_hidden front rfl hx leaf live stop nodup
      · have hnext : next.ptr ≠ 0 := live next (by simp)
        rw [hkey, perform_ptr rfl rfl]
        rw [split] at live nodup ⊢
        rw [hlen]
        have later := ih (front ++ [next]) (x := next)
          (p := { p with records := front ++ next :: (next :: es ++ z :: rest) }) (by simp)
          (by simp [Page.childOf]) leaf hnext live nodup
        rw [List.length_append, List.length_singleton] at later
        exact later

/-- A leaf that is read from right to left, between two stores. -/
theorem passes_backward {q : Page} {before after : List Entry} (hdr : q.hdr.leftmostPtr = 0)
    (leftmost : q.hdr.leftmostPtr = p.hdr.leftmostPtr)
    (sibling : q.hdr.siblingPtr = p.hdr.siblingPtr)
    (backward : isForward q.hdr.switchCounter = false)
    (keys : (before.map Entry.key).Nodup) (sub : after.Sublist before)
    (shows : q.visible = before ∨ q.visible = after) {c : Nat} (hc : c < cardinality)
    (count : q.count = some c) (ends : q.EndsAt (c - 1)) : p.Passes before after q := by
  have nodup : (q.visible.map Entry.key).Nodup := by
    rcases shows with heq | heq
    · rw [heq]
      exact keys
    · rw [heq]
      exact keys.sublist (sub.map _)
  exact ⟨leftmost, sibling, shows, Page.search_backward backward hdr count ends nodup, c, hc,
    count⟩

/-- The stores of a removal to the records leave a page that answers as before or as after. -/
theorem passes_removeLoopStores {after : List Entry} (h : p.Holds (front ++ e :: after) z rest)
    (leaf : p.hdr.leftmostPtr = 0) (backward : isForward p.hdr.switchCounter = false)
    (room : (front ++ e :: after).length < cardinality)
    (nodup : ((front ++ e :: after).map Entry.ptr).Nodup)
    (keys : ((front ++ e :: after).map Entry.key).Nodup) :
    p.Throughout (.ptr front.length (Page.childOf p.hdr.leftmostPtr front) ::
        Page.shiftLeftStores front.length (e :: after ++ z :: rest))
      (p.Passes (front ++ e :: after) (front ++ after)) := by
  have hrecords : p.records = front ++ e :: (after ++ z :: rest) := by
    rw [h.records, List.append_assoc, List.cons_append]
  have sub : (front ++ after).Sublist (front ++ e :: after) :=
    (List.sublist_cons_self e after).append_left front
  have live : ∀ e' ∈ front ++ after, e'.ptr ≠ 0 := fun e' mem => h.live e' (sub.mem mem)
  obtain ⟨-, liveafter⟩ := List.forall_mem_append.mp h.live
  have hlen : (front ++ e :: after).length = front.length + after.length + 1 := by
    simp only [List.length_append, List.length_cons]
    omega
  have hlast : p.hdr.lastIndex + 1 = ((front ++ e :: after).length : Int) := by
    rw [h.lastIndex]
    omega
  refine throughout_cons.mpr ⟨?_, fun before point => ?_⟩
  · exact passes_backward leaf rfl rfl backward keys sub
      (Or.inl (Page.visible_live h.records h.live h.stop (by simp) (nodup_leaf leaf h.live nodup)))
      room h.count_eq (endsAt_live h.records h.live h.stop (by simp) (Or.inr rfl))
  · have written := perform_ptr rfl hrecords (Page.childOf p.hdr.leftmostPtr front)
    generalize p.perform (.ptr front.length (Page.childOf p.hdr.leftmostPtr front)) = q at written
    obtain ⟨shows, ends⟩ := visible_shiftLeftStores front (p := q) (by rw [written])
      (by rw [written]) (by rw [written]; exact leaf) (liveafter e List.mem_cons_self) live h.stop
      (nodup.sublist (sub.map _)) before point
    -- The search counts to the same terminator all the time.
    have below : ∀ s ∈ before, s.Below (front ++ e :: after).length := fun s mem => by
      have := below_shiftLeftStores liveafter h.stop front.length rest s (point.subset mem)
      rwa [← List.length_append] at this
    obtain ⟨hdr, records⟩ := performs_below below q
    have hdr : (q.performs before).hdr = p.hdr := hdr.trans (by rw [written])
    have stop : (q.performs before).records[(front ++ e :: after).length]? = some z := by
      have hi : front.length + after.length + 1 - front.length = after.length + 1 := by omega
      rw [records, written, hlen, List.getElem?_append_right (by omega), hi]
      simp
    refine passes_backward (by rw [hdr, leaf]) (by rw [hdr]) (by rw [hdr]) (by rw [hdr, backward])
      keys sub (Or.inr shows) room (Page.count_stop (by rw [hdr, hlast]) stop h.stop) ?_
    rwa [hlen, Nat.add_sub_cancel]

/-- Every store of a removal from a leaf leaves a page that answers as before or as after it. -/
theorem passes_remove {after : List Entry} (h : p.Holds (front ++ e :: after) z rest)
    (leaf : p.hdr.leftmostPtr = 0) (backward : isForward p.hdr.switchCounter = false)
    (room : (front ++ e :: after).length < cardinality)
    (nodup : ((front ++ e :: after).map Entry.ptr).Nodup)
    (keys : ((front ++ e :: after).map Entry.key).Nodup)
    (first : ∀ e' ∈ front, e'.key ≠ key) (hkey : e.key = key) :
    p.Throughout (p.removeKeyStores key) (p.Passes (front ++ e :: after) (front ++ after)) := by
  have sub : (front ++ after).Sublist (front ++ e :: after) :=
    (List.sublist_cons_self e after).append_left front
  have live : ∀ e' ∈ front ++ after, e'.ptr ≠ 0 := fun e' mem => h.live e' (sub.mem mem)
  have hloop : Page.removeLoopStores key 0 p.hdr.leftmostPtr p.records =
      .ptr front.length (Page.childOf p.hdr.leftmostPtr front) ::
        Page.shiftLeftStores front.length (e :: after ++ z :: rest) := by
    rw [h.records, List.append_assoc, List.cons_append,
      removeLoopStores_eq (List.forall_mem_append.mp h.live).1 (h.live e (by simp)) first hkey,
      Nat.zero_add]
  have hstores : p.removeKeyStores key =
      Page.removeLoopStores key 0 p.hdr.leftmostPtr p.records ++
        [.lastIndex (p.hdr.lastIndex - 1)] := by
    rw [Page.removeKeyStores, backward, hloop]
    rfl
  have between : p.Throughout (Page.removeLoopStores key 0 p.hdr.leftmostPtr p.records)
      (p.Passes (front ++ e :: after) (front ++ after)) :=
    hloop ▸ passes_removeLoopStores h leaf backward room nodup keys
  rw [hstores]
  refine throughout_append.mpr ⟨between, throughout_cons.mpr ⟨between.self, atPoints_nil.mpr ?_⟩⟩
  have removed := Page.removeLoop_of_mem key front after h.live h.stop rest first hkey
  rw [← h.records] at removed
  have final := (performs_removeLoopStores [] removed p.hdr.leftmostPtr rfl).1
  rw [List.length_nil, List.nil_append] at final
  rw [final]
  have hlast : p.hdr.lastIndex - 1 + 1 = ((front ++ after).length : Int) := by
    rw [h.lastIndex]
    simp only [List.length_append, List.length_cons]
    omega
  have second : front ++ after = [] → ∃ z' rest', z :: rest = z' :: rest' ∧ z'.ptr = 0 :=
    fun _ => ⟨z, rest, rfl, h.stop⟩
  refine passes_backward leaf rfl rfl backward keys sub (Or.inr ?_)
    (lt_of_le_of_lt sub.length_le room) ?_ ?_
  · exact Page.visible_live rfl live h.stop (fun heq => ⟨leaf, second heq⟩)
      (nodup_leaf leaf live (nodup.sublist (sub.map _)))
  · have stop : (front ++ after ++ z :: z :: rest)[(front ++ after).length]? = some z := by
      rw [List.getElem?_append_right le_rfl, Nat.sub_self]
      rfl
    exact Page.count_stop hlast stop h.stop
  · exact endsAt_live rfl live h.stop second (Or.inr rfl)

end Between

/-! ## The keys that do not move -/

namespace Page

/-- An operation on `k` changes what is found for the key: in a leaf for `k` alone, in an
internal page from `k` up to the next separator. -/
def Moves (p : Page) (k key : Int) : Prop :=
  if p.hdr.leftmostPtr = 0 then key = k
  else k ≤ key ∧ ∀ e ∈ p.live, k < e.key → key < e.key

/-- A pointer that the page does not have: in a leaf the key that is put in, in an internal
page one that has just been allocated (`newPtr_run`). -/
def NewPtr (p : Page) (ptr : Int) : Prop :=
  ptr ≠ 0 ∧ ptr ≠ p.hdr.leftmostPtr ∧ ∀ e ∈ p.live, e.ptr ≠ ptr

instance (p : Page) (ptr : Int) : Decidable (p.NewPtr ptr) :=
  inferInstanceAs (Decidable (ptr ≠ 0 ∧ ptr ≠ p.hdr.leftmostPtr ∧ ∀ e ∈ p.live, e.ptr ≠ ptr))

end Page

section Answer

variable {p : Page} {e : Entry} {below above : List Entry} {k key child : Int}

theorem valueOf_insert (hkey : key ≠ e.key) (below above : List Entry) :
    valueOf key (below ++ e :: above) = valueOf key (below ++ above) := by
  induction below with
  | nil => exact (valueOf_cons key e above).trans (if_neg (Ne.symm hkey))
  | cons e' below ih => rw [List.cons_append, List.cons_append, valueOf_cons, valueOf_cons, ih]

/-- Below the new separator nothing changes. -/
theorem follow_insert_of_lt (hkey : key < e.key) (gt : ∀ e' ∈ above, e.key < e'.key)
    (child : Int) : follow key child (below ++ e :: above) = follow key child (below ++ above) := by
  induction below generalizing child with
  | nil =>
      rw [List.nil_append, List.nil_append, follow, if_pos hkey]
      cases above with
      | nil => rfl
      | cons a above => exact (if_pos (hkey.trans (gt a List.mem_cons_self))).symm
  | cons e' below ih => rw [List.cons_append, List.cons_append, follow, follow, ih]

/-- Neither does it from the next separator on. -/
theorem follow_insert_of_ge (le : ∀ e' ∈ below, e'.key ≤ key) (hkey : e.key ≤ key)
    (ordered : Ordered Entry.key above) (next : ∃ a ∈ above, a.key ≤ key) (child : Int) :
    follow key child (below ++ e :: above) = follow key child (below ++ above) := by
  induction below generalizing child with
  | nil =>
      obtain ⟨a, mem, ha⟩ := next
      cases above with
      | nil => cases mem
      | cons a' above =>
          have ha' : a'.key ≤ key := by
            rcases List.mem_cons.mp mem with rfl | mem
            · exact ha
            · exact le_trans ((List.pairwise_cons.mp ordered).1 a mem) ha
          rw [List.nil_append, List.nil_append, follow, follow, follow, if_neg (not_lt.mpr hkey),
            if_neg (not_lt.mpr ha'), if_neg (not_lt.mpr ha')]
  | cons e' below ih =>
      obtain ⟨he', le⟩ := List.forall_mem_cons.mp le
      rw [List.cons_append, List.cons_append, follow, follow, ih le]

/-- Keys that do not move are answered as before. -/
theorem Page.answer_insert {ptr : Int} (ordered : Ordered Entry.key p.live)
    (cut : Cut Entry.key k p.live below above) (still : ¬ p.Moves k key) :
    p.answer (below ++ ⟨k, ptr⟩ :: above) key = p.answer p.live key := by
  unfold Page.Moves at still
  unfold Page.answer
  rw [cut.eq] at ordered
  split at still
  · rename_i leaf
    rw [if_pos leaf, if_pos leaf, cut.eq]
    exact valueOf_insert (e := ⟨k, ptr⟩) still below above
  · rename_i internal
    rw [if_neg internal, if_neg internal, cut.eq]
    rcases lt_or_ge key k with hlt | hge
    · exact follow_insert_of_lt (e := ⟨k, ptr⟩) hlt cut.lt _
    · refine follow_insert_of_ge (e := ⟨k, ptr⟩) (fun e' mem => (cut.le e' mem).trans hge) hge
        (List.pairwise_append.mp ordered).2.1 ?_ _
      by_contra none
      refine still ⟨hge, fun e mem hlt => ?_⟩
      rw [cut.eq] at mem
      rcases List.mem_append.mp mem with mem | mem
      · exact absurd (cut.le e mem) (not_le.mpr hlt)
      · by_contra hnot
        exact none ⟨e, mem, not_lt.mp hnot⟩

end Answer

namespace BTree

/-- What `linear_search` makes of the answer of a page. -/
def reply (t : BTree) (p : Page) (key ret : Int) : Int :=
  let sib := p.hdr.siblingPtr
  let beyond := sib ≠ 0 ∧ key ≥ (t.page sib).firstKey
  if p.hdr.leftmostPtr = 0 then if ret ≠ 0 then ret else if beyond then sib else 0
  else if beyond then sib
  else if ret ≠ 0 then ret
  else p.hdr.leftmostPtr

theorem linearSearch_eq (t : BTree) (p : Page) (key : Int) :
    t.linearSearch p key = (p.search key).map (t.reply p key) := by
  unfold linearSearch Page.search reply
  by_cases leaf : p.hdr.leftmostPtr = 0
  · simp only [if_pos leaf]
    cases p.searchLeaf key with
    | none => rfl
    | some ret =>
        simp only [Option.bind_eq_bind, Option.bind_some, Option.map_some]
        split
        · rfl
        · exact (apply_ite some _ _ _).symm
  · simp only [if_neg leaf]
    cases p.searchInternal key with
    | none => rfl
    | some ret =>
        simp only [Option.bind_eq_bind, Option.bind_some, Option.map_some]
        split
        · rfl
        · exact (apply_ite some _ _ _).symm

/-- What is promised of the page `q` between two stores of a call for the key `k`, which turns
the page `before` into `after`. -/
structure Searchable (t : BTree) (before after : Page) (k : Int) (q : Page) : Prop where
  others : ∀ key, ¬ before.Moves k key →
    t.linearSearch q key = t.linearSearch before key ∧
      t.linearSearch q key = t.linearSearch after key
  either : ∀ key, t.linearSearch q key = t.linearSearch before key ∨
    t.linearSearch q key = t.linearSearch after key
  /-- No loop leaves the records. -/
  within : (∀ key, (t.linearSearch q key).isSome) ∧ ∃ c < cardinality, q.count = some c

end BTree

section Searchable

variable {t : BTree} {p a q : Page} {before after : List Entry} {k : Int} {l : Nat} {s : Entry}
  {next : Option Entry}

theorem Page.Passes.linearSearch (h : p.Passes before after q) (t : BTree) (key : Int) :
    t.linearSearch q key = some (t.reply p key (p.answer q.visible key)) := by
  rw [BTree.linearSearch_eq, h.search, Option.map_some]
  unfold BTree.reply Page.answer
  rw [h.leftmost, h.sibling]

/-- A page that passes from `before` to `after` is searchable all the time. -/
theorem Page.Passes.searchable (h : p.Passes before after q)
    (start : ∀ key, t.linearSearch p key = some (t.reply p key (p.answer before key)))
    (final : ∀ key, t.linearSearch a key = some (t.reply p key (p.answer after key)))
    (still : ∀ key, ¬ p.Moves k key → p.answer after key = p.answer before key) :
    t.Searchable p a k q := by
  have here := h.linearSearch t
  have either : ∀ key, t.linearSearch q key = t.linearSearch p key ∨
      t.linearSearch q key = t.linearSearch a key := fun key => by
    rw [here, start, final]
    rcases h.shows with heq | heq
    · exact Or.inl (by rw [heq])
    · exact Or.inr (by rw [heq])
  refine ⟨fun key hkey => ?_, either, fun key => by rw [here]; rfl, h.count⟩
  have same : t.linearSearch a key = t.linearSearch p key := by
    rw [start, final, still key hkey]
  rcases either key with heq | heq
  · exact ⟨heq, heq.trans same.symm⟩
  · exact ⟨heq.trans same, heq⟩

/-- The insertion into a page that is read from left to right. -/
theorem PageOk.searchable_insert_forward (ok : PageOk p l s next)
    (nodup : (p.hdr.leftmostPtr :: p.live.map Entry.ptr).Nodup)
    (forward : isForward p.hdr.switchCounter = true) (room : p.live.length < cardinality - 1)
    (k : Int) {ptr : Int} (hptr : p.NewPtr ptr) :
    p.Throughout (p.insertKeyStores k ptr p.live.length)
      (t.Searchable p (p.insertKey k ptr p.live.length).1 k) := by
  obtain ⟨z, rest, holds, second⟩ := ok.holds
  obtain ⟨z', rest, rfl⟩ : ∃ z' rest', rest = z' :: rest' := by
    have size := ok.size
    cases rest with
    | nil =>
        rw [holds.records, List.length_append, List.length_singleton] at size
        omega
    | cons z' rest => exact ⟨z', rest, rfl⟩
  have second' : p.live = [] → p.hdr.leftmostPtr = 0 ∧ z'.ptr = 0 := by
    intro hlive
    obtain ⟨_, _, heq, stop⟩ := second hlive
    obtain ⟨rfl, -⟩ := List.cons.inj heq
    cases l with
    | zero => exact ⟨(ok.leaf rfl).1, stop⟩
    | succ l => exact absurd hlive (ok.internal (Nat.succ_pos l)).2
  have passes := passes_insert holds second' ok.ordered forward room nodup k hptr.1
  have shown : p.visible = p.live := Page.visible_live holds.records holds.live holds.stop
    (fun hlive => ⟨(second' hlive).1, second hlive⟩) nodup
  obtain ⟨below, above, cut, holds'⟩ := holds.insertKey ok.ordered k hptr.1
  have shown' : (p.insertKey k ptr p.live.length).1.visible = below ++ ⟨k, ptr⟩ :: above := by
    refine Page.visible_live holds'.records holds'.live holds'.stop (by simp) ?_
    have perm : (below ++ ⟨k, ptr⟩ :: above).Perm (⟨k, ptr⟩ :: p.live) := by
      rw [cut.eq]
      exact List.perm_middle
    rw [((perm.map Entry.ptr).cons _).nodup_iff]
    obtain ⟨hleft, hnodup⟩ := List.nodup_cons.mp nodup
    refine List.nodup_cons.mpr ⟨fun mem => ?_, List.nodup_cons.mpr ⟨fun mem => ?_, hnodup⟩⟩
    · rcases List.mem_cons.mp mem with heq | mem
      · exact hptr.2.1 heq.symm
      · exact hleft mem
    · obtain ⟨e, he, heq⟩ := List.mem_map.mp mem
      exact hptr.2.2 e he heq
  have final := passes.self
  rw [performs_insertKeyStores] at final
  intro before point
  refine (passes before point).searchable (fun key => ?_) (fun key => ?_) fun key still => ?_
  · rw [← shown]
    exact (passes [] List.nil_prefix).linearSearch t key
  · exact final.linearSearch t key
  · rw [shown']
    exact Page.answer_insert ok.ordered cut still

/-- A page that has been turned stands for the page as it was. -/
theorem BTree.Searchable.of_turned {c : UInt8} (h : t.Searchable (p.turned c) a k q)
    (turn : ∀ key, t.linearSearch (p.turned c) key = t.linearSearch p key) :
    t.Searchable p a k q := by
  refine ⟨fun key still => ?_, fun key => ?_, h.within⟩
  · rw [← turn]
    exact h.others key still
  · rw [← turn]
    exact h.either key

/-- The first store of a call may turn the page. -/
theorem searchable_turned {c : UInt8} {stores : List PageStore} (ok : PageOk p l s next)
    (turn : ∀ key, t.linearSearch (p.turned c) key = t.linearSearch p key)
    (h : (p.turned c).Throughout stores (t.Searchable (p.turned c) a k)) :
    p.Throughout (.switchCounter c :: stores) (t.Searchable p a k) := by
  refine throughout_cons.mpr ⟨?_, fun before point => (h before point).of_turned turn⟩
  have start := (h [] List.nil_prefix).of_turned turn
  refine ⟨fun key still => ?_, fun key => Or.inl rfl, fun key => ?_, p.live.length,
    ok.length_live, ok.count_eq⟩
  · obtain ⟨same, final⟩ := start.others key still
    exact ⟨rfl, same.symm.trans final⟩
  · rw [← turn]
    exact start.within.1 key

theorem PageOk.searchable_insert (ok : PageOk p l s next)
    (nodup : (p.hdr.leftmostPtr :: p.live.map Entry.ptr).Nodup)
    (turn : ∀ c key, t.linearSearch (p.turned c) key = t.linearSearch p key)
    (room : p.live.length < cardinality - 1) (k : Int) {ptr : Int} (hptr : p.NewPtr ptr) :
    p.Throughout (p.insertKeyStores k ptr p.live.length)
      (t.Searchable p (p.insertKey k ptr p.live.length).1 k) := by
  by_cases forward : isForward p.hdr.switchCounter = true
  · exact ok.searchable_insert_forward nodup forward room k hptr
  · have forward' : isForward (p.hdr.switchCounter + 1) = true := by
      have := Page.isForward_insertKey p k ptr p.live.length
      simpa only [Page.insertKey, if_neg forward] using this
    have stores : p.insertKeyStores k ptr p.live.length =
        .switchCounter (p.hdr.switchCounter + 1) ::
          (p.turned (p.hdr.switchCounter + 1)).insertKeyStores k ptr p.live.length := by
      unfold Page.insertKeyStores
      rw [if_neg forward, if_pos (by exact forward')]
      rfl
    have after : ((p.turned (p.hdr.switchCounter + 1)).insertKey k ptr p.live.length).1 =
        (p.insertKey k ptr p.live.length).1 := by
      rw [← performs_insertKeyStores, ← performs_insertKeyStores, stores]
      rfl
    have later := (ok.turned (p.hdr.switchCounter + 1)).searchable_insert_forward (t := t) nodup
      forward' room k hptr
    rw [stores]
    refine searchable_turned ok (turn _) ?_
    rw [← after]
    exact later

/-- A removal from a leaf that is read from right to left. -/
theorem PageOk.searchable_remove_backward (ok : PageOk p 0 s next)
    (keys : (p.live.map Entry.key).Nodup) (backward : isForward p.hdr.switchCounter = false)
    (has : ∃ e ∈ p.live, e.key = k) {p' : Page} (removed : p.removeKey k = some (p', true)) :
    p.Throughout (p.removeKeyStores k) (t.Searchable p p' k) := by
  obtain ⟨z, rest, holds, second⟩ := ok.holds
  obtain ⟨leaf, values⟩ := ok.leaf rfl
  obtain ⟨front, e, back, hlive, first, hkey⟩ := Page.exists_first has
  have nodup : (p.live.map Entry.ptr).Nodup := by
    rwa [List.map_congr_left values]
  have hleft := nodup_leaf leaf holds.live nodup
  have shown : p.visible = p.live := Page.visible_live holds.records holds.live holds.stop
    (fun heq => ⟨leaf, second heq⟩) hleft
  have room := ok.length_live
  rw [hlive] at holds nodup hleft keys room shown
  have passes := passes_remove holds leaf backward room nodup keys first hkey
  have final := passes.self
  rw [performs_removeKeyStores removed] at final
  have shown' : p'.visible = front ++ back := by
    obtain ⟨p₁, removed₁, holds', hdr⟩ := holds.removeKey_of_mem first hkey
    obtain ⟨rfl, -⟩ := Prod.mk.inj (Option.some.inj (removed.symm.trans removed₁))
    have leaf' : p'.hdr.leftmostPtr = 0 := by rw [hdr, leaf]
    refine Page.visible_live holds'.records holds'.live holds'.stop
      (fun _ => ⟨leaf', z, rest, rfl, holds'.stop⟩) ?_
    rw [leaf', ← leaf]
    exact hleft.sublist ((((List.sublist_cons_self e back).append_left front).map _).cons_cons _)
  intro before point
  refine (passes before point).searchable (fun key => ?_) (fun key => ?_) fun key still => ?_
  · rw [← shown]
    exact (passes [] List.nil_prefix).linearSearch t key
  · rw [← shown']
    exact final.linearSearch t key
  · rw [Page.Moves, if_pos leaf] at still
    unfold Page.answer
    rw [if_pos leaf, if_pos leaf]
    exact (valueOf_insert (fun heq => still (heq.trans hkey)) front back).symm

theorem PageOk.searchable_remove (ok : PageOk p 0 s next)
    (keys : (p.live.map Entry.key).Nodup)
    (turn : ∀ c key, t.linearSearch (p.turned c) key = t.linearSearch p key)
    (has : ∃ e ∈ p.live, e.key = k) {p' : Page} (removed : p.removeKey k = some (p', true)) :
    p.Throughout (p.removeKeyStores k) (t.Searchable p p' k) := by
  by_cases forward : isForward p.hdr.switchCounter = true
  · have backward : isForward (p.hdr.switchCounter + 1) = false := by
      unfold isForward at forward ⊢
      rw [beq_iff_eq, ← UInt8.toNat_inj] at forward
      rw [beq_eq_false_iff_ne, ne_eq, ← UInt8.toNat_inj]
      simp only [UInt8.toNat_mod, UInt8.toNat_add, UInt8.reduceToNat] at forward ⊢
      omega
    have stores : p.removeKeyStores k = .switchCounter (p.hdr.switchCounter + 1) ::
        (p.turned (p.hdr.switchCounter + 1)).removeKeyStores k := by
      unfold Page.removeKeyStores
      rw [if_pos forward, if_neg (by rw [Page.turned, backward]; simp)]
      rfl
    have removed' : (p.turned (p.hdr.switchCounter + 1)).removeKey k = some (p', true) := by
      rw [← removed]
      unfold Page.removeKey
      rw [if_pos forward, if_neg (by rw [Page.turned, backward]; simp)]
      rfl
    rw [stores]
    exact searchable_turned ok (turn _)
      ((ok.turned (p.hdr.switchCounter + 1)).searchable_remove_backward keys backward has removed')
  · exact ok.searchable_remove_backward keys (Bool.eq_false_iff.mpr forward) has removed

end Searchable

/-! ## The pages of a tree -/

namespace BTree

/-- Calls over distinct keys: nothing is inserted that is there. -/
def NewKeys (t : BTree) (op : TreeOp) : Prop :=
  TreeKey op.key ∧ (op = .insert op.key → op.key ∉ t.leafKeys)

section Run

variable {alloc : Allocator} {ops : List TreeOp} {t : BTree} {d : Nat} {p : Int}

/-- Every page of the tree can be searched between any two stores of an insertion or of a
removal, and all the stores together make the call.  The tree is one of insertions of keys that are
not there and of deletions; what is inserted into the page is new to it. -/
theorem searchable_run (run : Run (empty alloc) NewKeys ops t) (hd : d ≤ t.depth)
    (mem : p ∈ t.level d) (k : Int) :
    (∀ ptr n, (t.page p).count = some n → n < cardinality - 1 →
      (∀ e ∈ (t.page p).live, e.key ≠ k) → (t.page p).NewPtr ptr →
      (t.page p).performs ((t.page p).insertKeyStores k ptr n) =
          ((t.page p).insertKey k ptr n).1 ∧
        (t.page p).Throughout ((t.page p).insertKeyStores k ptr n)
          (t.Searchable (t.page p) ((t.page p).insertKey k ptr n).1 k)) ∧
    ((t.page p).hdr.leftmostPtr = 0 → (∃ e ∈ (t.page p).live, e.key = k) →
      ∃ p', (t.page p).removeKey k = some (p', true) ∧
        (t.page p).performs ((t.page p).removeKeyStores k) = p' ∧
        (t.page p).Throughout ((t.page p).removeKeyStores k)
          (t.Searchable (t.page p) p' k)) := by
  obtain ⟨n, row, rows, -, single⟩ := run.trails fun _ _ => And.left
  have single := single fun _ _ => And.right
  obtain ⟨s, next, ok, -, children⟩ := rows.pageOk_level hd mem
  have tree : Run (empty alloc) (fun _ op => TreeKey op.key) ops t :=
    run.mono fun _ _ => And.left
  have turn : ∀ c key, t.linearSearch ((t.page p).turned c) key = t.linearSearch (t.page p) key :=
    fun c key => (linearSearch_run tree hd mem key c).trans
      (linearSearch_run tree hd mem key (t.page p).hdr.switchCounter).symm
  have leafKeys : t.depth - d = 0 → ((t.page p).live.map Entry.key).Nodup := by
    intro height
    have root : t.depth = n := rows.root.trans (Nat.zero_add n)
    have bottom : d = n := by omega
    rw [bottom, rows.upward.level_eq] at mem
    obtain ⟨x, hx, rfl⟩ := List.mem_map.mp mem
    exact single.nodup_live rows.isRow hx
  constructor
  · intro ptr m count room _ hptr
    rw [ok.count_eq] at count
    obtain rfl := Option.some.inj count
    refine ⟨performs_insertKeyStores .., ok.searchable_insert ?_ turn room k hptr⟩
    cases height : t.depth - d with
    | zero =>
        obtain ⟨leaf, values⟩ := (height ▸ ok).leaf rfl
        obtain ⟨z, rest, holds, -⟩ := ok.holds
        refine nodup_leaf leaf holds.live ?_
        rw [List.map_congr_left values]
        exact leafKeys height
    | succ l =>
        rwa [Page.children, if_neg ((height ▸ ok).internal (Nat.succ_pos l)).1] at children
  · intro leaf has
    have height : t.depth - d = 0 := by
      by_contra inner
      exact (ok.internal (Nat.pos_of_ne_zero inner)).1 leaf
    rw [height] at ok
    obtain ⟨p', _, _, _, removed, -⟩ := ok.removeKey_mem has
    exact ⟨p', removed, performs_removeKeyStores removed,
      ok.searchable_remove (leafKeys height) turn has removed⟩

/-- A leaf with two records, between the stores that put one in the middle or take the first. -/
theorem searchable_run_two :
    ∃ t, Run (empty (.bump 100)) NewKeys [.insert 5, .insert 9] t ∧
      (t.page t.root).Throughout ((t.page t.root).insertKeyStores 7 7 2)
        (t.Searchable (t.page t.root) ((t.page t.root).insertKey 7 7 2).1 7) ∧
      ∃ p', (t.page t.root).removeKey 5 = some (p', true) ∧
        (t.page t.root).performs ((t.page t.root).removeKeyStores 5) = p' ∧
        (t.page t.root).Throughout ((t.page t.root).removeKeyStores 5)
          (t.Searchable (t.page t.root) p' 5) := by
  have run : Run (empty (.bump 100)) NewKeys [.insert 5, .insert 9] _ :=
    (Run.nil.step (.insert 5) ⟨by decide, fun _ => by decide⟩ ⟨2, rfl⟩).step (.insert 9)
      ⟨by decide, fun _ => by decide⟩ ⟨2, rfl⟩
  have root := searchable_run run (Nat.zero_le _) (List.mem_singleton_self _)
  exact ⟨_, run, ((root 7).1 7 2 (by decide) (by decide) (by decide) (by decide)).2,
    (root 5).2 (by decide) (by decide)⟩

/-- What the callers of `insert_key` put into a page is new to it: in a leaf a key that is not
there, in an internal page the page that is allocated next. -/
theorem newPtr_run (run : Run (empty alloc) NewKeys ops t) (hd : d ≤ t.depth)
    (mem : p ∈ t.level d) :
    (d = t.depth → ∀ key ≠ 0, (∀ e ∈ (t.page p).live, e.key ≠ key) → (t.page p).NewPtr key) ∧
      (d < t.depth → (t.page p).NewPtr t.fresh) := by
  obtain ⟨n, row, rows, -⟩ := run.rows (fun _ _ => And.left) (rows_empty alloc).1
  obtain ⟨s, next, ok, -⟩ := rows.pageOk_level hd mem
  constructor
  · rintro rfl key ne absent
    rw [Nat.sub_self] at ok
    obtain ⟨leaf, values⟩ := ok.leaf rfl
    refine ⟨ne, leaf ▸ ne, fun e he heq => absent e he ?_⟩
    rw [← values e he, heq]
  · intro inner
    obtain ⟨internal, -⟩ := ok.internal (Nat.sub_pos_of_lt inner)
    -- The children are pages of the level below.
    have old : ∀ c ∈ (t.page p).children, c ≠ t.fresh := by
      rintro c hc rfl
      have below : t.fresh ∈ t.level (d + 1) := by
        rw [BTree.level]
        exact List.mem_flatMap.mpr ⟨p, mem, hc⟩
      obtain ⟨_, _, -, alloc, -⟩ := rows.pageOk_level inner below
      exact t.fresh_not_allocated alloc
    rw [Page.children, if_neg internal] at old
    obtain ⟨hleft, hlive⟩ := List.forall_mem_cons.mp old
    exact ⟨t.alloc.ne_null _, Ne.symm hleft, fun e he => hlive e.ptr (List.mem_map_of_mem he)⟩

end Run

end BTree

end F3Tree
