import F3Tree.Rows

/-!
# Storing a record

`store` on the home page of a key either puts the record there, or splits the page,
puts the record into one of the halves and inserts the new slot one row up.  `Put`
says what that does to the pages of the row; the row keeps its form and gains the
record at the cut of its key (`Put.isRow`), and the rows above take the new slot
(`Rows.stores`).
-/

namespace F3Tree

open Keyed Fuel

/-! ## One page -/

section PageOk

variable {p : Page} {l : Nat} {s : Entry} {next : Option Entry}

theorem PageThin.of_holds {es rest : List Entry} {z : Entry} (h : p.Holds es z rest)
    (second : es = [] → ∃ z' rest', rest = z' :: rest' ∧ z'.ptr = 0)
    (size : es.length + rest.length + 1 = cardinality) (alive : p.hdr.isDeleted = false)
    (level : p.hdr.level = l) (sibling : p.hdr.siblingPtr = (next.map Entry.ptr).getD 0)
    (ordered : Ordered Entry.key es)
    (range : ∀ e ∈ es ++ z :: rest, s.key ≤ e.key ∧ e.key ≤ longMax)
    (below : ∀ n ∈ next, s.key ≤ n.key ∧ (∀ e ∈ es, e.key ≤ n.key) ∧
      (es.filter fun e => e.key = n.key).length ≤ (cardinality - 1) / 2)
    (leaf : l = 0 → p.hdr.leftmostPtr = 0 ∧ ∀ e ∈ es, e.ptr = e.key)
    (internal : 0 < l → p.hdr.leftmostPtr ≠ 0) : PageThin p l s next := by
  obtain rfl := h.live_eq
  refine ⟨⟨z, rest, h, second⟩, ?_, alive, level, sibling, ordered, h.records ▸ range, below,
    leaf, internal⟩
  rw [h.records, List.length_append, List.length_cons]
  omega

theorem PageOk.of_holds {es rest : List Entry} {z : Entry} (h : p.Holds es z rest)
    (second : es = [] → ∃ z' rest', rest = z' :: rest' ∧ z'.ptr = 0)
    (size : es.length + rest.length + 1 = cardinality) (alive : p.hdr.isDeleted = false)
    (level : p.hdr.level = l) (sibling : p.hdr.siblingPtr = (next.map Entry.ptr).getD 0)
    (ordered : Ordered Entry.key es)
    (range : ∀ e ∈ es ++ z :: rest, s.key ≤ e.key ∧ e.key ≤ longMax)
    (below : ∀ n ∈ next, s.key ≤ n.key ∧ (∀ e ∈ es, e.key ≤ n.key) ∧
      (es.filter fun e => e.key = n.key).length ≤ (cardinality - 1) / 2)
    (leaf : l = 0 → p.hdr.leftmostPtr = 0 ∧ ∀ e ∈ es, e.ptr = e.key)
    (internal : 0 < l → p.hdr.leftmostPtr ≠ 0 ∧ es ≠ []) : PageOk p l s next :=
  (PageThin.of_holds h second size alive level sibling ordered range below leaf fun hl =>
    (internal hl).1).ok fun hl => h.live_eq ▸ (internal hl).2

/-- A page with room takes a record whose key lies between its slot and the next. -/
theorem PageThin.insertKey (ok : PageThin p l s next) (room : p.live.length < cardinality - 1)
    {key ptr : Int} (least : s.key ≤ key) (most : key ≤ longMax) (lt : ∀ n ∈ next, key < n.key)
    (hptr : ptr ≠ 0) (value : l = 0 → ptr = key) :
    PageThin (p.insertKey key ptr p.live.length).1 l s next ∧
      Inserted Entry.key ⟨key, ptr⟩ p.live (p.insertKey key ptr p.live.length).1.live := by
  obtain ⟨z, rest, holds, -⟩ := ok.holds
  have size := ok.size
  rw [holds.records, List.length_append, List.length_cons] at size
  cases rest with
  | nil =>
      rw [List.length_nil] at size
      omega
  | cons z' rest =>
      obtain ⟨below, above, cut, holds'⟩ := holds.insertKey ok.ordered key hptr
      refine ⟨.of_holds holds' (by simp) ?_ ok.alive ok.level ok.sibling ?_ ?_ ?_ ?_ ?_,
        below, above, cut, holds'.live_eq⟩
      · have := congrArg List.length cut.eq
        simp only [List.length_append, List.length_cons] at this size ⊢
        omega
      · exact cut.ordered_insert ok.ordered (x := ⟨key, ptr⟩)
      · have range := ok.range
        rw [holds.records, cut.eq] at range
        intro e mem
        simp only [List.mem_append, List.mem_cons] at mem range
        rcases mem with (mem | rfl | mem) | rfl | mem
        · exact range e (Or.inl (Or.inl mem))
        · exact ⟨least, most⟩
        · exact range e (Or.inl (Or.inr mem))
        · exact range z' (Or.inr (Or.inr (Or.inl rfl)))
        · exact range e (Or.inr (Or.inr (Or.inr mem)))
      · intro n hn
        obtain ⟨hle, hlive, few⟩ := ok.below n hn
        refine ⟨hle, fun e mem => ?_, ?_⟩
        · rw [List.mem_append, List.mem_cons] at mem
          rcases mem with mem | rfl | mem
          · exact hlive e (cut.eq ▸ List.mem_append_left _ mem)
          · exact (lt n hn).le
          · exact hlive e (cut.eq ▸ List.mem_append_right _ mem)
        · rw [cut.eq, List.filter_append] at few
          rw [List.filter_append, List.filter_cons_of_neg (by simpa using (lt n hn).ne)]
          exact few
      · intro hl
        obtain ⟨hleft, values⟩ := ok.leaf hl
        refine ⟨hleft, fun e mem => ?_⟩
        rw [List.mem_append, List.mem_cons] at mem
        rcases mem with mem | rfl | mem
        · exact values e (cut.eq ▸ List.mem_append_left _ mem)
        · exact value hl
        · exact values e (cut.eq ▸ List.mem_append_right _ mem)
      · exact ok.internal

theorem PageOk.insertKey (ok : PageOk p l s next) (room : p.live.length < cardinality - 1)
    {key ptr : Int} (least : s.key ≤ key) (most : key ≤ longMax) (lt : ∀ n ∈ next, key < n.key)
    (hptr : ptr ≠ 0) (value : l = 0 → ptr = key) :
    PageOk (p.insertKey key ptr p.live.length).1 l s next ∧
      Inserted Entry.key ⟨key, ptr⟩ p.live (p.insertKey key ptr p.live.length).1.live := by
  obtain ⟨thin, ins⟩ := ok.thin.insertKey room least most lt hptr value
  exact ⟨thin.ok fun _ => List.ne_nil_of_mem (ins.mem_iff.mpr (Or.inl rfl)), ins⟩

theorem PageThin.entries_insertKey (ok : PageThin p l s next)
    (room : p.live.length < cardinality - 1) {key ptr : Int} (least : s.key ≤ key)
    (most : key ≤ longMax) (lt : ∀ n ∈ next, key < n.key) (hptr : ptr ≠ 0)
    (value : l = 0 → ptr = key) :
    Inserted Entry.key ⟨key, ptr⟩ (p.entries s.key)
      ((p.insertKey key ptr p.live.length).1.entries s.key) := by
  have ins := (ok.insertKey room least most lt hptr value).2
  have same : (p.insertKey key ptr p.live.length).1.hdr.leftmostPtr = p.hdr.leftmostPtr := rfl
  rw [Page.entries, Page.entries, same]
  split
  · exact ins
  · exact ins.append_left [_] fun y mem => List.mem_singleton.mp mem ▸ least

theorem PageOk.entries_insertKey (ok : PageOk p l s next)
    (room : p.live.length < cardinality - 1) {key ptr : Int} (least : s.key ≤ key)
    (most : key ≤ longMax) (lt : ∀ n ∈ next, key < n.key) (hptr : ptr ≠ 0)
    (value : l = 0 → ptr = key) :
    Inserted Entry.key ⟨key, ptr⟩ (p.entries s.key)
      ((p.insertKey key ptr p.live.length).1.entries s.key) :=
  ok.thin.entries_insertKey room least most lt hptr value

/-- The halves of a split page, the new one in the slot of the split key. -/
structure SplitOk (p : Page) (l : Nat) (s : Entry) (next : Option Entry) (sibling : Int)
    (halves : Page.Split) : Prop where
  left : PageOk halves.left l s (some ⟨halves.splitKey, sibling⟩)
  right : PageOk halves.sibling l ⟨halves.splitKey, sibling⟩ next
  least : s.key ≤ halves.splitKey
  most : halves.splitKey ≤ longMax
  lt : ∀ n ∈ next, halves.splitKey < n.key
  leftCnt : (halves.left.hdr.lastIndex + 1).toNat = halves.left.live.length
  siblingCnt : halves.siblingCnt = halves.sibling.live.length
  leftRoom : halves.left.live.length < cardinality - 1
  siblingRoom : halves.sibling.live.length < cardinality - 1
  entries : p.entries s.key = halves.left.entries s.key ++ halves.sibling.entries halves.splitKey
  leaf : l = 0 → ∃ e ∈ halves.sibling.live, e.key = halves.splitKey

/-- Half of a full page cannot have the key of the next slot, so the split key lies
before it. -/
theorem PageOk.middle_lt (ok : PageOk p l s next) {before after : List Entry} {e : Entry}
    (hlive : p.live = before ++ e :: after) (half : (cardinality - 1) / 2 < after.length + 1) :
    ∀ n ∈ next, e.key < n.key := by
  intro n hn
  obtain ⟨-, hle, few⟩ := ok.below n hn
  refine lt_of_le_of_ne (hle e (hlive ▸ by simp)) fun heq => ?_
  have ordered := ok.ordered
  rw [hlive] at ordered few hle
  have all : ∀ e' ∈ e :: after, e'.key = n.key := by
    intro e' mem
    refine le_antisymm (hle e' (List.mem_append_right _ mem)) (heq ▸ ?_)
    rcases List.mem_cons.mp mem with rfl | mem
    · exact le_rfl
    · exact (List.pairwise_cons.mp (List.pairwise_append.mp ordered).2.1).1 e' mem
  have hfilter : (e :: after).filter (fun e => e.key = n.key) = e :: after :=
    List.filter_eq_self.mpr fun e' mem => decide_eq_true (all e' mem)
  rw [List.filter_append, hfilter, List.length_append, List.length_cons] at few
  omega

/-- The live records of a full page, around the middle one. -/
theorem PageOk.middle (ok : PageOk p l s next) (full : p.live.length = cardinality - 1) :
    ∃ before e after z rest, p.Holds (before ++ e :: after) z rest ∧
      before.length = (cardinality - 1) / 2 ∧ after.length = (cardinality - 1) / 2 := by
  obtain ⟨z, rest, holds, -⟩ := ok.holds
  have hcard := cardinality_eq
  cases hdrop : p.live.drop ((cardinality - 1) / 2) with
  | nil =>
      have := List.drop_eq_nil_iff.mp hdrop
      omega
  | cons e after =>
      have hlive : p.live = p.live.take ((cardinality - 1) / 2) ++ e :: after := by
        rw [← hdrop, List.take_append_drop]
      have hbefore : (p.live.take ((cardinality - 1) / 2)).length = (cardinality - 1) / 2 := by
        rw [List.length_take]
        omega
      have hlen := congrArg List.length hlive
      rw [List.length_append, List.length_cons] at hlen
      exact ⟨_, e, after, z, rest, hlive ▸ holds, hbefore, by omega⟩

section Middle

variable {before after rest : List Entry} {e z : Entry} {q : Page} {sibling : Int}

/-- The left half, up to the slot of the middle record. -/
theorem PageOk.split_left (ok : PageOk p l s next) (holds : p.Holds (before ++ e :: after) z rest)
    (half : before.length = (cardinality - 1) / 2)
    (left : q.Holds before { e with ptr := 0 } (after ++ z :: rest))
    (hdr : q.hdr = { p.hdr with
      siblingPtr := sibling, switchCounter := q.hdr.switchCounter
      lastIndex := q.hdr.lastIndex }) : PageOk q l s (some ⟨e.key, sibling⟩) := by
  have hcard := cardinality_eq
  have ordered := ok.ordered
  rw [holds.live_eq] at ordered
  obtain ⟨ordered₁, -, across⟩ := List.pairwise_append.mp ordered
  have hrange : ∀ e', (e' ∈ before ∨ e' = e ∨ e' ∈ after) ∨ e' = z ∨ e' ∈ rest →
      s.key ≤ e'.key ∧ e'.key ≤ longMax := fun e' mem => by
    refine ok.range e' ?_
    rw [holds.records]
    simpa [or_assoc] using mem
  have size : before.length + (after ++ z :: rest).length + 1 = cardinality := by
    have := ok.size
    rw [holds.records, List.length_append] at this
    simp only [List.length_append, List.length_cons] at this ⊢
    omega
  refine .of_holds left (fun h => ?_) size (congrArg Header.isDeleted hdr ▸ ok.alive)
    (congrArg Header.level hdr ▸ ok.level) (congrArg Header.siblingPtr hdr)
    ordered₁ (fun e' mem => ?_) (fun n hn => ?_) (fun hl => ?_) fun hl => ?_
  · rw [h, List.length_nil] at half
    omega
  · rw [List.mem_append, List.mem_cons, List.mem_append, List.mem_cons] at mem
    rcases mem with mem | rfl | mem | mem
    · exact hrange e' (Or.inl (Or.inl mem))
    · exact hrange e (Or.inl (Or.inr (Or.inl rfl)))
    · exact hrange e' (Or.inl (Or.inr (Or.inr mem)))
    · exact hrange e' (Or.inr mem)
  · obtain rfl := Option.mem_some_iff.mp hn
    refine ⟨(hrange e (Or.inl (Or.inr (Or.inl rfl)))).1,
      fun e' mem => across e' mem e List.mem_cons_self, ?_⟩
    exact (List.length_filter_le _ _).trans half.le
  · refine ⟨congrArg Header.leftmostPtr hdr ▸ (ok.leaf hl).1, fun e' mem => ?_⟩
    exact (ok.leaf hl).2 e' (holds.live_eq ▸ List.mem_append_left _ mem)
  · refine ⟨congrArg Header.leftmostPtr hdr ▸ (ok.internal hl).1, fun h => ?_⟩
    rw [h, List.length_nil] at half
    omega

/-- A leaf moves the middle record too, an internal page makes it the leftmost child. -/
theorem PageOk.split_right (ok : PageOk p l s next) (holds : p.Holds (before ++ e :: after) z rest)
    (half : before.length = (cardinality - 1) / 2) (half' : after.length = (cardinality - 1) / 2)
    {moved : List Entry} (hmoved : moved = if p.hdr.leftmostPtr = 0 then e :: after else after)
    (right : q.Holds moved {} (List.replicate (cardinality - 1 - moved.length) {}))
    (hdr : q.hdr =
      { leftmostPtr := if p.hdr.leftmostPtr = 0 then 0 else e.ptr
        siblingPtr := p.hdr.siblingPtr, level := p.hdr.level
        switchCounter := q.hdr.switchCounter, lastIndex := q.hdr.lastIndex }) :
    PageOk q l ⟨e.key, sibling⟩ next := by
  have hcard := cardinality_eq
  have hlt := ok.middle_lt holds.live_eq (by omega)
  have sub : moved.Sublist (e :: after) := by
    rw [hmoved]
    split
    · exact List.Sublist.refl _
    · exact List.sublist_cons_self _ _
  have hlength : moved.length = after.length + 1 ∨ moved.length = after.length := by
    rw [hmoved]
    split
    · exact Or.inl (List.length_cons ..)
    · exact Or.inr rfl
  have ordered := ok.ordered
  rw [holds.live_eq] at ordered
  obtain ⟨-, ordered, -⟩ := List.pairwise_append.mp ordered
  have hrange : ∀ e' ∈ e :: after, e'.key ≤ longMax := fun e' mem => by
    refine (ok.range e' ?_).2
    rw [holds.records]
    exact List.mem_append_left _ (List.mem_append_right _ mem)
  have hafter : ∀ e' ∈ e :: after, e.key ≤ e'.key := fun e' mem => by
    rcases List.mem_cons.mp mem with rfl | mem
    · exact le_rfl
    · exact (List.pairwise_cons.mp ordered).1 e' mem
  have he := hrange e List.mem_cons_self
  refine .of_holds right (fun h => ?_) ?_ (congrArg Header.isDeleted hdr)
    ((congrArg Header.level hdr).trans ok.level)
    ((congrArg Header.siblingPtr hdr).trans ok.sibling) (ordered.sublist sub)
    (fun e' mem => ?_) (fun n hn => ?_) (fun hl => ?_) fun hl => ?_
  · rw [h, List.length_nil] at hlength
    omega
  · rw [List.length_replicate]
    omega
  · rw [List.mem_append, List.mem_cons] at mem
    rcases mem with mem | rfl | mem
    · exact ⟨hafter e' (sub.mem mem), hrange e' (sub.mem mem)⟩
    · exact ⟨he, le_rfl⟩
    · rw [List.eq_of_mem_replicate mem]
      exact ⟨he, le_rfl⟩
  · obtain ⟨-, hle, few⟩ := ok.below n hn
    rw [holds.live_eq] at hle few
    refine ⟨(hlt n hn).le, fun e' mem => hle e' (List.mem_append_right _ (sub.mem mem)), ?_⟩
    refine le_trans ?_ few
    exact ((sub.trans (List.sublist_append_right _ _)).filter _).length_le
  · obtain ⟨leftmost, values⟩ := ok.leaf hl
    rw [holds.live_eq] at values
    refine ⟨?_, fun e' mem => values e' (List.mem_append_right _ (sub.mem mem))⟩
    exact (congrArg Header.leftmostPtr hdr).trans (if_pos leftmost)
  · have leftmost := (ok.internal hl).1
    refine ⟨?_, fun h => ?_⟩
    · rw [congrArg Header.leftmostPtr hdr, if_neg leftmost]
      exact holds.live e (by simp)
    · rw [h, List.length_nil] at hlength
      omega

end Middle

theorem PageOk.split (ok : PageOk p l s next) (full : p.live.length = cardinality - 1)
    {sibling : Int} (hsibling : sibling ≠ 0) :
    SplitOk p l s next sibling (p.split p.live.length sibling) := by
  have hcard := cardinality_eq
  obtain ⟨before, e, after, z, rest, holds, half, half'⟩ := ok.middle full
  have hlive := holds.live_eq
  have ordered := ok.ordered
  rw [hlive] at ordered
  have hholds := holds.split_eq ordered (by rw [← hlive, half, full]) (by omega) sibling
  rw [← hlive] at hholds
  obtain ⟨hkey, hcnt, hleft, hleftHdr, hright, hrightHdr⟩ := hholds
  have left := ok.split_left holds half hleft hleftHdr
  have right : PageOk (p.split p.live.length sibling).sibling l ⟨e.key, sibling⟩ next :=
    ok.split_right holds half half' rfl hright hrightHdr
  have hlt := ok.middle_lt hlive (by omega)
  have he : s.key ≤ e.key ∧ e.key ≤ longMax := ok.range e (by
    rw [holds.records]
    simp)
  generalize hmoved : (if p.hdr.leftmostPtr = 0 then e :: after else after) = moved at hcnt hright
  have hlength : moved.length = after.length + 1 ∨ moved.length = after.length := by
    rw [← hmoved]
    split
    · exact Or.inl (List.length_cons ..)
    · exact Or.inr rfl
  refine ⟨hkey ▸ left, hkey ▸ right, hkey ▸ he.1, hkey ▸ he.2, hkey ▸ hlt, ?_, ?_, ?_, ?_, ?_, ?_⟩
  · rw [hleft.live_eq, hleft.lastIndex]
    omega
  · rw [hright.live_eq, hcnt]
  · rw [hleft.live_eq]
    omega
  · rw [hright.live_eq]
    omega
  · rw [Page.entries, Page.entries, Page.entries, hleft.live_eq, hright.live_eq, hkey,
      congrArg Header.leftmostPtr hleftHdr, congrArg Header.leftmostPtr hrightHdr, ← hmoved, hlive]
    by_cases leftmost : p.hdr.leftmostPtr = 0
    · simp [leftmost]
    · have hptr : e.ptr ≠ 0 := holds.live e (by simp)
      simp [leftmost, hptr]
  · intro hl
    rw [hright.live_eq, hkey, ← hmoved, if_pos (ok.leaf hl).1]
    exact ⟨e, List.mem_cons_self, rfl⟩

/-- The halves after the new record has gone into one of them. -/
structure Halves (p : Page) (l : Nat) (s : Entry) (next : Option Entry) (e n : Entry)
    (halves : Page × Page) : Prop where
  left : PageOk halves.1 l s (some n)
  right : PageOk halves.2 l n next
  entries : Inserted Entry.key e (p.entries s.key)
    (halves.1.entries s.key ++ halves.2.entries n.key)
  below : l = 0 → ∀ key < n.key,
    (∃ e' ∈ halves.1.live, e'.key = key) ↔ key = e.key ∨ ∃ e' ∈ p.live, e'.key = key
  above : l = 0 → ∀ key, n.key ≤ key →
    ((∃ e' ∈ halves.2.live, e'.key = key) ↔ key = e.key ∨ ∃ e' ∈ p.live, e'.key = key)

theorem SplitOk.live_eq {sibling : Int} {halves : Page.Split}
    (sp : SplitOk p l s next sibling halves) (ok : PageOk p l s next) (hl : l = 0) :
    p.live = halves.left.live ++ halves.sibling.live := by
  have := sp.entries
  rwa [Page.entries, Page.entries, Page.entries, if_pos (ok.leaf hl).1,
    if_pos (sp.left.leaf hl).1, if_pos (sp.right.leaf hl).1] at this

/-- The split key of a leaf that has no key twice lies above the first record. -/
theorem SplitOk.lt_splitKey {sibling : Int} {halves : Page.Split}
    (sp : SplitOk p 0 s next sibling halves) (ok : PageOk p 0 s next)
    (full : p.live.length = cardinality - 1) (nodup : (p.live.map Entry.key).Nodup) :
    s.key < halves.splitKey := by
  have hlive := sp.live_eq ok rfl
  have nonempty : halves.left.live ≠ [] := by
    intro hnil
    have room := sp.siblingRoom
    rw [hlive, hnil, List.nil_append] at full
    omega
  obtain ⟨e, mem⟩ := List.exists_mem_of_ne_nil _ nonempty
  obtain ⟨e', mem', hkey⟩ := sp.leaf rfl
  have hle : e.key ≤ halves.splitKey := (sp.left.below _ rfl).2.1 e mem
  have hne : e.key ≠ halves.splitKey := by
    rw [hlive, List.map_append] at nodup
    rw [← hkey]
    exact (List.nodup_append.mp nodup).2.2 _ (List.mem_map_of_mem mem) _ (List.mem_map_of_mem mem')
  exact (sp.left.range e (sp.left.mem_records mem)).1.trans_lt (lt_of_le_of_ne hle hne)

theorem SplitOk.insert {sibling : Int} {halves : Page.Split}
    (sp : SplitOk p l s next sibling halves) (ok : PageOk p l s next) {key ptr : Int}
    (least : s.key ≤ key) (most : key ≤ longMax) (lt : ∀ n ∈ next, key < n.key)
    (hptr : ptr ≠ 0) (value : l = 0 → ptr = key) :
    Halves p l s next ⟨key, ptr⟩ ⟨halves.splitKey, sibling⟩ (halves.insert key ptr) := by
  have live := sp.live_eq ok
  have leftLe : ∀ e ∈ halves.left.live, e.key ≤ halves.splitKey := fun e mem =>
    (sp.left.below _ rfl).2.1 e mem
  have rightGe : ∀ e ∈ halves.sibling.live, halves.splitKey ≤ e.key := fun e mem =>
    (sp.right.range e (sp.right.mem_records mem)).1
  have inLeft : l = 0 → ∀ k < halves.splitKey,
      (∃ e ∈ p.live, e.key = k) ↔ ∃ e ∈ halves.left.live, e.key = k := by
    intro hl k hk
    rw [live hl]
    constructor
    · rintro ⟨e, mem, rfl⟩
      rcases List.mem_append.mp mem with mem | mem
      · exact ⟨e, mem, rfl⟩
      · exact absurd (rightGe e mem) (not_le.mpr hk)
    · rintro ⟨e, mem, rfl⟩
      exact ⟨e, List.mem_append_left _ mem, rfl⟩
  have inRight : l = 0 → ∀ k, halves.splitKey ≤ k →
      ((∃ e ∈ p.live, e.key = k) ↔ ∃ e ∈ halves.sibling.live, e.key = k) := by
    intro hl k hk
    rw [live hl]
    constructor
    · rintro ⟨e, mem, rfl⟩
      rcases List.mem_append.mp mem with mem | mem
      · -- A duplicate of the split key on the left: the split key itself is on the right.
        rw [le_antisymm (leftLe e mem) hk]
        exact sp.leaf hl
      · exact ⟨e, mem, rfl⟩
    · rintro ⟨e, mem, rfl⟩
      exact ⟨e, List.mem_append_right _ mem, rfl⟩
  rw [Page.Split.insert]
  split
  · rename_i hlt
    rw [sp.leftCnt]
    have lt' : ∀ n ∈ some (⟨halves.splitKey, sibling⟩ : Entry), key < n.key := fun n hn =>
      Option.mem_some_iff.mp hn ▸ hlt
    obtain ⟨ok', ins⟩ := sp.left.insertKey sp.leftRoom least most lt' hptr value
    refine ⟨ok', sp.right, ?_, fun hl k hk => ?_, fun hl k hk => ?_⟩
    · rw [sp.entries]
      refine (sp.left.entries_insertKey sp.leftRoom least most lt' hptr value).append_right
        fun e mem => lt_of_lt_of_le hlt (sp.right.range_entries mem).1
    · rw [ins.exists_key_iff, inLeft hl k hk]
    · rw [← inRight hl k hk, or_iff_right (ne_of_gt (lt_of_lt_of_le hlt hk))]
  · rename_i hge
    rw [sp.siblingCnt]
    have least' : halves.splitKey ≤ key := not_lt.mp hge
    obtain ⟨ok', ins⟩ := sp.right.insertKey sp.siblingRoom least' most lt hptr value
    refine ⟨sp.left, ok', ?_, fun hl k hk => ?_, fun hl k hk => ?_⟩
    · rw [sp.entries]
      refine (sp.right.entries_insertKey sp.siblingRoom least' most lt hptr value).append_left
        _ fun e mem => ((sp.left.range_entries mem).2 _ rfl).trans least'
    · rw [← inLeft hl k hk, or_iff_right (ne_of_lt (lt_of_lt_of_le hk least'))]
    · rw [ins.exists_key_iff, inRight hl k hk]

end PageOk

namespace BTree

/-! ## What changes between two trees -/

/-- From `t` to `t'` pages are only added, and those that satisfy `P` stay. -/
structure Keeps (t t' : BTree) (P : Page → Prop) : Prop where
  alloc : t'.alloc = t.alloc
  allocated : t.allocated ≤ t'.allocated
  rootRef : t'.rootRef = t.rootRef
  pages : ∀ q, t.Allocated q → P (t.page q) → t'.page q = t.page q

section Keeps

variable {t t' t'' : BTree} {P Q : Page → Prop} {n l : Nat} {row : List Entry}

theorem Keeps.mono (keeps : Keeps t t' P) (sub : ∀ p, Q p → P p) : Keeps t t' Q :=
  ⟨keeps.alloc, keeps.allocated, keeps.rootRef, fun q hq h => keeps.pages q hq (sub _ h)⟩

theorem Keeps.allocated_of (keeps : Keeps t t' P) {q : Int} (h : t.Allocated q) :
    t'.Allocated q := by
  obtain ⟨i, hi, rfl⟩ := h
  exact ⟨i, lt_of_lt_of_le hi keeps.allocated, by rw [keeps.alloc]⟩

theorem Keeps.trans (keeps : Keeps t t' P) (keeps' : Keeps t' t'' P) : Keeps t t'' P := by
  refine ⟨keeps'.alloc.trans keeps.alloc, keeps.allocated.trans keeps'.allocated,
    keeps'.rootRef.trans keeps.rootRef, fun q hq h => ?_⟩
  have same := keeps.pages q hq h
  exact (keeps'.pages q (keeps.allocated_of hq) (same ▸ h)).trans same

theorem Keeps.rowPages {next : Option Entry} (keeps : Keeps t t' P) (h : t.ThinRow l row next)
    (hP : ∀ p, p.hdr.level = l → P p) : ∀ s ∈ row, t'.page s.ptr = t.page s.ptr := by
  intro s mem
  obtain ⟨_, ok, alloc⟩ := h.pageThin mem
  exact keeps.pages _ alloc (hP _ ok.level)

theorem Keeps.thinRow {next : Option Entry} (keeps : Keeps t t' P) (h : t.ThinRow l row next)
    (hP : ∀ p, p.hdr.level = l → P p) :
    t'.ThinRow l row next ∧ t'.contents row = t.contents row := by
  have same := keeps.rowPages h hP
  refine ⟨h.congr same fun p => keeps.allocated_of, ?_⟩
  exact List.flatMap_congr fun s mem => by rw [same s mem]

theorem Keeps.isRow {next : Option Entry} (keeps : Keeps t t' P) (h : t.Row l row next)
    (hP : ∀ p, p.hdr.level = l → P p) :
    t'.Row l row next ∧ t'.contents row = t.contents row :=
  ⟨h.congr (keeps.rowPages h.thin hP) fun _ => keeps.allocated_of, (keeps.thinRow h.thin hP).2⟩

theorem Keeps.upward (keeps : Keeps t t' P) (hroot : t'.root = t.root) (h : t.Over n l row)
    (hP : ∀ p, l < p.hdr.level → P p) : t'.Over n l row := by
  induction n generalizing l row with
  | zero =>
      obtain rfl := h
      exact congrArg (fun root => [(⟨longMin, root⟩ : Entry)]) hroot.symm
  | succ n ih =>
      obtain ⟨nodup, upper, hupper, upward, rfl⟩ := h
      obtain ⟨hupper', same⟩ := keeps.isRow hupper fun p hp => hP p (by omega)
      exact ⟨nodup, upper, hupper', ih upward fun p hp => hP p (by omega), same⟩

theorem Keeps.thinOver (keeps : Keeps t t' P) (hroot : t'.root = t.root) (h : t.ThinOver n l row)
    (hP : ∀ p, l < p.hdr.level → P p) : t'.ThinOver n l row := by
  induction n generalizing l row with
  | zero =>
      obtain rfl := h
      exact congrArg (fun root => [(⟨longMin, root⟩ : Entry)]) hroot.symm
  | succ n ih =>
      obtain ⟨nodup, upper, hupper, upward, rfl⟩ := h
      obtain ⟨hupper', same⟩ := keeps.thinRow hupper fun p hp => hP p (by omega)
      exact ⟨nodup, upper, hupper', ih upward fun p hp => hP p (by omega), same⟩

theorem Keeps.rows (keeps : Keeps t t' P) (hroot : t'.root = t.root) (h : t.Rows n l row)
    (hP : ∀ p, l ≤ p.hdr.level → P p) : t'.Rows n l row :=
  ⟨(keeps.isRow h.isRow fun p hp => hP p hp.ge).1,
    keeps.upward hroot h.upward fun p hp => hP p hp.le⟩

theorem fresh_not_allocated (t : BTree) : ¬ t.Allocated t.fresh := by
  rintro ⟨i, hi, heq⟩
  exact absurd (t.alloc.injective heq) hi.ne'

theorem keeps_write (t : BTree) {q : Int} (p : Page) {l : Nat} (hlevel : (t.page q).hdr.level = l) :
    Keeps t (t.write q p) fun p => p.hdr.level ≠ l := by
  refine ⟨rfl, le_rfl, rfl, fun q' _ h => Function.update_of_ne ?_ _ _⟩
  rintro rfl
  exact h hlevel

theorem keeps_new (t : BTree) (p : Page) : Keeps t (t.new p) fun _ => True := by
  refine ⟨rfl, Nat.le_succ _, rfl, fun q' hq _ => Function.update_of_ne ?_ _ _⟩
  rintro rfl
  exact t.fresh_not_allocated hq

end Keeps

/-! ## One row -/

/-- What a record put into the home page `s` of its key does to the pages of the row. -/
inductive Put (t t' : BTree) (key right : Int) (before : List Entry) (s : Entry)
    (after : List Entry) : List Entry → Prop
  | room : (t.page s.ptr).live.length < cardinality - 1 →
    (∀ x ∈ before ++ after, t'.page x.ptr = t.page x.ptr) →
    t'.page s.ptr = ((t.page s.ptr).insertKey key right (t.page s.ptr).live.length).1 →
    Put t t' key right before s after (before ++ s :: after)
  | full (halves : Page.Split) : (t.page s.ptr).live.length = cardinality - 1 →
    halves = (t.page s.ptr).split (t.page s.ptr).live.length t.fresh →
    (∀ x ∈ before ++ after, t'.page x.ptr = t.page x.ptr) →
    t'.page s.ptr = (halves.insert key right).1 →
    t'.page t.fresh = (halves.insert key right).2 → t'.Allocated t.fresh →
    Put t t' key right before s after (before ++ s :: ⟨halves.splitKey, t.fresh⟩ :: after)

section Put

variable {t t' t'' : BTree} {n l : Nat} {key right : Int} {row row' before after : List Entry}
  {s slot : Entry}

theorem contents_append (row' : List Entry) :
    t.contents (row ++ row') = t.contents row ++ t.contents row' :=
  List.flatMap_append

theorem contents_cons : t.contents (s :: row) = (t.page s.ptr).entries s.key ++ t.contents row :=
  List.flatMap_cons

theorem contents_congr (pages : ∀ s ∈ row, t'.page s.ptr = t.page s.ptr) :
    t'.contents row = t.contents row :=
  List.flatMap_congr fun s mem => by rw [pages s mem]

/-- A record that the home page gains is gained by the row. -/
theorem ThinRow.inserted (h : t.ThinRow l row none)
    (home : Cut Entry.key key row (before ++ [s]) after) (mid : List Entry)
    (left : ∀ x ∈ before, t'.page x.ptr = t.page x.ptr)
    (behind : ∀ x ∈ after, t'.page x.ptr = t.page x.ptr)
    (ins : Inserted Entry.key ⟨key, right⟩ ((t.page s.ptr).entries s.key) (t'.contents mid)) :
    Inserted Entry.key ⟨key, right⟩ (t.contents row) (t'.contents (before ++ (mid ++ after))) := by
  obtain ⟨hleft, -, hbehind⟩ := thinRow_split.mp (home.split ▸ h)
  have hrow : t.contents row =
      t.contents before ++ ((t.page s.ptr).entries s.key ++ t.contents after) := by
    rw [home.split, contents_append]
    rfl
  rw [hrow, contents_append, contents_append, contents_congr left, contents_congr behind]
  refine (ins.append_right fun e mem => ?_).append_left _ fun e mem => ?_
  · obtain ⟨x, hx, he⟩ := List.mem_flatMap.mp mem
    obtain ⟨_, ok, -⟩ := hbehind.pageThin hx
    exact lt_of_lt_of_le (home.lt x hx) (ok.range_entries he).1
  · obtain ⟨x, hx, he⟩ := List.mem_flatMap.mp mem
    exact ((hleft.le_next rfl hx).2 e he).trans home.last_le

theorem Row.inserted (h : t.Row l row none)
    (home : Cut Entry.key key row (before ++ [s]) after) (mid : List Entry)
    (left : ∀ x ∈ before, t'.page x.ptr = t.page x.ptr)
    (behind : ∀ x ∈ after, t'.page x.ptr = t.page x.ptr)
    (ins : Inserted Entry.key ⟨key, right⟩ ((t.page s.ptr).entries s.key) (t'.contents mid)) :
    Inserted Entry.key ⟨key, right⟩ (t.contents row) (t'.contents (before ++ (mid ++ after))) :=
  h.thin.inserted home mid left behind ins

theorem ne_of_nodup (nodup : (row.map Entry.ptr).Nodup)
    (hrow : row = before ++ s :: after) : ∀ x ∈ before ++ after, x.ptr ≠ s.ptr := by
  rw [hrow, List.map_append, List.map_cons] at nodup
  obtain ⟨-, tail, across⟩ := List.nodup_append.mp nodup
  intro x mem
  rcases List.mem_append.mp mem with mem | mem
  · exact across _ (List.mem_map_of_mem mem) _ List.mem_cons_self
  · intro heq
    exact (List.nodup_cons.mp tail).1 (heq ▸ List.mem_map_of_mem mem)

theorem Row.ne_fresh (h : t.Row l row none) : ∀ x ∈ row, x.ptr ≠ t.fresh := by
  intro x mem heq
  obtain ⟨_, -, alloc⟩ := h.pageOk mem
  exact t.fresh_not_allocated (heq ▸ alloc)

/-- The home page of the key has room for the record. -/
theorem put_write (nodup : (row.map Entry.ptr).Nodup)
    (home : Cut Entry.key key row (before ++ [s]) after) (right : Int)
    (room : (t.page s.ptr).live.length < cardinality - 1) :
    Put t (t.write s.ptr ((t.page s.ptr).insertKey key right (t.page s.ptr).live.length).1)
      key right before s after (before ++ s :: after) :=
  .room room (fun x mem => Function.update_of_ne (ne_of_nodup nodup home.split x mem) ..)
    (Function.update_self ..)

/-- The new slot of a row whose full page is split. -/
theorem Row.split (h : t.Row l row none)
    (home : Cut Entry.key key row (before ++ [s]) after)
    (full : (t.page s.ptr).live.length = cardinality - 1) :
    let halves := (t.page s.ptr).split (t.page s.ptr).live.length t.fresh
    SplitOk (t.page s.ptr) l s after.head? t.fresh halves ∧
      ∀ x ∈ after, halves.splitKey < x.key := by
  intro halves
  obtain ⟨-, ⟨ok, -⟩, hafter⟩ := row_split.mp (home.split ▸ h)
  have sp := ok.split full (t.alloc.ne_null t.allocated)
  refine ⟨sp, fun x mem => ?_⟩
  cases after with
  | nil => exact absurd mem List.not_mem_nil
  | cons n after =>
      refine lt_of_lt_of_le (sp.lt n rfl) ?_
      rcases List.mem_cons.mp mem with rfl | mem
      · exact le_rfl
      · exact (List.pairwise_cons.mp hafter.ordered).1 x mem

/-- The home page of the key is full, and the row takes a new slot. -/
theorem Row.put_splitPage (h : t.Row l row none) (nodup : (row.map Entry.ptr).Nodup)
    (home : Cut Entry.key key row (before ++ [s]) after) (right : Int)
    (full : (t.page s.ptr).live.length = cardinality - 1) :
    let r := t.splitPage s.ptr key right (t.page s.ptr).live.length
    Put t r.1 key right before s after (before ++ s :: ⟨r.2.1, t.fresh⟩ :: after) ∧
      Keeps t r.1 (fun p => p.hdr.level ≠ l) ∧ r.2.2 ≠ 0 := by
  intro r
  obtain ⟨-, ⟨ok, alloc⟩, -⟩ := row_split.mp (home.split ▸ h)
  have neFresh := h.ne_fresh
  rw [home.split] at neFresh
  refine ⟨.full _ full rfl (fun x mem => ?_) (Function.update_self ..) ?_
      ⟨t.allocated, Nat.lt_succ_self _, rfl⟩,
    ⟨rfl, Nat.le_succ _, rfl, fun q hq hlevel => ?_⟩, ?_⟩
  · have hne : x.ptr ≠ t.fresh := neFresh x (by
      rw [List.mem_append] at mem ⊢
      exact mem.imp_right (List.mem_cons_of_mem _))
    exact (Function.update_of_ne (ne_of_nodup nodup home.split x mem) ..).trans
      (Function.update_of_ne hne ..)
  · exact (Function.update_of_ne (neFresh s (by simp)).symm ..).trans (Function.update_self ..)
  · have hne : q ≠ s.ptr := by
      rintro rfl
      exact hlevel ok.level
    have hfresh : q ≠ t.fresh := by
      rintro rfl
      exact t.fresh_not_allocated hq
    exact (Function.update_of_ne hne ..).trans (Function.update_of_ne hfresh ..)
  · show (if _ then s.ptr else t.fresh) ≠ 0
    split
    · exact Allocator.ne_null_of alloc
    · exact t.alloc.ne_null _

/-- The new slot goes to its place in the row. -/
theorem Row.inserted_slot (h : t.Row l row none)
    (home : Cut Entry.key key row (before ++ [s]) after) (slot : Entry)
    (least : s.key ≤ slot.key) (lt : ∀ x ∈ after, slot.key < x.key) :
    Inserted Entry.key slot row (before ++ s :: slot :: after) := by
  refine ⟨before ++ [s], after, ⟨home.eq, fun x mem => ?_, lt⟩, by simp⟩
  have ordered := h.ordered
  rw [home.split] at ordered
  rcases List.mem_append.mp mem with mem | mem
  · exact ((List.pairwise_append.mp ordered).2.2 x mem s List.mem_cons_self).trans least
  · exact List.mem_singleton.mp mem ▸ least

/-- The leftmost page of a row stays. -/
theorem Put.head (put : Put t t' key right before s after row')
    (home : Cut Entry.key key row (before ++ [s]) after) : row'.head? = row.head? := by
  rw [home.split]
  cases put with
  | room => rfl
  | full =>
      rw [List.head?_append, List.head?_append]
      rfl

theorem Put.nodup (put : Put t t' key right before s after row') (h : t.Row l row none)
    (home : Cut Entry.key key row (before ++ [s]) after) (nodup : (row.map Entry.ptr).Nodup) :
    (row'.map Entry.ptr).Nodup := by
  cases put with
  | room => exact home.split ▸ nodup
  | full halves full split =>
      obtain ⟨sp, lt⟩ := h.split home full
      have perm := (h.inserted_slot home ⟨halves.splitKey, t.fresh⟩ (split ▸ sp.least)
        (split ▸ lt)).perm
      rw [(perm.map Entry.ptr).nodup_iff, List.map_cons, List.nodup_cons, List.mem_map]
      exact ⟨fun ⟨x, mem, heq⟩ => h.ne_fresh x mem heq, nodup⟩

/-- A row keeps its form when it takes a record. -/
theorem Put.isRow (put : Put t t' key right before s after row') (h : t.Row l row none)
    (home : Cut Entry.key key row (before ++ [s]) after) (most : key ≤ longMax)
    (hright : right ≠ 0) (value : l = 0 → right = key)
    (allocated : ∀ p, t.Allocated p → t'.Allocated p) :
    t'.Row l row' none ∧
      Inserted Entry.key ⟨key, right⟩ (t.contents row) (t'.contents row') := by
  obtain ⟨hbefore, ⟨ok, alloc⟩, hafter⟩ := row_split.mp (home.split ▸ h)
  have lt : ∀ x ∈ after.head?, key < x.key := fun x hx => home.lt x (List.mem_of_mem_head? hx)
  cases put with
  | room room others here =>
      obtain ⟨left, behind⟩ := List.forall_mem_append.mp others
      have ok' := (ok.insertKey room home.last_le most lt hright value).1
      have ins := ok.entries_insertKey room home.last_le most lt hright value
      refine ⟨row_split.mpr ⟨hbefore.congr left allocated, ⟨here ▸ ok', allocated _ alloc⟩,
        hafter.congr behind allocated⟩, h.inserted home [s] left behind ?_⟩
      rw [contents, List.flatMap_singleton, here]
      exact ins
  | full halves full split others here there fresh =>
      obtain ⟨left, behind⟩ := List.forall_mem_append.mp others
      have sp := split ▸ (h.split home full).1
      have ins := sp.insert ok home.last_le most lt hright value
      refine ⟨row_split.mpr ⟨hbefore.congr left allocated, ⟨here ▸ ins.left, allocated _ alloc⟩,
        ?_, fresh, hafter.congr behind allocated⟩,
        h.inserted home [s, ⟨halves.splitKey, t.fresh⟩] left behind ?_⟩
      · rw [Option.or_none]
        exact there ▸ ins.right
      · rw [contents, List.flatMap_cons, List.flatMap_singleton, here, there]
        exact ins.entries

theorem Put.levels (put : Put t t' key right before s after row') (h : t.Row l row none)
    (home : Cut Entry.key key row (before ++ [s]) after)
    (allocated : ∀ p, t.Allocated p → t'.Allocated p) :
    ∀ x ∈ row', t'.Allocated x.ptr ∧ (t'.page x.ptr).hdr.level = l := by
  obtain ⟨-, ⟨ok, alloc⟩, -⟩ := row_split.mp (home.split ▸ h)
  have rest : (∀ x ∈ before ++ after, t'.page x.ptr = t.page x.ptr) → ∀ x ∈ before ++ after,
      t'.Allocated x.ptr ∧ (t'.page x.ptr).hdr.level = l := fun others x mem => by
    have mem' : x ∈ row := by
      rw [home.split, List.mem_append, List.mem_cons]
      exact (List.mem_append.mp mem).imp_right Or.inr
    obtain ⟨_, ok', alloc'⟩ := h.pageOk mem'
    exact ⟨allocated _ alloc', (others x mem).symm ▸ ok'.level⟩
  cases put with
  | room room others here =>
      obtain ⟨left, behind⟩ := List.forall_mem_append.mp (rest others)
      refine List.forall_mem_append.mpr ⟨left, List.forall_mem_cons.mpr ⟨⟨allocated _ alloc, ?_⟩,
        behind⟩⟩
      rw [here]
      exact ok.level
  | full halves full split others here there fresh =>
      obtain ⟨left, behind⟩ := List.forall_mem_append.mp (rest others)
      have sp := split ▸ (h.split home full).1
      refine List.forall_mem_append.mpr ⟨left, List.forall_mem_cons.mpr ⟨⟨allocated _ alloc, ?_⟩,
        List.forall_mem_cons.mpr ⟨⟨fresh, ?_⟩, behind⟩⟩⟩
      · rw [here, Page.Split.insert]
        split
        · exact sp.left.level
        · exact sp.left.level
      · rw [there, Page.Split.insert]
        split
        · exact sp.right.level
        · exact sp.right.level

/-- What happens above the row does not matter to it. -/
theorem Put.keeps {P Q : Page → Prop} (put : Put t t' key right before s after row')
    (h : t.Row l row none) (home : Cut Entry.key key row (before ++ [s]) after)
    (keeps : Keeps t t' P) (keeps' : Keeps t' t'' Q) (hQ : ∀ p, p.hdr.level = l → Q p) :
    Put t t'' key right before s after row' := by
  have same : ∀ x ∈ row', t''.page x.ptr = t'.page x.ptr := fun x mem => by
    obtain ⟨alloc, level⟩ := put.levels h home (fun p => keeps.allocated_of) x mem
    exact keeps'.pages _ alloc (hQ _ level)
  cases put with
  | room room others here =>
      refine .room room (fun x mem => ?_) ((same s (by simp)).trans here)
      refine (same x ?_).trans (others x mem)
      rw [List.mem_append] at mem ⊢
      exact mem.imp_right (List.mem_cons_of_mem _)
  | full halves full split others here there fresh =>
      refine .full halves full split (fun x mem => ?_) ((same s (by simp)).trans here)
        ((same ⟨halves.splitKey, t.fresh⟩ (by simp)).trans there) (keeps'.allocated_of fresh)
      refine (same x ?_).trans (others x mem)
      rw [List.mem_append] at mem ⊢
      exact mem.imp_right fun mem => List.mem_cons_of_mem _ (List.mem_cons_of_mem _ mem)

end Put

/-! ## The whole descent -/

section Stores

variable {t t' : BTree} {n l : Nat} {key right : Int} {row row' before after : List Entry}
  {s slot : Entry}

theorem pageOk_newRoot (hs : s.ptr ≠ 0) (hslot : slot.ptr ≠ 0) (least : s.key ≤ slot.key)
    (most : slot.key ≤ longMax) (l : Nat) (root : Int) :
    PageOk (Page.newRoot s.ptr slot.key slot.ptr (l + 1)) (l + 1) ⟨s.key, root⟩ none ∧
      (Page.newRoot s.ptr slot.key slot.ptr (l + 1)).live = [slot] := by
  have holds : (Page.newRoot s.ptr slot.key slot.ptr (l + 1)).Holds [slot] {}
      (List.replicate (cardinality - 2) {}) :=
    ⟨rfl, by simpa using hslot, rfl, rfl⟩
  have size : [slot].length + (List.replicate (cardinality - 2) ({} : Entry)).length + 1 =
      cardinality := by
    rw [List.length_singleton, List.length_replicate]
    rfl
  refine ⟨.of_holds holds (by simp) size rfl rfl rfl (List.pairwise_singleton ..) ?_ (by simp)
    (by simp) fun _ => ⟨hs, by simp⟩, holds.live_eq⟩
  intro e mem
  rw [List.singleton_append, List.mem_cons, List.mem_cons] at mem
  rcases mem with rfl | rfl | mem
  · exact ⟨least, most⟩
  · exact ⟨least.trans most, le_rfl⟩
  · rw [List.eq_of_mem_replicate mem]
    exact ⟨least.trans most, le_rfl⟩

/-- The old root, which was alone in its row, has been split, and a new root is put over
the halves. -/
theorem over_newRoot (hs : t.Allocated s.ptr) (hslot : t.Allocated slot.ptr)
    (nodup : ([s, slot].map Entry.ptr).Nodup) (hkey : s.key = longMin)
    (least : s.key ≤ slot.key) (most : slot.key ≤ longMax) :
    let t' := (t.new (Page.newRoot s.ptr slot.key slot.ptr (l + 1))).setNewRoot t.fresh
    t'.Over 1 l [s, slot] ∧ Keeps t t' fun _ => True := by
  intro t'
  obtain ⟨h₁, h₂, h₃, h₄⟩ := t.keeps_new (Page.newRoot s.ptr slot.key slot.ptr (l + 1))
  obtain ⟨ok, live⟩ := pageOk_newRoot (Allocator.ne_null_of hs) (Allocator.ne_null_of hslot)
    least most l t.fresh
  have here : t'.page t.fresh = Page.newRoot s.ptr slot.key slot.ptr (l + 1) :=
    Function.update_self ..
  rw [← here] at ok live
  have children : t'.contents [⟨s.key, t.fresh⟩] = [s, slot] := by
    rw [contents, List.flatMap_singleton, Page.entries, if_neg (ok.internal (Nat.succ_pos l)).1,
      live, here]
    rfl
  exact ⟨⟨nodup, [⟨s.key, t.fresh⟩], ⟨ok, ⟨t.allocated, Nat.lt_succ_self _, rfl⟩, trivial⟩,
    by rw [hkey]; rfl, children⟩, h₁, h₂, h₃, h₄⟩

/-- What `store` does with the home page of a key. -/
theorem ThinRow.store_eq (h : t.ThinRow l row none)
    (home : Cut Entry.key key row (before ++ [s]) after) (right : Int) (fuel : Nat) :
    BTree.store (fuel + 1) t s.ptr key right =
      let num := (t.page s.ptr).live.length
      let r := t.splitPage s.ptr key right num
      let level := (r.1.page s.ptr).hdr.level + 1
      if num < cardinality - 1 then
        some (t.write s.ptr ((t.page s.ptr).insertKey key right num).1, s.ptr)
      else if t.root = s.ptr then
        some ((r.1.new (Page.newRoot s.ptr r.2.1 t.fresh level)).setNewRoot r.1.fresh, r.2.2)
      else (btreeInsertInternal fuel r.1 r.2.1 t.fresh level).map (·, r.2.2) := by
  obtain ⟨-, ⟨ok, -⟩, -⟩ := thinRow_split.mp (home.split ▸ h)
  have stays := h.stays home
  have alive : ¬ (t.page s.ptr).hdr.isDeleted = true := by
    rw [ok.alive]
    exact Bool.false_ne_true
  rw [BTree.store, if_neg alive, if_neg fun hop => stays ⟨hop.1, hop.2.le⟩, ok.count_eq]
  rw [Option.bind_eq_bind, Option.bind_some]
  dsimp only
  split
  · rfl
  · split
    · rfl
    · exact (Option.map_eq_bind ..).symm

theorem Row.store_eq (h : t.Row l row none)
    (home : Cut Entry.key key row (before ++ [s]) after) (right : Int) (fuel : Nat) :
    BTree.store (fuel + 1) t s.ptr key right =
      let num := (t.page s.ptr).live.length
      let r := t.splitPage s.ptr key right num
      let level := (r.1.page s.ptr).hdr.level + 1
      if num < cardinality - 1 then
        some (t.write s.ptr ((t.page s.ptr).insertKey key right num).1, s.ptr)
      else if t.root = s.ptr then
        some ((r.1.new (Page.newRoot s.ptr r.2.1 t.fresh level)).setNewRoot r.1.fresh, r.2.2)
      else (btreeInsertInternal fuel r.1 r.2.1 t.fresh level).map (·, r.2.2) :=
  h.thin.store_eq home right fuel

/-- `btree_insert_internal` stores in the home page. -/
theorem ThinRows.btreeInsertInternal_returns (h : t.ThinRows n l row) (hkey : longMin ≤ key)
    (home : Cut Entry.key key row (before ++ [s]) after) {ret : Int}
    (hstore : Returns (fun fuel => BTree.store fuel t s.ptr key right) (t', ret)) (hret : ret ≠ 0) :
    Returns (fun fuel => btreeInsertInternal fuel t key right l) t' := by
  have comes := h.descends_level hkey home
  obtain ⟨fuel, hdescend, hstore⟩ :=
    comes.both (steady_descend _ _ _ _) (steady_store _ _ _ _) hstore
  refine ⟨fuel + 1, ?_⟩
  have level : ¬ l > (t.page t.root).hdr.level := by
    rw [h.root]
    omega
  dsimp only at hdescend hstore ⊢
  rw [btreeInsertInternal, if_neg level, hdescend]
  simp only [Option.bind_eq_bind, Option.bind_some, hstore]
  exact if_neg hret

/-- Some budget is enough for `store`, the record is put into the home page, and the
rows over the row take the new slot. -/
def Stores (t : BTree) (l : Nat) (key right : Int) (before : List Entry) (s : Entry)
    (after : List Entry) : Prop :=
  ∃ t' ret n' row', Returns (fun fuel => store fuel t s.ptr key right) (t', ret) ∧ ret ≠ 0 ∧
    Put t t' key right before s after row' ∧ Keeps t t' (fun p => p.hdr.level < l) ∧
    t'.Over n' l row'

theorem Rows.stores_room (h : t.Rows n l row)
    (home : Cut Entry.key key row (before ++ [s]) after) (right : Int)
    (room : (t.page s.ptr).live.length < cardinality - 1) :
    t.Stores l key right before s after := by
  obtain ⟨-, ⟨ok, alloc⟩, -⟩ := row_split.mp (home.split ▸ h.isRow)
  have keeps := t.keeps_write ((t.page s.ptr).insertKey key right
    (t.page s.ptr).live.length).1 ok.level
  exact ⟨_, _, n, _, ⟨1, (h.isRow.store_eq home right 0).trans (if_pos room)⟩,
    Allocator.ne_null_of alloc, put_write h.upward.nodup home right room,
    keeps.mono fun p hp => ne_of_lt hp,
    home.split ▸ keeps.upward rfl h.upward fun p hp => ne_of_gt hp⟩

/-- `store` on the home page of a key. -/
theorem Rows.stores (h : t.Rows n l row) (hkey : longMin ≤ key)
    (home : Cut Entry.key key row (before ++ [s]) after) (right : Int) :
    t.Stores l key right before s after := by
  induction n generalizing l t row key right before s after with
  | zero =>
      rcases Nat.lt_or_ge (t.page s.ptr).live.length (cardinality - 1) with room | full
      · exact h.stores_room home right room
      obtain ⟨-, ⟨ok, alloc⟩, -⟩ := row_split.mp (home.split ▸ h.isRow)
      have size := Nat.le_antisymm (Nat.le_sub_one_of_lt ok.length_live) full
      obtain ⟨put, keeps, ret⟩ := h.isRow.put_splitPage h.upward.nodup home right size
      have nodup := put.nodup h.isRow home h.upward.nodup
      obtain ⟨sp, -⟩ := h.isRow.split home size
      have stored := h.isRow.store_eq home right 0
      have level := put.levels h.isRow home fun p => keeps.allocated_of
      obtain ⟨rfl, hs, rfl⟩ : before = [] ∧ s = ⟨longMin, t.root⟩ ∧ after = [] := by
        have := home.split.symm.trans h.upward
        cases before with
        | nil => simpa using this
        | cons x before => simp at this
      obtain ⟨upward, keeps'⟩ := over_newRoot (l := l) (keeps.allocated_of alloc)
        (level _ (List.mem_cons_of_mem _ List.mem_cons_self)).1 nodup
        (congrArg Entry.key hs) sp.least sp.most
      dsimp only at stored
      rw [if_neg full.not_gt, if_pos (congrArg Entry.ptr hs).symm,
        (level s List.mem_cons_self).2] at stored
      exact ⟨_, _, 1, _, ⟨1, stored⟩, ret,
        put.keeps h.isRow home keeps keeps' fun _ _ => trivial,
        (keeps.mono fun p hp => ne_of_lt hp).trans (keeps'.mono fun _ _ => trivial), upward⟩
  | succ n ih =>
      rcases Nat.lt_or_ge (t.page s.ptr).live.length (cardinality - 1) with room | full
      · exact h.stores_room home right room
      obtain ⟨-, ⟨ok, alloc⟩, -⟩ := row_split.mp (home.split ▸ h.isRow)
      have size := Nat.le_antisymm (Nat.le_sub_one_of_lt ok.length_live) full
      obtain ⟨put, keeps, ret⟩ := h.isRow.put_splitPage h.upward.nodup home right size
      have nodup := put.nodup h.isRow home h.upward.nodup
      obtain ⟨sp, lt⟩ := h.isRow.split home size
      have stored := h.isRow.store_eq home right
      have level := put.levels h.isRow home fun p => keeps.allocated_of
      have notRoot : t.root ≠ s.ptr := fun heq => by
        have := h.root
        rw [heq, ok.level] at this
        omega
      dsimp only at stored
      rw [(level s (by simp)).2] at stored
      -- The new slot goes to the row above, found again from the root.
      obtain ⟨-, upper, hupper, upward, hcontents⟩ := h.upward
      obtain ⟨hupper', same⟩ := keeps.isRow hupper fun p hp => by omega
      have upward' := keeps.upward rfl upward fun p hp => by omega
      have least := (h.upward.least s (home.split ▸ by simp)).trans sp.least
      obtain ⟨before', s', after', home'⟩ := upward'.home least
      obtain ⟨t₂, ret₂, n', upper₂, hstore, ret₂', put₂, keeps₂, over₂⟩ :=
        ih ⟨hupper', upward'⟩ least home' t.fresh
      obtain ⟨fuel, inserted⟩ :=
        ThinRows.btreeInsertInternal_returns ⟨hupper'.thin, upward'.thin⟩ least home' hstore ret₂'
      obtain ⟨hupper₂, ins₂⟩ := put₂.isRow hupper' home' sp.most (t.alloc.ne_null _) (by simp)
        fun p => keeps₂.allocated_of
      rw [same, hcontents] at ins₂
      have slotted := h.isRow.inserted_slot home
        ⟨((t.page s.ptr).split (t.page s.ptr).live.length t.fresh).splitKey, t.fresh⟩
        sp.least lt
      have stored := stored fuel
      rw [if_neg full.not_gt, if_neg notRoot] at stored
      exact ⟨t₂, _, n' + 1, _, ⟨fuel + 1, stored.trans (congrArg (Option.map _) inserted)⟩, ret,
        put.keeps h.isRow home keeps keeps₂ fun p hp => by omega,
        (keeps.mono fun p hp => ne_of_lt hp).trans (keeps₂.mono fun p hp => by omega), nodup,
        upper₂, hupper₂, over₂, ins₂.unique slotted⟩

end Stores

end BTree

end F3Tree
