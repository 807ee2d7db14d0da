import F3Tree.Operations

/-!
# The keys that searches find

A search looks for its key in one leaf only, the home leaf.  `Held` says that the home
leaf has the key.  An insertion makes its key held and leaves the others as they were,
also when the leaf is split (`Put.held`): a duplicate of the split key may stay behind on
the left, but one moves to the right with the slot.  A deletion takes one record, so the
key stays held when the leaf had another (`Rows.held_take`).

`Single` is the state of a tree into which no key goes twice.
-/

namespace F3Tree

open Keyed Fuel

namespace BTree

/-- The home leaf of `key` in the row has a record with the key. -/
def Held (t : BTree) (key : Int) : List Entry → Prop
  | [] => False
  | s :: row => ((s.key ≤ key ∧ t.Has s key) ∧ ∀ x ∈ row, key < x.key) ∨ Held t key row

section Held

variable {t t' : BTree} {n : Nat} {key : Int} {row row' before after : List Entry} {s : Entry}

theorem held_append :
    t.Held key (row ++ row') ↔ (t.Held key row ∧ ∀ x ∈ row', key < x.key) ∨ t.Held key row' := by
  induction row with
  | nil => simp [Held]
  | cons s row ih =>
      rw [List.cons_append, Held, Held, ih, List.forall_mem_append, or_and_right, or_assoc,
        and_assoc (c := ∀ x ∈ row', key < x.key)]

theorem has_congr (live : (t'.page s.ptr).live = (t.page s.ptr).live) :
    t'.Has s key ↔ t.Has s key := by
  rw [Has, Has, live]

theorem held_congr (has : ∀ s ∈ row, (t'.Has s key ↔ t.Has s key)) :
    t'.Held key row ↔ t.Held key row := by
  induction row with
  | nil => exact Iff.rfl
  | cons s row ih =>
      obtain ⟨same, has⟩ := List.forall_mem_cons.mp has
      rw [Held, Held, same, ih has]

theorem not_held_of_lt (lt : ∀ x ∈ row, key < x.key) : ¬ t.Held key row := by
  induction row with
  | nil => exact id
  | cons s row ih =>
      obtain ⟨hs, lt⟩ := List.forall_mem_cons.mp lt
      rintro (⟨⟨hle, -⟩, -⟩ | held)
      · exact absurd hle (not_le.mpr hs)
      · exact ih lt held

theorem held_iff (home : Cut Entry.key key row (before ++ [s]) after) :
    t.Held key row ↔ t.Has s key := by
  rw [home.split, held_append, Held]
  constructor
  · rintro (⟨-, lt⟩ | ⟨⟨-, has⟩, -⟩ | held)
    · exact absurd home.last_le (not_le.mpr (lt s List.mem_cons_self))
    · exact has
    · exact absurd held (not_held_of_lt home.lt)
  · exact fun has => Or.inr (Or.inl ⟨⟨home.last_le, has⟩, home.lt⟩)

/-- What the change of one leaf does to the keys that are held. -/
theorem held_set (live : ∀ x ∈ before ++ after, (t'.page x.ptr).live = (t.page x.ptr).live)
    (hrow : row = before ++ s :: after) {P : Prop}
    (here : s.key ≤ key → (∀ x ∈ after, key < x.key) →
      (t'.Has s key ↔ P ∨ t.Has s key))
    (only : P → s.key ≤ key ∧ ∀ x ∈ after, key < x.key) :
    t'.Held key row ↔ P ∨ t.Held key row := by
  obtain ⟨left, behind⟩ := List.forall_mem_append.mp live
  rw [hrow, held_append, held_append, Held, Held, held_congr fun x mem => has_congr (left x mem),
    held_congr fun x mem => has_congr (behind x mem)]
  constructor
  · rintro (held | ⟨⟨hle, has⟩, lt⟩ | held)
    · exact Or.inr (Or.inl held)
    · exact ((here hle lt).mp has).imp_right fun has => Or.inr (Or.inl ⟨⟨hle, has⟩, lt⟩)
    · exact Or.inr (Or.inr (Or.inr held))
  · rintro (hP | held | ⟨⟨hle, has⟩, lt⟩ | held)
    · obtain ⟨hle, lt⟩ := only hP
      exact Or.inr (Or.inl ⟨⟨hle, (here hle lt).mpr (Or.inl hP)⟩, lt⟩)
    · exact Or.inl held
    · exact Or.inr (Or.inl ⟨⟨hle, (here hle lt).mpr (Or.inr has)⟩, lt⟩)
    · exact Or.inr (Or.inr held)

/-- After an insertion its key is held, and otherwise the keys that were. -/
theorem Put.held {right : Int} (put : Put t t' key right before s after row')
    (h : t.Row 0 row none) (home : Cut Entry.key key row (before ++ [s]) after)
    (most : key ≤ longMax) (hright : right ≠ 0) (value : right = key) (k : Int) :
    t'.Held k row' ↔ k = key ∨ t.Held k row := by
  obtain ⟨hbefore, ⟨ok, alloc⟩, hafter⟩ := row_split.mp (home.split ▸ h)
  have lt : ∀ x ∈ after.head?, key < x.key := fun x hx => home.lt x (List.mem_of_mem_head? hx)
  cases put with
  | room room others here =>
      have ins := (ok.insertKey room home.last_le most lt hright fun _ => value).2
      rw [← home.split]
      refine held_set (fun x mem => congrArg Page.live (others x mem)) home.split (fun _ _ => ?_) ?_
      · rw [Has, here]
        exact ins.exists_key_iff k
      · rintro rfl
        exact ⟨home.last_le, home.lt⟩
  | full halves full split others here there fresh =>
      obtain ⟨sp, ltAfter⟩ := h.split home full
      rw [← split] at sp ltAfter
      have ins := sp.insert ok home.last_le most lt hright fun _ => value
      obtain ⟨left, behind⟩ := List.forall_mem_append.mp others
      have hleast := sp.least
      rw [home.split, held_append, held_append, Held, Held, Held,
        held_congr fun x mem => has_congr (congrArg Page.live (left x mem)),
        held_congr fun x mem => has_congr (congrArg Page.live (behind x mem)), Has, Has, here,
        there]
      simp only [List.forall_mem_cons]
      rcases lt_or_ge k halves.splitKey with hk | hk
      · -- The key falls to the left half.
        rw [ins.below rfl k hk]
        constructor
        · rintro (⟨held, hs, -, lt⟩ | ⟨⟨hle, rfl | has⟩, -, lt⟩ | ⟨⟨hle, -⟩, -⟩ | held)
          · exact Or.inr (Or.inl ⟨held, hs, lt⟩)
          · exact Or.inl rfl
          · exact Or.inr (Or.inr (Or.inl ⟨⟨hle, has⟩, lt⟩))
          · exact absurd hle (not_le.mpr hk)
          · exact Or.inr (Or.inr (Or.inr held))
        · rintro (rfl | ⟨held, hs, lt⟩ | ⟨⟨hle, has⟩, lt⟩ | held)
          · exact Or.inr (Or.inl ⟨⟨home.last_le, Or.inl rfl⟩, hk, home.lt⟩)
          · exact Or.inl ⟨held, hs, hk, lt⟩
          · exact Or.inr (Or.inl ⟨⟨hle, Or.inr has⟩, hk, lt⟩)
          · exact Or.inr (Or.inr (Or.inr held))
      · rw [ins.above rfl k hk]
        constructor
        · rintro (⟨-, -, hs, -⟩ | ⟨-, hs, -⟩ | ⟨⟨-, rfl | has⟩, lt⟩ | held)
          · exact absurd hk (not_le.mpr hs)
          · exact absurd hk (not_le.mpr hs)
          · exact Or.inl rfl
          · exact Or.inr (Or.inr (Or.inl ⟨⟨hleast.trans hk, has⟩, lt⟩))
          · exact Or.inr (Or.inr (Or.inr held))
        · rintro (rfl | ⟨-, hs, -⟩ | ⟨⟨-, has⟩, lt⟩ | held)
          · exact Or.inr (Or.inr (Or.inl ⟨⟨hk, Or.inl rfl⟩, home.lt⟩))
          · exact absurd (hleast.trans hk) (not_le.mpr hs)
          · exact Or.inr (Or.inr (Or.inl ⟨⟨hk, Or.inr has⟩, lt⟩))
          · exact Or.inr (Or.inr (Or.inr held))

/-- How many records of the key the page has. -/
def copies (t : BTree) (p key : Int) : Nat :=
  ((t.page p).live.filter fun e => e.key = key).length

/-- After a deletion its key is held only if the home leaf had another record of it. -/
theorem Rows.held_take (h : t.Rows n 0 row)
    (home : Cut Entry.key key row (before ++ [s]) after) {p : Page} (has : t.Has s key)
    (removed : (t.page s.ptr).removeKey key = some (p, true)) (k : Int) :
    (t.write s.ptr p).Held k row ↔ t.Held k row ∧ (k = key → t.copies s.ptr key ≠ 1) := by
  obtain ⟨-, ⟨ok, -⟩, -⟩ := row_split.mp (home.split ▸ h.isRow)
  obtain ⟨p', front, e, back, removed', ok', hlive, first, hkey, hlive'⟩ := ok.removeKey_mem has
  obtain ⟨rfl, -⟩ := Prod.mk.inj (Option.some.inj (removed.symm.trans removed'))
  obtain ⟨-, -, others, here⟩ := h.writeLeaf home.split ok'
  by_cases hkk : k = key
  · obtain rfl := hkk
    have length : t.copies s.ptr k = ((front ++ back).filter fun e => e.key = k).length + 1 := by
      rw [copies, hlive, (List.perm_middle.filter _).length_eq,
        List.filter_cons_of_pos (by simpa using hkey), List.length_cons]
    have other : t.copies s.ptr k ≠ 1 ↔ ∃ e' ∈ front ++ back, e'.key = k := by
      rw [length, Ne, Nat.add_eq_right, List.length_eq_zero_iff, List.filter_eq_nil_iff]
      simp
    rw [held_iff home, held_iff home, and_iff_right has, Has, here, hlive', other]
    exact ⟨fun has _ => has, fun has => has rfl⟩
  · rw [and_iff_left fun heq => absurd heq hkk]
    refine held_congr fun x mem => ?_
    rw [home.split, List.mem_append, List.mem_cons] at mem
    rcases mem with mem | rfl | mem
    · exact has_congr (congrArg Page.live (others x (List.mem_append_left _ mem)))
    · rw [Has, Has, here, hlive', hlive]
      have he : e.key ≠ k := fun heq => hkk (heq.symm.trans hkey)
      simp [he, or_and_right, exists_or]
    · exact has_congr (congrArg Page.live (others x (List.mem_append_right _ mem)))

/-- A leaf that is turned around holds the same keys. -/
theorem held_same (same : ∀ y ∈ row, (t'.page y.ptr).live = (t.page y.ptr).live) (k : Int) :
    t'.Held k row ↔ t.Held k row :=
  held_congr fun y hy => has_congr (same y hy)

/-- Every record is the only one of its key, and lies in the home leaf of the key. -/
structure Single (t : BTree) (row : List Entry) : Prop where
  nodup : ((t.contents row).map Entry.key).Nodup
  held : ∀ e ∈ t.contents row, t.Held e.key row

/-- Keys that are held are the keys of records. -/
theorem Held.exists (held : t.Held key row) : ∃ s ∈ row, t.Has s key := by
  induction row with
  | nil => exact held.elim
  | cons s row ih =>
      rcases held with ⟨⟨-, has⟩, -⟩ | held
      · exact ⟨s, List.mem_cons_self, has⟩
      · obtain ⟨x, mem, has⟩ := ih held
        exact ⟨x, List.mem_cons_of_mem _ mem, has⟩

end Held

/-! ## No key twice -/

section Single

variable {t t' : BTree} {n : Nat} {key : Int} {row row' : List Entry}

/-- The leaves hold their records. -/
theorem Row.contents_leaf {next : Option Entry} (h : t.Row 0 row next) :
    t.contents row = row.flatMap fun s => (t.page s.ptr).live := by
  refine List.flatMap_congr fun s mem => ?_
  obtain ⟨_, ok, -⟩ := h.pageOk mem
  exact ok.entries_leaf s.key

/-- Keys that differ in all leaves differ in each of them. -/
theorem Row.nodup_live {next : Option Entry} (h : t.Row 0 row next)
    (nodup : ((t.contents row).map Entry.key).Nodup) {s : Entry} (mem : s ∈ row) :
    ((t.page s.ptr).live.map Entry.key).Nodup := by
  obtain ⟨before, after, rfl⟩ := List.append_of_mem mem
  rw [h.contents_leaf, List.flatMap_append, List.flatMap_cons] at nodup
  exact nodup.sublist (((List.sublist_append_left _ _).trans
    (List.sublist_append_right _ _)).map _)

theorem Row.exists_iff {next : Option Entry} (h : t.Row 0 row next) :
    (∃ e ∈ t.contents row, e.key = key) ↔ ∃ s ∈ row, t.Has s key := by
  rw [h.contents_leaf]
  simp only [List.mem_flatMap, Has]
  constructor
  · rintro ⟨e, ⟨s, hs, he⟩, hkey⟩
    exact ⟨s, hs, e, he, hkey⟩
  · rintro ⟨s, hs, e, he, hkey⟩
    exact ⟨e, ⟨s, hs, he⟩, hkey⟩

/-- The keys held are those of the records. -/
theorem Single.held_iff (single : t.Single row) (h : t.Row 0 row none) :
    t.Held key row ↔ ∃ e ∈ t.contents row, e.key = key := by
  constructor
  · exact fun held => h.exists_iff.mpr held.exists
  · rintro ⟨e, mem, rfl⟩
    exact single.held e mem

theorem Single.nodup_live (single : t.Single row) (h : t.Row 0 row none) {s : Entry}
    (mem : s ∈ row) : ((t.page s.ptr).live.map Entry.key).Nodup :=
  h.nodup_live single.nodup mem

/-- A leaf has one record of a key that it has. -/
theorem Single.copies_eq (single : t.Single row) (h : t.Row 0 row none) {s : Entry}
    (mem : s ∈ row) (has : t.Has s key) : t.copies s.ptr key = 1 := by
  obtain ⟨e, he, rfl⟩ := has
  have count := List.count_eq_one_of_mem (single.nodup_live h mem) (List.mem_map_of_mem he)
  rw [List.count_eq_countP, List.countP_map, List.countP_eq_length_filter] at count
  exact count

/-- A key has one leaf. -/
theorem Single.not_before (single : t.Single row) (h : t.Row 0 row none)
    {before after : List Entry} {s : Entry} (hrow : row = before ++ s :: after)
    (has : t.Has s key) : ∀ x ∈ before, ¬ t.Has x key := by
  rintro x mem ⟨e, he, hkey⟩
  obtain ⟨e', he', hkey'⟩ := has
  have nodup := single.nodup
  rw [h.contents_leaf, hrow, List.flatMap_append, List.flatMap_cons, List.map_append,
    List.map_append] at nodup
  refine (List.nodup_append.mp nodup).2.2 key ?_ key ?_ rfl
  · exact List.mem_map.mpr ⟨e, List.mem_flatMap.mpr ⟨x, mem, he⟩, hkey⟩
  · exact List.mem_append_left _ (List.mem_map.mpr ⟨e', he', hkey'⟩)

theorem Single.leaf_unique (single : t.Single row) (h : t.Row 0 row none) {s x : Entry}
    (hs : s ∈ row) (hx : x ∈ row) (has : t.Has s key) (has' : t.Has x key) : x = s := by
  obtain ⟨before, after, hrow⟩ := List.append_of_mem hs
  rw [hrow, List.mem_append, List.mem_cons] at hx
  rcases hx with hx | hx | hx
  · exact absurd has' (single.not_before h hrow has x hx)
  · exact hx
  · obtain ⟨mid, rest, rfl⟩ := List.append_of_mem hx
    have split : row = (before ++ s :: mid) ++ x :: rest := by simp [hrow]
    exact absurd has (single.not_before h split has' s (by simp))

/-- A leaf that has no key twice is split off with a slot of its own. -/
theorem Put.strict {t' : BTree} {right : Int} {before after : List Entry} {s : Entry}
    (put : Put t t' key right before s after row') (h : t.Row 0 row none)
    (home : Cut Entry.key key row (before ++ [s]) after) (single : t.Single row)
    (strict : row.Pairwise fun x y => x.key < y.key) :
    row'.Pairwise fun x y => x.key < y.key := by
  cases put with
  | room => exact home.split ▸ strict
  | full halves full split =>
      obtain ⟨sp, ltAfter⟩ := h.split home full
      obtain ⟨-, ⟨ok, -⟩, -⟩ := row_split.mp (home.split ▸ h)
      have hlt := sp.lt_splitKey ok full (single.nodup_live h (home.split ▸ by simp))
      rw [← split] at hlt ltAfter
      exact home.strict_behind strict hlt ltAfter

theorem Single.insert (single : t.Single row) (new : ¬ t.Held key row)
    (ins : Inserted Entry.key ⟨key, key⟩ (t.contents row) (t'.contents row'))
    (held : ∀ k, t'.Held k row' ↔ k = key ∨ t.Held k row) : t'.Single row' := by
  constructor
  · have perm := ins.perm.map Entry.key
    rw [perm.nodup_iff, List.map_cons, List.nodup_cons]
    refine ⟨fun mem => new ?_, single.nodup⟩
    obtain ⟨e, he, rfl⟩ := List.mem_map.mp mem
    exact single.held e he
  · intro e mem
    rw [held]
    rcases ins.mem_iff.mp mem with rfl | mem
    · exact Or.inl rfl
    · exact Or.inr (single.held e mem)

theorem Single.take (single : t.Single row) {front back : List Entry}
    (before : t.contents row = front ++ ⟨key, key⟩ :: back)
    (after : t'.contents row = front ++ back)
    (held : ∀ k ≠ key, (t'.Held k row ↔ t.Held k row)) : t'.Single row := by
  have nodup := single.nodup
  rw [before] at nodup
  have sub : (front ++ back).Sublist (front ++ ⟨key, key⟩ :: back) :=
    (List.sublist_cons_self _ back).append_left front
  constructor
  · rw [after]
    exact nodup.sublist (sub.map _)
  · intro e mem
    rw [after] at mem
    have ne : e.key ≠ key := by
      rintro rfl
      have perm : (front ++ ⟨e.key, e.key⟩ :: back).Perm (⟨e.key, e.key⟩ :: (front ++ back)) :=
        List.perm_middle
      rw [(perm.map Entry.key).nodup_iff, List.map_cons, List.nodup_cons] at nodup
      exact nodup.1 (List.mem_map.mpr ⟨e, mem, rfl⟩)
    exact (held _ ne).mpr (single.held e (before ▸ sub.mem mem))

theorem Single.same (single : t.Single row) (contents : t'.contents row = t.contents row)
    (held : ∀ k, t'.Held k row ↔ t.Held k row) : t'.Single row :=
  ⟨contents ▸ single.nodup, fun e mem => (held _).mpr (single.held e (contents ▸ mem))⟩

theorem single_empty (alloc : Allocator) :
    (empty alloc).Single [⟨longMin, alloc.addr 0⟩] := by
  have contents := (rows_empty alloc).2
  exact ⟨by rw [contents]; exact List.nodup_nil, by rw [contents]; simp⟩

end Single

end BTree

end F3Tree
