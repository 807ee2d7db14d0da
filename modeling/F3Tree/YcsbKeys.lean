import Mathlib.Algebra.Group.Int.Defs
import Mathlib.Algebra.Group.Nat.Defs
import Mathlib.Data.List.TakeWhile
import Mathlib.Tactic.Common

/-!
# The keys of the YCSB driver

`CoreWorkload::BuildKeyName` writes a key number as a string, and `F3TreeDB::StringToKey` of
`YCSB-cpp/f3tree/f3tree_db.cc` reads it back into a key of the tree, half of the number plus
one (`stringToKey_buildKeyName`).  So two numbers with one half are one key, and the largest
half does not fit into a positive `int64_t`.

A string is the list of its characters.  What `std::hash` makes of a string without digits is
left open (`stdHash`).
-/

namespace F3Tree

namespace Ycsb

/-! ## Key names -/

/-- The loop of `FNVHash64`, for `n` more octets. -/
def fnvLoop : Nat → UInt64 → UInt64 → UInt64
  | 0, _, hash => hash
  | n + 1, val, hash => fnvLoop n (val >>> 8) ((hash ^^^ (val &&& 0x00ff)) * 1099511628211)

/-- `utils::Hash`. -/
def hash (val : UInt64) : UInt64 := fnvLoop 8 val 0xCBF29CE484222325

/-- The fields of `CoreWorkload` that key names depend on, with the defaults of their
properties. -/
structure CoreWorkload : Type where
  keyPrefix : List Char := "user".toList
  orderedInserts : Bool := false
  zeroPadding : Int := 1
deriving DecidableEq, Repr

/-- `BuildKeyName`. -/
def CoreWorkload.buildKeyName (workload : CoreWorkload) (keyNum : UInt64) : List Char :=
  let keyNum := if workload.orderedInserts then keyNum else hash keyNum
  let value := Nat.toDigits 10 keyNum.toNat
  let fill := max 0 (workload.zeroPadding - value.length)
  workload.keyPrefix ++ List.replicate fill.toNat '0' ++ value

/-! ## Keys of the tree -/

/-- A step of the loop that reads the digits. -/
def readDigit (v : UInt64) (c : Char) : UInt64 :=
  v * 10 + UInt64.ofNat (c.toNat - '0'.toNat)

/-- The key that the number `v` becomes. -/
def keyOf (v : UInt64) : Int := ((v >>> 1) + 1).toInt64.toInt

/-- `StringToKey`. -/
def stringToKey (stdHash : List Char → UInt64) (key : List Char) : Int :=
  let suffix := key.dropWhile fun c => !c.isDigit
  if suffix = [] then keyOf (stdHash key)
  else keyOf ((suffix.takeWhile Char.isDigit).foldl readDigit 0)

theorem foldl_readDigit (digits : List Char) (init : Nat) :
    digits.foldl readDigit (UInt64.ofNat init) =
      UInt64.ofNat (Nat.ofDigitChars 10 digits init) := by
  induction digits generalizing init with
  | nil => rfl
  | cons c digits ih =>
      have step : readDigit (UInt64.ofNat init) c =
          UInt64.ofNat (10 * init + (c.toNat - '0'.toNat)) := by
        rw [UInt64.ofNat_add, UInt64.ofNat_mul, UInt64.mul_comm]
        rfl
      rw [List.foldl_cons, step, ih, Nat.ofDigitChars_cons]

/-- Reading a padded decimal gives its number. -/
theorem foldl_padded (fill : Nat) (v : UInt64) :
    (List.replicate fill '0' ++ Nat.toDigits 10 v.toNat).foldl readDigit 0 = v := by
  have read := foldl_readDigit (List.replicate fill '0' ++ Nat.toDigits 10 v.toNat) 0
  rw [Nat.ofDigitChars_append, Nat.ofDigitChars_replicate_zero, Nat.mul_zero,
    Nat.ofDigitChars_toDigits (by decide) (by decide), UInt64.ofNat_toNat] at read
  exact read

/-- A prefix without digits and the padding are lost on the way. -/
theorem stringToKey_buildKeyName (stdHash : List Char → UInt64) {workload : CoreWorkload}
    (ordered : workload.orderedInserts = true)
    (noDigit : ∀ c ∈ workload.keyPrefix, c.isDigit = false) (keyNum : UInt64) :
    stringToKey stdHash (workload.buildKeyName keyNum) = keyOf keyNum := by
  rw [CoreWorkload.buildKeyName, if_pos ordered]
  generalize hfill : (max 0 (workload.zeroPadding -
    (Nat.toDigits 10 keyNum.toNat).length)).toNat = fill
  have digits : ∀ c ∈ List.replicate fill '0' ++ Nat.toDigits 10 keyNum.toNat,
      c.isDigit = true := by
    intro c mem
    rcases List.mem_append.mp mem with mem | mem
    · obtain rfl := List.eq_of_mem_replicate mem
      rfl
    · exact Nat.isDigit_of_mem_toDigits (by decide) (by decide) mem
  have nonempty : List.replicate fill '0' ++ Nat.toDigits 10 keyNum.toNat ≠ [] := by simp
  have suffix : (workload.keyPrefix ++ (List.replicate fill '0' ++
      Nat.toDigits 10 keyNum.toNat)).dropWhile (fun c => !c.isDigit) =
        List.replicate fill '0' ++ Nat.toDigits 10 keyNum.toNat := by
    rw [List.dropWhile_append_of_pos fun c mem => by rw [noDigit c mem]; rfl]
    obtain ⟨c, rest, split⟩ := List.exists_cons_of_ne_nil nonempty
    have first : c.isDigit = true := digits c (split ▸ List.mem_cons_self)
    rw [split, List.dropWhile_cons_of_neg (by simp [first])]
  rw [stringToKey, List.append_assoc, suffix, if_neg nonempty,
    List.takeWhile_eq_self_iff.mpr digits, foldl_padded]

/-! ## The order of the keys -/

/-- The keys of the two largest numbers do not fit. -/
theorem keyOf_eq (v : UInt64) :
    keyOf v = if v.toNat < 2 ^ 64 - 2 then (v.toNat / 2 + 1 : Int) else -2 ^ 63 := by
  have bound : v.toNat < 2 ^ 64 := v.toNat_lt
  have value : ((v >>> 1) + 1).toNat = v.toNat / 2 + 1 := by
    have half : (v >>> 1).toNat = v.toNat / 2 := by
      rw [UInt64.toNat_shiftRight]
      exact Nat.shiftRight_eq_div_pow v.toNat 1
    have one : UInt64.toNat 1 = 1 := rfl
    rw [UInt64.toNat_add, half, one]
    exact Nat.mod_eq_of_lt (by omega)
  have signed : keyOf v = if 2 * ((v >>> 1) + 1).toNat < 2 ^ 64 then
      (((v >>> 1) + 1).toNat : Int) else ((v >>> 1) + 1).toNat - 2 ^ 64 :=
    BitVec.toInt_eq_toNat_cond ((v >>> 1) + 1).toBitVec
  rw [signed, value]
  split
  · omega
  · omega

/-- The lesser of two numbers gets the lesser of two positive keys, if and only if their halves
differ and the greater one is none of the two largest numbers. -/
theorem stringToKey_lt_iff (stdHash : List Char → UInt64) (zeroPadding : Int) {a b : UInt64}
    (hlt : a < b) :
    let workload : CoreWorkload := { orderedInserts := true, zeroPadding := zeroPadding }
    let key := fun n => stringToKey stdHash (workload.buildKeyName n)
    (key a < key b ∧ 0 < key a ∧ 0 < key b) ↔
      a.toNat / 2 ≠ b.toNat / 2 ∧ b.toNat < 2 ^ 64 - 2 := by
  intro workload key
  have noDigit : ∀ c ∈ "user".toList, c.isDigit = false := by simp
  have read : ∀ n, key n = keyOf n := stringToKey_buildKeyName stdHash rfl noDigit
  have hlt : a.toNat < b.toNat := UInt64.lt_iff_toNat_lt.mp hlt
  rw [read a, read b, keyOf_eq, keyOf_eq]
  split
  · split
    · omega
    · omega
  · split
    · omega
    · omega

/-- The names of 1 and 2, padded to four digits. -/
theorem stringToKey_lt_iff_one :
    let workload : CoreWorkload := { orderedInserts := true, zeroPadding := 4 }
    let key := fun n => stringToKey (fun _ => 0) (workload.buildKeyName n)
    workload.buildKeyName 1 = "user0001".toList ∧ key 1 < key 2 ∧ 0 < key 1 ∧ 0 < key 2 :=
  ⟨by decide, (stringToKey_lt_iff (fun _ => 0) 4 (by decide)).mpr (by decide)⟩

/-- 0 and 1 are one key, and the key of the largest number is negative. -/
theorem stringToKey_collides :
    let workload : CoreWorkload := { orderedInserts := true }
    let key := fun n => stringToKey (fun _ => 0) (workload.buildKeyName n)
    key 0 = key 1 ∧ key 18446744073709551615 < 0 ∧
      ¬ ∀ a b : UInt64, a < b → key a < key b ∧ 0 < key a ∧ 0 < key b := by
  intro workload key
  have same : key 0 = key 1 := by decide
  refine ⟨same, by decide +kernel, fun preserved => ?_⟩
  exact absurd (preserved 0 1 (by decide)).1 (same ▸ Int.lt_irrefl (key 0))

end Ycsb

end F3Tree
