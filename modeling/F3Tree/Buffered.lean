import F3Tree.Lib.LastWriter
import F3Tree.Ptfo

/-!
# What the three buffered structures say

A producer's chain is read as its log, the list of its operations oldest first
(`pending`).  `future_insert` appends to the log (`pending_futureInsert`); the
chain walk of a reader finds the newest operation of the log of every producer
the hashtables do not hide (`viaPtfo_eq`); and a directory with room records the
newest operation of each key (`AgreesAt`).
-/

namespace F3Tree

open LastWriter

instance : Write FutureBufferedOp Int Bool where
  key op := op.key
  val op := !op.isDelete
  stamp op := op.sequence

instance : Write FutureLookupEntry Int Bool where
  key e := e.key
  val e := e.state = .present
  stamp e := e.sequence

@[simp]
theorem key_op (op : FutureBufferedOp) : Write.key op = op.key := rfl

@[simp]
theorem val_op (op : FutureBufferedOp) : Write.val op = !op.isDelete := rfl

@[simp]
theorem stamp_op (op : FutureBufferedOp) : Write.stamp op = op.sequence := rfl

@[simp]
theorem key_lookupEntry (e : FutureLookupEntry) : Write.key e = e.key := rfl

@[simp]
theorem stamp_lookupEntry (e : FutureLookupEntry) : Write.stamp e = e.sequence := rfl

@[simp]
theorem stateOf_ne_absent (isDelete : Bool) : stateOf isDelete ≠ .absent := by
  cases isDelete <;> simp [stateOf]

/-- The directory entry that records an operation. -/
def FutureBufferedOp.lookupEntry (op : FutureBufferedOp) :
    FutureLookupEntry :=
  ⟨op.key, op.producerId, stateOf op.isDelete, op.sequence⟩

/-! ## The log of a chain -/

/-- The entries of a chain, oldest first: nodes from the tail, and in array order
inside a node. -/
def LocalFut.log (fut : LocalFut) : List FutureEntry :=
  fut.next.reverse.flatMap FutureNode.entries

theorem LocalFut.log_insert (fut : LocalFut) (e : FutureEntry) :
    (fut.insert e).log = fut.log ++ [e] := by
  rw [LocalFut.insert]
  split
  · rename_i hnext
    simp [LocalFut.log, hnext, FutureNode.single]
  · rename_i node rest hnext
    split
    · simp [LocalFut.log, hnext, FutureNode.single]
    · simp [LocalFut.log, hnext, FutureNode.push]

@[simp]
theorem LocalFut.log_cleared (fut : LocalFut) : fut.cleared.log = [] := rfl

theorem LocalFut.log_eq_nil_iff {fut : LocalFut} : fut.log = [] ↔ fut.next = [] := by
  rw [LocalFut.log, List.flatMap_eq_nil_iff]
  constructor
  · intro h
    rcases hnext : fut.next with _ | ⟨node, rest⟩
    · rfl
    · exact (node.nonempty (h node (by simp [hnext]))).elim
  · intro h
    simp [h]

namespace Btree

variable {τ : Type}

/-- Producer `tid`'s buffered operations, oldest first. -/
def pending (b : Btree τ) (tid : Nat) : List FutureBufferedOp :=
  (b.localFut tid).log.map fun e => ⟨e.key, e.isDelete, e.sequence, tid⟩

/-- The buffered operations of all producers. -/
def allPending (b : Btree τ) : List FutureBufferedOp :=
  (List.range b.nThreads).flatMap b.pending

theorem mem_chainOps {b : Btree τ} {tid : Nat} {op : FutureBufferedOp} :
    op ∈ b.chainOps tid ↔ op ∈ b.pending tid := by
  simp only [chainOps, pending, LocalFut.log, FutureNode.ops, List.mem_flatMap,
    List.mem_map, List.mem_reverse]
  constructor
  · rintro ⟨node, hnode, e, he, rfl⟩
    exact ⟨e, ⟨node, hnode, he⟩, rfl⟩
  · rintro ⟨e, ⟨node, hnode, he⟩, rfl⟩
    exact ⟨node, hnode, e, he, rfl⟩

theorem producerId_of_mem {b : Btree τ} {tid : Nat} {op : FutureBufferedOp}
    (mem : op ∈ b.pending tid) : op.producerId = tid := by
  obtain ⟨e, -, rfl⟩ := List.mem_map.mp mem
  rfl

theorem mem_allPending {b : Btree τ} {op : FutureBufferedOp} :
    op ∈ b.allPending ↔ op.producerId < b.nThreads ∧ op ∈ b.pending op.producerId := by
  simp only [allPending, List.mem_flatMap, List.mem_range]
  constructor
  · rintro ⟨tid, hlt, mem⟩
    rw [producerId_of_mem mem]
    exact ⟨hlt, mem⟩
  · rintro ⟨hlt, mem⟩
    exact ⟨op.producerId, hlt, mem⟩

theorem pending_futureInsert (b : Btree τ) (key : Int) (tid : Nat) (isDone : Bool)
    (sequence : Nat) :
    (b.futureInsert key tid isDone sequence).pending =
      Function.update b.pending tid
        (b.pending tid ++ [⟨key, isDone, sequence, tid⟩]) := by
  funext p
  by_cases hp : p = tid
  · subst hp
    simp [pending, futureInsert, LocalFut.log_insert]
  · simp [pending, futureInsert, hp]

theorem mem_allPending_futureInsert {b : Btree τ} {key : Int} {tid : Nat} {isDone : Bool}
    {sequence : Nat} (htid : tid < b.nThreads) {op : FutureBufferedOp} :
    op ∈ (b.futureInsert key tid isDone sequence).allPending ↔
      op ∈ b.allPending ∨ op = ⟨key, isDone, sequence, tid⟩ := by
  have hn : (b.futureInsert key tid isDone sequence).nThreads = b.nThreads := rfl
  rw [mem_allPending, hn, pending_futureInsert, mem_allPending]
  by_cases hop : op.producerId = tid
  · rw [hop, Function.update_self, List.mem_append, List.mem_singleton]
    constructor
    · rintro ⟨-, mem | rfl⟩
      · exact Or.inl ⟨htid, mem⟩
      · exact Or.inr rfl
    · rintro (mem | rfl)
      · exact ⟨htid, Or.inl mem.2⟩
      · exact ⟨htid, Or.inr rfl⟩
  · rw [Function.update_of_ne hop]
    constructor
    · exact Or.inl
    · rintro (mem | rfl)
      · exact mem
      · exact absurd rfl hop

/-! ## Reading through the chains -/

/-- What a reader reports about the newest operation of a key. -/
def Best.ofNewest : Option FutureBufferedOp → Best
  | none => {}
  | some op => ⟨stateOf op.isDelete, op.sequence, op.producerId⟩

/-- The reader's loop finds the newest operation of the list it walks. -/
theorem foldl_visit (key : Int) (ops : List FutureBufferedOp) :
    ops.foldl (Best.visit key) {} = Best.ofNewest (newest ops key) := by
  induction ops using List.reverseRecOn with
  | nil => rfl
  | append_singleton ops op ih =>
      rw [List.foldl_append, ih, newest_append_singleton, List.foldl_cons, List.foldl_nil,
        Best.visit]
      by_cases hk : op.key = key
      · rw [if_neg (not_not.mpr hk), key_op, if_pos hk]
        rcases newest ops key with _ | best
        · rfl
        · simp only [Best.ofNewest, stateOf_ne_absent, false_or, gt_iff_lt, stamp_op]
          split <;> rfl
      · rw [if_pos hk, key_op, if_neg hk]

theorem foldl_visit_of_forall_ne {key : Int} {ops : List FutureBufferedOp}
    (other : ∀ op ∈ ops, op.key ≠ key) (best : Best) :
    ops.foldl (Best.visit key) best = best := by
  induction ops generalizing best with
  | nil => rfl
  | cons op ops ih =>
      rw [List.foldl_cons, Best.visit, if_pos (other op List.mem_cons_self)]
      exact ih (fun op' mem => other op' (List.mem_cons_of_mem _ mem)) best

/-- The hashtable of every producer whose chain holds `key` finds `key`. -/
def HidesNothing (b : Btree τ) (key : Int) : Prop :=
  ∀ tid < b.nThreads, (∃ op ∈ b.pending tid, op.key = key) →
    (b.hash tid).searchKey key ≠ -1

/-- The operations of all chains in the order a reader walks them. -/
def walkOrder (b : Btree τ) : List FutureBufferedOp :=
  (List.range b.nThreads).flatMap b.chainOps

theorem mem_walkOrder {b : Btree τ} {op : FutureBufferedOp} :
    op ∈ b.walkOrder ↔ op ∈ b.allPending := by
  simp [walkOrder, allPending, mem_chainOps]

/-- If the hashtables hide nothing, the reader finds the newest operation in its
walk over all chains. -/
theorem viaPtfo_eq {b : Btree τ} {key : Int} (shown : b.HidesNothing key) :
    b.futureHashDirectedStateViaPtfo key = Best.ofNewest (newest b.walkOrder key) := by
  have visits : ∀ tid ∈ List.range b.nThreads, ∀ best,
      b.viaPtfoVisit key best tid = (b.chainOps tid).foldl (Best.visit key) best := by
    intro tid mem best
    rw [viaPtfoVisit, viaPtfoWalk]
    split
    · rename_i miss
      have other : ∀ op ∈ b.chainOps tid, op.key ≠ key := fun op hop hk =>
        shown tid (List.mem_range.mp mem) ⟨op, mem_chainOps.mp hop, hk⟩ miss
      rw [foldl_visit_of_forall_ne other]
    · rfl
  have folds : ∀ (tids : List Nat), (∀ tid ∈ tids, tid ∈ List.range b.nThreads) →
      ∀ best, tids.foldl (b.viaPtfoVisit key) best =
        (tids.flatMap b.chainOps).foldl (Best.visit key) best := by
    intro tids sub
    induction tids with
    | nil => intro best; rfl
    | cons tid tids ih =>
        intro best
        rw [List.foldl_cons, List.flatMap_cons, List.foldl_append,
          visits tid (sub tid List.mem_cons_self)]
        exact ih (fun t mem => sub t (List.mem_cons_of_mem _ mem)) _
  rw [futureHashDirectedStateViaPtfo, folds _ fun _ mem => mem, foldl_visit, walkOrder]

/-- With distinct sequence numbers the order of the walk does not matter. -/
theorem viaPtfo_eq_of_distinct {b : Btree τ} {key : Int}
    (shown : b.HidesNothing key) (distinct : DistinctStamps b.allPending) :
    b.futureHashDirectedStateViaPtfo key = Best.ofNewest (newest b.allPending key) := by
  rw [viaPtfo_eq shown]
  congr 1
  refine newest_congr ?_ fun op _ => mem_walkOrder
  exact (distinct.at key).mono fun op mem => mem_walkOrder.mp mem

/-! ## The directories -/

/-- The directory has an entry for the newest operation on `key` in the list, and
none on `key` if there is none. -/
def Records (dir : LookupDirectory) (ops : List FutureBufferedOp) (key : Int) : Prop :=
  ∀ e, e ∈ dir.collect ∧ e.key = key ↔
    ∃ op, newest ops key = some op ∧ op.lookupEntry = e

/-- Producer `tid`'s directory records its chain at `key`. -/
def AgreesAt (b : Btree τ) (tid : Nat) (key : Int) : Prop :=
  Records (b.futureLookupDirectory tid) (b.pending tid) key

/-- Recording an operation newer than the chain's makes the directory agree at its
key, whatever the directory said before. -/
theorem AgreesAt.futureInsert_self {b : Btree τ} {key : Int} {tid : Nat}
    {isDone : Bool} {sequence : Nat} (wf : (b.futureLookupDirectory tid).Wf)
    (room : (b.futureLookupDirectory tid).find key ≠ none)
    (newer : ∀ op ∈ b.pending tid, op.sequence < sequence) :
    (b.futureInsert key tid isDone sequence).AgreesAt tid key := by
  intro e
  have hdir : (b.futureInsert key tid isDone sequence).futureLookupDirectory tid =
      (b.futureLookupDirectory tid).record key tid isDone sequence := by
    simp [futureInsert]
  rw [hdir, LookupDirectory.mem_collect_record wf room, pending_futureInsert,
    Function.update_self, newest_concat (by simpa using newer), key_op, if_pos rfl]
  constructor
  · rintro ⟨rfl | ⟨-, hne⟩, hk⟩
    · exact ⟨_, rfl, rfl⟩
    · exact (hne hk).elim
  · rintro ⟨op, hop, rfl⟩
    cases hop
    exact ⟨Or.inl rfl, rfl⟩

/-- Recording an operation changes nothing at other keys. -/
theorem AgreesAt.futureInsert_of_ne {b : Btree τ} {key key' : Int} {tid tid' : Nat}
    {isDone : Bool} {sequence : Nat} (agrees : b.AgreesAt tid' key')
    (wf : (b.futureLookupDirectory tid).Wf) (hne : tid' = tid → key' ≠ key) :
    (b.futureInsert key tid isDone sequence).AgreesAt tid' key' := by
  intro e
  by_cases htid : tid' = tid
  · subst htid
    have hkey : key' ≠ key := hne rfl
    have hdir : (b.futureInsert key tid' isDone sequence).futureLookupDirectory tid' =
        (b.futureLookupDirectory tid').record key tid' isDone sequence := by
      simp [futureInsert]
    rw [hdir, pending_futureInsert, Function.update_self, newest_append_singleton, key_op,
      if_neg (Ne.symm hkey), ← agrees e]
    rcases full : (b.futureLookupDirectory tid').find key with _ | i
    · rw [LookupDirectory.record_of_full full]
    · rw [LookupDirectory.mem_collect_record wf (by simp [full])]
      constructor
      · rintro ⟨rfl | ⟨mem, -⟩, hk⟩
        · exact (hkey hk.symm).elim
        · exact ⟨mem, hk⟩
      · rintro ⟨mem, rfl⟩
        exact ⟨Or.inr ⟨mem, hkey⟩, rfl⟩
  · have hdir : (b.futureInsert key tid isDone sequence).futureLookupDirectory tid' =
        b.futureLookupDirectory tid' := by
      simp [futureInsert, htid]
    rw [hdir, pending_futureInsert, Function.update_of_ne htid]
    exact agrees e

/-- What the directories say about `key` comes from the chains, and the newest
operation on `key` is among what they say. -/
structure Snapshot (b : Btree τ) (key : Int) : Prop where
  sound : ∀ tid < b.nThreads, ∀ e ∈ (b.futureLookupDirectory tid).collect, e.key = key →
    ∃ op, newest (b.pending tid) key = some op ∧ op.lookupEntry = e
  complete : ∀ op, newest b.allPending key = some op →
    op.lookupEntry ∈ (b.futureLookupDirectory op.producerId).collect

/-- The newest operation of all chains is the newest of its own chain. -/
theorem newest_own {b : Btree τ} {key : Int} (distinct : DistinctStamps b.allPending)
    {op : FutureBufferedOp} (top : newest b.allPending key = some op) :
    op.producerId < b.nThreads ∧
      newest (b.pending op.producerId) key = some op := by
  obtain ⟨htid, mem⟩ := mem_allPending.mp (mem_of_newest top)
  have within : ∀ o ∈ b.pending op.producerId, o ∈ b.allPending := fun o ho =>
    mem_allPending.mpr (by rw [producerId_of_mem ho]; exact ⟨htid, ho⟩)
  exact ⟨htid, (newest_eq_some_iff ((distinct.at key).mono within)).mpr
    ⟨mem, key_of_newest top, fun o ho hko => stamp_le_of_newest top (within o ho) hko⟩⟩

/-- Directories that agree with their chains make a snapshot. -/
theorem Snapshot.of_agrees {b : Btree τ} {key : Int}
    (agrees : ∀ tid < b.nThreads, b.AgreesAt tid key)
    (distinct : DistinctStamps b.allPending) : b.Snapshot key where
  sound tid htid e mem hk := (agrees tid htid e).mp ⟨mem, hk⟩
  complete op top := by
    obtain ⟨htid, own⟩ := newest_own distinct top
    exact ((agrees _ htid _).mpr ⟨op, own, rfl⟩).1

/-- An entry for the key is the newest operation of the chain it comes from. -/
theorem exists_of_mem_lookupEntries {b : Btree τ} {key : Int}
    (sound : ∀ tid < b.nThreads, ∀ e ∈ (b.futureLookupDirectory tid).collect, e.key = key →
      ∃ op, newest (b.pending tid) key = some op ∧ op.lookupEntry = e)
    {e : FutureLookupEntry} (mem : e ∈ b.futureCollectLookupEntries) (hk : e.key = key) :
    ∃ op ∈ b.allPending, op.key = key ∧ op.lookupEntry = e ∧
      e ∈ (b.futureLookupDirectory op.producerId).collect := by
  obtain ⟨tid, htid, mem⟩ := List.mem_flatMap.mp mem
  rw [List.mem_range] at htid
  obtain ⟨op, hop, rfl⟩ := sound tid htid e mem hk
  have mem' := mem_of_newest hop
  have htid' := producerId_of_mem mem'
  exact ⟨op, mem_allPending.mpr (htid' ▸ ⟨htid, mem'⟩), hk, rfl, htid' ▸ mem⟩

theorem distinctAt_lookupEntries {b : Btree τ} {key : Int}
    (sound : ∀ tid < b.nThreads, ∀ e ∈ (b.futureLookupDirectory tid).collect, e.key = key →
      ∃ op, newest (b.pending tid) key = some op ∧ op.lookupEntry = e)
    (distinct : DistinctStamps b.allPending) :
    DistinctAt b.futureCollectLookupEntries key := by
  intro e mem e' mem' hk hk' hstamp
  obtain ⟨op, hop, -, rfl, -⟩ := exists_of_mem_lookupEntries sound mem hk
  obtain ⟨op', hop', -, rfl, -⟩ := exists_of_mem_lookupEntries sound mem' hk'
  rw [distinct op hop op' hop' hstamp]

/-- The newest entry of a snapshot records the newest operation of all chains. -/
theorem Snapshot.newest_lookupEntries {b : Btree τ} {key : Int} (snap : b.Snapshot key)
    (distinct : DistinctStamps b.allPending) :
    newest b.futureCollectLookupEntries key =
      (newest b.allPending key).map FutureBufferedOp.lookupEntry := by
  rcases top : newest b.allPending key with _ | op
  · rw [Option.map_none, newest_eq_none_iff] at *
    intro e mem hk
    obtain ⟨op, hop, hk', -⟩ := exists_of_mem_lookupEntries snap.sound mem hk
    exact top op hop hk'
  · rw [Option.map_some, newest_eq_some_iff (distinctAt_lookupEntries snap.sound distinct)]
    have htid := (newest_own distinct top).1
    refine ⟨List.mem_flatMap.mpr ⟨_, List.mem_range.mpr htid, snap.complete op top⟩,
      (key_of_newest top : op.key = key), fun e mem hke => ?_⟩
    obtain ⟨op', hop', hk', rfl, -⟩ := exists_of_mem_lookupEntries snap.sound mem hke
    have hle : op'.sequence ≤ op.sequence := stamp_le_of_newest top hop' hk'
    exact hle

/-! ## Tables that never fill -/

/-- Producer `tid` buffers keys from `keys` only, and its hashtable and directory
have room for all of them. -/
structure Roomy (b : Btree τ) (keys : Finset Int) (tid : Nat) : Prop where
  hash : (b.hash tid).Serves keys tid
  filtered : ∀ op ∈ b.pending tid, ¬ (b.hash tid).Absent op.key
  dir : (b.futureLookupDirectory tid).Serves keys

theorem Roomy.searchKey_ne {b : Btree τ} {keys : Finset Int} {tid : Nat}
    (roomy : b.Roomy keys tid) {op : FutureBufferedOp} (mem : op ∈ b.pending tid) :
    (b.hash tid).searchKey op.key ≠ -1 :=
  roomy.hash.searchKey_ne (roomy.filtered op mem)

theorem hidesNothing_of_roomy {b : Btree τ} {keys : Nat → Finset Int}
    (roomy : ∀ tid < b.nThreads, b.Roomy (keys tid) tid) (key : Int) :
    b.HidesNothing key := by
  rintro tid htid ⟨op, mem, rfl⟩
  exact (roomy tid htid).searchKey_ne mem

theorem roomy_mk' (numThreads : Nat) (hashCapacity : Int) (tree : τ)
    {keys : Finset Int}
    (room : keys.card ≤ if hashCapacity > 0 then hashCapacity.toNat else 1) (tid : Nat) :
    (mk' numThreads hashCapacity tree).Roomy keys tid := by
  have pos : 0 < if hashCapacity > 0 then hashCapacity.toNat else 1 := by
    split <;> omega
  exact ⟨HashMapTable.serves_init pos room tid, by simp [pending, mk', LocalFut.log],
    LookupDirectory.serves_empty pos room⟩

/-- What `Roomy` says about a producer depends on its three structures only. -/
theorem Roomy.congr {b b' : Btree τ} {keys : Finset Int} {tid : Nat}
    (roomy : b.Roomy keys tid) (hhash : b'.hash tid = b.hash tid)
    (hpending : ∀ op ∈ b'.pending tid, op ∈ b.pending tid)
    (hdir : b'.futureLookupDirectory tid = b.futureLookupDirectory tid ∨
      b'.futureLookupDirectory tid = (b.futureLookupDirectory tid).clear) :
    b'.Roomy keys tid := by
  refine ⟨hhash ▸ roomy.hash, fun op mem => ?_, ?_⟩
  · rw [hhash]
    exact roomy.filtered op (hpending op mem)
  · rcases hdir with h | h <;> rw [h]
    · exact roomy.dir
    · exact roomy.dir.clear

/-- Buffering one of its keys keeps a producer's tables roomy. -/
theorem Roomy.futureInsert {b : Btree τ} {keys : Nat → Finset Int}
    (roomy : ∀ p < b.nThreads, b.Roomy (keys p) p) {key : Int} {tid : Nat}
    (hkey : key ∈ keys tid) (isDone : Bool) (sequence : Nat) :
    ∀ p < b.nThreads, (b.futureInsert key tid isDone sequence).Roomy (keys p) p := by
  intro p hp
  by_cases hpt : p = tid
  · subst hpt
    have hhash : (b.futureInsert key p isDone sequence).hash p = (b.hash p).insert key p := by
      simp [Btree.futureInsert]
    have hdir : (b.futureInsert key p isDone sequence).futureLookupDirectory p =
        (b.futureLookupDirectory p).record key p isDone sequence := by
      simp [Btree.futureInsert]
    obtain ⟨hash, filtered, dir⟩ := roomy p hp
    obtain ⟨hash', kept⟩ := hash.insert hkey
    refine ⟨hhash ▸ hash', fun op mem => ?_, hdir ▸ dir.record hkey p isDone sequence⟩
    rw [pending_futureInsert, Function.update_self, List.mem_append,
      List.mem_singleton] at mem
    rw [hhash]
    refine kept op.key ?_
    rcases mem with mem | rfl
    · exact Or.inr (filtered op mem)
    · exact Or.inl rfl
  · refine (roomy p hp).congr (by simp [Btree.futureInsert, hpt]) ?_
      (Or.inl (by simp [Btree.futureInsert, hpt]))
    rw [pending_futureInsert, Function.update_of_ne hpt]
    exact fun op mem => mem

end Btree

end F3Tree
