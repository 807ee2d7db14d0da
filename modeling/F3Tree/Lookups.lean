import F3Tree.Checkpoint

/-!
# The other lookups

`core/btree.h` answers what is buffered on a key in four ways: from the chains, from the
lookup directories, and from either of them behind the hashtables.  Each reader keeps the
entry with the highest sequence number among those it meets, so that all four give the
newest buffered operation on the key as long as directories record their chains and
hashtables hide nothing (`lookups_run`).
-/

namespace F3Tree

open LastWriter

/-! ## The readers -/

/-- The slot that `future_lookup_index` finds for a reader. -/
def LookupDirectory.lookup (dir : LookupDirectory) (key : Int) : Option FutureLookupSlot :=
  let index := dir.futureLookupIndex key false
  if index = dir.size then none else some (dir.slot index)

/-- What a reader reads off that slot. -/
def LookupDirectory.entryAt (dir : LookupDirectory) (key : Int) : Option FutureLookupEntry :=
  (dir.lookup key).map FutureLookupSlot.entry

namespace Btree

variable {τ : Type}

/-- The reader's body at a slot. -/
def Best.look (best : Best) (slot : FutureLookupSlot) : Best :=
  if best.state = .absent ∨ slot.sequence > best.sequence then
    ⟨slot.state, slot.sequence, slot.owner⟩
  else best

/-- The loop body of `future_lookup_state`. -/
def lookupVisit (b : Btree τ) (key : Int) (best : Best) (tid : Nat) : Best :=
  match (b.futureLookupDirectory tid).lookup key with
  | none => best
  | some slot => best.look slot

/-- `future_latest_state`, with its two out-parameters. -/
def futureLatestState (b : Btree τ) (key : Int) : Best :=
  (List.range b.nThreads).foldl (b.viaPtfoWalk key) {}

/-- `future_lookup_state`, with its two out-parameters. -/
def futureLookupState (b : Btree τ) (key : Int) : Best :=
  (List.range b.nThreads).foldl (b.lookupVisit key) {}

/-- `future_hash_directed_state`, with its two out-parameters. -/
def futureHashDirectedState (b : Btree τ) (key : Int) : Best :=
  (List.range b.nThreads).foldl (fun best tid =>
    if (b.hash tid).searchKey key = -1 then best else b.lookupVisit key best tid) {}

/-- `best_owner`, `best_seq`. -/
structure BestOwner : Type where
  owner : Int := -1
  sequence : Nat := 0
deriving DecidableEq, Repr

/-- The body of the two directory readers that look for the owner only. -/
def BestOwner.look (best : BestOwner) (slot : FutureLookupSlot) : BestOwner :=
  if best.owner = -1 ∨ slot.sequence > best.sequence then ⟨slot.owner, slot.sequence⟩ else best

def ownerVisit (b : Btree τ) (key : Int) (best : BestOwner) (tid : Nat) : BestOwner :=
  match (b.futureLookupDirectory tid).lookup key with
  | none => best
  | some slot => best.look slot

/-- `future_lookup_owner` -/
def futureLookupOwner (b : Btree τ) (key : Int) : Int :=
  ((List.range b.nThreads).foldl (b.ownerVisit key) {}).owner

/-- `future_hash_directed_owner` -/
def futureHashDirectedOwner (b : Btree τ) (key : Int) : Int :=
  ((List.range b.nThreads).foldl (fun best tid =>
    if (b.hash tid).searchKey key = -1 then best else b.ownerVisit key best tid) {}).owner

/-- `best_owner`, `best_seq`, `found`. -/
structure FoundOwner : Type extends BestOwner where
  found : Bool := false
deriving DecidableEq, Repr

/-- The body of `future_hash_directed_owner_via_ptfo` at one entry. -/
def FoundOwner.visit (key : Int) (best : FoundOwner) (op : FutureBufferedOp) : FoundOwner :=
  if op.key ≠ key then best
  else if best.found = false ∨ op.sequence > best.sequence then
    { owner := op.producerId, sequence := op.sequence, found := true }
  else best

/-- `future_hash_directed_owner_via_ptfo` -/
def futureHashDirectedOwnerViaPtfo (b : Btree τ) (key : Int) : Int :=
  ((List.range b.nThreads).foldl (fun best tid =>
    if (b.hash tid).searchKey key = -1 then best
    else (b.chainOps tid).foldl (FoundOwner.visit key) best) ({} : FoundOwner)).owner

/-! ## A directory that records its chain -/

/-- A reader's probe ends at a slot that is not free, or nowhere. -/
theorem lookup_eq (dir : LookupDirectory) (key : Int) :
    dir.lookup key =
      (dir.find key).bind fun i => if (dir.slot i).occupied then some (dir.slot i) else none := by
  unfold LookupDirectory.lookup
  dsimp only
  rw [LookupDirectory.futureLookupIndex_eq]
  rcases found : dir.find key with _ | i
  · exact if_pos rfl
  · have hi : i ≠ dir.size := (Probing.lt_of_find found).ne
    rw [Option.bind_some]
    cases hocc : (dir.slot i).occupied with
    | false =>
        have free : dir.answer false (some i) = dir.size := if_pos ⟨hocc, rfl⟩
        rw [free]
        exact if_pos rfl
    | true =>
        have held : dir.answer false (some i) = i := by
          refine if_neg fun h => ?_
          rw [hocc] at h
          cases h.1
        rw [held]
        exact if_neg hi

/-- An entry of a well-formed directory is what a reader of its key reads. -/
theorem entryAt_eq_some_iff {dir : LookupDirectory} (wf : dir.Wf) {key : Int}
    {e : FutureLookupEntry} : dir.entryAt key = some e ↔ e ∈ dir.collect ∧ e.key = key := by
  unfold LookupDirectory.entryAt
  rw [lookup_eq, LookupDirectory.mem_collect wf]
  constructor
  · intro h
    obtain ⟨slot, hslot, rfl⟩ := Option.map_eq_some_iff.mp h
    obtain ⟨i, found, here⟩ := Option.bind_eq_some_iff.mp hslot
    split at here
    · rename_i hocc
      cases here
      have stop := (Probing.find_eq_some_iff.mp found).1
      have held := stop.resolve_left fun free => by
        rw [LookupDirectory.cell_eq_free, hocc] at free
        cases free
      exact ⟨⟨i, Probing.lt_of_find found, hocc, rfl⟩, (LookupDirectory.cell_eq_held.mp held).2⟩
    · cases here
  · intro h
    obtain ⟨⟨i, hi, hocc, rfl⟩, hkey⟩ := h
    have held : dir.cell i = .held key := LookupDirectory.cell_eq_held.mpr ⟨hocc, hkey⟩
    have found : dir.find key = some i := wf.placed i hi key held
    rw [found, Option.bind_some, if_pos hocc]
    rfl

/-- A reader's probe ends at the entry of the newest operation. -/
theorem Records.entryAt {dir : LookupDirectory} {ops : List FutureBufferedOp} {key : Int}
    (records : Records dir ops key) (wf : dir.Wf) :
    dir.entryAt key = (newest ops key).map FutureBufferedOp.lookupEntry := by
  refine Option.ext fun e => ?_
  rw [entryAt_eq_some_iff wf, records e, Option.map_eq_some_iff]

/-- At a slot that records an operation a directory reader does what a chain reader does at
the operation. -/
theorem Best.look_eq {slot : FutureLookupSlot} {op : FutureBufferedOp}
    (records : slot.entry = op.lookupEntry) (best : Best) :
    best.look slot = best.visit op.key op := by
  have state : slot.state = stateOf op.isDelete := congrArg FutureLookupEntry.state records
  have sequence : slot.sequence = op.sequence := congrArg FutureLookupEntry.sequence records
  have owner : slot.owner = op.producerId := congrArg FutureLookupEntry.owner records
  rw [Best.look, Best.visit, if_neg (not_not.mpr rfl), state, sequence, owner]

/-! ## Four readers, one answer -/

/-- Directories record their chains at `key`, and no hashtable hides it. -/
structure Tracks (b : Btree τ) (key : Int) : Prop where
  wf : ∀ tid < b.nThreads, (b.futureLookupDirectory tid).Wf
  agrees : ∀ tid < b.nThreads, b.AgreesAt tid key
  shown : b.HidesNothing key
  distinct : DistinctStamps b.allPending

/-- The newest operation on `key` of each producer that has one. -/
def newestOps (b : Btree τ) (key : Int) : List FutureBufferedOp :=
  (List.range b.nThreads).filterMap fun tid => newest (b.pending tid) key

theorem newest_newestOps {b : Btree τ} {key : Int} (distinct : DistinctStamps b.allPending) :
    newest (b.newestOps key) key = newest b.allPending key := by
  have within : ∀ op ∈ b.newestOps key, op ∈ b.allPending := by
    intro op mem
    obtain ⟨tid, htid, top⟩ := List.mem_filterMap.mp mem
    exact List.mem_flatMap.mpr ⟨tid, htid, mem_of_newest top⟩
  rcases top : newest b.allPending key with _ | op
  · rw [newest_eq_none_iff] at top ⊢
    exact fun op mem => top op (within op mem)
  · rw [newest_eq_some_iff ((distinct.at key).mono within)]
    obtain ⟨htid, own⟩ := newest_own distinct top
    exact ⟨List.mem_filterMap.mpr ⟨_, List.mem_range.mpr htid, own⟩, key_of_newest top,
      fun op' mem hk => stamp_le_of_newest top (within op' mem) hk⟩

variable {b : Btree τ} {key : Int} {tid : Nat}

/-- At a producer's directory a reader meets the producer's newest operation. -/
theorem Tracks.lookup (tracks : b.Tracks key) (htid : tid < b.nThreads) :
    (newest (b.pending tid) key = none ∧ (b.futureLookupDirectory tid).lookup key = none) ∨
      ∃ op slot, newest (b.pending tid) key = some op ∧ op.key = key ∧
        (b.futureLookupDirectory tid).lookup key = some slot ∧ slot.entry = op.lookupEntry := by
  have found := Records.entryAt (tracks.agrees tid htid) (tracks.wf tid htid)
  rw [LookupDirectory.entryAt] at found
  rcases top : newest (b.pending tid) key with _ | op
  · rw [top] at found
    exact Or.inl ⟨rfl, Option.map_eq_none_iff.mp found⟩
  · rw [top] at found
    obtain ⟨slot, here, records⟩ := Option.map_eq_some_iff.mp found
    exact Or.inr ⟨op, slot, rfl, key_of_newest top, here, records⟩

theorem Tracks.lookupVisit_eq (tracks : b.Tracks key) (htid : tid < b.nThreads) (best : Best) :
    b.lookupVisit key best tid =
      match newest (b.pending tid) key with
      | some op => best.visit key op
      | none => best := by
  unfold lookupVisit
  rcases tracks.lookup htid with ⟨top, none⟩ | ⟨op, slot, top, hkey, here, records⟩
  · rw [top, none]
  · rw [top, here]
    dsimp only
    rw [Best.look_eq records, hkey]

/-- A hashtable that does not know the key belongs to a producer with nothing on it. -/
theorem Tracks.skip (tracks : b.Tracks key) (htid : tid < b.nThreads)
    (miss : (b.hash tid).searchKey key = -1) :
    (b.futureLookupDirectory tid).lookup key = none := by
  rcases tracks.lookup htid with ⟨-, none⟩ | ⟨op, slot, top, hkey, -⟩
  · exact none
  · exact absurd miss (tracks.shown tid htid ⟨op, mem_of_newest top, hkey⟩)

theorem Tracks.viaPtfo (tracks : b.Tracks key) :
    b.futureHashDirectedStateViaPtfo key = Best.ofNewest (newest b.allPending key) :=
  viaPtfo_eq_of_distinct tracks.shown tracks.distinct

theorem Tracks.latest (tracks : b.Tracks key) :
    b.futureLatestState key = Best.ofNewest (newest b.allPending key) := by
  have same : newest b.walkOrder key = newest b.allPending key := by
    refine newest_congr ?_ fun op _ => mem_walkOrder
    exact (tracks.distinct.at key).mono fun op mem => mem_walkOrder.mp mem
  rw [← same, ← foldl_visit, walkOrder, List.foldl_flatMap]
  rfl

theorem Tracks.lookupState (tracks : b.Tracks key) :
    b.futureLookupState key = Best.ofNewest (newest b.allPending key) := by
  rw [← newest_newestOps tracks.distinct, ← foldl_visit, newestOps, List.foldl_filterMap]
  refine List.foldl_ext _ _ _ fun best tid mem => ?_
  rw [tracks.lookupVisit_eq (List.mem_range.mp mem) best]
  cases newest (b.pending tid) key with
  | none => rfl
  | some op => rfl

theorem Tracks.hashDirected (tracks : b.Tracks key) :
    b.futureHashDirectedState key = b.futureLookupState key := by
  refine List.foldl_ext _ _ _ fun best tid mem => ?_
  split
  · rename_i miss
    rw [lookupVisit, tracks.skip (List.mem_range.mp mem) miss]
  · rfl

/-! ## Owners -/

/-- A reader that has found something has found an owner. -/
def Best.Owned (best : Best) : Prop := best.owner = -1 ↔ best.state = .absent

/-- What a reader of owners keeps of `best`. -/
def Best.owning (best : Best) : BestOwner := ⟨best.owner, best.sequence⟩

theorem Best.Owned.visit {best : Best} (owned : best.Owned) (key : Int) (op : FutureBufferedOp) :
    (best.visit key op).Owned := by
  unfold Best.visit
  split
  · exact owned
  · split
    · have some : (op.producerId : Int) ≠ -1 := by omega
      exact iff_of_false some (stateOf_ne_absent op.isDelete)
    · exact owned

theorem Best.Owned.look {best : Best} (owned : best.Owned) (slot : FutureLookupSlot) :
    best.owning.look slot = (best.look slot).owning := by
  unfold BestOwner.look Best.look
  have same : best.owning.owner = -1 ∨ slot.sequence > best.owning.sequence ↔
      best.state = .absent ∨ slot.sequence > best.sequence := or_congr_left owned
  by_cases better : best.state = .absent ∨ slot.sequence > best.sequence
  · rw [if_pos better, if_pos (same.mpr better)]
    rfl
  · rw [if_neg better, if_neg fun h => better (same.mp h)]

/-- The readers of owners go along with the readers of states. -/
theorem Tracks.ownerVisit (tracks : b.Tracks key) (htid : tid < b.nThreads) {best : Best}
    (owned : best.Owned) :
    b.ownerVisit key best.owning tid = (b.lookupVisit key best tid).owning ∧
      (b.lookupVisit key best tid).Owned := by
  rw [Btree.ownerVisit, lookupVisit]
  rcases tracks.lookup htid with ⟨-, none⟩ | ⟨op, slot, -, hkey, here, records⟩
  · rw [none]
    exact ⟨rfl, owned⟩
  · rw [here]
    dsimp only
    refine ⟨owned.look slot, ?_⟩
    rw [Best.look_eq records]
    exact owned.visit op.key op

theorem Tracks.lookupOwner (tracks : b.Tracks key) :
    b.futureLookupOwner key = (b.futureLookupState key).owner := by
  have both : (List.range b.nThreads).foldl (b.ownerVisit key) {} =
      (b.futureLookupState key).owning ∧ (b.futureLookupState key).Owned := by
    refine List.foldl_rel (r := fun o (best : Best) => o = best.owning ∧ best.Owned)
      ⟨rfl, iff_of_true rfl rfl⟩ fun tid mem o best h => ?_
    obtain ⟨rfl, owned⟩ := h
    exact tracks.ownerVisit (List.mem_range.mp mem) owned
  exact congrArg BestOwner.owner both.1

theorem Tracks.hashDirectedOwner (tracks : b.Tracks key) :
    b.futureHashDirectedOwner key = b.futureLookupOwner key := by
  unfold futureHashDirectedOwner futureLookupOwner
  congr 1
  refine List.foldl_ext _ _ _ fun best tid mem => ?_
  split
  · rename_i miss
    rw [Btree.ownerVisit, tracks.skip (List.mem_range.mp mem) miss]
  · rfl

/-- A reader that keeps `found` apart from the owner is where `best` is. -/
def FoundOwner.Follows (o : FoundOwner) (best : Best) : Prop :=
  o.toBestOwner = best.owning ∧ (o.found = false ↔ best.state = .absent)

theorem FoundOwner.Follows.visit {o : FoundOwner} {best : Best} (follows : o.Follows best)
    (key : Int) (op : FutureBufferedOp) : (o.visit key op).Follows (best.visit key op) := by
  obtain ⟨owning, found⟩ := follows
  have sequence : o.sequence = best.sequence := congrArg BestOwner.sequence owning
  have same : o.found = false ∨ op.sequence > o.sequence ↔
      best.state = .absent ∨ op.sequence > best.sequence := by
    rw [found, sequence]
  unfold FoundOwner.visit Best.visit
  by_cases hkey : op.key ≠ key
  · rw [if_pos hkey, if_pos hkey]
    exact ⟨owning, found⟩
  · rw [if_neg hkey, if_neg hkey]
    by_cases better : best.state = .absent ∨ op.sequence > best.sequence
    · rw [if_pos better, if_pos (same.mpr better)]
      exact ⟨rfl, iff_of_false Bool.noConfusion (stateOf_ne_absent op.isDelete)⟩
    · rw [if_neg better, if_neg fun h => better (same.mp h)]
      exact ⟨owning, found⟩

/-- Both chain readers find the same owner. -/
theorem ownerViaPtfo_eq (b : Btree τ) (key : Int) :
    b.futureHashDirectedOwnerViaPtfo key = (b.futureHashDirectedStateViaPtfo key).owner := by
  have both : ((List.range b.nThreads).foldl (fun best tid =>
      if (b.hash tid).searchKey key = -1 then best
      else (b.chainOps tid).foldl (FoundOwner.visit key) best) ({} : FoundOwner)).Follows
        (b.futureHashDirectedStateViaPtfo key) := by
    refine List.foldl_rel (r := FoundOwner.Follows) ⟨rfl, iff_of_true rfl rfl⟩
      fun tid _ o best follows => ?_
    unfold viaPtfoVisit
    split
    · exact follows
    · exact List.foldl_rel (r := FoundOwner.Follows) follows
        fun op _ o best follows => follows.visit key op
  exact congrArg BestOwner.owner both.1

end Btree

namespace Impl

/-! ## Runs -/

/-- An operation under its own sequence number, or a drain. -/
inductive NumberedCall : Type
  | futureInsert (key : Int) (tid : Nat) (isDone : Bool) (sequence : Nat) (numa : Int)
  | drainPending (numa : Int)
  | drainForProducers (producerIds : List Nat) (numa : Int)
  | drainForNodes (nodeIds : List Nat) (numa : Int)
deriving DecidableEq, Repr

/-- The sequence numbers of a run, in order. -/
def sequencesOf (calls : List NumberedCall) : List Nat :=
  calls.filterMap fun
    | .futureInsert _ _ _ sequence _ => some sequence
    | .drainPending _ | .drainForProducers _ _ | .drainForNodes _ _ => none

/-- The operations of a run, in order. -/
def insertsOf (calls : List NumberedCall) : List Issue :=
  calls.filterMap fun
    | .futureInsert key tid isDone _ _ => some ⟨key, tid, isDone⟩
    | .drainPending _ | .drainForProducers _ _ | .drainForNodes _ _ => none

variable {τ : Type} [GlobalTree τ]

/-- One call.  A thread id that is not configured is refused. -/
def numberedCall (s : Impl τ) : NumberedCall → Impl τ
  | .futureInsert key tid isDone sequence numa =>
      if tid < s.ptfoThreads.size then
        { s with nextPtfoSequence := sequence }.enqueued key tid isDone numa
      else s
  | .drainPending numa => s.drainPending numa
  | .drainForProducers producerIds numa => s.drainLockedForProducers producerIds numa
  | .drainForNodes nodeIds numa => s.drainLockedForNodes nodeIds numa

def numberedRun (s : Impl τ) (calls : List NumberedCall) : Impl τ := calls.foldl numberedCall s

/-- Between calls the counters and the directories are those of the chains, which hold
operations numbered from `sequences`. -/
structure Kept (config : RuntimeConfig) (keys : Nat → Finset Int) (sequences : List Nat)
    (s : Impl τ) : Prop where
  nThreads : s.tree.nThreads = config.producerThreads
  accounted : s.Accounted
  informed : s.Informed keys
  numbered : ∀ op ∈ s.tree.allPending, op.sequence ∈ sequences

section Step

variable {s s' : Impl τ} {config : RuntimeConfig} {keys : Nat → Finset Int}
  {sequences : List Nat}

omit [GlobalTree τ] in
theorem Kept.tracks (kept : s.Kept config keys sequences) (key : Int) : s.tree.Tracks key :=
  ⟨fun tid htid => (kept.informed.roomy tid htid).dir.wf,
    fun tid htid => kept.informed.agrees tid htid key,
    Btree.hidesNothing_of_roomy kept.informed.roomy key, kept.accounted.distinct⟩

omit [GlobalTree τ] in
/-- The next number may be any that is above all before it. -/
theorem Kept.renumber (kept : s.Kept config keys sequences) {sequence : Nat}
    (above : ∀ n ∈ sequences, n < sequence) :
    Kept config keys sequences { s with nextPtfoSequence := sequence } :=
  ⟨kept.nThreads,
    ⟨⟨kept.accounted.threads, kept.accounted.total, kept.accounted.increasing,
      kept.accounted.distinct, fun op mem => above _ (kept.numbered op mem)⟩,
      kept.accounted.entryCount⟩,
    ⟨kept.informed.roomy, kept.informed.agrees⟩, kept.numbered⟩

omit [GlobalTree τ] in
/-- An operation under the next number. -/
theorem Kept.enqueued (kept : s.Kept config keys sequences) {key : Int} {tid : Nat}
    (htid : tid < config.producerThreads) (hkey : key ∈ keys tid) (isDone : Bool) (numa : Int) :
    (s.enqueued key tid isDone numa).Kept config keys (sequences ++ [s.nextPtfoSequence]) := by
  have htid' : tid < s.tree.nThreads := kept.nThreads.symm ▸ htid
  refine ⟨kept.nThreads, kept.accounted.enqueued htid',
    kept.informed.enqueued kept.accounted.toNumbered htid' hkey, fun op mem => ?_⟩
  rcases List.mem_append.mp ((mem_allPending_enqueued htid').mp mem) with old | new
  · exact List.mem_append_left _ (kept.numbered op old)
  · rw [List.mem_singleton.mp new]
    exact List.mem_append_right _ (List.mem_singleton.mpr rfl)

/-- A drain that clears the directories of the chains it empties, and of no other chain that
is not empty. -/
theorem Kept.drains (kept : s.Kept config keys sequences) {ids cleared : List Nat}
    (drains : s.Drains s' ids cleared) (clears : ∀ p ∈ ids, p ∈ cleared)
    (spares : ∀ p < s.tree.nThreads, p ∈ cleared → p ∉ ids → s.tree.pending p = []) :
    s'.Kept config keys sequences :=
  ⟨drains.nThreads.trans kept.nThreads, kept.accounted.drains drains,
    kept.informed.drains drains clears spares,
    fun op mem => kept.numbered op (drains.mem_allPending.mp mem).1⟩

theorem Kept.slice (kept : s.Kept config keys sequences) {ids : List Nat} (active : s.Active ids)
    (slots : Nat) (numa : Int) : (s.drainSlice ids slots numa).Kept config keys sequences :=
  kept.drains (drains_drainSlice active slots numa) (fun _ mem => mem)
    fun _ _ mem notMem => absurd mem notMem

end Step

/-- Every run over keys for which the tables have room keeps directories and chains in
step. -/
theorem kept_run {config : RuntimeConfig} (valid : validateRuntimeConfig config = .ok ())
    {keys : Nat → Finset Int}
    (room : ∀ p < config.producerThreads, (keys p).card ≤ config.dirCap) (tree : τ)
    (resume nodes : Nat) (calls : List NumberedCall)
    (increasing : (sequencesOf calls).Pairwise (· < ·))
    (within : ∀ i ∈ insertsOf calls, i.key ∈ keys i.producerId) :
    ((init config tree resume nodes).numberedRun calls).Kept config keys (sequencesOf calls) := by
  induction calls using List.reverseRecOn with
  | nil =>
      refine ⟨nThreads_init valid .., accounted_init valid .., informed_init valid room ..,
        fun op mem => ?_⟩
      have empty := allPending_init config tree resume nodes
      rw [numberedRun, List.foldl_nil, empty] at mem
      exact absurd mem List.not_mem_nil
  | append_singleton calls c ih =>
      rw [sequencesOf, List.filterMap_append, ← sequencesOf] at increasing ⊢
      rw [insertsOf, List.filterMap_append, ← insertsOf] at within
      rw [numberedRun, List.foldl_concat, ← numberedRun]
      have kept := ih (List.pairwise_append.mp increasing).1
        fun i mem => within i (List.mem_append_left _ mem)
      have threads := kept.accounted.threads
      cases c with
      | futureInsert key tid isDone sequence numa =>
          have above := (List.pairwise_append.mp increasing).2.2
          rw [numberedCall]
          split
          · rename_i htid
            have fresh := kept.renumber fun n mem => above n mem sequence (by simp)
            refine fresh.enqueued ?_ ?_ isDone numa
            · exact kept.nThreads ▸ threads ▸ htid
            · exact within ⟨key, tid, isDone⟩ (List.mem_append_right _ (by simp))
          · exact ⟨kept.nThreads, kept.accounted, kept.informed, fun op mem =>
              List.mem_append_left _ (kept.numbered op mem)⟩
      | drainPending numa =>
          rw [List.filterMap_cons_none rfl, List.filterMap_nil, List.append_nil]
          obtain ⟨cleared, drains, clears⟩ := kept.accounted.drains_drainPending numa
          exact kept.drains drains clears fun p hp _ notMem =>
            kept.accounted.mem_pendingProducers hp notMem
      | drainForProducers producerIds numa =>
          rw [List.filterMap_cons_none rfl, List.filterMap_nil, List.append_nil]
          exact kept.slice (active_activeProducers threads producerIds) 1 numa
      | drainForNodes nodeIds numa =>
          rw [List.filterMap_cons_none rfl, List.filterMap_nil, List.append_nil]
          exact kept.slice (active_collectProducersForNodes threads nodeIds) _ numa

/-- Where every producer's tables hold all of its keys, all readers give the same state,
owner and sequence number for every key at every point of every run. -/
theorem lookups_run {config : RuntimeConfig} (valid : validateRuntimeConfig config = .ok ())
    (tree : τ) (resume nodes : Nat) (calls : List NumberedCall)
    (increasing : (sequencesOf calls).Pairwise (· < ·))
    (ample : ∀ p < config.producerThreads,
      (keysOf (insertsOf calls) p).card ≤ config.dirCap) (key : Int) :
    let b := ((init config tree resume nodes).numberedRun calls).tree
    (b.futureLatestState key = b.futureHashDirectedStateViaPtfo key ∧
      b.futureLookupState key = b.futureHashDirectedStateViaPtfo key ∧
      b.futureHashDirectedState key = b.futureHashDirectedStateViaPtfo key) ∧
    b.futureLookupOwner key = (b.futureHashDirectedStateViaPtfo key).owner ∧
      b.futureHashDirectedOwner key = (b.futureHashDirectedStateViaPtfo key).owner ∧
      b.futureHashDirectedOwnerViaPtfo key = (b.futureHashDirectedStateViaPtfo key).owner := by
  intro b
  have kept := kept_run valid ample tree resume nodes calls increasing
    fun i mem => mem_keysOf mem
  have tracks : b.Tracks key := kept.tracks key
  have lookup : b.futureLookupState key = b.futureHashDirectedStateViaPtfo key :=
    tracks.lookupState.trans tracks.viaPtfo.symm
  have owner : b.futureLookupOwner key = (b.futureHashDirectedStateViaPtfo key).owner :=
    tracks.lookupOwner.trans (congrArg Btree.Best.owner lookup)
  exact ⟨⟨tracks.latest.trans tracks.viaPtfo.symm, lookup, tracks.hashDirected.trans lookup⟩,
    owner, tracks.hashDirectedOwner.trans owner, b.ownerViaPtfo_eq key⟩

/-- Two producers on one key, one of them drained. -/
theorem lookups_run_two :
    let config : RuntimeConfig := { producerThreads := 2, hashCapacity := 4 }
    let calls : List NumberedCall := [.futureInsert 7 0 false 3 0, .futureInsert 7 1 true 5 0,
      .futureInsert 8 0 false 9 0, .drainForProducers [1] 0]
    let b := ((init config (∅ : Finset Int) 1 1).numberedRun calls).tree
    b.futureLookupOwner 7 = (b.futureHashDirectedStateViaPtfo 7).owner := by
  intro config calls b
  have valid : validateRuntimeConfig config = .ok () := rfl
  exact (lookups_run valid (∅ : Finset Int) 1 1 calls (by decide) (by decide) 7).2.1

end Impl

end F3Tree
