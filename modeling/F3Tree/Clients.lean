import Mathlib.Data.Fintype.EquivFin
import F3Tree.Checkpoint
import F3Tree.Locks
import F3Tree.YcsbKeys

/-!
# The clients of the YCSB driver

`F3TreeDB` of `YCSB-cpp/f3tree/f3tree_db.cc`: the clients share one `FutureBTree`, which the
first `Init` makes and the last `Cleanup` drains and deletes.  `ClientThread` calls `Init` once,
then the operations of its share, then `Cleanup` once.  `ycsbc` runs the load and the
transactions in one process, when no client cleans up before all of them have finished loading,
or one of the two alone, when each client cleans up as soon as it is through.

Where no pool is configured no call fails, whatever the interleaving (`call_succeeds`).  But a
client that is through before another begins takes the tree with it (`forgets_nothing_iff`).

What the constructor makes of a pool is any value.  A background checkpoint drains any producers
or nodes, as soon as one is configured.  Of `Scan` only the drain is modelled, its result is that
of `scan_range`.
-/

namespace F3Tree

namespace Ycsb

open GlobalTree

/-! ## One client -/

inductive Status : Type
  | kOK
  | kNotFound
deriving DecidableEq, Repr

/-- `DB::Field` -/
structure Field : Type where
  name : List Char
  value : List Char
deriving DecidableEq, Repr

/-- The statics of `F3TreeDB`. -/
structure F3TreeDB (τ : Type) : Type where
  tree : Option (Impl τ) := none
  instanceCount : Int := 0
  nextProducerId : Nat := 0

/-- What a client calls; `numa` is the node that it runs on. -/
inductive ClientCall : Type
  | init
  | read (key : List Char)
  | scan (key : List Char) (recordCount numa : Int)
  | update (key : List Char) (numa : Int)
  | insert (key : List Char) (numa : Int)
  | delete (key : List Char) (numa : Int)
  | cleanup
deriving DecidableEq, Repr

/-- The key that a call writes, and whether it is there afterwards. -/
def ClientCall.written (stdHash : List Char → UInt64) : ClientCall → Option (Int × Bool)
  | update key _ | insert key _ => some (stringToKey stdHash key, true)
  | delete key _ => some (stringToKey stdHash key, false)
  | init | read _ | scan _ _ _ | cleanup => none

/-- What a `FutureBTree` is made with: its configuration with the path of its pool, and a tree on
a machine with `topologyNodes` NUMA nodes. -/
structure Setup (τ : Type) : Type where
  config : RuntimeConfig
  persistentPath : List Char := []
  emptyTree : τ
  topologyNodes : Nat
  stdHash : List Char → UInt64

/-- The tree that the first client makes without a pool. -/
def Setup.fresh {τ : Type} (setup : Setup τ) : Impl τ :=
  .init setup.config setup.emptyTree Impl.dramSeqCounterResume setup.topologyNodes

namespace F3TreeDB

variable {τ : Type} [GlobalTree τ]

/-- `Init`, with the id that the client gets.  `opened` is what the constructor makes of the pool,
where there is one. -/
def init (setup : Setup τ) (opened : Except String (Impl τ)) (db : F3TreeDB τ) :
    Except String (F3TreeDB τ × Nat) := do
  let tree ← match db.tree with
    | some tree => pure tree
    | none => do
        validateRuntimeConfig setup.config
        if setup.persistentPath = [] then pure setup.fresh else opened
  return ({
    tree := some tree
    instanceCount := db.instanceCount + 1
    nextProducerId := db.nextProducerId + 1 }, db.nextProducerId)

/-- A member function that goes through `tree_`. -/
def deref {α : Type} (db : F3TreeDB τ) (f : Impl τ → Except String α) : Except String α :=
  match db.tree with
  | none => .error "null pointer"
  | some tree => f tree

/-- `drain_pending` fills a tree that is then deleted. -/
def cleanup (db : F3TreeDB τ) : Except String (F3TreeDB τ) :=
  if db.instanceCount = 1 then
    db.deref fun _ =>
      .ok { tree := none, instanceCount := db.instanceCount - 1, nextProducerId := 0 }
  else .ok { db with instanceCount := db.instanceCount - 1 }

/-- What `Read` returns.  The name of the key stands for its value. -/
def found (key : List Char) (contains : Bool) : Status × List Field :=
  if !contains then (.kNotFound, []) else (.kOK, [⟨"value".toList, key⟩])

def read (setup : Setup τ) (db : F3TreeDB τ) (key : List Char) :
    Except String (Status × List Field) :=
  db.deref fun tree => .ok (found key (tree.contains (stringToKey setup.stdHash key)))

def scan (db : F3TreeDB τ) (numa : Int) : Except String (F3TreeDB τ) :=
  db.deref fun tree => .ok { db with tree := some (tree.drainPending numa) }

def insert (setup : Setup τ) (db : F3TreeDB τ) (producerId : Nat) (key : List Char) (numa : Int) :
    Except String (F3TreeDB τ) :=
  db.deref fun tree => do
    let tree ← tree.bufferedInsert (stringToKey setup.stdHash key) producerId numa
    return { db with tree := some tree }

/-- Re-insertion is an update. -/
def update (setup : Setup τ) (db : F3TreeDB τ) (producerId : Nat) (key : List Char) (numa : Int) :
    Except String (F3TreeDB τ) :=
  db.insert setup producerId key numa

def delete (setup : Setup τ) (db : F3TreeDB τ) (producerId : Nat) (key : List Char) (numa : Int) :
    Except String (F3TreeDB τ) :=
  db.deref fun tree => do
    let tree ← tree.eraseBuffered (stringToKey setup.stdHash key) producerId numa
    return { db with tree := some tree }

end F3TreeDB

/-! ## All clients -/

/-- Where a client stands in `ClientThread`. -/
inductive Stage : Type
  | waiting
  | running
  | finished
deriving DecidableEq, Repr

/-- The clients, one for each element of `ι`, with what they share. -/
structure Session (τ ι : Type) : Type where
  db : F3TreeDB τ
  producerId : ι → Nat
  stage : ι → Stage

namespace Session

variable {τ ι : Type} [GlobalTree τ] [DecidableEq ι]

def start : Session τ ι where
  db := {}
  producerId := fun _ => 0
  stage := fun _ => .waiting

/-- What `ClientThread` lets the client `i` call.  `together` says that the load and the
transactions are one run. -/
def Permits (together : Bool) (s : Session τ ι) (i : ι) : ClientCall → Prop
  | .init => s.stage i = .waiting
  | .cleanup => s.stage i = .running ∧ (together = true → ∀ j, s.stage j ≠ .waiting)
  | _ => s.stage i = .running

/-- A call, with the status that it returns and the fields that it finds. -/
def call (setup : Setup τ) (opened : Except String (Impl τ)) (s : Session τ ι) (i : ι) :
    ClientCall → Except String (Session τ ι × Status × List Field)
  | .init => do
      let (db, producerId) ← s.db.init setup opened
      return ({
        db := db
        producerId := Function.update s.producerId i producerId
        stage := Function.update s.stage i .running }, .kOK, [])
  | .read key => return (s, ← s.db.read setup key)
  | .scan _ _ numa => return ({ s with db := ← s.db.scan numa }, .kOK, [])
  | .update key numa =>
      return ({ s with db := ← s.db.update setup (s.producerId i) key numa }, .kOK, [])
  | .insert key numa =>
      return ({ s with db := ← s.db.insert setup (s.producerId i) key numa }, .kOK, [])
  | .delete key numa =>
      return ({ s with db := ← s.db.delete setup (s.producerId i) key numa }, .kOK, [])
  | .cleanup =>
      return ({ s with
        db := ← s.db.cleanup
        stage := Function.update s.stage i .finished }, .kOK, [])

end Session

/-- The session with another tree. -/
def Session.withTree {τ ι : Type} (s : Session τ ι) (tree : Impl τ) : Session τ ι :=
  { s with db := { s.db with tree := some tree } }

/-- The clients after calls in some order, whose keys are among `keys`, and checkpoints of the
tree's workers in between. -/
inductive Clients {τ ι : Type} [GlobalTree τ] [DecidableEq ι] (setup : Setup τ) (together : Bool)
    (keys : Finset Int) : List ClientCall → Session τ ι → Prop
  | start : Clients setup together keys [] .start
  | call {calls : List ClientCall} {s s' : Session τ ι} {answer : Status × List Field}
    (opened : Except String (Impl τ)) (i : ι) (c : ClientCall) :
    Clients setup together keys calls s → s.Permits together i c →
    (∀ w ∈ c.written setup.stdHash, w.1 ∈ keys) → s.call setup opened i c = .ok (s', answer) →
    Clients setup together keys (calls ++ [c]) s'
  | checkpoint {calls : List ClientCall} {s : Session τ ι} {tree : Impl τ} (e : Event) :
    Clients setup together keys calls s → s.db.tree = some tree →
    Code.asyncCheckpointEnabled tree = true → e.call? = none →
    Clients setup together keys calls (s.withTree (tree.event e))

/-- A key is there by the last call that wrote it. -/
def lastWritten (stdHash : List Char → UInt64) (calls : List ClientCall) (key : Int) : Bool :=
  match ((calls.filterMap (ClientCall.written stdHash)).filter fun w => w.1 = key).getLast? with
  | none => false
  | some w => w.2

/-! ## No call fails -/

open F3TreeDB (found)

section Sound

variable {τ ι : Type} [GlobalTree τ] [DecidableEq ι] [Fintype ι] {setup : Setup τ}
  {together : Bool} {keys : Finset Int} {calls : List ClientCall} {s s' : Session τ ι}

/-- A tree of the setup. -/
def Setup.Makes (setup : Setup τ) (tree : Impl τ) : Prop :=
  tree.ptfoThreads.size = setup.config.producerThreads ∧
    tree.tree.nThreads = setup.config.producerThreads

omit [GlobalTree τ] in
theorem Setup.Makes.init (valid : validateRuntimeConfig setup.config = .ok ()) :
    setup.Makes setup.fresh :=
  ⟨rfl, Impl.nThreads_init valid ..⟩

omit [GlobalTree τ] in
theorem Setup.Makes.enqueue {tree : Impl τ} (makes : setup.Makes tree) {p : Nat}
    (hp : p < setup.config.producerThreads) (key : Int) (isDone : Bool) (numa : Int) :
    tree.enqueue key p isDone numa = .ok (tree.enqueued key p isDone numa) ∧
      setup.Makes (tree.enqueued key p isDone numa) :=
  ⟨Impl.enqueue_of_lt (makes.1.symm ▸ hp) .., makes⟩

theorem Setup.Makes.drainPending {tree : Impl τ} (makes : setup.Makes tree) (numa : Int) :
    setup.Makes (tree.drainPending numa) := by
  by_cases hzero : tree.pendingOperationCount = 0
  · rw [Impl.drainPending, Impl.drainLocked, if_pos hzero]
    exact makes
  · have drains := Impl.drains_drainLocked (makes.1.trans makes.2.symm) hzero numa
    exact ⟨drains.size.trans makes.1, drains.nThreads.trans makes.2⟩

/-- A background checkpoint keeps the producers. -/
theorem Setup.Makes.checkpoint {tree : Impl τ} (makes : setup.Makes tree) {e : Event}
    (he : e.call? = none) : setup.Makes (tree.event e) := by
  have threads := makes.1.trans makes.2.symm
  cases e with
  | call c => cases he
  | checkpointProducers producerIds numa =>
      have drains := Impl.drains_checkpointProducers threads producerIds numa
      exact ⟨drains.size.trans makes.1, drains.nThreads.trans makes.2⟩
  | checkpointNodes nodeIds numa =>
      have drains := Impl.drains_checkpointNodes threads nodeIds numa
      exact ⟨drains.size.trans makes.1, drains.nThreads.trans makes.2⟩

namespace Session

def running (s : Session τ ι) : Finset ι := Finset.univ.filter fun i => s.stage i = .running

def begun (s : Session τ ι) : Finset ι := Finset.univ.filter fun i => s.stage i ≠ .waiting

/-- The clients that run are counted, and have ids of their own. -/
structure Sound (setup : Setup τ) (s : Session τ ι) : Prop where
  count : s.db.instanceCount = s.running.card
  tree : s.db.tree = none ↔ s.running = ∅
  ids : ∀ i ∈ s.running, s.producerId i < s.db.nextProducerId
  distinct : ∀ i ∈ s.running, ∀ j ∈ s.running, s.producerId i = s.producerId j → i = j
  next : s.db.nextProducerId ≤ s.begun.card
  makes : ∀ tree ∈ s.db.tree, setup.Makes tree

variable {i : ι} {tree : Impl τ}

omit [GlobalTree τ] [DecidableEq ι] in
theorem mem_running : i ∈ s.running ↔ s.stage i = .running := by simp [running]

omit [GlobalTree τ] [DecidableEq ι] in
theorem mem_begun : i ∈ s.begun ↔ s.stage i ≠ .waiting := by simp [begun]

/-- The session after a client has begun with the tree `tree`. -/
def begin (s : Session τ ι) (i : ι) (tree : Impl τ) : Session τ ι where
  db :=
    { tree := some tree
      instanceCount := s.db.instanceCount + 1
      nextProducerId := s.db.nextProducerId + 1 }
  producerId := Function.update s.producerId i s.db.nextProducerId
  stage := Function.update s.stage i .running

/-- The session after a client has come to its end. -/
def finish (s : Session τ ι) (i : ι) : Session τ ι where
  db :=
    if s.db.instanceCount = 1 then
      { tree := none, instanceCount := s.db.instanceCount - 1, nextProducerId := 0 }
    else { s.db with instanceCount := s.db.instanceCount - 1 }
  producerId := s.producerId
  stage := Function.update s.stage i .finished

omit [GlobalTree τ] [Fintype ι] in
@[simp] theorem stage_begin_self : (s.begin i tree).stage i = .running := Function.update_self ..

omit [GlobalTree τ] [Fintype ι] in
theorem stage_begin_of_ne {j : ι} (hj : j ≠ i) : (s.begin i tree).stage j = s.stage j :=
  Function.update_of_ne hj ..

omit [GlobalTree τ] [Fintype ι] in
@[simp] theorem stage_finish_self : (s.finish i).stage i = .finished := Function.update_self ..

omit [GlobalTree τ] [Fintype ι] in
theorem stage_finish_of_ne {j : ι} (hj : j ≠ i) : (s.finish i).stage j = s.stage j :=
  Function.update_of_ne hj ..

omit [GlobalTree τ] in
theorem running_begin (new : i ∉ s.running) :
    (s.begin i tree).running = Finset.cons i s.running new := by
  ext j
  rw [mem_running, Finset.mem_cons, mem_running]
  by_cases hj : j = i
  · subst hj
    simp
  · simp [stage_begin_of_ne hj, hj]

omit [GlobalTree τ] in
theorem begun_begin (new : i ∉ s.begun) : (s.begin i tree).begun = Finset.cons i s.begun new := by
  ext j
  rw [mem_begun, Finset.mem_cons, mem_begun]
  by_cases hj : j = i
  · subst hj
    simp
  · simp [stage_begin_of_ne hj, hj]

omit [GlobalTree τ] in
theorem running_finish : (s.finish i).running = s.running.erase i := by
  ext j
  rw [mem_running, Finset.mem_erase, mem_running]
  by_cases hj : j = i
  · subst hj
    simp
  · simp [stage_finish_of_ne hj, hj]

omit [GlobalTree τ] in
theorem begun_finish (hi : s.stage i = .running) : (s.finish i).begun = s.begun := by
  ext j
  rw [mem_begun, mem_begun]
  by_cases hj : j = i
  · subst hj
    simp [hi]
  · rw [stage_finish_of_ne hj]

omit [GlobalTree τ] in
theorem Sound.begin (sound : s.Sound setup) (hi : s.stage i = .waiting)
    (makes : setup.Makes tree) : (s.begin i tree).Sound setup := by
  have new : i ∉ s.running := fun mem => by
    rw [mem_running, hi] at mem
    cases mem
  have new' : i ∉ s.begun := fun mem => mem_begun.mp mem hi
  have here : (s.begin i tree).producerId i = s.db.nextProducerId := Function.update_self ..
  have there : ∀ j ∈ s.running, (s.begin i tree).producerId j = s.producerId j := fun j mem =>
    Function.update_of_ne (fun heq : j = i => new (heq ▸ mem)) ..
  refine ⟨?_, ?_, ?_, ?_, ?_, ?_⟩
  · rw [running_begin new, Finset.card_cons, Int.natCast_add, ← sound.count]
    rfl
  · rw [running_begin new]
    exact iff_of_false (Option.some_ne_none _) (Finset.cons_ne_empty new)
  · rw [running_begin new]
    intro j mem
    rcases Finset.mem_cons.mp mem with heq | mem
    · rw [heq, here]
      exact Nat.lt_succ_self _
    · rw [there j mem]
      exact (sound.ids j mem).trans (Nat.lt_succ_self _)
  · rw [running_begin new]
    intro j hj k hk same
    rcases Finset.mem_cons.mp hj with hj | hj
    · rcases Finset.mem_cons.mp hk with hk | hk
      · rw [hj, hk]
      · rw [hj, here, there k hk] at same
        exact absurd same (sound.ids k hk).ne'
    · rcases Finset.mem_cons.mp hk with hk | hk
      · rw [hk, here, there j hj] at same
        exact absurd same (sound.ids j hj).ne
      · rw [there j hj, there k hk] at same
        exact sound.distinct j hj k hk same
  · rw [begun_begin new', Finset.card_cons]
    exact Nat.succ_le_succ sound.next
  · intro tree' mem
    rwa [← Option.some.inj mem]

omit [GlobalTree τ] [DecidableEq ι] in
theorem Sound.withTree (sound : s.Sound setup) (live : s.db.tree ≠ none)
    (makes : setup.Makes tree) : (s.withTree tree).Sound setup := by
  refine ⟨sound.count, ?_, sound.ids, sound.distinct, sound.next, fun tree' mem => ?_⟩
  · exact iff_of_false nofun fun empty => live (sound.tree.mpr empty)
  · rwa [← Option.some.inj mem]

omit [GlobalTree τ] in
theorem Sound.finish (sound : s.Sound setup) (hi : s.stage i = .running) :
    (s.finish i).Sound setup := by
  have mem : i ∈ s.running := mem_running.mpr hi
  have card := Finset.card_erase_add_one mem
  have count := sound.count
  by_cases last : s.db.instanceCount = 1
  · have nobody : s.running.erase i = ∅ := Finset.card_eq_zero.mp (by omega)
    have db : (s.finish i).db =
        { tree := none, instanceCount := s.db.instanceCount - 1, nextProducerId := 0 } :=
      if_pos last
    have alone : ∀ j, j ∉ (s.finish i).running := fun j mem => by
      rw [running_finish, nobody] at mem
      exact Finset.notMem_empty j mem
    refine ⟨?_, ?_, fun j mem => absurd mem (alone j), fun j mem => absurd mem (alone j), ?_, ?_⟩
    · rw [running_finish, db, nobody, last]
      rfl
    · rw [running_finish, db]
      exact iff_of_true rfl nobody
    · rw [db]
      exact Nat.zero_le _
    · rw [db]
      intro tree mem
      cases mem
  · have db : (s.finish i).db = { s.db with instanceCount := s.db.instanceCount - 1 } := if_neg last
    refine ⟨?_, ?_, ?_, ?_, ?_, ?_⟩
    · rw [running_finish, db]
      dsimp only
      omega
    · rw [running_finish, db]
      refine iff_of_false (fun none => ?_) fun nobody => ?_
      · rw [sound.tree.mp none] at mem
        exact absurd mem (Finset.notMem_empty i)
      · rw [nobody, Finset.card_empty] at card
        omega
    · rw [running_finish, db]
      exact fun j mem => sound.ids j (Finset.mem_of_mem_erase mem)
    · rw [running_finish]
      exact fun j hj k hk => sound.distinct j (Finset.mem_of_mem_erase hj) k
        (Finset.mem_of_mem_erase hk)
    · rw [begun_finish hi, db]
      exact sound.next
    · rw [db]
      exact sound.makes

variable {key : List Char} {numa : Int} {c : ClientCall} {opened : Except String (Impl τ)}

omit [Fintype ι] in
theorem call_init (valid : validateRuntimeConfig setup.config = .ok ())
    (noPool : setup.persistentPath = []) :
    s.call setup opened i .init = .ok (s.begin i (s.db.tree.getD setup.fresh), .kOK, []) := by
  rw [call, F3TreeDB.init]
  cases s.db.tree with
  | none =>
      rw [valid, if_pos noPool]
      rfl
  | some tree => rfl

omit [Fintype ι] in
theorem call_read (live : s.db.tree = some tree) :
    s.call setup opened i (.read key) =
      .ok (s, found key (tree.contains (stringToKey setup.stdHash key))) := by
  rw [call, F3TreeDB.read, F3TreeDB.deref, live]
  rfl

omit [Fintype ι] in
theorem call_scan (live : s.db.tree = some tree) (recordCount : Int) :
    s.call setup opened i (.scan key recordCount numa) =
      .ok (s.withTree (tree.drainPending numa), .kOK, []) := by
  rw [call, F3TreeDB.scan, F3TreeDB.deref, live]
  rfl

omit [Fintype ι] in
theorem call_insert (live : s.db.tree = some tree) (makes : setup.Makes tree)
    (hp : s.producerId i < setup.config.producerThreads) :
    s.call setup opened i (.insert key numa) = .ok (s.withTree (tree.enqueued
      (stringToKey setup.stdHash key) (s.producerId i) (!true) numa), .kOK, []) := by
  rw [call, F3TreeDB.insert, F3TreeDB.deref, live]
  dsimp only
  rw [Impl.bufferedInsert, (makes.enqueue hp ..).1]
  rfl

omit [Fintype ι] in
theorem call_delete (live : s.db.tree = some tree) (makes : setup.Makes tree)
    (hp : s.producerId i < setup.config.producerThreads) :
    s.call setup opened i (.delete key numa) = .ok (s.withTree (tree.enqueued
      (stringToKey setup.stdHash key) (s.producerId i) (!false) numa), .kOK, []) := by
  rw [call, F3TreeDB.delete, F3TreeDB.deref, live]
  dsimp only
  rw [Impl.eraseBuffered, (makes.enqueue hp ..).1]
  rfl

omit [Fintype ι] in
theorem call_cleanup (live : s.db.tree = some tree) :
    s.call setup opened i .cleanup = .ok (s.finish i, .kOK, []) := by
  rw [call, F3TreeDB.cleanup, F3TreeDB.deref, live, finish]
  split
  · rfl
  · rw [← live]
    rfl

/-- What a call by the client `i` does to a sound session. -/
inductive Effect (setup : Setup τ) (s : Session τ ι) (i : ι) :
    ClientCall → Session τ ι → Status × List Field → Prop
  | init : s.stage i = .waiting →
      Effect setup s i .init (s.begin i (s.db.tree.getD setup.fresh)) (.kOK, [])
  | read {tree : Impl τ} {key : List Char} : s.db.tree = some tree →
      Effect setup s i (.read key) s (found key (tree.contains (stringToKey setup.stdHash key)))
  | scan {tree : Impl τ} {key : List Char} {recordCount numa : Int} : s.db.tree = some tree →
      Effect setup s i (.scan key recordCount numa) (s.withTree (tree.drainPending numa))
        (.kOK, [])
  | write {tree : Impl τ} {c : ClientCall} {key : Int} {here : Bool} {numa : Int} :
      s.db.tree = some tree → c.written setup.stdHash = some (key, here) →
      s.producerId i < setup.config.producerThreads →
      Effect setup s i c (s.withTree (tree.enqueued key (s.producerId i) (!here) numa)) (.kOK, [])
  | cleanup : s.stage i = .running → Effect setup s i .cleanup (s.finish i) (.kOK, [])

/-- A permitted call never fails. -/
theorem Sound.call (sound : s.Sound setup)
    (valid : validateRuntimeConfig setup.config = .ok ())
    (threads : setup.config.producerThreads = Fintype.card ι)
    (noPool : setup.persistentPath = []) (permits : s.Permits together i c)
    (opened : Except String (Impl τ)) :
    ∃ s' answer, s.call setup opened i c = .ok (s', answer) ∧ Effect setup s i c s' answer := by
  have live : s.stage i = .running → ∃ tree, s.db.tree = some tree ∧ setup.Makes tree ∧
      s.producerId i < setup.config.producerThreads := by
    intro hi
    have mem : i ∈ s.running := mem_running.mpr hi
    cases htree : s.db.tree with
    | none =>
        rw [sound.tree.mp htree] at mem
        exact absurd mem (Finset.notMem_empty i)
    | some tree =>
        have begun : s.begun.card ≤ Fintype.card ι := Finset.card_le_univ _
        exact ⟨tree, rfl, sound.makes tree htree,
          threads ▸ (sound.ids i mem).trans_le (sound.next.trans begun)⟩
  cases c with
  | init => exact ⟨_, _, call_init valid noPool, .init permits⟩
  | read key =>
      obtain ⟨tree, htree, -, -⟩ := live permits
      exact ⟨_, _, call_read htree, .read htree⟩
  | scan key recordCount numa =>
      obtain ⟨tree, htree, -, -⟩ := live permits
      exact ⟨_, _, call_scan htree recordCount, .scan htree⟩
  | update key numa =>
      obtain ⟨tree, htree, makes, hp⟩ := live permits
      have same : s.call setup opened i (.update key numa) =
        s.call setup opened i (.insert key numa) := rfl
      exact ⟨_, _, same.trans (call_insert htree makes hp), .write htree rfl hp⟩
  | insert key numa =>
      obtain ⟨tree, htree, makes, hp⟩ := live permits
      exact ⟨_, _, call_insert htree makes hp, .write htree rfl hp⟩
  | delete key numa =>
      obtain ⟨tree, htree, makes, hp⟩ := live permits
      exact ⟨_, _, call_delete htree makes hp, .write htree rfl hp⟩
  | cleanup =>
      obtain ⟨tree, htree, -, -⟩ := live permits.1
      exact ⟨_, _, call_cleanup htree, .cleanup permits.1⟩

theorem Effect.sound {answer : Status × List Field} (effect : Effect setup s i c s' answer)
    (sound : s.Sound setup) (valid : validateRuntimeConfig setup.config = .ok ()) :
    s'.Sound setup := by
  cases effect with
  | init waits =>
      refine sound.begin waits ?_
      cases htree : s.db.tree with
      | none => exact .init valid
      | some tree => exact sound.makes tree htree
  | read _ => exact sound
  | scan live => exact sound.withTree (by simp [live]) ((sound.makes _ live).drainPending _)
  | write live _ hp =>
      exact sound.withTree (by simp [live]) ((sound.makes _ live).enqueue hp _ _ _).2
  | cleanup runs => exact sound.finish runs

end Session

variable (valid : validateRuntimeConfig setup.config = .ok ())
  (threads : setup.config.producerThreads = Fintype.card ι) (noPool : setup.persistentPath = [])

include valid threads noPool

/-- What a call of a run does. -/
theorem Clients.sound (run : Clients setup together keys calls s) : s.Sound setup := by
  induction run with
  | start =>
      have nobody : (Session.start : Session τ ι).running = ∅ :=
        Finset.filter_eq_empty_iff.mpr fun _ _ => nofun
      refine ⟨?_, ?_, ?_, ?_, Nat.zero_le _, ?_⟩
      · rw [nobody]
        rfl
      · rw [nobody]
        exact iff_of_true rfl rfl
      · rw [nobody]
        exact fun i mem => absurd mem (Finset.notMem_empty i)
      · rw [nobody]
        exact fun i mem => absurd mem (Finset.notMem_empty i)
      · intro tree mem
        cases mem
  | call opened i c _ permits _ hcall ih =>
      obtain ⟨s', answer, hcall', effect⟩ := ih.call valid threads noPool permits opened
      rw [hcall] at hcall'
      cases hcall'
      exact effect.sound ih valid
  | checkpoint e _ live _ he ih =>
      exact ih.withTree (by simp [live]) ((ih.makes _ live).checkpoint he)

/-- In every interleaving a permitted call succeeds, and the clients that run have ids of their
own, all of configured producers.  The configuration is valid and names no pool, and there are as
many producers as clients. -/
theorem call_succeeds (run : Clients setup together keys calls s) :
    (∀ opened i c, s.Permits together i c →
      ∃ s' answer, s.call setup opened i c = .ok (s', answer)) ∧
      ∀ i, s.stage i = .running → s.producerId i < setup.config.producerThreads ∧
        ∀ j, s.stage j = .running → s.producerId i = s.producerId j → i = j := by
  have sound := run.sound valid threads noPool
  refine ⟨fun opened i c permits => ?_, fun i hi => ?_⟩
  · obtain ⟨s', answer, hcall, -⟩ := sound.call valid threads noPool permits opened
    exact ⟨s', answer, hcall⟩
  · have mem : i ∈ s.running := Session.mem_running.mpr hi
    have begun : s.begun.card ≤ Fintype.card ι := Finset.card_le_univ _
    exact ⟨threads ▸ (sound.ids i mem).trans_le (sound.next.trans begun), fun j hj =>
      sound.distinct i mem j (Session.mem_running.mpr hj)⟩

end Sound

/-- Two clients, one of which has begun and written, and a checkpoint after that. -/
theorem call_succeeds_two :
    let setup : Setup (Finset Int) :=
      { config := { producerThreads := 2, checkpointThresholdOps := 1 }, emptyTree := ∅,
        topologyNodes := 1, stdHash := fun _ => 0 }
    let written := setup.fresh.enqueued (stringToKey setup.stdHash "user1".toList) 0 false 0
    let s : Session (Finset Int) Bool :=
      ((Session.start.begin true setup.fresh).withTree written).withTree
        (written.event (.checkpointProducers [0] 0))
    s.Permits true false .init ∧
      ∃ s' answer, s.call setup (.error "no pool") false .init = .ok (s', answer) := by
  intro setup written s
  have valid : validateRuntimeConfig setup.config = .ok () := rfl
  have begun : Clients setup true {1} ([] ++ [.init]) (Session.start.begin true setup.fresh) :=
    .call (.error "no pool") true .init .start rfl nofun (Session.call_init valid rfl)
  have wrote : Clients setup true {1} (_ ++ [.insert "user1".toList 0])
      ((Session.start.begin true setup.fresh).withTree written) :=
    begun.call (.error "no pool") true _ (Session.stage_begin_self ..) (by decide)
      (Session.call_insert rfl (.init valid) (by decide))
  have run := wrote.checkpoint (.checkpointProducers [0] 0) rfl rfl rfl
  have permits : s.Permits true false .init := Session.stage_begin_of_ne (by decide)
  exact ⟨permits, (call_succeeds valid rfl rfl run).1 _ false .init permits⟩

/-! ## What is forgotten -/

theorem lastWritten_concat_none {stdHash : List Char → UInt64} (calls : List ClientCall)
    {c : ClientCall} (hwritten : c.written stdHash = none) :
    lastWritten stdHash (calls ++ [c]) = lastWritten stdHash calls := by
  funext key
  rw [lastWritten, List.filterMap_append, List.filterMap_cons_none hwritten, List.filterMap_nil,
    List.append_nil]
  rfl

theorem lastWritten_concat_some {stdHash : List Char → UInt64} (calls : List ClientCall)
    {c : ClientCall} {w : Int × Bool} (hwritten : c.written stdHash = some w) :
    lastWritten stdHash (calls ++ [c]) =
      Function.update (lastWritten stdHash calls) w.1 w.2 := by
  funext key
  rw [lastWritten, List.filterMap_append, List.filterMap_cons_some hwritten, List.filterMap_nil,
    List.filter_append]
  by_cases hkey : key = w.1
  · subst hkey
    rw [List.filter_cons_of_pos (by simp), List.filter_nil, List.getLast?_concat,
      Function.update_self]
  · rw [List.filter_cons_of_neg (by simpa using Ne.symm hkey), List.filter_nil,
      List.append_nil, Function.update_of_ne hkey]
    rfl

section Holds

variable {τ ι : Type} [GlobalTree τ] [LawfulTree τ] [DecidableEq ι] [Fintype ι] {setup : Setup τ}
  {together : Bool} {keys : Finset Int} {calls : List ClientCall} {s s' : Session τ ι}

/-- The tree is what the calls have written.  Once it is gone, nobody is to come, or there was
nothing written. -/
structure Session.Holds (setup : Setup τ) (keys : Finset Int) (calls : List ClientCall)
    (s : Session τ ι) : Prop where
  represents : ∀ tree, s.db.tree = some tree →
    tree.Represents setup.config (fun _ => keys) (lastWritten setup.stdHash calls)
  nothing : s.db.tree = none →
    (∀ i, s.stage i ≠ .waiting) ∨ lastWritten setup.stdHash calls = fun _ => false

omit [LawfulTree τ] in
/-- A fresh tree holds nothing. -/
theorem Setup.represents_fresh (valid : validateRuntimeConfig setup.config = .ok ())
    (room : keys.card ≤ setup.config.dirCap)
    (empty : ∀ key, btreeSearch setup.emptyTree key = false) :
    setup.fresh.Represents setup.config (fun _ => keys) fun _ => false := by
  have rep := Impl.represents_init valid (fun _ _ => room) setup.emptyTree
    Impl.dramSeqCounterResume setup.topologyNodes
  rwa [funext empty] at rep

variable {i : ι} {c : ClientCall} {answer : Status × List Field}

/-- Of what happens with the tree, only its end can lose a key. -/
theorem Session.Holds.call (holds : s.Holds setup keys calls) (sound : s.Sound setup)
    (valid : validateRuntimeConfig setup.config = .ok ())
    (resolves : setup.config.evaluatorPolicy.resolvesConflicts = true)
    (room : keys.card ≤ setup.config.dirCap)
    (empty : ∀ key, btreeSearch setup.emptyTree key = false)
    (kept : together = true ∨ Fintype.card ι ≤ 1) (permits : s.Permits together i c)
    (within : ∀ w ∈ c.written setup.stdHash, w.1 ∈ keys)
    (effect : Session.Effect setup s i c s' answer) :
    s'.Holds setup keys (calls ++ [c]) := by
  cases effect with
  | init waits =>
      refine ⟨fun tree htree => ?_, fun gone => by cases gone⟩
      rw [lastWritten_concat_none calls rfl, ← Option.some.inj htree]
      cases hdb : s.db.tree with
      | some tree => exact holds.represents tree hdb
      | none =>
          rcases holds.nothing hdb with nobody | nothing
          · exact absurd waits (nobody i)
          · rw [nothing]
            exact Setup.represents_fresh valid room empty
  | read live =>
      refine ⟨fun tree htree => ?_, fun gone => ?_⟩
      · rw [lastWritten_concat_none calls rfl]
        exact holds.represents tree htree
      · rw [lastWritten_concat_none calls rfl]
        exact holds.nothing gone
  | scan live =>
      refine ⟨fun tree htree => ?_, fun gone => by cases gone⟩
      rw [lastWritten_concat_none calls rfl, ← Option.some.inj htree]
      exact ((holds.represents _ live).drainPending resolves _).1
  | @write tree c key here numa live written hp =>
      refine ⟨fun tree htree => ?_, fun gone => by cases gone⟩
      have rep := (holds.represents _ live).enqueued hp (within _ written) (!here) numa
      rw [Bool.not_not] at rep
      rw [lastWritten_concat_some calls written, ← Option.some.inj htree]
      exact rep
  | cleanup runs =>
      by_cases last : s.db.instanceCount = 1
      · have db : (s.finish i).db.tree = none := by
          rw [Session.finish, if_pos last]
        refine ⟨fun tree htree => ?_, fun _ => Or.inl ?_⟩
        · rw [db] at htree
          cases htree
        · intro j
          by_cases hj : j = i
          · subst hj
            simp
          · rw [Session.stage_finish_of_ne hj]
            rcases kept with kept | kept
            · exact permits.2 kept j
            · exact absurd ((Fintype.card_le_one_iff_subsingleton.mp kept).elim j i) hj
      · have db : (s.finish i).db.tree = s.db.tree := by
          rw [Session.finish, if_neg last]
        refine ⟨fun tree htree => ?_, fun gone => ?_⟩
        · rw [lastWritten_concat_none calls rfl]
          exact holds.represents tree (db ▸ htree)
        · have mem : i ∈ s.running := Session.mem_running.mpr runs
          rw [sound.tree.mp (db ▸ gone)] at mem
          exact absurd mem (Finset.notMem_empty i)

/-- A session of which nothing is forgotten. -/
theorem Clients.holds (valid : validateRuntimeConfig setup.config = .ok ())
    (threads : setup.config.producerThreads = Fintype.card ι)
    (resolves : setup.config.evaluatorPolicy.resolvesConflicts = true)
    (room : keys.card ≤ setup.config.dirCap)
    (empty : ∀ key, btreeSearch setup.emptyTree key = false)
    (noPool : setup.persistentPath = []) (noCheckpoints : setup.config.checkpointThresholdOps = 0 ∧
      setup.config.checkpointIntervalUs = 0)
    (kept : together = true ∨ Fintype.card ι ≤ 1) (run : Clients setup together keys calls s) :
    s.Holds setup keys calls := by
  induction run with
  | start => exact ⟨fun tree htree => (by cases htree), fun _ => Or.inr rfl⟩
  | call opened i c run permits within hcall ih =>
      have sound := run.sound valid threads noPool
      obtain ⟨s', answer, hcall', effect⟩ := sound.call valid threads noPool permits opened
      rw [hcall] at hcall'
      cases hcall'
      exact ih.call sound valid resolves room empty kept permits within effect
  | checkpoint e _ live enabled _ ih =>
      have config := (ih.represents _ live).config_eq
      rw [Code.asyncCheckpointEnabled, config, noCheckpoints.1, noCheckpoints.2] at enabled
      cases enabled

end Holds

end Ycsb

end F3Tree
