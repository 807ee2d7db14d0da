import F3Tree.Interleaving

/-!
# A read among other calls

`contains` visits the producers one after another, without a snapshot: the hash
probe, on a hit the walk over the chain, and when no producer had the key the
lookup in the tree are separate steps (`Reader.step`).  Read alone, they compute
`contains` (`iterate_step`).

Between them, a drain may take the key's operations away from every producer that
the reader has not visited yet, and drop them because a producer behind the reader
has a newer one.  If no drain of the run does that (`ReadCovers`), a key that is
only inserted is found (`read_finds`).
-/

namespace F3Tree

open LastWriter Runs

/-- Where a `contains` stands. -/
inductive Reader : Type
  | probing (tid : Nat) (best : Btree.Best)
  | walking (tid : Nat) (best : Btree.Best)
  | looking
  | returned (result : Bool)
deriving DecidableEq, Repr

namespace Reader

def start : Reader := .probing 0 {}

/-- The `switch` on the state found in the chains. -/
def dispatch (best : Btree.Best) : Reader :=
  match best.state with
  | .present => .returned true
  | .tombstone => .returned false
  | .absent => .looking

variable {τ : Type} [GlobalTree τ]

/-- One step of `contains`. -/
def step (s : Impl τ) (key : Int) : Reader → Reader
  | .probing tid best =>
      if tid ≥ s.tree.nThreads then dispatch best
      else if (s.tree.hash tid).searchKey key = -1 then .probing (tid + 1) best
      else .walking tid best
  | .walking tid best => .probing (tid + 1) (s.tree.viaPtfoWalk key best tid)
  | .looking => .returned (btreeSearch s.tree.tree key)
  | .returned result => .returned result

/-- An upper bound on the steps a reader has left. -/
def remaining (n : Nat) : Reader → Nat
  | .probing tid _ => 2 * (n - tid) + 2
  | .walking tid _ => 2 * (n - tid) + 1
  | .looking => 1
  | .returned _ => 0

theorem remaining_dispatch (n : Nat) (best : Btree.Best) :
    (dispatch best).remaining n ≤ 1 := by
  rw [dispatch]
  cases best.state <;> simp [remaining]

/-- A reader at a chain is inside the loop. -/
def InLoop (n : Nat) : Reader → Prop
  | .walking tid _ => tid < n
  | .probing _ _ | .looking | .returned _ => True

theorem inLoop_step (s : Impl τ) (key : Int) (r : Reader) :
    (r.step s key).InLoop s.tree.nThreads := by
  cases r with
  | probing tid best =>
      rw [step]
      split
      · rw [dispatch]
        cases best.state <;> trivial
      · split
        · trivial
        · exact Nat.not_le.mp (by assumption)
  | walking _ _ | looking | returned _ => trivial

/-- Every step brings a reader closer to its end. -/
theorem remaining_step (s : Impl τ) (key : Int) {r : Reader}
    (inLoop : r.InLoop s.tree.nThreads) :
    (r.step s key).remaining s.tree.nThreads ≤ r.remaining s.tree.nThreads - 1 := by
  cases r with
  | probing tid best =>
      rw [step]
      split
      · have := remaining_dispatch s.tree.nThreads best
        simp only [remaining] at *
        omega
      · split <;> simp only [remaining] <;> omega
  | walking tid best =>
      have htid : tid < s.tree.nThreads := inLoop
      simp only [step, remaining]
      omega
  | looking | returned _ => simp [step, remaining]

theorem eq_returned_of_remaining {n : Nat} {r : Reader} (h : r.remaining n = 0) :
    ∃ result, r = .returned result := by
  cases r with
  | returned result => exact ⟨result, rfl⟩
  | probing _ _ | walking _ _ | looking => simp [remaining] at h

/-! ## A read alone -/

/-- The answer once the loop over the producers is done. -/
def conclude (s : Impl τ) (key : Int) (best : Btree.Best) : Bool :=
  match best.state with
  | .present => true
  | .tombstone => false
  | .absent => btreeSearch s.tree.tree key

/-- What a reader returns if nothing else happens. -/
def outcome (s : Impl τ) (key : Int) : Reader → Bool
  | .probing tid best =>
      conclude s key ((List.range' tid (s.tree.nThreads - tid)).foldl
        (s.tree.viaPtfoVisit key) best)
  | .walking tid best =>
      conclude s key ((List.range' (tid + 1) (s.tree.nThreads - (tid + 1))).foldl
        (s.tree.viaPtfoVisit key) (s.tree.viaPtfoWalk key best tid))
  | .looking => btreeSearch s.tree.tree key
  | .returned result => result

theorem outcome_step (s : Impl τ) (key : Int) (r : Reader) :
    (r.step s key).outcome s key = r.outcome s key := by
  cases r with
  | probing tid best =>
      rw [step]
      by_cases htid : tid ≥ s.tree.nThreads
      · rw [if_pos htid, outcome, Nat.sub_eq_zero_of_le htid]
        simp only [List.range'_zero, List.foldl_nil, dispatch, conclude]
        cases best.state <;> rfl
      · have hsucc : s.tree.nThreads - tid = s.tree.nThreads - (tid + 1) + 1 := by omega
        rw [if_neg htid, outcome.eq_1 s key tid, hsucc, List.range'_succ, List.foldl_cons,
          Btree.viaPtfoVisit]
        split <;> rfl
  | walking _ _ | looking | returned _ => rfl

theorem outcome_start (s : Impl τ) (key : Int) : start.outcome s key = s.contains key := by
  rw [start, outcome, Nat.sub_zero, ← List.range_eq_range', conclude]
  unfold Impl.contains Btree.futureHashDirectedStateViaPtfo
  cases ((List.range s.tree.nThreads).foldl (s.tree.viaPtfoVisit key) {}).state <;> rfl

/-- Read alone, the steps compute `contains`. -/
theorem iterate_step (s : Impl τ) (key : Int) {n : Nat} (enough : 2 * s.tree.nThreads + 2 ≤ n) :
    (step s key)^[n] start = .returned (s.contains key) := by
  have along : ∀ k, ((step s key)^[k] start).outcome s key = s.contains key ∧
      ((step s key)^[k] start).InLoop s.tree.nThreads ∧
      ((step s key)^[k] start).remaining s.tree.nThreads ≤ 2 * s.tree.nThreads + 2 - k := by
    intro k
    induction k with
    | zero => exact ⟨outcome_start s key, trivial, by simp [start, remaining]⟩
    | succ k ih =>
        obtain ⟨same, inLoop, bound⟩ := ih
        rw [Function.iterate_succ_apply']
        refine ⟨(outcome_step ..).trans same, inLoop_step .., ?_⟩
        have := remaining_step s key inLoop
        omega
  obtain ⟨same, -, bound⟩ := along n
  have done : ((step s key)^[n] start).remaining s.tree.nThreads = 0 := by omega
  obtain ⟨result, hr⟩ := eq_returned_of_remaining done
  rw [hr] at same ⊢
  rw [← same]
  rfl

end Reader

/-! ## A read among other steps -/

/-- A machine with one `contains` of a key in progress. -/
structure ReadMachine (τ : Type) : Type where
  machine : Machine τ
  reader : Reader

/-- A step of the other threads, or of the reader. -/
inductive ReadEvent : Type
  | action (a : Action)
  | read
deriving DecidableEq, Repr

namespace ReadMachine

variable {τ : Type} [GlobalTree τ]

def step (key : Int) (m : ReadMachine τ) : ReadEvent → ReadMachine τ
  | .action a => { m with machine := m.machine.step a }
  | .read => { m with reader := m.reader.step m.machine.impl key }

def run (key : Int) (m : ReadMachine τ) (events : List ReadEvent) : ReadMachine τ :=
  events.foldl (step key) m

theorem run_concat (key : Int) (m : ReadMachine τ) (events : List ReadEvent) (e : ReadEvent) :
    m.run key (events ++ [e]) = (m.run key events).step key e :=
  List.foldl_append

/-- The first producer that a reader which has found nothing will still look at. -/
def ahead : Reader → Option Nat
  | .probing tid best | .walking tid best => if best.state = .absent then some tid else none
  | .looking | .returned _ => none

/-- Some producer from `tid` on, not among `ids`, has the key buffered. -/
def BufferedFrom (s : Impl τ) (key : Int) (tid : Nat) (ids : List Nat) : Prop :=
  ∃ p, tid ≤ p ∧ p < s.tree.nThreads ∧ p ∉ ids ∧ ∃ op ∈ s.tree.pending p, op.key = key

/-- The condition on one event: a drain during the read covers what is buffered, and
while the reader has found nothing and the key is not in the tree, it applies the
key's newest operation or leaves the key to a producer the reader has yet to see. -/
def ReadCovers (key : Int) (m : ReadMachine τ) : ReadEvent → Prop
  | .read => True
  | .action a =>
      m.machine.Covers a ∧
        (Machine.drained m.machine.impl a ≠ [] →
          ∀ tid, ahead m.reader = some tid → m.machine.impl.globalContains key = false →
            (∃ op, newest m.machine.impl.tree.allPending key = some op ∧
              op.producerId ∈ Machine.drained m.machine.impl a) ∨
            BufferedFrom m.machine.impl key tid (Machine.drained m.machine.impl a))

/-- The key is in the tree, or buffered by a producer from `tid` on. -/
def Ahead (s : Impl τ) (key : Int) (tid : Nat) : Prop :=
  btreeSearch s.tree.tree key = true ∨ BufferedFrom s key tid []

/-- What the reader knows of a key that is only inserted. -/
def Finds (s : Impl τ) (key : Int) : Reader → Prop
  | .probing tid best | .walking tid best =>
      best.state = .present ∨ best.state = .absent ∧ Ahead s key tid
  | .looking => btreeSearch s.tree.tree key = true
  | .returned result => result = true

/-! ### The other threads -/

section Action

variable {m m' : Machine τ} {a : Action} {config : RuntimeConfig} {keys : Nat → Finset Int}
  {key : Int}

omit [GlobalTree τ] in
theorem BufferedFrom.mono {s s' : Impl τ} {tid : Nat} (h : BufferedFrom s key tid [])
    (hn : s'.tree.nThreads = s.tree.nThreads)
    (grows : ∀ p, ∀ op ∈ s.tree.pending p, op ∈ s'.tree.pending p) :
    BufferedFrom s' key tid [] := by
  obtain ⟨p, hle, hlt, -, op, mem, hk⟩ := h
  exact ⟨p, hle, hn ▸ hlt, List.not_mem_nil, op, grows p op mem, hk⟩

variable [LawfulTree τ]

/-- A step of another thread keeps the key within the reader's reach, if a drain
leaves it there. -/
theorem Ahead.action (con : m.Consistent config keys) (traced : m.Traced)
    (lasting : m.Lasting key) (resolves : config.evaluatorPolicy.resolvesConflicts = true)
    (never : ∀ i ∈ m.issued, i.key = key → i.isDone = false) (steps : m.Steps a m')
    {tid : Nat} (h : Ahead m.impl key tid)
    (leaves : Machine.drained m.impl a ≠ [] → m.impl.globalContains key = false →
      (∃ op, newest m.impl.tree.allPending key = some op ∧
        op.producerId ∈ Machine.drained m.impl a) ∨
      BufferedFrom m.impl key tid (Machine.drained m.impl a)) :
    Ahead m'.impl key tid := by
  cases steps with
  | stay quiet => exact h
  | take quiet key' p isDone lt idle => exact h
  | account quiet key' p isDone numa ready => exact h
  | insert quiet key' p isDone sequence ready =>
      refine h.imp_right fun h => h.mono rfl fun q op mem => ?_
      have pending : (m.impl.ptfoInsert key' p isDone sequence).tree.pending =
          Function.update m.impl.tree.pending p
            (m.impl.tree.pending p ++ [⟨key', isDone, sequence, p⟩]) :=
        Btree.pending_futureInsert ..
      change op ∈ (m.impl.ptfoInsert key' p isDone sequence).tree.pending q
      rw [pending]
      by_cases hqp : q = p
      · subst hqp
        rw [Function.update_self]
        exact List.mem_append_left _ mem
      · rw [Function.update_of_ne hqp]
        exact mem
  | drain s' cleared active drains clears covered =>
      have resolves' : m.impl.config.evaluatorPolicy.resolvesConflicts = true :=
        con.config_eq.symm ▸ resolves
      have inserts : ∀ op ∈ m.impl.tree.allPending, op.key = key → op.isDelete = false :=
        fun op mem hk => never _ (traced.pending op mem) hk
      by_cases inTree : btreeSearch m.impl.tree.tree key = true
      · exact Or.inl (drains.btreeSearch_of_inserts resolves' active inserts inTree)
      -- The key stays with a producer that is not drained, or arrives in the tree.
      have stays : ∀ ids, BufferedFrom m.impl key tid ids →
          (∀ p ∈ Machine.drained m.impl a, p ∈ ids) → BufferedFrom s' key tid [] := by
        rintro ids ⟨p, hle, hlt, notMem, op, mem, hk⟩ sub
        refine ⟨p, hle, drains.nThreads ▸ hlt, List.not_mem_nil, op, ?_, hk⟩
        rw [drains.pending, if_neg fun h => notMem (sub p h)]
        exact mem
      by_cases quiet : Machine.drained m.impl a = []
      · exact Or.inr (stays [] (h.resolve_left inTree) (by simp [quiet]))
      rcases leaves quiet (Bool.eq_false_iff.mpr inTree) with ⟨op, top, mem⟩ | left
      · have snap : m.impl.tree.Snapshot key :=
          .of_agrees (lasting.known.resolve_left inTree) con.distinct
        left
        rw [drains.btreeSearch_of_mem resolves' active con.distinct snap top mem,
          inserts op (mem_of_newest top) (key_of_newest top)]
        rfl
      · exact Or.inr (stays _ left fun p mem => mem)

/-- A step of another thread keeps what the reader knows. -/
theorem Finds.action (con : m.Consistent config keys) (traced : m.Traced)
    (lasting : m.Lasting key) (resolves : config.evaluatorPolicy.resolvesConflicts = true)
    (never : ∀ i ∈ m.issued, i.key = key → i.isDone = false) (steps : m.Steps a m')
    {r : Reader} (h : Finds m.impl key r)
    (leaves : Machine.drained m.impl a ≠ [] → ∀ tid, ahead r = some tid →
      m.impl.globalContains key = false →
      (∃ op, newest m.impl.tree.allPending key = some op ∧
        op.producerId ∈ Machine.drained m.impl a) ∨
      BufferedFrom m.impl key tid (Machine.drained m.impl a)) :
    Finds m'.impl key r := by
  cases r with
  | probing tid best | walking tid best =>
      refine h.imp_right fun ⟨absent, h⟩ => ⟨absent, ?_⟩
      exact h.action con traced lasting resolves never steps fun quiet =>
        leaves quiet tid (if_pos absent)
  | looking =>
      cases steps with
      | stay quiet => exact h
      | take quiet key' p isDone lt idle => exact h
      | account quiet key' p isDone numa ready => exact h
      | insert quiet key' p isDone sequence ready => exact h
      | drain s' cleared active drains clears covered =>
          exact drains.btreeSearch_of_inserts (con.config_eq.symm ▸ resolves) active
            (fun op mem hk => never _ (traced.pending op mem) hk) h
  | returned result => exact h

end Action

/-! ### The reader -/

section Read

variable {m : Machine τ} {config : RuntimeConfig} {keys : Nat → Finset Int} {key : Int}

/-- The walk over a chain whose operations on the key are inserts. -/
theorem foldl_visit_inserts {ops : List FutureBufferedOp}
    (inserts : ∀ op ∈ ops, op.key = key → op.isDelete = false) (best : Btree.Best)
    (hbest : best.state = .present ∨ best.state = .absent) :
    (ops.foldl (Btree.Best.visit key) best).state = .present ∨
      (ops.foldl (Btree.Best.visit key) best).state = .absent ∧ best.state = .absent ∧
        ∀ op ∈ ops, op.key ≠ key := by
  induction ops generalizing best with
  | nil =>
      rcases hbest with h | h
      · exact Or.inl h
      · exact Or.inr ⟨h, h, by simp⟩
  | cons op ops ih =>
      have inserts' : ∀ op' ∈ ops, op'.key = key → op'.isDelete = false := fun op' mem =>
        inserts op' (List.mem_cons_of_mem _ mem)
      rw [List.foldl_cons]
      by_cases hk : op.key = key
      · -- From here on the state is `present`.
        have found : (Btree.Best.visit key best op).state = .present := by
          rw [Btree.Best.visit, if_neg (not_not.mpr hk), inserts op List.mem_cons_self hk]
          split
          · rfl
          · rename_i kept
            rw [not_or] at kept
            exact hbest.resolve_right kept.1
        refine Or.inl ((ih inserts' _ (Or.inl found)).resolve_right ?_)
        rintro ⟨-, h, -⟩
        rw [found] at h
        cases h
      · have same : Btree.Best.visit key best op = best := by
          rw [Btree.Best.visit, if_pos hk]
        rw [same]
        refine (ih inserts' best hbest).imp_right fun h => ⟨h.1, h.2.1, fun op' mem => ?_⟩
        rcases List.mem_cons.mp mem with rfl | mem
        · exact hk
        · exact h.2.2 op' mem

omit [GlobalTree τ] in
/-- A chain without the key is not what the reader waits for. -/
theorem BufferedFrom.succ {s : Impl τ} {tid : Nat} (h : BufferedFrom s key tid [])
    (other : ∀ op ∈ s.tree.pending tid, op.key ≠ key) : BufferedFrom s key (tid + 1) [] := by
  obtain ⟨p, hle, hlt, notMem, op, mem, hk⟩ := h
  have hne : p ≠ tid := by
    rintro rfl
    exact other op mem hk
  exact ⟨p, by omega, hlt, notMem, op, mem, hk⟩

/-- A step of the reader keeps what it knows. -/
theorem Finds.read (con : m.Consistent config keys) (traced : m.Traced)
    (never : ∀ i ∈ m.issued, i.key = key → i.isDone = false) {r : Reader}
    (inLoop : r.InLoop m.impl.tree.nThreads) (h : Finds m.impl key r) :
    Finds m.impl key (r.step m.impl key) := by
  have inserts : ∀ p < m.impl.tree.nThreads, ∀ op ∈ m.impl.tree.pending p, op.key = key →
      op.isDelete = false := fun p hp op mem hk =>
    never _ (traced.pending op (Machine.mem_allPending_of_lt hp mem)) hk
  cases r with
  | probing tid best =>
      rw [Reader.step]
      split
      · rename_i past
        rw [Reader.dispatch]
        rcases h with found | ⟨absent, ahead⟩
        · rw [found]
          rfl
        · rw [absent]
          refine ahead.resolve_right ?_
          rintro ⟨p, hle, hlt, -⟩
          omega
      · rename_i notPast
        have htid : tid < m.impl.tree.nThreads := Nat.not_le.mp notPast
        split
        · rename_i miss
          refine h.imp_right fun ⟨absent, ahead⟩ => ⟨absent, ahead.imp_right fun h => ?_⟩
          refine h.succ fun op mem hk => ?_
          exact (con.roomy tid htid).searchKey_ne mem (hk ▸ miss)
        · exact h
  | walking tid best =>
      have inserts' : ∀ op ∈ m.impl.tree.chainOps tid, op.key = key → op.isDelete = false :=
        fun op mem => inserts tid inLoop op (Btree.mem_chainOps.mp mem)
      rw [Reader.step, Btree.viaPtfoWalk]
      rcases foldl_visit_inserts inserts' best (h.imp_right fun h => h.1) with
        found | ⟨absent, absent', other⟩
      · exact Or.inl found
      · refine Or.inr ⟨absent, ?_⟩
        rcases h with found | ⟨-, ahead⟩
        · rw [found] at absent'
          cases absent'
        · exact ahead.imp_right fun h => h.succ fun op mem =>
            other op (Btree.mem_chainOps.mpr mem)
  | looking => exact h
  | returned result => exact h

end Read

/-! ### Runs -/

theorem issued_run (key : Int) (m : ReadMachine τ) (events : List ReadEvent) :
    ∀ i ∈ m.machine.issued, i ∈ (m.run key events).machine.issued := by
  induction events using List.reverseRecOn with
  | nil => exact fun i mem => mem
  | append_singleton events e ih =>
      rw [run_concat]
      intro i mem
      cases e with
      | action a => exact Machine.issued_step _ a i (ih i mem)
      | read => exact ih i mem

theorem issued_of_prefix (key : Int) (m : ReadMachine τ) {before events : List ReadEvent}
    (point : before <+: events) :
    ∀ i ∈ (m.run key before).machine.issued, i ∈ (m.run key events).machine.issued := by
  obtain ⟨after, rfl⟩ := point
  have split : m.run key (before ++ after) = (m.run key before).run key after :=
    List.foldl_append
  rw [split]
  exact issued_run key _ after

/-- What holds of a read that `reads` steps have been taken of. -/
structure Reading (config : RuntimeConfig) (keys : Nat → Finset Int) (key : Int)
    (m : ReadMachine τ) (reads : Nat) : Prop where
  consistent : m.machine.Consistent config keys
  traced : m.machine.Traced
  lasting : m.machine.Lasting key
  finds : Finds m.machine.impl key m.reader
  inLoop : m.reader.InLoop config.producerThreads
  remaining : m.reader.remaining config.producerThreads ≤ 2 * config.producerThreads + 2 - reads

/-- The number of steps that the reader takes in a run. -/
def reads (events : List ReadEvent) : Nat := events.count .read

variable [LawfulTree τ]

theorem Reading.step {config : RuntimeConfig} {keys : Nat → Finset Int} {key : Int}
    {m : ReadMachine τ} {n : Nat} (reading : m.Reading config keys key n)
    (resolves : config.evaluatorPolicy.resolvesConflicts = true)
    (within : ∀ i ∈ m.machine.issued, i.key ∈ keys i.producerId)
    (never : ∀ i ∈ m.machine.issued, i.key = key → i.isDone = false) (e : ReadEvent)
    (covers : m.ReadCovers key e) :
    (m.step key e).Reading config keys key (n + reads [e]) := by
  obtain ⟨con, traced, lasting, finds, inLoop, bound⟩ := reading
  cases e with
  | action a =>
      obtain ⟨covers, leaves⟩ := covers
      have steps := Machine.step_steps con.threads a covers
      exact ⟨con.step traced steps within, (traced.step con steps).1,
        lasting.step con traced resolves within never steps,
        finds.action con traced lasting resolves never steps leaves, inLoop, bound⟩
  | read =>
      rw [← con.nThreads_eq] at inLoop bound
      have closer := Reader.remaining_step m.machine.impl key inLoop
      refine ⟨con, traced, lasting, finds.read con traced never inLoop, ?_, ?_⟩
      · rw [← con.nThreads_eq]
        exact Reader.inLoop_step ..
      · rw [← con.nThreads_eq]
        simp only [ReadMachine.step, reads, List.count_singleton_self]
        omega

/-- A key that one returned call has inserted, and that is only ever inserted, is
found by a read during which every drain leaves it within reach.  The policy is F3-N, the full
drains before the read cover what is buffered, and the tables hold the keys of every
producer. -/
theorem read_finds {config : RuntimeConfig} (valid : validateRuntimeConfig config = .ok ())
    (policy : config.evaluatorPolicy = .kF3N) (tree : τ) (resume nodes : Nat)
    (earlier : List Action) (key : Int) (events : List ReadEvent)
    (covered : (Machine.init config tree resume nodes).Covered earlier) :
    let m : ReadMachine τ := ⟨(Machine.init config tree resume nodes).run earlier, .start⟩
    StepsMeet (fun before e => (m.run key before).ReadCovers key e) events →
    (∀ p < config.producerThreads,
      (keysOf (m.run key events).machine.issued p).card ≤ config.dirCap) →
    (∃ i ∈ m.machine.returned, i.key = key) →
    (∀ i ∈ (m.run key events).machine.issued, i.key = key → i.isDone = false) →
    (∀ result, (m.run key events).reader = .returned result → result = true) ∧
      (2 * config.producerThreads + 2 ≤ reads events →
        (m.run key events).reader = .returned true) := by
  intro m meet ample ⟨i, returned, hi⟩ never
  have resolves : config.evaluatorPolicy.resolvesConflicts = true := by
    rw [policy]
    rfl
  have within : ∀ i ∈ (m.run key events).machine.issued,
      i.key ∈ keysOf (m.run key events).machine.issued i.producerId := fun i mem => mem_keysOf mem
  have sub := issued_run key m events
  obtain ⟨con, traced, lasting⟩ := Machine.covered_run valid resolves ample tree resume nodes
    (fun i mem => within i (sub i mem)) covered fun i mem => never i (sub i mem)
  have start : m.Reading config (keysOf (m.run key events).machine.issued) key 0 := by
    refine ⟨con, traced, lasting, Or.inr ⟨rfl, ?_⟩, trivial, Nat.le_refl _⟩
    refine (lasting.returned i returned hi).imp_right ?_
    rintro ⟨op, mem, hk⟩
    obtain ⟨hp, mem⟩ := Btree.mem_allPending.mp mem
    exact ⟨op.producerId, Nat.zero_le _, hp, List.not_mem_nil, op, mem, hk⟩
  have done : (m.run key events).Reading config (keysOf (m.run key events).machine.issued) key
      (reads events) := by
    refine points_of_steps (fun before => (m.run key before).Reading config
      (keysOf (m.run key events).machine.issued) key (reads before)) start
      (fun before e point reading covers => ?_) meet
    have sub := issued_of_prefix key m ((List.prefix_append _ _).trans point)
    rw [run_concat, reads, List.count_append]
    exact reading.step resolves (fun i mem => within i (sub i mem))
      (fun i mem => never i (sub i mem)) e covers
  have right : ∀ result, (m.run key events).reader = .returned result → result = true := by
    intro result hr
    have finds := done.finds
    rw [hr] at finds
    exact finds
  refine ⟨right, fun enough => ?_⟩
  have bound := done.remaining
  obtain ⟨result, hr⟩ := Reader.eq_returned_of_remaining
    (n := config.producerThreads) (r := (m.run key events).reader) (by omega)
  rw [hr, right result hr]

/-- A full drain moves the key into the tree while the reader is on its way. -/
theorem read_finds_moved :
    let m : ReadMachine (Finset Int) :=
      ⟨(Machine.init Machine.twoProducers ∅ 1 1).run Machine.aroundDrain, .start⟩
    (m.run 1 ([.read, .action (.drainPending 0)] ++ List.replicate 6 .read)).reader =
      .returned true := by
  intro m
  have covers : (m.run 1 [.read]).ReadCovers 1 (.action (.drainPending 0)) := by
    refine ⟨fun _ => Machine.coveredBy_of_forall_mem (by decide), ?_⟩
    rintro - tid - -
    exact Or.inl ⟨⟨1, false, 3, 0⟩, by decide, by decide⟩
  have reads : ∀ e ∈ List.replicate 6 ReadEvent.read, ∀ before,
      (m.run 1 before).ReadCovers 1 e := by
    intro e mem before
    rw [List.eq_of_mem_replicate mem]
    trivial
  have meet : StepsMeet (fun before e => (m.run 1 before).ReadCovers 1 e)
      ([.read, .action (.drainPending 0)] ++ List.replicate 6 .read) :=
    ((stepsMeet_concat [_] _).mpr
      ⟨(stepsMeet_concat [] _).mpr ⟨stepsMeet_nil, trivial⟩, covers⟩).append reads
  obtain ⟨-, returns⟩ := read_finds rfl rfl (∅ : Finset Int) 1 1 _ 1 _ Machine.covered_aroundDrain
    meet (by decide) ⟨⟨1, 0, false⟩, by decide, rfl⟩ (by decide)
  exact returns (by decide)

/-- A drain drops the key from the producer ahead of the reader, because one behind
the reader has it anew. -/
theorem read_misses :
    ¬ ∀ (config : RuntimeConfig) (earlier : List Action) (key : Int) (events : List ReadEvent),
      validateRuntimeConfig config = .ok () → config.evaluatorPolicy = .kF3N →
      let m : ReadMachine (Finset Int) := ⟨(Machine.init config ∅ 1 1).run earlier, .start⟩
      (∀ p < config.producerThreads,
        (keysOf (m.run key events).machine.issued p).card ≤ config.dirCap) →
      (∃ i ∈ m.machine.returned, i.key = key) →
      (∀ i ∈ (m.run key events).machine.issued, i.key = key → i.isDone = false) →
      ∀ result, (m.run key events).reader = .returned result → result = true := by
  intro finds
  have missed := finds { producerThreads := 2, evaluatorThreads := 2, hashCapacity := 4 }
    [.takeSequence 7 1 false, .ptfoInsert 1, .account 1 0] 7
    [.read, .action (.takeSequence 7 0 false), .action (.ptfoInsert 0), .action (.account 0 0),
      .action (.drainForProducers (Impl.producersForEvaluator 1 2 2) 0),
      .read, .read, .read, .read] rfl rfl (by decide) ⟨⟨7, 1, false⟩, by decide, rfl⟩
    (by decide) false (by decide)
  cases missed

end ReadMachine

end F3Tree
