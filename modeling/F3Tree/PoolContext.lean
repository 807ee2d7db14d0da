import Mathlib.Logic.Relation
import F3Tree.Recovery

/-!
# The pool of a process

The constructor of `btree` with `F3_PMDK` opens a pool and enters it as the one of the process
(`set_pool_context`), then it looks at what the root of the pool says.  When it throws there,
the destructor does not run, so nothing clears the context: it stays on the handle of a tree
that is gone, and every later constructor call throws (`mismatch_sticks`).

What the pool library does is an argument: whether it opens or creates the pool, and the uuid of
a new one.
-/

namespace F3Tree

/-- `PmemRoot`.  `root_page` and the chains are anchored together; `none` is a null
`root_page`. -/
structure PmemRoot (τ : Type) : Type where
  schemaVersion : Nat
  seqCounter : Nat
  nThreads : Nat
  hashCapacity : Nat
  height : Nat
  anchors : Option (τ × (Nat → LocalFut))

/-- A pool file.  `uuid` is `pool_uuid_lo` of its oids. -/
structure PoolFile (τ : Type) : Type where
  uuid : Nat
  root : PmemRoot τ

/-- A tree with a pool, as far as its destructor reads it, at the address `this`. -/
structure PmemTree (τ : Type) : Type where
  this : Nat
  poolPath : String
  poolAutoUnlink : Bool
  btree : Btree τ

/-- `currentPool` names the tree with the handle that `current_pool()` points to. -/
structure Process (τ : Type) : Type where
  currentPool : Option Nat
  poolUuid : Nat
  files : String → Option (PoolFile τ)
  trees : List (PmemTree τ)

/-- `kPmemSchemaVersion` -/
def kPmemSchemaVersion : Nat := 1

/-- The arguments of the constructor that matter for the pool. -/
structure BtreeArgs : Type where
  numThreads : Int
  hashCapacity : Int
  persistentPath : String

/-- What a constructor call gets from outside: the address of the object, the path that is made
of it, the text of what the library throws if it does, and the uuid of a new pool. -/
structure Outside : Type where
  this : Nat
  autoPath : String
  refuses : Option String
  newUuid : Nat

inductive CtorError : Type
  | onlyOneTree
  | library (what : String)
  | schemaMismatch
  | nThreadsMismatch
deriving DecidableEq, Repr

def CtorError.what : CtorError → String
  | onlyOneTree => "F3_PMDK: only one btree instance per process is supported " ++
      "(DECISION-009). Destroy the first tree before constructing a " ++
      "second, or build without PMDK=1 for multi-instance testing."
  | library what => what
  | schemaMismatch => "F3_PMDK: pool schema version mismatch (see DECISION-013)"
  | nThreadsMismatch => "F3_PMDK: pool n_threads mismatch with RuntimeConfig " ++
      "(resize on reopen is not supported)"

/-- `n_threads` of the constructor. -/
def BtreeArgs.nThreads (args : BtreeArgs) : Nat :=
  if args.numThreads > 0 then args.numThreads.toNat else 1

/-- `pool_path_` -/
def BtreeArgs.poolPath (args : BtreeArgs) (out : Outside) : String :=
  if args.persistentPath = "" then out.autoPath else args.persistentPath

/-- A root without pages, as the constructor initializes it. -/
def PmemRoot.init (τ : Type) (args : BtreeArgs) : PmemRoot τ where
  schemaVersion := kPmemSchemaVersion
  seqCounter := 0
  nThreads := args.nThreads
  hashCapacity := if args.hashCapacity > 0 then args.hashCapacity.toNat else 1
  height := 1
  anchors := none

/-- The rest of the constructor, once the root is known to fit: pages and chains are made if
there are none, else the tables are rebuilt from the chains. -/
def PmemRoot.attach {τ : Type} (root : PmemRoot τ) (args : BtreeArgs) (newPage : τ) :
    PmemRoot τ × Btree τ :=
  match root.anchors with
  | none =>
      ({ root with anchors := some (newPage, fun _ => {}) },
        .mk' args.nThreads args.hashCapacity newPage)
  | some (tree, localFut) =>
      let pool : Pool τ := ⟨root.nThreads, tree, localFut, root.seqCounter⟩
      let btree := pool.recover args.hashCapacity
      ({ root with anchors := some (tree, btree.localFut), seqCounter := pool.resumeSeq }, btree)

namespace Process

variable {τ : Type}

/-- `set_pool_context` -/
def setPoolContext (p : Process τ) (this uuid : Nat) : Process τ :=
  { p with currentPool := some this, poolUuid := uuid }

/-- `clear_pool_context` -/
def clearPoolContext (p : Process τ) : Process τ :=
  { p with currentPool := none, poolUuid := 0 }

/-- The constructor is done. -/
def complete (p : Process τ) (args : BtreeArgs) (out : Outside) (newPage : τ) (uuid : Nat)
    (root : PmemRoot τ) : Process τ × Except CtorError (PmemTree τ) :=
  let path := args.poolPath out
  let (root, btree) := root.attach args newPage
  let tree : PmemTree τ := ⟨out.this, path, args.persistentPath = "", btree⟩
  ({ p with
      files := Function.update p.files path (some ⟨uuid, root⟩)
      trees := tree :: p.trees }, .ok tree)

/-- The constructor of `btree`. -/
def construct (p : Process τ) (args : BtreeArgs) (out : Outside) (newPage : τ) :
    Process τ × Except CtorError (PmemTree τ) :=
  if p.currentPool ≠ none then (p, .error .onlyOneTree)
  else
    match out.refuses with
    | some what => (p, .error (.library what))
    | none =>
        match p.files (args.poolPath out) with
        | none =>
            (p.setPoolContext out.this out.newUuid).complete args out newPage out.newUuid
              (.init τ args)
        | some file =>
            let p := p.setPoolContext out.this file.uuid
            if file.root.schemaVersion ≠ kPmemSchemaVersion then (p, .error .schemaMismatch)
            else if file.root.nThreads ≠ args.nThreads then (p, .error .nThreadsMismatch)
            else p.complete args out newPage file.uuid file.root

/-- The destructor of a tree. -/
def destroy (p : Process τ) (tree : PmemTree τ) : Process τ :=
  let p := p.clearPoolContext
  { p with
    files :=
      if tree.poolAutoUnlink && tree.poolPath ≠ "" then Function.update p.files tree.poolPath none
      else p.files
    trees := p.trees.filter fun t => t.this ≠ tree.this }

/-- A process that has no tree yet. -/
def start (files : String → Option (PoolFile τ)) : Process τ := ⟨none, 0, files, []⟩

/-- What a process does to its pool context, and anyone to the pools. -/
inductive Step : Process τ → Process τ → Prop
  | construct (p : Process τ) (args : BtreeArgs) (out : Outside) (newPage : τ) :
    Step p (p.construct args out newPage).1
  | destroy (p : Process τ) (tree : PmemTree τ) : tree ∈ p.trees → Step p (p.destroy tree)
  | work (p : Process τ) (files : String → Option (PoolFile τ)) : Step p { p with files := files }

abbrev Reach : Process τ → Process τ → Prop := Relation.ReflTransGen Step

/-! ## A failed reopen -/

section Runs

variable {p p' : Process τ} {args : BtreeArgs} {out : Outside} {newPage : τ}

/-- With a context there is no second tree. -/
theorem construct_of_current (current : p.currentPool ≠ none) :
    p.construct args out newPage = (p, .error .onlyOneTree) :=
  if_pos current

/-- A constructor that throws at the root of the pool leaves the context on its own handle. -/
theorem construct_mismatch
    (mismatch : (p.construct args out newPage).2 = .error .schemaMismatch ∨
      (p.construct args out newPage).2 = .error .nThreadsMismatch) :
    p.currentPool = none ∧ ∃ uuid,
      (p.construct args out newPage).1 = p.setPoolContext out.this uuid := by
  by_cases current : p.currentPool = none
  · refine ⟨current, ?_⟩
    rw [construct, if_neg (not_not.mpr current)] at mismatch ⊢
    cases refuses : out.refuses with
    | some what =>
        rw [refuses] at mismatch
        simp at mismatch
    | none =>
        cases found : p.files (args.poolPath out) with
        | none =>
            rw [refuses, found] at mismatch
            simp [complete] at mismatch
        | some file =>
            rw [refuses, found] at mismatch
            refine ⟨file.uuid, ?_⟩
            dsimp only at mismatch ⊢
            split
            · rfl
            · rename_i schema
              rw [if_neg schema] at mismatch
              split
              · rfl
              · rename_i threads
                rw [if_neg threads] at mismatch
                simp [complete] at mismatch
  · rw [construct_of_current current] at mismatch
    simp at mismatch

/-- The only tree is the one that the context is on. -/
def Owned (p : Process τ) : Prop :=
  p.trees = [] ∨ ∃ tree, p.trees = [tree] ∧ p.currentPool = some tree.this

/-- The context is on a tree that is gone. -/
def Stuck (p : Process τ) : Prop := p.currentPool ≠ none ∧ p.trees = []

theorem Owned.construct (owned : p.Owned) (args : BtreeArgs) (out : Outside) (newPage : τ) :
    (p.construct args out newPage).1.Owned := by
  by_cases current : p.currentPool = none
  · have empty : p.trees = [] := owned.resolve_right fun ⟨tree, _, here⟩ => by
      rw [current] at here
      cases here
    have complete : ∀ uuid root,
        ((p.setPoolContext out.this uuid).complete args out newPage uuid root).1.Owned :=
      fun uuid root => Or.inr ⟨_, congrArg (List.cons _) empty, rfl⟩
    rw [Process.construct, if_neg (not_not.mpr current)]
    split
    · exact owned
    · split
      · exact complete _ _
      · dsimp only
        split
        · exact Or.inl empty
        · split
          · exact Or.inl empty
          · exact complete _ _
  · rw [construct_of_current current]
    exact owned

theorem Owned.step (owned : p.Owned) (step : Step p p') : p'.Owned := by
  cases step with
  | construct args out newPage => exact owned.construct args out newPage
  | destroy tree mem =>
      rcases owned with empty | ⟨only, one, -⟩
      · exact absurd mem (empty ▸ List.not_mem_nil)
      · obtain rfl := List.mem_singleton.mp (one ▸ mem)
        have left : (p.destroy tree).trees = p.trees.filter fun t => t.this ≠ tree.this := rfl
        refine Or.inl ?_
        rw [left, one]
        simp
  | work files => exact owned

theorem Reach.owned {files : String → Option (PoolFile τ)} (run : Reach (start files) p) :
    p.Owned := by
  induction run with
  | refl => exact Or.inl rfl
  | tail _ step ih => exact ih.step step

theorem Stuck.step (stuck : p.Stuck) (step : Step p p') : p'.Stuck := by
  cases step with
  | construct args out newPage =>
      rw [construct_of_current stuck.1]
      exact stuck
  | destroy tree mem => exact absurd mem (stuck.2 ▸ List.not_mem_nil)
  | work files => exact stuck

theorem Stuck.reach (stuck : p.Stuck) (run : Reach p p') : p'.Stuck := by
  induction run with
  | refl => exact stuck
  | tail _ step ih => exact ih.step step

/-- A constructor that throws at the root of the pool changes the context, and no constructor
of the process ever succeeds again. -/
theorem mismatch_sticks {files : String → Option (PoolFile τ)} (run : Reach (start files) p)
    (mismatch : (p.construct args out newPage).2 = .error .schemaMismatch ∨
      (p.construct args out newPage).2 = .error .nThreadsMismatch) :
    let after := (p.construct args out newPage).1
    (after.currentPool, after.poolUuid) ≠ (p.currentPool, p.poolUuid) ∧
      ∀ later, Reach after later → ∀ args' out' newPage',
        (later.construct args' out' newPage').2 = .error .onlyOneTree := by
  intro after
  obtain ⟨before, uuid, set⟩ := construct_mismatch mismatch
  have current : after.currentPool = some out.this := congrArg currentPool set
  have gone : p.trees = [] := run.owned.resolve_right fun ⟨tree, _, here⟩ => by
    rw [before] at here
    cases here
  have stuck : after.Stuck :=
    ⟨fun cleared => (by rw [current] at cleared; cases cleared), (congrArg trees set).trans gone⟩
  refine ⟨fun same => ?_, fun later run' args' out' newPage' => ?_⟩
  · have cleared := (congrArg Prod.fst same).trans before
    exact stuck.1 cleared
  · rw [construct_of_current (stuck.reach run').1]

end Runs

/-! ### A pool of two producers -/

/-- A pool that a tree with two producers has left. -/
def twoProducers : String → Option (PoolFile (Finset Int)) :=
  Function.update (fun _ => none) "/dev/shm/a.pool"
    (some ⟨7, ⟨kPmemSchemaVersion, 0, 2, 8, 1, some ({1}, fun _ => {})⟩⟩)

def openWith (numThreads : Int) : BtreeArgs := ⟨numThreads, 8, "/dev/shm/a.pool"⟩

def outside : Outside := ⟨64, "", none, 1⟩

theorem mismatch_sticks_two :
    let after := ((start twoProducers).construct (openWith 1) outside ∅).1
    (after.currentPool, after.poolUuid) = (some 64, 7) ∧
      (after.construct (openWith 2) outside ∅).2 = .error .onlyOneTree :=
  ⟨rfl, (mismatch_sticks .refl (Or.inr rfl)).2 _ .refl _ _ _⟩

/-- A constructor with the wrong number of threads throws, and then the one with the right number
throws too, which succeeds without the first call. -/
theorem second_throws :
    let p := start twoProducers
    let after := (p.construct (openWith 1) outside ∅).1
    (p.construct (openWith 1) outside ∅).2 = .error .nThreadsMismatch ∧
      after.currentPool ≠ p.currentPool ∧
      (∃ tree, (p.construct (openWith 2) outside ∅).2 = .ok tree) ∧
      (after.construct (openWith 2) outside ∅).2 = .error .onlyOneTree :=
  ⟨rfl, by decide, ⟨_, rfl⟩, rfl⟩

end Process

end F3Tree
