import DynLocks.Lib.Ledger
import DynLocks.Genetic.Traffic

/-!
# DynLocks.Genetic.World

Any number of threads and of `GeneticLock` objects of one type.  The objects
share what is `thread_local` in `ShouldSampleTraining` and
`EnqueueTrainingSample`: every thread has one counter and one `local_buffer`,
whose `owner` is the address of the lock it belongs to.  An object may be
destroyed and another one created at its address.

Every object runs as `advance` of `DynLocks.Genetic.Machine` says, on its own
members and on the variables of the thread that takes the step.  A `Ledger`
records where every sample is; nothing the program does depends on it.
-/

namespace DynLocks
namespace GeneticLock

open Interleaving

/-! ## objects and threads -/

/-- The objects of a program in the order in which it creates them. -/
structure Objects (G : Type) where
  std : GeneticPartitioner.StdLib G
  kLockCnt : ℕ
  kBlocks : ℕ
  config : ℕ → Config
  seed : ℕ → G
  address : ℕ → ℕ
  kLockCnt_eq : ∀ lock, (config lock).kLockCnt = kLockCnt
  kBlocks_eq : ∀ lock, (config lock).kBlocks = kBlocks

/-- The threads: the clients and the background thread of every object. -/
inductive ThreadId (Client : Type)
  | client (c : Client)
  | trainer (lock : ℕ)
  deriving DecidableEq

/-- The thread as its lock knows it. -/
def ThreadId.tid {Client : Type} : ThreadId Client → Tid Client
  | .client c => .client c
  | .trainer _ => .background

/-- The lock that a thread uses and where it stands in it. -/
structure Pos where
  lock : ℕ
  loc : Loc

/-- Where a thread starts. -/
def ThreadId.start {Client : Type} : ThreadId Client → Pos
  | .client _ => ⟨0, .idle⟩
  | .trainer lock => ⟨lock, .idle⟩

/-- A sample: the lock and the thread that took it, and its number among all samples. -/
structure Sample (Client : Type) where
  lock : ℕ
  thread : ThreadId Client
  query : Query
  serial : ℕ
  deriving DecidableEq

/-- The places where samples are: the buffer of a thread until it has been copied, the vector
`pending_queries_` of a lock, the batches swapped out of it, what `StopRebuilder` has cleared, and
what a thread has dropped because it turned to another lock. -/
inductive Whereabouts (Client : Type)
  | buffer (thread : ThreadId Client)
  | pending (lock : ℕ)
  | batch (lock number : ℕ)
  | cleared (lock : ℕ)
  | dropped (thread : ThreadId Client)
  deriving DecidableEq

/-- Shared memory.  `owner` and `queries` are the members of the `local_buffer` of a thread.  The
last four members are records: `batches` counts the swaps of a lock, `hand` is the number of the
last batch that a thread has swapped out, and `inherited` says which samples of its address the
buffers still held when a lock was created. -/
structure World (Client G : Type) where
  created : ℕ
  alive : ℕ → Bool
  mem : ℕ → Mem Client G
  owner : ThreadId Client → Option ℕ
  queries : ThreadId Client → List Query
  sampleCounter : ThreadId Client → UInt64
  ledger : Ledger (Whereabouts Client) (Sample Client)
  batches : ℕ → ℕ
  hand : ThreadId Client → ℕ
  inherited : ℕ → Sample Client → Prop

/-- What a thread does next. -/
inductive WorldAct
  | create
  | destroy (lock : ℕ)
  | call (lock : ℕ) (c : Call)
  | act (a : Act)

/-! ## steps -/

section Steps

variable {Client G : Type} [DecidableEq Client] (L : Objects G)

namespace World

/-- The members of a lock and the `thread_local` variables of the thread that runs. -/
def view (w : World Client G) (t : ThreadId Client) (lock : ℕ) : Mem Client G :=
  { w.mem lock with
    sampleCounter := fun _ => w.sampleCounter t
    localQueries := fun _ => w.queries t }

/-- `EnqueueTrainingSample` empties a buffer that belongs to another lock. -/
def switchOwner (w : World Client G) (t : ThreadId Client) (address : ℕ) :
    Event → World Client G
  | .enqueue _ =>
      if w.owner t = some address then w
      else { w with
        owner := Function.update w.owner t (some address)
        queries := Function.update w.queries t []
        ledger := w.ledger.move (.buffer t) (.dropped t) }
  | _ => w

/-- What a step leaves. -/
def store (w : World Client G) (t : ThreadId Client) (lock : ℕ) (m : Mem Client G) :
    World Client G :=
  { w with
    mem := Function.update w.mem lock m
    queries := Function.update w.queries t (m.localQueries t.tid)
    sampleCounter := Function.update w.sampleCounter t (m.sampleCounter t.tid) }

/-- Keep the records. -/
def record (w : World Client G) (t : ThreadId Client) (lock : ℕ) : Event → World Client G
  | .quiet => w
  | .enqueue query =>
      { w with
        ledger := w.ledger.enter (.buffer t)
          { lock, thread := t, query, serial := w.ledger.entered.length } }
  | .insert => { w with ledger := w.ledger.move (.buffer t) (.pending lock) }
  | .clear => w
  | .swap =>
      { w with
        ledger := w.ledger.move (.pending lock) (.batch lock (w.batches lock))
        batches := Function.update w.batches lock (w.batches lock + 1)
        hand := Function.update w.hand t (w.batches lock) }
  | .clearPending => { w with ledger := w.ledger.move (.pending lock) (.cleared lock) }

section Ledger

variable (w : World Client G) (t : ThreadId Client) (lock : ℕ)

/-- A thread that takes a sample has a buffer of that lock afterwards. -/
theorem switchOwner_owner (address : ℕ) (q : Query) :
    (w.switchOwner t address (.enqueue q)).owner t = some address := by
  by_cases h : w.owner t = some address <;> simp [switchOwner, h]

/-- A switch constructs and destroys nothing. -/
theorem switchOwner_alive (address : ℕ) (e : Event) :
    (w.switchOwner t address e).alive = w.alive := by
  cases e with
  | enqueue q => by_cases h : w.owner t = some address <;> simp [switchOwner, h]
  | _ => rfl

/-- What a lock does to its own memory moves no sample. -/
@[simp]
theorem store_ledger (m : Mem Client G) : (w.store t lock m).ledger = w.ledger := rfl

/-- Nor does it count a batch. -/
@[simp]
theorem store_batches (m : Mem Client G) : (w.store t lock m).batches = w.batches := rfl

/-- A sample enters in the buffer of its thread, with the next serial number. -/
@[simp]
theorem record_enqueue (query : Query) : (w.record t lock (.enqueue query)).ledger =
    w.ledger.enter (.buffer t)
      { lock, thread := t, query, serial := w.ledger.entered.length } := rfl

/-- The samples of a full buffer go to the pending queries of the lock. -/
@[simp]
theorem record_insert :
    (w.record t lock .insert).ledger = w.ledger.move (.buffer t) (.pending lock) := rfl

/-- The training thread or a flush takes all pending queries as the next batch of the lock. -/
@[simp]
theorem record_swap : (w.record t lock .swap).ledger =
    w.ledger.move (.pending lock) (.batch lock (w.batches lock)) := rfl

/-- The batches of a lock are numbered one after the other. -/
@[simp]
theorem record_swap_batches : (w.record t lock .swap).batches =
    Function.update w.batches lock (w.batches lock + 1) := rfl

/-- The thread that swaps has the new batch in its hand. -/
@[simp]
theorem record_swap_hand :
    (w.record t lock .swap).hand = Function.update w.hand t (w.batches lock) := rfl

/-- `StopRebuilder` throws the pending queries away. -/
@[simp]
theorem record_clearPending :
    (w.record t lock .clearPending).ledger = w.ledger.move (.pending lock) (.cleared lock) := rfl

end Ledger

/-- A step of a thread in an object.  One that is inside an object when it is destroyed is stuck,
the program having no meaning any more. -/
def advance (t : ThreadId Client) (a : Act) (w : World Client G) (p : Pos) :
    Option (World Client G × Pos) :=
  if w.alive p.lock then
    let w := w.switchOwner t (L.address p.lock) p.loc.event
    (GeneticLock.advance (L.config p.lock) L.std t.tid a (w.view t p.lock) p.loc).map fun r =>
      ((w.store t p.lock r.1).record t p.lock p.loc.event, ⟨p.lock, r.2⟩)
  else none

/-- The next object; its members are as the constructor leaves them. -/
def create (w : World Client G) : World Client G :=
  { w with
    created := w.created + 1
    alive := Function.update w.alive w.created true
    inherited := fun lock x => w.inherited lock x ∨ (lock = w.created ∧
      ∃ t, w.owner t = some (L.address w.created) ∧ x ∈ w.ledger.contents (.buffer t)) }

/-- The implicit destructor; `training_thread_` must not be joinable, or the program ends. -/
def destroy (w : World Client G) (lock : ℕ) : World Client G :=
  { w with alive := Function.update w.alive lock false }

end World

/-- Threads that use the objects in any way, but for `ObserveBatch` with a batch of their own.  An
object is created where there is no other. -/
def world (Client : Type) [DecidableEq Client] :
    Program (ThreadId Client) WorldAct (World Client G) Pos where
  init :=
    { created := 0
      alive := fun _ => false
      mem := fun lock => initMem (L.config lock) (L.seed lock)
      owner := fun _ => none
      queries := fun _ => []
      sampleCounter := fun _ => 0
      ledger := .empty
      batches := fun _ => 0
      hand := fun _ => 0
      inherited := fun _ _ => False }
  start := ThreadId.start
  advance t a w p :=
    match a, t, p.loc with
    | .create, .client _, .idle =>
        if ∀ lock < w.created, L.address lock = L.address w.created → w.alive lock = false then
          some (w.create L, p)
        else none
    | .destroy lock, .client _, .idle =>
        if w.alive lock ∧ (w.mem lock).trainingThread = .none then some (w.destroy lock, p)
        else none
    | .call _ (.observeBatch _), _, _ => none
    | .call lock c, .client _, .idle => w.advance L t (.call c) ⟨lock, .idle⟩
    | .act (.call _), _, _ => none
    | .act a, _, _ => w.advance L t a p
    | _, _, _ => none

/-- What a thread does in one step. -/
inductive WorldMove (t : ThreadId Client) (w : World Client G) :
    Pos → World Client G → Pos → Prop
  | create {lock : ℕ} :
      (∀ lock < w.created, L.address lock = L.address w.created → w.alive lock = false) →
      WorldMove t w ⟨lock, .idle⟩ (w.create L) ⟨lock, .idle⟩
  | destroy {lock lock' : ℕ} :
      WorldMove t w ⟨lock, .idle⟩ (w.destroy lock') ⟨lock, .idle⟩
  | call {lock lock' : ℕ} {c : Call} {r : World Client G × Pos} :
      (∀ batch, c ≠ .observeBatch batch) → w.advance L t (.call c) ⟨lock', .idle⟩ = some r →
      WorldMove t w ⟨lock, .idle⟩ r.1 r.2
  | act {p : Pos} {a : Act} {r : World Client G × Pos} :
      (∀ c, a ≠ .call c) → w.advance L t a p = some r → WorldMove t w p r.1 r.2

variable {L}

/-- **Step lemma**: every step of the world is one of these moves. -/
theorem worldMove_of_advance {t : ThreadId Client} {a : WorldAct} {w w' : World Client G}
    {p p' : Pos} (h : (world L Client).advance t a w p = some (w', p')) :
    WorldMove L t w p w' p' := by
  obtain ⟨lock, l⟩ := p
  simp only [world] at h
  split at h
  · split at h
    · next hfree =>
        cases h
        exact .create hfree
    · contradiction
  · split at h
    · cases h
      exact .destroy
    · contradiction
  · contradiction
  · next hbatch => exact .call hbatch h
  · contradiction
  · next hcall => exact .act hcall h
  · contradiction

end Steps

end GeneticLock
end DynLocks
