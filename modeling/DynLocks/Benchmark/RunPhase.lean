import DynLocks.Benchmark.Stream
import DynLocks.Lib.Critical
import DynLocks.Lib.History
import Mathlib.Data.UInt

/-!
# DynLocks.Benchmark.RunPhase

`RunPhase` of the adaptive benchmark: the workers make the queries of their
slices and run each under the lock, while the lock's own thread may move the
partition.  One load, store or call is one step; the barrier in front of the
loops only delays the workers and is left out.

* `Placed.move` — a worker in the function of its query has the range of the query;
* `loaded_of_reachable` — and nobody else stores to its target meanwhile;
* `owed_of_move` — an update is made by the one step that takes it from what its
  worker owes;
* `noLostUpdate_of_sound` — over every sound lock no update is lost or made twice.
-/

namespace DynLocks
namespace Benchmark

open Interleaving Sampler

/-! ## the lock -/

/-- A lock as `RunPhase` uses it: which threads are the lock's own, and who holds the mutex of a
position. -/
structure PhaseLock (Tid Act Mem Loc : Type) extends RangeLock Tid Act Mem Loc where
  serves : Tid → Bool
  holder : Mem → ℕ → Option Tid

variable {Tid Act Mem Loc : Type}

/-- `WriteQuery` calls its function once, on the clamped range of the call, and its thread holds the
mutex of every position of the range meanwhile. -/
structure PhaseLock.Sound [DecidableEq Tid] (L : PhaseLock Tid Act Mem Loc)
    (asks : Loc → Option (ℕ × ℕ)) : Prop
    extends L.toRangeLock.Sound (clampRange kArraySize) asks where
  idle : ∀ {l}, L.isIdle l = true → asks l = none
  rest : ∀ {t a m l m' l'}, L.program.advance t a m l = some (m', l') → L.isIdle l = false →
    asks l = none → asks l' = none
  leave : ∀ {t a m l m' l' r}, L.program.advance t a m l = some (m', l') → L.inFunc l = some r →
    asks l' = none
  holds : ∀ {s t r pos}, L.program.Reachable s → L.inFunc (s.loc t) = some r → r.1 ≤ pos →
    pos ≤ r.2 → L.holder s.mem pos = some t

/-! ## the workers -/

inductive QueryBody
  | kRealWork
  | kLockOnly
  deriving DecidableEq

structure WorkerStats where
  queries : UInt64 := 0
  sumChecksum : UInt64 := 0
  updateChecksum : UInt64 := 0

/-- The function that `ExecuteQuery` passes to `WriteQuery`. -/
inductive FuncPc
  | sum (right i : ℕ) (sum : UInt64)
  | load (sum : UInt64)
  | store (sum : UInt64) (value : ℤ)
  | checksum
  | ret

/-- A worker: before its next query, in `WriteQuery`, or in the function it passes to it. -/
inductive WorkerPc
  | loop
  | writeQuery (query : Query)
  | func (query : Query) (pc : FuncPc)

/-- The local variables of a worker. -/
structure Worker where
  threadIndex : ℕ
  i : ℕ
  endIndex : ℕ
  rng : FastRng
  stats : WorkerStats
  pc : WorkerPc

/-- The memory of the lock, and `data`. -/
structure PhaseMem (Mem : Type) where
  lock : Mem
  data : ℕ → ℤ

/-- A thread: where it is in the lock, and what it does as a worker. -/
structure PhaseLoc (Loc : Type) where
  lock : Loc
  worker : Option Worker

/-- A cell as a term of a checksum. -/
def cellBits (value : ℤ) : UInt64 := UInt64.ofNat (value % 2 ^ 32).toNat

/-- Where the function begins on the range it is called on. -/
def funcBegin (body : QueryBody) (range : ℕ × ℕ) : FuncPc :=
  match body with
  | .kLockOnly => .ret
  | .kRealWork => .sum range.2 range.1 0

/-- One step of the function; `none` where it returns. -/
def funcStep (query : Query) (data : ℕ → ℤ) (stats : WorkerStats) :
    FuncPc → Option ((ℕ → ℤ) × WorkerStats × FuncPc)
  | .sum right i sum =>
      some (data, stats,
        if i ≤ right then .sum right (i + 1) (sum + cellBits (data i)) else .load sum)
  | .load sum => some (data, stats, .store sum (data query.target.toNat))
  | .store sum value =>
      some (Function.update data query.target.toNat (value + query.delta),
        { stats with sumChecksum := stats.sumChecksum + sum }, .checksum)
  | .checksum =>
      some (data,
        { stats with
          updateChecksum := stats.updateChecksum + cellBits (data query.target.toNat) }, .ret)
  | .ret => none

section Program

variable (L : PhaseLock Tid Act Mem Loc) (spec : QueryStreamSpec) (body : QueryBody)

/-- A step of the lock. -/
def lockStep (t : Tid) (a : Act) (m : PhaseMem Mem) (l : Loc) (worker : Option Worker) :
    Option (PhaseMem Mem × PhaseLoc Loc) :=
  (L.program.advance t a m.lock l).map fun r => (⟨r.1, m.data⟩, ⟨r.2, worker⟩)

/-- The loop of a worker over its slice, with `ExecuteQuery`. -/
def workerStep (t : Tid) (a : Act) (m : PhaseMem Mem) (l : Loc) (w : Worker) :
    Option (PhaseMem Mem × PhaseLoc Loc) :=
  match w.pc with
  | .loop =>
      if w.i < w.endIndex then
        (makeStreamQuery spec w.threadIndex w.i w.rng).bind fun r =>
          lockStep L t (L.writeQuery r.1.left.toNat r.1.right.toNat) m l
            (some { w with rng := r.2, pc := .writeQuery r.1 })
      else none
  | .writeQuery query =>
      match L.inFunc l with
      | some range => some (m, ⟨l, some { w with pc := .func query (funcBegin body range) }⟩)
      | none =>
          if L.isIdle l then
            some (m, ⟨l, some { w with
              i := w.i + 1
              stats := { w.stats with queries := w.stats.queries + 1 }
              pc := .loop }⟩)
          else lockStep L t a m l (some w)
  | .func query pc =>
      match funcStep query m.data w.stats pc with
      | some (data, stats, pc) =>
          some (⟨m.lock, data⟩, ⟨l, some { w with stats, pc := .func query pc }⟩)
      | none => lockStep L t a m l (some { w with pc := .writeQuery query })

/-- A worker as it is created. -/
def startWorker (threadCount k : ℕ) : Worker where
  threadIndex := k
  i := sliceBegin spec.count threadCount k
  endIndex := sliceBegin spec.count threadCount (k + 1)
  rng := ⟨threadSeed spec.seed k⟩
  stats := {}
  pc := .loop

/-- `RunPhase` with `threads` as its workers, from the state `s₀` of the lock on.  Beside the workers
only the lock's own threads act. -/
def runPhase [DecidableEq Tid] (threads : List Tid) (s₀ : State Tid Mem Loc) (data : ℕ → ℤ) :
    Program Tid Act (PhaseMem Mem) (PhaseLoc Loc) where
  init := ⟨s₀.mem, data⟩
  start t := ⟨s₀.loc t,
    if t ∈ threads then some (startWorker spec threads.length (threads.idxOf t)) else none⟩
  advance t a m l :=
    match l.worker with
    | some w => workerStep L spec body t a m l.lock w
    | none => if L.serves t then lockStep L t a m l.lock none else none

/-- What one step of thread `t` does. -/
inductive Move (t : Tid) : PhaseMem Mem → PhaseLoc Loc → PhaseMem Mem → PhaseLoc Loc → Prop
  | serve {a : Act} {m : PhaseMem Mem} {m' : Mem} {l l' : Loc} :
      L.program.advance t a m.lock l = some (m', l') →
      Move t m ⟨l, none⟩ ⟨m', m.data⟩ ⟨l', none⟩
  | call {m : PhaseMem Mem} {m' : Mem} {l l' : Loc} {k i last : ℕ} {rng rng' : FastRng}
      {stats : WorkerStats} {query : Query} : i < last →
      makeStreamQuery spec k i rng = some (query, rng') →
      L.program.advance t (L.writeQuery query.left.toNat query.right.toNat) m.lock l =
        some (m', l') →
      Move t m ⟨l, some ⟨k, i, last, rng, stats, .loop⟩⟩ ⟨m', m.data⟩
        ⟨l', some ⟨k, i, last, rng', stats, .writeQuery query⟩⟩
  | wait {a : Act} {m : PhaseMem Mem} {m' : Mem} {l l' : Loc} {k i last : ℕ} {rng : FastRng}
      {stats : WorkerStats} {query : Query} : L.inFunc l = none → L.isIdle l = false →
      L.program.advance t a m.lock l = some (m', l') →
      Move t m ⟨l, some ⟨k, i, last, rng, stats, .writeQuery query⟩⟩ ⟨m', m.data⟩
        ⟨l', some ⟨k, i, last, rng, stats, .writeQuery query⟩⟩
  | returns {m : PhaseMem Mem} {l : Loc} {k i last : ℕ} {rng : FastRng} {stats : WorkerStats}
      {query : Query} : L.isIdle l = true →
      Move t m ⟨l, some ⟨k, i, last, rng, stats, .writeQuery query⟩⟩ m
        ⟨l, some ⟨k, i + 1, last, rng, { stats with queries := stats.queries + 1 }, .loop⟩⟩
  | enter {m : PhaseMem Mem} {l : Loc} {k i last : ℕ} {rng : FastRng} {stats : WorkerStats}
      {query : Query} {range : ℕ × ℕ} : L.inFunc l = some range →
      Move t m ⟨l, some ⟨k, i, last, rng, stats, .writeQuery query⟩⟩ m
        ⟨l, some ⟨k, i, last, rng, stats, .func query (funcBegin body range)⟩⟩
  | func {m : PhaseMem Mem} {data : ℕ → ℤ} {l : Loc} {k i last : ℕ} {rng : FastRng}
      {stats stats' : WorkerStats} {query : Query} {pc pc' : FuncPc} :
      funcStep query m.data stats pc = some (data, stats', pc') →
      Move t m ⟨l, some ⟨k, i, last, rng, stats, .func query pc⟩⟩ ⟨m.lock, data⟩
        ⟨l, some ⟨k, i, last, rng, stats', .func query pc'⟩⟩
  | leave {a : Act} {m : PhaseMem Mem} {m' : Mem} {l l' : Loc} {k i last : ℕ} {rng : FastRng}
      {stats : WorkerStats} {query : Query} :
      L.program.advance t a m.lock l = some (m', l') →
      Move t m ⟨l, some ⟨k, i, last, rng, stats, .func query .ret⟩⟩ ⟨m', m.data⟩
        ⟨l', some ⟨k, i, last, rng, stats, .writeQuery query⟩⟩

end Program

section Steps

variable {L : PhaseLock Tid Act Mem Loc} {spec : QueryStreamSpec} {body : QueryBody}
  {t : Tid} {a : Act} {m m' : PhaseMem Mem} {l l' : PhaseLoc Loc}

theorem lockStep_eq_some {l : Loc} {worker : Option Worker}
    (h : lockStep L t a m l worker = some (m', l')) :
    ∃ mem loc, L.program.advance t a m.lock l = some (mem, loc) ∧ m' = ⟨mem, m.data⟩ ∧
      l' = ⟨loc, worker⟩ := by
  obtain ⟨⟨mem, loc⟩, hadvance, heq⟩ := Option.map_eq_some_iff.mp h
  simp only [Prod.mk.injEq] at heq
  exact ⟨mem, loc, hadvance, heq.1.symm, heq.2.symm⟩

theorem funcStep_eq_none {query : Query} {data : ℕ → ℤ} {stats : WorkerStats} {pc : FuncPc}
    (h : funcStep query data stats pc = none) : pc = .ret := by
  cases pc with
  | ret => rfl
  | _ => contradiction

theorem move_of_advance [DecidableEq Tid] {threads : List Tid} {s₀ : State Tid Mem Loc}
    {data : ℕ → ℤ}
    (h : (runPhase L spec body threads s₀ data).advance t a m l = some (m', l')) :
    Move L spec body t m l m' l' := by
  obtain ⟨l, worker⟩ := l
  cases worker with
  | none =>
      simp only [runPhase] at h
      split at h
      · obtain ⟨mem, loc, hadvance, rfl, rfl⟩ := lockStep_eq_some h
        exact .serve hadvance
      · contradiction
  | some w =>
      obtain ⟨k, i, last, rng, stats, pc⟩ := w
      simp only [runPhase, workerStep] at h
      cases pc with
      | loop =>
          simp only at h
          split at h
          · next hlt =>
              obtain ⟨⟨query, rng'⟩, hquery, hstep⟩ := Option.bind_eq_some_iff.mp h
              obtain ⟨mem, loc, hadvance, rfl, rfl⟩ := lockStep_eq_some hstep
              exact .call hlt hquery hadvance
          · contradiction
      | writeQuery query =>
          simp only at h
          split at h
          · next hfunc => cases h; exact .enter hfunc
          · next hfunc =>
              split at h
              · next hidle => cases h; exact .returns hidle
              · next hidle =>
                  obtain ⟨mem, loc, hadvance, rfl, rfl⟩ := lockStep_eq_some h
                  exact .wait hfunc (Bool.eq_false_iff.mpr hidle) hadvance
      | func query pc =>
          simp only at h
          split at h
          · next hstep => cases h; exact .func hstep
          · next hstep =>
              obtain ⟨mem, loc, hadvance, rfl, rfl⟩ := lockStep_eq_some h
              obtain rfl := funcStep_eq_none hstep
              exact .leave hadvance

end Steps

/-! ## updates -/

/-- The update that the next step of a worker makes. -/
def PhaseLoc.update (l : PhaseLoc Loc) : List Job :=
  match l.worker with
  | some w =>
      match w.pc with
      | .func query (.store _ _) => [⟨w.i, query⟩]
      | _ => []
  | none => []

/-- The updates of a step. -/
def updates (l _ : PhaseLoc Loc) : List Job := l.update

/-- Is the update of the query still to be made? -/
def FuncPc.owes : FuncPc → Bool
  | .sum _ _ _ => true
  | .load _ => true
  | .store _ _ => true
  | .checksum => false
  | .ret => false

/-- The updates a thread has still to make, if its worker gets to the end of its slice. -/
def PhaseLoc.owed (spec : QueryStreamSpec) (asks : Loc → Option (ℕ × ℕ)) (l : PhaseLoc Loc) :
    Option (List Job) :=
  match l.worker with
  | none => some []
  | some w =>
      let rest (i : ℕ) : Option (List Job) := jobsFrom spec w.threadIndex (w.endIndex - i) i w.rng
      match w.pc with
      | .loop => rest w.i
      | .writeQuery query =>
          if (asks l.lock).isSome then (rest (w.i + 1)).map (⟨w.i, query⟩ :: ·)
          else rest (w.i + 1)
      | .func query pc =>
          if pc.owes then (rest (w.i + 1)).map (⟨w.i, query⟩ :: ·) else rest (w.i + 1)

/-- The worker has come to the end of its slice. -/
def PhaseLoc.joined (l : PhaseLoc Loc) : Bool :=
  match l.worker with
  | some ⟨_, i, last, _, _, .loop⟩ => last ≤ i
  | _ => false

theorem PhaseLoc.eq_of_joined {l : PhaseLoc Loc} (h : l.joined = true) :
    ∃ w, l.worker = some w ∧ w.pc = .loop ∧ w.endIndex ≤ w.i := by
  obtain ⟨l, worker⟩ := l
  cases worker with
  | none => contradiction
  | some w =>
      obtain ⟨k, i, last, rng, stats, pc⟩ := w
      cases pc with
      | loop => exact ⟨_, rfl, rfl, of_decide_eq_true h⟩
      | _ => contradiction

/-- `RunPhase` returns. -/
def Returned (threads : List Tid) (s : State Tid (PhaseMem Mem) (PhaseLoc Loc)) : Prop :=
  ∀ t ∈ threads, (s.loc t).joined = true

/-- `stats` of a worker. -/
def PhaseLoc.stats (l : PhaseLoc Loc) : WorkerStats := (l.worker.map Worker.stats).getD {}

/-- What `RunPhase` returns, but for the time. -/
def phaseRunStats (threads : List Tid) (s : State Tid (PhaseMem Mem) (PhaseLoc Loc)) :
    WorkerStats where
  queries := (threads.map fun t => (s.loc t).stats.queries).sum
  sumChecksum := (threads.map fun t => (s.loc t).stats.sumChecksum).sum
  updateChecksum := (threads.map fun t => (s.loc t).stats.updateChecksum).sum

/-! ## what a worker knows -/

/-- What a worker knows of its query and of the lock. -/
def Placed (L : PhaseLock Tid Act Mem Loc) (asks : Loc → Option (ℕ × ℕ)) (l : PhaseLoc Loc) :
    Prop :=
  match l.worker with
  | none => True
  | some w =>
      match w.pc with
      | .loop => L.isIdle l.lock = true
      | .writeQuery query => InArray query ∧
          (asks l.lock = none ∨ asks l.lock = some (query.left.toNat, query.right.toNat))
      | .func query _ => InArray query ∧
          L.inFunc l.lock = some (query.left.toNat, query.right.toNat)

/-- The range of a query is not clamped. -/
theorem clampRange_of_inArray {query : Query} (h : InArray query) :
    clampRange kArraySize query.left.toNat query.right.toNat =
      (query.left.toNat, query.right.toNat) :=
  clampRange_eq_self (h.1.trans h.2.1) h.2.2

section Moves

variable {L : PhaseLock Tid Act Mem Loc} {asks : Loc → Option (ℕ × ℕ)} {spec : QueryStreamSpec}
  {body : QueryBody} {t : Tid} {m m' : PhaseMem Mem} {l l' : PhaseLoc Loc}

/-- A worker that makes an update is in the function of its query. -/
theorem Placed.of_update (h : Placed L asks l) {job : Job} (hjob : job ∈ l.update) :
    InArray job.query ∧ L.inFunc l.lock = some (job.query.left.toNat, job.query.right.toNat) := by
  obtain ⟨l, worker⟩ := l
  cases worker with
  | none => contradiction
  | some w =>
      obtain ⟨k, i, last, rng, stats, pc⟩ := w
      cases pc with
      | func query pc =>
          cases pc with
          | store sum value =>
              rw [List.mem_singleton.mp hjob]
              exact h
          | _ => contradiction
      | _ => contradiction

/-- What a worker has loaded is what the cell holds. -/
def Loaded (data : ℕ → ℤ) (l : PhaseLoc Loc) : Prop :=
  match l.worker with
  | some ⟨_, _, _, _, _, .func query (.store _ value)⟩ => value = data query.target.toNat
  | _ => True

/-- A step changes no cell but the target of its update. -/
theorem Move.data_of_ne (hmove : Move L spec body t m l m' l') {cell : ℕ}
    (hne : ∀ job ∈ l.update, job.query.target.toNat ≠ cell) : m'.data cell = m.data cell := by
  cases hmove with
  | @func _ _ _ _ i _ _ _ _ query pc _ hstep =>
      cases pc with
      | store sum value =>
          cases hstep
          have htarget := hne ⟨i, query⟩ (List.mem_singleton.mpr rfl)
          exact Function.update_of_ne (Ne.symm htarget) _ _
      | ret => contradiction
      | _ => cases hstep; rfl
  | _ => rfl

theorem Loaded.move (hmove : Move L spec body t m l m' l') :
    Loaded m'.data l' := by
  cases hmove with
  | enter => cases body <;> trivial
  | @func _ _ _ _ _ _ _ _ _ _ pc _ hstep =>
      cases pc with
      | sum right i sum =>
          cases hstep
          split <;> trivial
      | load sum =>
          cases hstep
          rfl
      | ret => contradiction
      | _ => cases hstep; trivial
  | _ => trivial

/-- A step adds its update to the array. -/
theorem Loaded.data_move (h : Loaded m.data l)
    (hmove : Move L spec body t m l m' l') (cell : ℕ) :
    m'.data cell = m.data cell +
      ((updates l l').map fun job =>
        if job.query.target.toNat = cell then job.query.delta else 0).sum := by
  cases hmove with
  | @func _ _ _ _ i _ _ _ _ query pc _ hstep =>
      cases pc with
      | store sum value =>
          cases hstep
          obtain rfl : value = m.data query.target.toNat := h
          by_cases hcell : query.target.toNat = cell
          · simp [updates, PhaseLoc.update, hcell]
          · simp [updates, PhaseLoc.update, hcell, Function.update_of_ne (Ne.symm hcell)]
      | ret => contradiction
      | _ => cases hstep; simp [updates, PhaseLoc.update]
  | _ => simp [updates, PhaseLoc.update]

/-- What is not stored to stays as it was loaded. -/
theorem Loaded.frame {data data' : ℕ → ℤ} (h : Loaded data l)
    (hsame : ∀ job ∈ l.update, data' job.query.target.toNat = data job.query.target.toNat) :
    Loaded data' l := by
  obtain ⟨l, worker⟩ := l
  cases worker with
  | none => trivial
  | some w =>
      obtain ⟨k, i, last, rng, stats, pc⟩ := w
      cases pc with
      | func query pc =>
          cases pc with
          | store sum value =>
              have htarget := hsame ⟨i, query⟩ (List.mem_singleton.mpr rfl)
              exact h.trans htarget.symm
          | _ => trivial
      | _ => trivial

/-- Worker `k` of `threadCount` is in its slice, and has counted the queries before `i`. -/
structure Counted (spec : QueryStreamSpec) (threadCount k : ℕ) (w : Worker) : Prop where
  endIndex : w.endIndex = sliceBegin spec.count threadCount (k + 1)
  begin_le : sliceBegin spec.count threadCount k ≤ w.i
  le_end : w.i ≤ w.endIndex
  lt_end : w.pc ≠ .loop → w.i < w.endIndex
  queries : w.stats.queries = UInt64.ofNat (w.i - sliceBegin spec.count threadCount k)

theorem queries_of_funcStep {query : Query} {data data' : ℕ → ℤ} {stats stats' : WorkerStats}
    {pc pc' : FuncPc} (h : funcStep query data stats pc = some (data', stats', pc')) :
    stats'.queries = stats.queries := by
  cases pc with
  | ret => contradiction
  | _ => cases h; rfl

theorem Counted.move {threadCount k : ℕ}
    (h : ∀ w, l.worker = some w → Counted spec threadCount k w)
    (hmove : Move L spec body t m l m' l') : ∀ w, l'.worker = some w → Counted spec threadCount k w := by
  intro w hw
  cases hmove with
  | serve => contradiction
  | call hlt =>
      cases hw
      have hbefore := h _ rfl
      exact ⟨hbefore.endIndex, hbefore.begin_le, hbefore.le_end, fun _ => hlt, hbefore.queries⟩
  | wait => exact h w hw
  | returns =>
      cases hw
      have hbefore := h _ rfl
      have hlt := hbefore.lt_end nofun
      have hbegin := hbefore.begin_le
      refine ⟨hbefore.endIndex, hbegin.trans (Nat.le_succ _), hlt, fun hne => absurd rfl hne, ?_⟩
      have hqueries := hbefore.queries
      dsimp only at hbegin hqueries ⊢
      rw [Nat.succ_sub hbegin, hqueries, Nat.succ_eq_add_one, UInt64.ofNat_add]
      rfl
  | enter =>
      cases hw
      have hbefore := h _ rfl
      have hlt := hbefore.lt_end nofun
      exact ⟨hbefore.endIndex, hbefore.begin_le, hbefore.le_end, fun _ => hlt, hbefore.queries⟩
  | func hstep =>
      cases hw
      have hbefore := h _ rfl
      have hlt := hbefore.lt_end nofun
      exact ⟨hbefore.endIndex, hbefore.begin_le, hbefore.le_end, fun _ => hlt,
        (queries_of_funcStep hstep).trans hbefore.queries⟩
  | leave =>
      cases hw
      have hbefore := h _ rfl
      have hlt := hbefore.lt_end nofun
      exact ⟨hbefore.endIndex, hbefore.begin_le, hbefore.le_end, fun _ => hlt, hbefore.queries⟩

end Moves

section Sound

variable [DecidableEq Tid] {L : PhaseLock Tid Act Mem Loc} {asks : Loc → Option (ℕ × ℕ)}
  (hsound : L.Sound asks) {spec : QueryStreamSpec} {t : Tid} {m m' : PhaseMem Mem}
  {l l' : PhaseLoc Loc}

include hsound

theorem Placed.move {body : QueryBody} (hwindows : spec.WindowsInArray) (h : Placed L asks l)
    (hmove : Move L spec body t m l m' l') : Placed L asks l' := by
  cases hmove with
  | serve => trivial
  | @call _ _ _ _ k i last rng rng' stats query hlt hquery hadvance =>
      have harray : InArray query := sat_makeStreamQuery hwindows k i rng query rng' hquery
      have hasks := hsound.call h hadvance
      rw [clampRange_of_inArray harray] at hasks
      exact ⟨harray, .inr hasks⟩
  | wait hfunc hidle hadvance =>
      obtain ⟨harray, hnone | hsome⟩ := h
      · exact ⟨harray, .inl (hsound.rest hadvance hidle hnone)⟩
      · exact ⟨harray, .inr (hsound.keep hadvance hfunc hsome)⟩
  | returns hidle => exact hidle
  | enter hfunc =>
      obtain ⟨harray, hasks⟩ := h
      have hrange := hsound.func hfunc
      rcases hasks with hnone | hsome
      · rw [hnone] at hrange
        contradiction
      · rw [hsome] at hrange
        exact ⟨harray, hfunc.trans hrange.symm⟩
  | func => exact h
  | leave hadvance => exact ⟨h.1, .inl (hsound.leave hadvance h.2)⟩

/-- A step does the first of what its worker owes. -/
theorem owed_of_move (h : Placed L asks l)
    (hmove : Move L spec .kRealWork t m l m' l') :
    l.owed spec asks = (l'.owed spec asks).map (updates l l' ++ ·) := by
  cases hmove with
  | serve => rfl
  | @call _ _ _ _ k i last rng rng' stats query hlt hquery hadvance =>
      have hasks := hsound.call h hadvance
      have hroom : last - i = last - (i + 1) + 1 := by omega
      simp [PhaseLoc.owed, updates, PhaseLoc.update, hasks, hroom, jobsFrom, hquery,
        Function.comp_def]
  | wait hfunc hidle hadvance =>
      obtain ⟨-, hnone | hsome⟩ := h
      · have hnone' := hsound.rest hadvance hidle hnone
        simp [PhaseLoc.owed, updates, PhaseLoc.update, hnone, hnone']
      · have hsome' := hsound.keep hadvance hfunc hsome
        simp [PhaseLoc.owed, updates, PhaseLoc.update, hsome, hsome', Function.comp_def]
  | returns hidle =>
      have hnone := hsound.idle hidle
      simp [PhaseLoc.owed, updates, PhaseLoc.update, hnone]
  | enter hfunc =>
      have hsome := hsound.func hfunc
      simp [PhaseLoc.owed, updates, PhaseLoc.update, hsome, funcBegin, FuncPc.owes,
        Function.comp_def]
  | @func _ _ _ _ _ _ _ _ _ _ pc _ hstep =>
      cases pc with
      | sum right i sum =>
          cases hstep
          split <;>
            simp [PhaseLoc.owed, updates, PhaseLoc.update, FuncPc.owes, Function.comp_def]
      | ret => contradiction
      | _ =>
          cases hstep
          simp [PhaseLoc.owed, updates, PhaseLoc.update, FuncPc.owes, Function.comp_def]
  | leave hadvance =>
      have hnone := hsound.leave hadvance h.2
      simp [PhaseLoc.owed, updates, PhaseLoc.update, hnone, FuncPc.owes]

end Sound

/-! ## in every reachable state -/

/-- The state of the lock. -/
def lockState (s : State Tid (PhaseMem Mem) (PhaseLoc Loc)) : State Tid Mem Loc :=
  ⟨s.mem.lock, fun t => (s.loc t).lock⟩

/-- The workers, one for each index below their number. -/
structure Workers (Tid : Type) where
  threads : List Tid
  nodup : threads.Nodup
  nonempty : 0 < threads.length

/-- A state of the lock in which the phase may start: the workers are between two calls. -/
structure Ready (L : PhaseLock Tid Act Mem Loc) [DecidableEq Tid] (threads : List Tid)
    (s₀ : State Tid Mem Loc) : Prop where
  reachable : L.program.Reachable s₀
  idle : ∀ t ∈ threads, L.isIdle (s₀.loc t) = true

section Runs

variable [DecidableEq Tid] {L : PhaseLock Tid Act Mem Loc} {asks : Loc → Option (ℕ × ℕ)}
  {spec : QueryStreamSpec} {body : QueryBody} {threads : List Tid} {s₀ : State Tid Mem Loc}
  {data : ℕ → ℤ} {s : State Tid (PhaseMem Mem) (PhaseLoc Loc)} {t u : Tid}

/-- The lock of a phase is a lock that goes on from where it was. -/
theorem lockState_reachable (hs₀ : L.program.Reachable s₀)
    (hs : (runPhase L spec body threads s₀ data).Reachable s) :
    L.program.Reachable (lockState s) := by
  refine Program.Reachable.of_resume (hs.project PhaseMem.lock PhaseLoc.lock rfl (fun _ => rfl) ?_) hs₀
  intro t a m l m' l' h
  cases move_of_advance h with
  | serve hadvance => exact Or.inr ⟨_, hadvance⟩
  | call _ _ hadvance => exact Or.inr ⟨_, hadvance⟩
  | wait _ _ hadvance => exact Or.inr ⟨_, hadvance⟩
  | leave hadvance => exact Or.inr ⟨_, hadvance⟩
  | _ => exact Or.inl ⟨rfl, rfl⟩

/-- A thread that is not among the workers never is one. -/
theorem worker_of_reachable (hs : (runPhase L spec body threads s₀ data).Reachable s)
    (ht : t ∉ threads) : (s.loc t).worker = none := by
  refine hs.localInvariant (Q := fun t _ l => t ∉ threads → l.worker = none) ?_ ?_ ?_ t ht
  · intro t ht
    simp [runPhase, if_neg ht]
  · intro s t a m' l' _ h hadvance ht
    have hnone := h ht
    generalize s.loc t = l at hnone hadvance
    cases move_of_advance hadvance with
    | serve => rfl
    | _ => contradiction
  · intro s t u a m' l' _ _ h _
    exact h

/-- What a worker has counted; no product of the slices wraps. -/
theorem counted_of_reachable {workers : Workers Tid}
    (hfits : spec.count * workers.threads.length < 2 ^ 64)
    (hs : (runPhase L spec body workers.threads s₀ data).Reachable s) (t : Tid) :
    ∀ w, (s.loc t).worker = some w →
      Counted spec workers.threads.length (workers.threads.idxOf t) w := by
  refine hs.localInvariant (Q := fun t _ (l : PhaseLoc Loc) => ∀ w, l.worker = some w →
    Counted spec workers.threads.length (workers.threads.idxOf t) w) ?_
    (fun _ _ _ _ _ _ h hadvance => Counted.move h (move_of_advance hadvance))
    (fun _ _ _ _ _ _ _ _ h _ => h) t
  intro t w hw
  by_cases ht : t ∈ workers.threads
  · simp only [runPhase, if_pos ht, Option.some.injEq] at hw
    subst hw
    have hle := sliceBegin_le_succ hfits (List.idxOf_lt_length_of_mem ht)
    exact ⟨rfl, le_rfl, hle, fun hne => absurd rfl hne, by simp [startWorker]⟩
  · simp [runPhase, if_neg ht] at hw

/-- **The number of queries**: where `RunPhase` returns, the workers have counted the stream. -/
theorem queries_of_returned {workers : Workers Tid}
    (hfits : spec.count * workers.threads.length < 2 ^ 64)
    (hs : (runPhase L spec body workers.threads s₀ data).Reachable s)
    (hreturned : Returned workers.threads s) :
    (phaseRunStats workers.threads s).queries = UInt64.ofNat spec.count := by
  have hslice : ∀ k (hk : k < workers.threads.length),
      (s.loc workers.threads[k]).stats.queries =
        UInt64.ofNat (sliceBegin spec.count workers.threads.length (k + 1) -
          sliceBegin spec.count workers.threads.length k) := by
    intro k hk
    have hjoined := hreturned _ (List.getElem_mem hk)
    have hcounted := counted_of_reachable hfits hs workers.threads[k]
    rw [workers.nodup.idxOf_getElem k hk] at hcounted
    obtain ⟨w, hworker, -, hlast⟩ := PhaseLoc.eq_of_joined hjoined
    obtain ⟨hend, -, hle, -, hqueries⟩ := hcounted w hworker
    have hstats : (s.loc workers.threads[k]).stats = w.stats := by
      rw [PhaseLoc.stats, hworker]
      rfl
    rw [hstats, hqueries, le_antisymm hle hlast, hend]
  have hfirst : ∀ k ≤ workers.threads.length,
      ((workers.threads.take k).map fun t => (s.loc t).stats.queries).sum =
        UInt64.ofNat (sliceBegin spec.count workers.threads.length k) := by
    intro k hk
    induction k with
    | zero => simp [sliceBegin]
    | succ k ih =>
        obtain ⟨size, hsize⟩ := Nat.exists_eq_add_of_le (sliceBegin_le_succ hfits hk)
        have hlast := hslice k hk
        rw [hsize, Nat.add_sub_cancel_left] at hlast
        rw [List.take_succ_eq_append_getElem hk, List.map_append, List.sum_append, ih (by omega),
          hsize, UInt64.ofNat_add, ← hlast]
        simp
  have hall := hfirst _ le_rfl
  rwa [List.take_length, sliceBegin_threadCount hfits workers.nonempty] at hall

section Sound

variable (hsound : L.Sound asks) (hwindows : spec.WindowsInArray) (hready : Ready L threads s₀)

include hsound hwindows hready

theorem placed_of_reachable (hs : (runPhase L spec body threads s₀ data).Reachable s) (t : Tid) :
    Placed L asks (s.loc t) := by
  refine hs.localInvariant (Q := fun _ _ l => Placed L asks l) ?_
    (fun _ _ _ _ _ _ h hadvance => h.move hsound hwindows (move_of_advance hadvance))
    (fun _ _ _ _ _ _ _ _ h _ => h) t
  intro t
  by_cases ht : t ∈ threads
  · simp only [Placed, runPhase, if_pos ht, startWorker]
    exact hready.idle t ht
  · simp [Placed, runPhase, if_neg ht]

/-- Where `RunPhase` returns, the lock is as the next phase may find it. -/
theorem ready_of_returned (hs : (runPhase L spec body threads s₀ data).Reachable s)
    (hreturned : Returned threads s) : Ready L threads (lockState s) where
  reachable := lockState_reachable hready.reachable hs
  idle t ht := by
    have hplaced := placed_of_reachable hsound hwindows hready hs t
    have hjoined := hreturned t ht
    obtain ⟨w, hworker, hpc, -⟩ := PhaseLoc.eq_of_joined hjoined
    rw [Placed, hworker] at hplaced
    dsimp only at hplaced
    rwa [hpc] at hplaced

/-- Updates that are made at the same time go to different cells. -/
theorem target_ne (hs : (runPhase L spec body threads s₀ data).Reachable s) (hne : t ≠ u)
    {job job' : Job} (ht : job ∈ (s.loc t).update) (hu : job' ∈ (s.loc u).update) :
    job.query.target.toNat ≠ job'.query.target.toNat := by
  obtain ⟨⟨hlo, hhi, -⟩, hfunc⟩ := (placed_of_reachable hsound hwindows hready hs t).of_update ht
  obtain ⟨⟨hlo', hhi', -⟩, hfunc'⟩ := (placed_of_reachable hsound hwindows hready hs u).of_update hu
  have hlock := lockState_reachable hready.reachable hs
  have hdisjoint := hsound.exclusive hlock hne hfunc hfunc'
  dsimp only at hdisjoint
  omega

/-- Nobody stores to the target of a worker between its load and its store. -/
theorem loaded_of_reachable (hs : (runPhase L spec body threads s₀ data).Reachable s) (t : Tid) :
    Loaded s.mem.data (s.loc t) := by
  refine hs.localInvariant (Q := fun _ m l => Loaded m.data l) ?_
    (fun _ _ _ _ _ _ _ hadvance => Loaded.move (move_of_advance hadvance)) ?_ t
  · intro t
    by_cases ht : t ∈ threads
    · simp [Loaded, runPhase, if_pos ht, startWorker]
    · simp [Loaded, runPhase, if_neg ht]
  · intro s t u a m' l' hreach hut h hadvance
    refine h.frame fun job hjob => (move_of_advance hadvance).data_of_ne fun job' hjob' => ?_
    exact target_ne hsound hwindows hready hreach hut hjob' hjob

end Sound

end Runs

/-! ## no update is lost -/

/-- What `RunPhase` does to `data` in a run: an update is made in the range of its query, under the
mutexes of all positions of the range, and a step changes no other cell; and where `RunPhase`
returns, the updates of the stream have been made, each once, and nothing else. -/
structure NoLostUpdate [DecidableEq Tid] {L : PhaseLock Tid Act Mem Loc} {spec : QueryStreamSpec}
    {threads : List Tid} {s₀ : State Tid Mem Loc} {data : ℕ → ℤ}
    (r : Program.Run (runPhase L spec .kRealWork threads s₀ data)) : Prop where
  within : ∀ n < r.length, ∀ job ∈ ((r.states n).loc (r.who n)).update,
    L.inFunc ((r.states n).loc (r.who n)).lock =
        some (job.query.left.toNat, job.query.right.toNat) ∧
      job.query.left.toNat ≤ job.query.target.toNat ∧
      job.query.target.toNat ≤ job.query.right.toNat ∧
      ∀ pos, job.query.left.toNat ≤ pos → pos ≤ job.query.right.toNat →
        L.holder (r.states n).mem.lock pos = some (r.who n)
  only : ∀ n < r.length, ∀ cell,
    (∀ job ∈ ((r.states n).loc (r.who n)).update, job.query.target.toNat ≠ cell) →
      (r.states (n + 1)).mem.data cell = (r.states n).mem.data cell
  returned : ∀ n ≤ r.length, Returned threads (r.states n) →
    ∃ jobs, streamJobs spec threads.length = some jobs ∧
      jobs.map Job.index = List.range spec.count ∧
      (r.trace updates n).Perm jobs ∧
      ∀ cell, (r.states n).mem.data cell = data cell +
        ((jobs.filter fun job => job.query.target.toNat = cell).map fun job =>
          job.query.delta).sum

/-- Only the jobs of a cell count for it. -/
theorem sum_filter_target (jobs : List Job) (cell : ℕ) :
    (jobs.map fun job => if job.query.target.toNat = cell then job.query.delta else 0).sum =
      ((jobs.filter fun job => job.query.target.toNat = cell).map fun job =>
        job.query.delta).sum := by
  induction jobs with
  | nil => rfl
  | cons job jobs ih =>
      by_cases hcell : job.query.target.toNat = cell
      · simp [hcell, ih]
      · simp [hcell, ih]

section Runs

variable [DecidableEq Tid] {L : PhaseLock Tid Act Mem Loc} {asks : Loc → Option (ℕ × ℕ)}
  {spec : QueryStreamSpec} {s₀ : State Tid Mem Loc} {data : ℕ → ℤ}

/-- A worker at the end of its slice owes nothing. -/
theorem owed_of_joined {l : PhaseLoc Loc} (h : l.joined = true) : l.owed spec asks = some [] := by
  obtain ⟨w, hworker, hpc, hlast⟩ := PhaseLoc.eq_of_joined h
  simp [PhaseLoc.owed, hworker, hpc, Nat.sub_eq_zero_of_le hlast, jobsFrom]

variable {workers : Workers Tid} (hsound : L.Sound asks) (hwindows : spec.WindowsInArray)
  (hready : Ready L workers.threads s₀)
  (r : Program.Run (runPhase L spec .kRealWork workers.threads s₀ data)) {n : ℕ}
  (hn : n ≤ r.length)

include hsound hwindows hready hn

/-- Where a worker has come to the end of its slice it has made the updates of the slice. -/
theorem log_of_joined {k : ℕ} (hk : k < workers.threads.length)
    (hjoined : ((r.states n).loc workers.threads[k]).joined = true) :
    workerJobs spec workers.threads.length k =
      some (r.log updates workers.threads[k] 0 n) := by
  have hlog := r.log_owed updates (fun l => l.owed spec asks)
    (fun _ t _ _ _ hreach hadvance =>
      owed_of_move hsound (placed_of_reachable hsound hwindows hready hreach t)
        (move_of_advance hadvance)) workers.threads[k] hn
  rw [owed_of_joined hjoined] at hlog
  have hstart : (runPhase L spec .kRealWork workers.threads s₀ data).start workers.threads[k] =
      ⟨s₀.loc workers.threads[k], some (startWorker spec workers.threads.length k)⟩ := by
    simp only [runPhase, if_pos (List.getElem_mem hk), workers.nodup.idxOf_getElem k hk]
  rw [hstart] at hlog
  simpa [PhaseLoc.owed, startWorker, workerJobs] using hlog

/-- The logs of the first workers are the first slices. -/
theorem jobsBelow_of_returned (hreturned : Returned workers.threads (r.states n)) {k : ℕ}
    (hk : k ≤ workers.threads.length) :
    jobsBelow spec workers.threads.length k =
      some ((workers.threads.take k).flatMap fun t => r.log updates t 0 n) := by
  induction k with
  | zero => rfl
  | succ k ih =>
      have hlog := log_of_joined hsound hwindows hready r hn hk
        (hreturned _ (List.getElem_mem hk))
      rw [jobsBelow, ih (by omega), hlog, List.take_succ_eq_append_getElem hk,
        List.flatMap_append]
      simp only [Option.bind_some, Option.map_some, List.flatMap_singleton]

omit hsound hwindows hready in
/-- What the workers do is all that is done. -/
theorem trace_perm :
    (r.trace updates n).Perm (workers.threads.flatMap fun t => r.log updates t 0 n) := by
  refine r.trace_perm workers.nodup (fun n hn hwho => ?_) hn
  have hnone := worker_of_reachable (r.reachable hn.le) hwho
  rw [updates, PhaseLoc.update, hnone]

/-- What the cells hold is what they held, and the updates. -/
theorem data_eq (cell : ℕ) : (r.states n).mem.data cell = data cell +
    ((r.trace updates n).map fun job =>
      if job.query.target.toNat = cell then job.query.delta else 0).sum :=
  r.sum_trace updates (fun m => m.data cell)
    (fun _ t _ _ _ hreach hadvance =>
      (loaded_of_reachable hsound hwindows hready hreach t).data_move (move_of_advance hadvance)
        cell) hn

omit hn in
/-- **No update is lost or made twice** over a sound lock, if no product of the slices wraps. -/
theorem noLostUpdate_of_sound (hfits : spec.count * workers.threads.length < 2 ^ 64) :
    NoLostUpdate r where
  within n hn job hjob := by
    have hreach := r.reachable hn.le
    obtain ⟨⟨hlo, hhi, -⟩, hfunc⟩ :=
      (placed_of_reachable hsound hwindows hready hreach (r.who n)).of_update hjob
    refine ⟨hfunc, hlo, hhi, fun pos hleft hright => ?_⟩
    exact hsound.holds (lockState_reachable hready.reachable hreach) hfunc hleft hright
  only n hn cell hne := by
    obtain ⟨⟨a, ha⟩, -⟩ := (r.step n hn).elim
    exact (move_of_advance ha).data_of_ne hne
  returned n hn hreturned := by
    have hjobs := jobsBelow_of_returned hsound hwindows hready r hn hreturned le_rfl
    rw [List.take_length] at hjobs
    have hperm := trace_perm r hn
    refine ⟨_, hjobs, index_of_streamJobs workers.nonempty hfits hjobs, hperm, ?_⟩
    intro cell
    rw [data_eq hsound hwindows hready r hn cell, ← sum_filter_target]
    congr 1
    exact (hperm.map _).sum_eq

end Runs

end Benchmark
end DynLocks
