import DynLocks.Lib.Exceptions
import DynLocks.Genetic.Training

/-!
# DynLocks.Genetic.Failure

Exceptions in `TrainOnBatch`.  The mutexes are tied to guards, `pause_queries_`
and the parity of `partition_epoch_` are not: an exception raised while the batch
is observed leaves everything as it was, one raised by a `lock()` of the
publication leaves queries paused or the epoch odd (`usable_iff_of_failure`).
-/

namespace DynLocks
namespace GeneticLock

open Interleaving

variable {Client G : Type} (cfg : Config)

/-! ## where exceptions are raised -/

/-- The range mutexes below `n`, in the order in which `UnlockAll` gives them back. -/
def rangesBelow (n : ℕ) : List Mutex := ((List.range n).map .range).reverse

/-- Give a mutex back. -/
def Mem.release (m : Mem Client G) : Mutex → Mem Client G
  | .range i => m.unlock i
  | .pending => { m with pendingMutex := none }
  | .training => { m with trainingMutex := none }
  | .cuts => { m with cutsMutex := none }

/-- Every `lock()` of `TrainOnBatch` may throw, and so may the copy of the cut vector and
`partitioner_.ObserveBatch`, which may leave any partitioner and generator behind.  The guard of
`training_mutex_` stands around all of it. -/
def TrainPc.throws (d : GeneticPartitioner.State × G) (m : Mem Client G) :
    TrainPc → Option (Mem Client G × List Mutex)
  | .copyLock => some (m, [.training])
  | .copyRead => some (m, [.cuts, .training])
  | .observe _ => some ({ m with partitioner := d.1, generator := d.2 }, [.training])
  | .lockAll _ next => some (m, rangesBelow next ++ [.training])
  | .publish concurrent _ .lockCuts =>
      some (m, rangesBelow (if concurrent then cfg.kLockCnt else 0) ++ [.training])
  | _ => none

/-- The exceptions of `ObserveBatch`. -/
def exceptions : Exceptions (Mem Client G) Loc (GeneticPartitioner.State × G) Mutex where
  throws d m
    | .observe _ => some (m, [])
    | .train .observeBatch _ pc => pc.throws cfg d m
    | _ => none
  unlock x m := m.release x

/-- Inside the call of `TrainOnBatch` that `ObserveBatch` makes. -/
def Loc.InObserveBatch (batch : List Query) : Loc → Prop
  | .train caller batch' _ => caller = .observeBatch ∧ batch' = batch
  | _ => False

/-- The batch is being observed: nothing has been written that queries look at. -/
def TrainPc.Observing : TrainPc → Prop
  | .copyLock => True
  | .copyRead => True
  | .copyUnlock _ => True
  | .observe _ => True
  | _ => False

/-- The lock is as usable after a failed training of thread `t` as it was before. -/
structure Usable (t : Tid Client) (before after : Mem Client G) : Prop where
  mutexes : ∀ x, after.owner x ≠ some t
  pause : after.pauseQueries = false
  epoch : after.partitionEpoch % 2 = 0
  table : after.blockToLock = before.blockToLock
  cuts : after.currentCuts = before.currentCuts

/-! ## the guards -/

theorem mem_rangesBelow {n : ℕ} {x : Mutex} : x ∈ rangesBelow n ↔ ∃ i < n, x = .range i := by
  simp [rangesBelow, eq_comm]

theorem nodup_rangesBelow (n : ℕ) : (rangesBelow n).Nodup :=
  List.nodup_reverse.mpr (List.nodup_range.map fun _ _ h => Mutex.range.inj h)

theorem nodup_rangesBelow_training (n : ℕ) : (rangesBelow n ++ [Mutex.training]).Nodup := by
  rw [List.nodup_append]
  refine ⟨nodup_rangesBelow n, List.nodup_singleton _, fun x hx y hy => ?_⟩
  obtain ⟨i, -, rfl⟩ := mem_rangesBelow.mp hx
  rw [List.mem_singleton.mp hy]
  exact Mutex.noConfusion

/-- The memory an exception leaves differs in the partitioner at most. -/
theorem TrainPc.throws_mem {d : GeneticPartitioner.State × G} {m m' : Mem Client G} {pc : TrainPc}
    {held : List Mutex} (h : pc.throws cfg d m = some (m', held)) :
    ∃ partitioner generator, m' = { m with partitioner, generator } := by
  cases pc with
  | observe previousCuts => cases h; exact ⟨_, _, rfl⟩
  | publish concurrent nextCuts pc =>
      cases pc with
      | lockCuts => cases h; exact ⟨_, _, rfl⟩
      | _ => contradiction
  | copyLock => cases h; exact ⟨_, _, rfl⟩
  | copyRead => cases h; exact ⟨_, _, rfl⟩
  | lockAll nextCuts next => cases h; exact ⟨_, _, rfl⟩
  | _ => contradiction

/-- The guards an exception passes are those of the mutexes the thread holds. -/
theorem TrainPc.throws_held {d : GeneticPartitioner.State × G} {m m' : Mem Client G} {pc : TrainPc}
    {held : List Mutex} (h : pc.throws cfg d m = some (m', held)) (caller : Caller)
    (batch : List Query) :
    held.Nodup ∧ ∀ x, x ∈ held ↔ (Loc.train caller batch pc).Holds cfg x := by
  cases pc with
  | copyLock =>
      cases h
      refine ⟨List.nodup_singleton _, fun x => ?_⟩
      cases x <;> simp [Loc.Holds, Loc.HoldsRange, TrainPc.HoldsRange, Loc.HoldsPending,
        Loc.HoldsTraining, Loc.HoldsCuts, TrainPc.HoldsCuts]
  | copyRead =>
      cases h
      refine ⟨by simp, fun x => ?_⟩
      cases x <;> simp [Loc.Holds, Loc.HoldsRange, TrainPc.HoldsRange, Loc.HoldsPending,
        Loc.HoldsTraining, Loc.HoldsCuts, TrainPc.HoldsCuts]
  | observe previousCuts =>
      cases h
      refine ⟨List.nodup_singleton _, fun x => ?_⟩
      cases x <;> simp [Loc.Holds, Loc.HoldsRange, TrainPc.HoldsRange, Loc.HoldsPending,
        Loc.HoldsTraining, Loc.HoldsCuts, TrainPc.HoldsCuts]
  | lockAll nextCuts next =>
      cases h
      refine ⟨nodup_rangesBelow_training next, fun x => ?_⟩
      cases x <;> simp [Loc.Holds, Loc.HoldsRange, TrainPc.HoldsRange, Loc.HoldsPending,
        Loc.HoldsTraining, Loc.HoldsCuts, TrainPc.HoldsCuts, mem_rangesBelow]
  | publish concurrent nextCuts pc =>
      cases pc with
      | lockCuts =>
          cases h
          refine ⟨nodup_rangesBelow_training _, fun x => ?_⟩
          cases x <;> cases concurrent <;> simp [Loc.Holds, Loc.HoldsRange, TrainPc.HoldsRange,
            Loc.HoldsPending, Loc.HoldsTraining, Loc.HoldsCuts, TrainPc.HoldsCuts,
            PublishPc.HoldsCuts, mem_rangesBelow]
      | _ => contradiction
  | _ => contradiction

theorem owner_release (m : Mem Client G) (x : Mutex) :
    (m.release x).owner = Function.update m.owner x none := by
  funext y
  cases x with
  | range i =>
      cases y with
      | range j => simp [Mem.release, Mem.unlock, Mem.owner, Function.update_apply]
      | _ => rfl
  | _ => cases y <;> rfl

/-- The members that queries look at. -/
def Mem.shared (m : Mem Client G) : List ℕ × (ℕ → ℕ) × ℕ × Bool :=
  (m.currentCuts, m.blockToLock, m.partitionEpoch, m.pauseQueries)

theorem shared_release (m : Mem Client G) (x : Mutex) : (m.release x).shared = m.shared := by
  cases x <;> rfl

/-- The guard of `training_mutex_` is the outermost one. -/
theorem TrainPc.throws_training {d : GeneticPartitioner.State × G} {m m' : Mem Client G}
    {pc : TrainPc} {held : List Mutex} (h : pc.throws cfg d m = some (m', held)) :
    held.getLast? = some .training := by
  cases pc with
  | publish concurrent nextCuts pc =>
      cases pc with
      | lockCuts => cases h; exact List.getLast?_concat
      | _ => contradiction
  | lockAll nextCuts next => cases h; exact List.getLast?_concat
  | copyLock => cases h; rfl
  | copyRead => cases h; rfl
  | observe previousCuts => cases h; rfl
  | _ => contradiction

theorem throws_exceptions {d : GeneticPartitioner.State × G} {m m' : Mem Client G} {l : Loc}
    {held : List Mutex} (h : (exceptions cfg).throws d m l = some (m', held)) :
    (∃ batch, l = .observe batch ∧ m' = m ∧ held = []) ∨
      ∃ batch pc, l = .train .observeBatch batch pc ∧ pc.throws cfg d m = some (m', held) := by
  cases l with
  | observe batch => cases h; exact Or.inl ⟨batch, rfl, rfl, rfl⟩
  | train caller batch pc =>
      cases caller with
      | observeBatch => exact Or.inr ⟨batch, pc, rfl, h⟩
      | trainingLoop => contradiction
  | _ => contradiction

/-! ## before the publication -/

/-- `publish_partition` has not yet assigned the new cuts. -/
def TrainPc.Early : TrainPc → Prop
  | .copyLock => True
  | .copyRead => True
  | .copyUnlock _ => True
  | .observe _ => True
  | .enabledLoad _ => True
  | .pauseStore _ => True
  | .lockAll _ _ => True
  | .publish _ _ .epochOpen => True
  | .publish _ _ .lockCuts => True
  | _ => False

variable {cfg} {std : GeneticPartitioner.StdLib G} {seed : G}

/-- Until then the table and the cuts are not written. -/
theorem CoreMove.partition_eq {caller : Caller} {batch : List Query} {pc : TrainPc} {c c' : Core G}
    (h : CoreMove cfg std (.train caller batch pc) c c') (hpc : pc.Early) :
    c'.currentCuts = c.currentCuts ∧ c'.blockToLock = c.blockToLock := by
  cases h with
  | assign => exact hpc.elim
  | refresh => exact hpc.elim
  | _ => exact ⟨rfl, rfl⟩

section Steps

variable [DecidableEq Client] {t : Tid Client}

/-- What comes before a point of the call that is before the assignment is so too. -/
theorem TrainPc.early_of_step {a : Act} {m m' : Mem Client G} {batch : List Query}
    {pc pc' : TrainPc} (h : trainStep cfg std t a m batch pc = some (m', some pc'))
    (hpc : pc'.Early) : pc.Early := by
  cases pc with
  | publish concurrent nextCuts pc =>
      simp only [trainStep, Option.map_eq_some_iff, Prod.mk.injEq, Option.some.injEq] at h
      obtain ⟨⟨m'', r⟩, hstep, -, rfl⟩ := h
      cases pc with
      | epochOpen => trivial
      | lockCuts => trivial
      | assign => cases hstep; exact hpc.elim
      | refresh block lockIndex =>
          cases hstep
          dsimp only [afterPublish] at hpc
          split at hpc <;> exact hpc.elim
      | unlockCuts => cases hstep; exact hpc.elim
      | epochClose =>
          cases hstep
          cases concurrent <;> exact hpc.elim
  | keepDurationLoad => cases h; exact hpc.elim
  | keepDurationCas current =>
      cases a with
      | elapsed delta spurious =>
          simp only [trainStep, scheduleProbe] at h
          split at h
          · split at h <;> (cases h; exact hpc.elim)
          · cases h; exact hpc.elim
      | _ => contradiction
  | probeLoad => cases h; exact hpc.elim
  | probeStore current => cases h; exact hpc.elim
  | unlockAll count =>
      simp only [trainStep, Option.some.injEq, Prod.mk.injEq] at h
      obtain ⟨-, hnext⟩ := h
      split at hnext <;> (cases hnext; exact hpc.elim)
  | clearPause => cases h; exact hpc.elim
  | durationLoad => cases h; exact hpc.elim
  | durationCas current =>
      cases a with
      | elapsed delta spurious =>
          simp only [trainStep] at h
          split at h <;> (cases h; exact hpc.elim)
      | _ => contradiction
  | countTraining => cases h; exact hpc.elim
  | unlockTraining => simp [trainStep] at h
  | _ => trivial

/-- Up to the assignment a training leaves the table and the cuts as it found them, and nobody else
writes to them. -/
theorem partition_eq_of_early (r : Program.Run (machine cfg std seed Client)) {caller : Caller}
    {batch : List Query} {a n : ℕ} (han : a ≤ n) (hn : n ≤ r.length)
    (hin : ∀ i, a ≤ i → i ≤ n → ∃ pc, (r.states i).loc t = .train caller batch pc)
    {pc : TrainPc} (hloc : (r.states n).loc t = .train caller batch pc) (hpc : pc.Early) :
    (r.states n).mem.currentCuts = (r.states a).mem.currentCuts ∧
      (r.states n).mem.blockToLock = (r.states a).mem.blockToLock := by
  induction n, han using Nat.le_induction generalizing pc with
  | base => exact ⟨rfl, rfl⟩
  | succ n han ih =>
      have hreach := r.reachable (n := n) (by omega)
      obtain ⟨pc₀, hloc₀⟩ := hin n han (Nat.le_succ n)
      obtain ⟨⟨act, ha⟩, hframe⟩ := (r.step n hn).elim
      have hpair : pc₀.Early ∧
          (r.states (n + 1)).mem.currentCuts = (r.states n).mem.currentCuts ∧
          (r.states (n + 1)).mem.blockToLock = (r.states n).mem.blockToLock := by
        by_cases hu : r.who n = t
        · rw [hu, hloc₀] at ha
          have hmove : CoreMove cfg std (.train caller batch pc₀) (r.states n).mem.core
              (r.states (n + 1)).mem.core := core_move (t := t) (a := act) cfg ha
          rw [hloc] at ha
          obtain ⟨⟨m', next⟩, hstep, hnext⟩ := Option.map_eq_some_iff.mp ha
          have hearly : pc₀.Early := by
            cases next with
            | none => cases caller <;> cases hnext
            | some pc' =>
                cases hnext
                exact TrainPc.early_of_step hstep hpc
          exact ⟨hearly, hmove.partition_eq hearly⟩
        · have hother : ¬((r.states n).loc (r.who n)).HoldsTraining := fun hholds =>
            hu ((owned_of_reachable hreach .training).unique hholds (by rw [hloc₀]; trivial))
          have hcore := core_advance cfg hother ha
          rw [hframe t fun h => hu h.symm, hloc₀] at hloc
          cases hloc
          exact ⟨hpc, congrArg Core.currentCuts hcore, congrArg Core.blockToLock hcore⟩
      obtain ⟨hearly, hcuts, htable⟩ := hpair
      obtain ⟨hcuts', htable'⟩ := ih (by omega) (fun i hi hin' => hin i hi (by omega)) hloc₀ hearly
      exact ⟨hcuts.trans hcuts', htable.trans htable'⟩

/-! ## after the exception -/

/-- An exception gives back the mutexes of its thread. -/
theorem guarded : (exceptions cfg).Guarded (machine cfg std seed Client) Mem.owner
    (fun l => l.Holds cfg) (Loc.Bounded cfg) where
  free x := by cases x <;> rfl
  start _ := ⟨trivial, fun x => by cases x <;> exact id⟩
  keep := advance_bounded cfg
  move := advance_owner cfg
  throws h := by
    rcases throws_exceptions cfg h with ⟨batch, rfl, rfl, rfl⟩ | ⟨batch, pc, rfl, hpc⟩
    · refine ⟨rfl, List.nodup_nil, fun x => ?_⟩
      cases x <;> simp [Loc.Holds, Loc.HoldsRange, Loc.HoldsPending, Loc.HoldsTraining,
        Loc.HoldsCuts]
    · obtain ⟨partitioner, generator, rfl⟩ := TrainPc.throws_mem cfg hpc
      refine ⟨?_, TrainPc.throws_held cfg hpc .observeBatch batch⟩
      funext x
      cases x <;> rfl
  unlock x m := owner_release m x

variable {r : Program.Run ((exceptions cfg).program (machine cfg std seed Client))} {a n b : ℕ}
  {inCall : Loc → Prop} {l : Loc}

/-- The thread is left without a mutex. -/
theorem owner_ne_of_failure (h : r.Failure t a n b inCall l) (x : Mutex) :
    (r.states b).mem.owner x ≠ some t := by
  intro howner
  have hholds : ((r.states b).loc t).Holds (fun l => l.Holds cfg) x :=
    (guarded.owned (r.reachable h.length) x t).mp howner
  rw [h.thrown] at hholds
  exact hholds

/-- Only the holder of `training_mutex_` writes to what queries look at. -/
theorem shared_eq_of_step {s s' : State (Tid Client) (Mem Client G) (ExcLoc Loc Mutex)}
    {u : Tid Client}
    (hstep : ((exceptions cfg).program (machine cfg std seed Client)).StepBy u s s')
    (hnot : ¬(s.loc u).Holds (fun l => l.Holds cfg) .training) :
    s'.mem.shared = s.mem.shared := by
  obtain ⟨⟨act, ha⟩, -⟩ := hstep.elim
  have hmove := Exceptions.move_of_advance ha
  generalize s.loc u = l at hmove hnot
  generalize s'.loc u = l' at hmove
  generalize s.mem = m at hmove ⊢
  generalize s'.mem = m' at hmove ⊢
  cases hmove with
  | act hadvance =>
      have hcore := core_advance cfg hnot hadvance
      exact congrArg (fun c : Core G =>
        (c.currentCuts, c.blockToLock, c.partitionEpoch, c.pauseQueries)) hcore
  | raise hthrows =>
      rcases throws_exceptions cfg hthrows with ⟨batch, rfl, rfl, rfl⟩ | ⟨batch, pc, rfl, -⟩
      · rfl
      · exact absurd trivial hnot
  | @unlock m x => exact shared_release m x

/-- An exception in `ObserveBatch` leaves what queries look at as it was when it was raised. -/
theorem shared_eq_of_failure (h : r.Failure t a n b inCall l) :
    (r.states b).mem.shared = (r.states n).mem.shared := by
  have hlength := h.length
  refine h.frame Mem.shared ?_ (fun x m => shared_release m x) ?_
  · intro d m held hthrows
    rcases throws_exceptions cfg hthrows with ⟨batch, -, rfl, -⟩ | ⟨batch, pc, -, hpc⟩
    · rfl
    · obtain ⟨partitioner, generator, rfl⟩ := TrainPc.throws_mem cfg hpc
      rfl
  · intro i u hi hib hu hstep
    have hreach := r.reachable (n := i) (by omega)
    obtain ⟨held, hheld⟩ := h.unwinding i hi hib
    have hmem : Mutex.training ∈ held := by
      refine Exceptions.mem_of_unwind (fun hthrows => ?_) hreach hheld
      rcases throws_exceptions cfg hthrows with ⟨batch, -, -, rfl⟩ | ⟨batch, pc, -, hpc⟩
      · exact Or.inl rfl
      · exact Or.inr (TrainPc.throws_training cfg hpc)
    refine shared_eq_of_step hstep fun hholds => hu ?_
    exact (guarded.owned hreach .training).unique hholds (by rw [hheld]; exact hmem)

/-- Exactly the exceptions of the observation leave the lock usable. -/
theorem usable_iff_of_failure {batch : List Query} {pc : TrainPc}
    (hentered : (r.states a).loc t = .run (.train .observeBatch batch .copyLock))
    (h : r.Failure t a n b (Loc.InObserveBatch batch) (.train .observeBatch batch pc)) :
    Usable t (r.states a).mem (r.states b).mem ↔ pc.Observing := by
  have hlength := h.length
  have hraised := h.raised
  have hentry := h.entered
  -- up to the exception this is a run of the lock
  obtain ⟨r', hlen, hsame⟩ := r.before_exceptions (n := n) (by omega) h.first
  have hmem : ∀ i ≤ n, (r'.states i).mem = (r.states i).mem := fun i hi => by
    rw [(hsame i hi).2]
    rfl
  have hloc : ∀ i ≤ n, ∀ l, (r.states i).loc t = .run l → (r'.states i).loc t = l :=
    fun i hi l hl => by
      rw [(hsame i hi).1.loc_eq (P := machine cfg std seed Client) t, ← (hsame i hi).2] at hl
      exact ExcLoc.run.inj hl
  have hin : ∀ i, a ≤ i → i ≤ n → ∃ pc, (r'.states i).loc t = .train .observeBatch batch pc := by
    intro i hai hi
    obtain ⟨l, hl, hcall⟩ := h.calling i hai hi
    rw [hloc i hi l hl]
    cases l with
    | train caller batch' pc =>
        obtain ⟨rfl, rfl⟩ := hcall
        exact ⟨pc, rfl⟩
    | _ => exact hcall.elim
  have hpoint := hloc n le_rfl _ h.point
  have hat := (inStep_of_reachable (r'.reachable (n := n) (by omega))).training t
  rw [hpoint, hmem n le_rfl] at hat
  obtain ⟨d, held, hthrows, -⟩ := h.throws
  have hthrows : pc.throws cfg d (r.states n).mem = some ((r.states (n + 1)).mem, held) := hthrows
  have hshared := shared_eq_of_failure h
  simp only [Mem.shared, Prod.mk.injEq] at hshared
  obtain ⟨hcuts, htable, hepoch, hpause⟩ := hshared
  have hearly : pc.Early := by
    cases pc with
    | publish concurrent nextCuts pc =>
        cases pc with
        | lockCuts => trivial
        | _ => contradiction
    | copyLock => trivial
    | copyRead => trivial
    | observe => trivial
    | lockAll => trivial
    | _ => contradiction
  obtain ⟨hcuts', htable'⟩ := partition_eq_of_early r' hentry (by omega) hin hpoint hearly
  rw [hmem n le_rfl, hmem a hentry] at hcuts' htable'
  have hsettled : Settled cfg (r.states n).mem.core →
      Usable t (r.states a).mem (r.states b).mem := fun hsettled =>
    { mutexes := owner_ne_of_failure h
      pause := hpause.trans hsettled.pause
      epoch := by
        have := hsettled.epoch
        rw [hepoch]
        change (r.states n).mem.partitionEpoch = 2 * _ at this
        omega
      table := htable.trans htable'
      cuts := hcuts.trans hcuts' }
  cases pc with
  | copyLock => exact ⟨fun _ => trivial, fun _ => hsettled hat⟩
  | copyRead => exact ⟨fun _ => trivial, fun _ => hsettled hat⟩
  | observe previousCuts => exact ⟨fun _ => trivial, fun _ => hsettled hat.1⟩
  | lockAll nextCuts next =>
      refine ⟨fun husable => ?_, fun hpc => hpc.elim⟩
      have hpaused : (r.states n).mem.pauseQueries = true := hat.pause
      rw [← hpause, husable.pause] at hpaused
      contradiction
  | publish concurrent nextCuts pc =>
      refine ⟨fun husable => ?_, fun hpc => hpc.elim⟩
      cases pc with
      | lockCuts =>
          have hodd : (r.states n).mem.partitionEpoch = 2 * _ + 1 := hat.epoch
          have heven := husable.epoch
          omega
      | _ => contradiction
  | _ => contradiction

/-- An exception of `training_mutex_.lock()` changes nothing. -/
theorem mem_eq_of_failure_observe {batch : List Query}
    (h : r.Failure t a n b inCall (.observe batch)) : (r.states b).mem = (r.states n).mem := by
  obtain ⟨d, held, hthrows, hleave⟩ := h.throws
  rcases throws_exceptions cfg hthrows with ⟨-, -, hmem, rfl⟩ | ⟨batch', pc, hloc, -⟩
  · rw [h.eq_succ hleave, hmem]
  · cases hloc

end Steps

end GeneticLock
end DynLocks
