import DynLocks.Dynamic.Failure
import DynLocks.Genetic.Failure

/-!
# DynLocks.Failure

A reconfiguration that fails with an exception: what it leaves of the lock
(`usable_iff_observing`).
-/

namespace DynLocks

open Interleaving

/-- **Failed reconfigurations**: the first exception of a run leaves a `GeneticLock` as usable as it
was before `TrainOnBatch` exactly if it was raised while the batch was observed, before the first
write that queries look at; one of `training_mutex_.lock()` changes nothing at all.  A
`DynamicLock` is never usable after an exception of `RebuildPartitions`. -/
theorem usable_iff_observing (cfg : GeneticLock.Config) {G : Type} (std : GeneticPartitioner.StdLib G)
    (seed : G) (cfg' : DynamicLock.Config) {Client : Type} [DecidableEq Client] (t : Tid Client)
    (a n b : ℕ) :
    (∀ (r : Program.Run ((GeneticLock.exceptions cfg).program
          (GeneticLock.machine cfg std seed Client)))
        (batch : List Query),
      (∀ pc, (r.states a).loc t = .run (.train .observeBatch batch .copyLock) →
        r.Failure t a n b (GeneticLock.Loc.InObserveBatch batch) (.train .observeBatch batch pc) →
        (GeneticLock.Usable t (r.states a).mem (r.states b).mem ↔ pc.Observing)) ∧
      (r.Failure t n n b (· = .observe batch) (.observe batch) →
        (r.states b).mem = (r.states n).mem ∧ ∀ x, (r.states b).mem.owner x ≠ some t)) ∧
    (∀ (r : Program.Run ((DynamicLock.exceptions cfg').program (DynamicLock.machine cfg' Client)))
        (l : DynamicLock.Loc),
      (r.states a).loc t = .run (.rebuild .rebuildNow .zero .exchange) →
        r.Failure t a n b DynamicLock.Loc.InRebuildNow l →
        ¬DynamicLock.Usable t (r.states a).mem (r.states b).mem) := by
  constructor
  · intro r batch
    exact ⟨fun pc hentered h => GeneticLock.usable_iff_of_failure hentered h,
      fun h => ⟨GeneticLock.mem_eq_of_failure_observe h, GeneticLock.owner_ne_of_failure h⟩⟩
  · intro r l _ h husable
    have hflag := DynamicLock.rebuildFlag_of_thrown (r.reachable h.length) h.thrown
    rw [husable.flag] at hflag
    contradiction

/-! ## runs that fail -/

/-- Let the threads act as in the schedule, without an exception. -/
def quietly {Client Act D : Type} (schedule : List (Tid Client × Act)) :
    List (Tid Client × ExcAct Act D) :=
  schedule.map fun move => (move.1, .act move.2)

/-- The small lock with its exceptions. -/
abbrev throwingLock :=
  (GeneticLock.exceptions GeneticLock.smallLock).program
    (GeneticLock.machine GeneticLock.smallLock GeneticPartitioner.lowestDraws () Unit)

/-- A client observes a batch; after `steps` steps of the call an exception is raised, which passes
the guard of `training_mutex_`. -/
def failingTraining (steps : ℕ) :
    List (Tid Unit × ExcAct GeneticLock.Act (GeneticPartitioner.State × Unit)) :=
  quietly ((.client (), .call (.observeBatch GeneticLock.rightBatch)) ::
    List.replicate steps (.client (), .step)) ++
    [(.client (), .raise (GeneticLock.smallLock.initState, ())), (.client (), .unlock)]

theorem isSome_exec_failingTraining :
    (throwingLock.exec (failingTraining 1) throwingLock.initial).isSome ∧
      (throwingLock.exec (failingTraining 7) throwingLock.initial).isSome := by
  decide +kernel

/-- The first `lock()` of `TrainOnBatch` throws. -/
def earlyRun : Program.Run throwingLock :=
  .ofSchedule _ (failingTraining 1) .background isSome_exec_failingTraining.1

/-- The `lock()` of `publish_partition` throws. -/
def lateRun : Program.Run throwingLock :=
  .ofSchedule _ (failingTraining 7) .background isSome_exec_failingTraining.2

/-- Is this a training of the batch that a client has observed? -/
def GeneticLock.Loc.observes (batch : List Query) : GeneticLock.Loc → Bool
  | .train .observeBatch batch' _ => batch' = batch
  | _ => false

/-- The test finds the training of the batch. -/
theorem GeneticLock.Loc.of_observes {batch : List Query} {l : GeneticLock.Loc}
    (h : l.observes batch = true) : ∃ pc, l = .train .observeBatch batch pc := by
  cases l with
  | train caller batch' pc =>
      cases caller with
      | observeBatch =>
          obtain rfl : batch' = batch := of_decide_eq_true h
          exact ⟨pc, rfl⟩
      | trainingLoop => contradiction
  | _ => contradiction

/-- Is this the start of such a training? -/
def GeneticLock.Loc.enters (batch : List Query) : GeneticLock.Loc → Bool
  | .train .observeBatch batch' .copyLock => batch' = batch
  | _ => false

/-- The test finds its first step. -/
theorem GeneticLock.Loc.of_enters {batch : List Query} {l : GeneticLock.Loc}
    (h : l.enters batch = true) : l = .train .observeBatch batch .copyLock := by
  cases l with
  | train caller batch' pc =>
      cases caller with
      | observeBatch =>
          cases pc with
          | copyLock =>
              obtain rfl : batch' = batch := of_decide_eq_true h
              rfl
          | _ => contradiction
      | trainingLoop => contradiction
  | _ => contradiction

/-- The run enters `TrainOnBatch` in state 2 and raises its exception in state `n`. -/
def Fails (r : Program.Run throwingLock) (n : ℕ) : Prop :=
  2 ≤ n ∧ n + 2 ≤ r.length ∧
    ((r.states 2).loc (.client ())).runs (GeneticLock.Loc.enters GeneticLock.rightBatch) ∧
    (∀ i ≤ n, 2 ≤ i →
      ((r.states i).loc (.client ())).runs (GeneticLock.Loc.observes GeneticLock.rightBatch)) ∧
    ((r.states n).loc .background).runs (fun _ => true) ∧
    ((r.states (n + 1)).loc (.client ())).unwinds ∧ ((r.states (n + 2)).loc (.client ())).isThrown

instance (r : Program.Run throwingLock) (n : ℕ) : Decidable (Fails r n) :=
  inferInstanceAs (Decidable (_ ∧ _))

/-- The exception is raised at the first lock of the training. -/
theorem fails_earlyRun : Fails earlyRun 2 := by
  decide +kernel

/-- The exception is raised in the publication. -/
theorem fails_lateRun : Fails lateRun 8 := by
  decide +kernel

/-- The tests of a run say that the exception of a training leaves it. -/
theorem Fails.failure {r : Program.Run throwingLock} {n : ℕ} (h : Fails r n) :
    (r.states 2).loc (.client ()) =
        .run (.train .observeBatch GeneticLock.rightBatch .copyLock) ∧
      ∃ pc, r.Failure (.client ()) 2 n (n + 2) (GeneticLock.Loc.InObserveBatch GeneticLock.rightBatch)
        (.train .observeBatch GeneticLock.rightBatch pc) := by
  obtain ⟨hle, hlength, henters, hcalling, hbackground, hunwinds, hthrown⟩ := h
  constructor
  · obtain ⟨l, hl, hpass⟩ := ExcLoc.of_runs henters
    rw [hl, GeneticLock.Loc.of_enters hpass]
  · have hcall : ∀ l, GeneticLock.Loc.observes GeneticLock.rightBatch l = true →
        GeneticLock.Loc.InObserveBatch GeneticLock.rightBatch l := fun l hl => by
      obtain ⟨pc, rfl⟩ := GeneticLock.Loc.of_observes hl
      exact ⟨rfl, rfl⟩
    have hfirst : ∀ u, ((r.states n).loc u).runs (fun _ => true) = true := fun u => by
      cases u with
      | client c =>
          obtain ⟨l, hl, -⟩ := ExcLoc.of_runs (hcalling n le_rfl hle)
          rw [show c = () from rfl, hl]
          rfl
      | background => exact hbackground
    obtain ⟨l, hpass, hfailure⟩ := Program.Run.Failure.of_tests hcall hle (by omega) hlength
      hcalling hfirst (fun i hi hni => by rwa [show i = n + 1 by omega]) hthrown
    obtain ⟨pc, rfl⟩ := GeneticLock.Loc.of_observes hpass
    exact ⟨pc, hfailure⟩

/-- A lock with three blocks and its exceptions. -/
abbrev throwingBlocks :=
  (DynamicLock.exceptions DynamicLock.threeBlocks).program
    (DynamicLock.machine DynamicLock.threeBlocks Unit)

/-- A client asks for a rebuild of hit blocks, and the tables cannot be allocated. -/
def failingRebuild : List (Tid Unit × ExcAct DynamicLock.Act Unit) :=
  quietly (DynamicLock.rebuildSchedule.take 44) ++ [(.client (), .raise ())]

theorem isSome_exec_failingRebuild :
    (throwingBlocks.exec failingRebuild throwingBlocks.initial).isSome := by
  decide

def rebuildRun : Program.Run throwingBlocks :=
  .ofSchedule _ failingRebuild .background isSome_exec_failingRebuild

/-- Is this a rebuild that a client has asked for? -/
def DynamicLock.Loc.rebuildsNow : DynamicLock.Loc → Bool
  | .rebuild .rebuildNow _ _ => true
  | _ => false

/-- The client is in its rebuild until the exception. -/
theorem rebuildsNow_rebuildRun :
    (∀ i ≤ 44, 37 ≤ i →
      ((rebuildRun.states i).loc (.client ())).runs DynamicLock.Loc.rebuildsNow) ∧
    ((rebuildRun.states 44).loc .background).runs (fun _ => true) ∧
    ((rebuildRun.states 45).loc (.client ())).isThrown := by
  decide

/-- The exception of the rebuild leaves `RebuildNow`. -/
theorem failure_rebuildRun :
    ∃ l, rebuildRun.Failure (.client ()) 37 44 45 DynamicLock.Loc.InRebuildNow l := by
  obtain ⟨hcalling, hbackground, hthrown⟩ := rebuildsNow_rebuildRun
  have hcall : ∀ l, DynamicLock.Loc.rebuildsNow l = true → DynamicLock.Loc.InRebuildNow l := by
    intro l hl
    cases l with
    | rebuild caller snapshot pc =>
        cases caller with
        | rebuildNow => trivial
        | rebuilder => contradiction
    | _ => contradiction
  have hfirst : ∀ u, ((rebuildRun.states 44).loc u).runs (fun _ => true) = true := fun u => by
    cases u with
    | client c =>
        obtain ⟨l, hl, -⟩ := ExcLoc.of_runs (hcalling 44 le_rfl (by decide))
        rw [show c = () from rfl, hl]
        rfl
    | background => exact hbackground
  obtain ⟨l, -, hfailure⟩ := Program.Run.Failure.of_tests hcall (by decide) (by decide) (by decide)
    hcalling hfirst (fun i hi hni => absurd hni (by omega)) hthrown
  exact ⟨l, hfailure⟩

/-- After an exception of the first `lock()` of the training the lock is usable, after a failed
allocation of the rebuild the other lock is not. -/
theorem usable_iff_observing_small_locks :
    GeneticLock.Usable (.client ()) (earlyRun.states 2).mem (earlyRun.states 4).mem ∧
      ¬DynamicLock.Usable (.client ()) (rebuildRun.states 37).mem (rebuildRun.states 45).mem := by
  obtain ⟨hentered, pc, hfailure⟩ := fails_earlyRun.failure
  obtain ⟨l, hrebuild⟩ := failure_rebuildRun
  have hloc : (GeneticLock.Loc.train .observeBatch GeneticLock.rightBatch pc) =
      .train .observeBatch GeneticLock.rightBatch .copyLock :=
    ExcLoc.run.inj (hfailure.point.symm.trans hentered)
  cases hloc
  obtain ⟨hgenetic, -⟩ := usable_iff_observing GeneticLock.smallLock GeneticPartitioner.lowestDraws ()
    DynamicLock.threeBlocks (.client ()) 2 2 4
  obtain ⟨-, hdynamic⟩ := usable_iff_observing GeneticLock.smallLock GeneticPartitioner.lowestDraws ()
    DynamicLock.threeBlocks (.client ()) 37 44 45
  exact ⟨((hgenetic earlyRun _).1 _ hentered hfailure).mpr trivial,
    hdynamic rebuildRun _ rfl hrebuild⟩

/-- The epoch has been left odd. -/
theorem epoch_lateRun : (lateRun.states 10).mem.partitionEpoch = 1 := by
  decide +kernel

/-- After an exception of the `lock()` of `publish_partition` the epoch is odd for good. -/
theorem not_usable_lateRun :
    ¬ ∀ (r : Program.Run throwingLock) (t : Tid Unit) (a n b : ℕ) (batch : List Query)
        (pc : GeneticLock.TrainPc),
      (r.states a).loc t = .run (.train .observeBatch batch .copyLock) →
      r.Failure t a n b (GeneticLock.Loc.InObserveBatch batch) (.train .observeBatch batch pc) →
      GeneticLock.Usable t (r.states a).mem (r.states b).mem := by
  intro h
  obtain ⟨hentered, pc, hfailure⟩ := fails_lateRun.failure
  have heven := (h _ _ _ _ _ _ _ hentered hfailure).epoch
  rw [epoch_lateRun] at heven
  contradiction

end DynLocks
