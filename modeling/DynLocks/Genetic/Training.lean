import DynLocks.Genetic.Mutexes
import DynLocks.Genetic.Progress

/-!
# DynLocks.Genetic.Training

The copies of the partition during a training.  `partitioner_`, the cut vector,
the block table, the epoch, `pause_queries_` and the number of trainings are
written by `TrainOnBatch` only, which runs under `training_mutex_`.  `TrainPc.At` says how
far apart they are at each of its program counters, `Settled` that they agree
while the mutex is free (`inStep_of_reachable`).
-/

namespace DynLocks
namespace GeneticLock

open Interleaving

variable {Client G : Type} (cfg : Config)

/-! ## the copies -/

/-- The members that only a training writes to. -/
structure Core (G : Type) where
  partitioner : GeneticPartitioner.State
  generator : G
  currentCuts : List ℕ
  blockToLock : ℕ → ℕ
  partitionEpoch : ℕ
  pauseQueries : Bool
  trainingCount : ℕ

def Mem.core (m : Mem Client G) : Core G :=
  ⟨m.partitioner, m.generator, m.currentCuts, m.blockToLock, m.partitionEpoch, m.pauseQueries,
    m.trainingCount⟩

/-- Every cell of the table is the one `RefreshBlockToLock` stores for the cut vector. -/
def Core.Refreshed (c : Core G) : Prop :=
  ∀ b < cfg.kBlocks, c.blockToLock b = lockOfBlock cfg.kLockCnt c.currentCuts b

/-- All copies of the partition agree. -/
structure Settled (c : Core G) : Prop where
  epoch : c.partitionEpoch = 2 * c.trainingCount
  cuts : c.currentCuts = c.partitioner.current.cuts
  table : c.Refreshed cfg
  pause : c.pauseQueries = false

/-- Before the publication the old partition is in use; `paused` says whether queries are. -/
structure Unpublished (c : Core G) (paused : Bool) (nextCuts : List ℕ) : Prop where
  epoch : c.partitionEpoch = 2 * c.trainingCount
  pause : c.pauseQueries = paused
  next : nextCuts = c.partitioner.current.cuts
  table : c.Refreshed cfg

/-- After the publication only the number of trainings lags behind. -/
structure Published (c : Core G) : Prop where
  epoch : c.partitionEpoch = 2 * (c.trainingCount + 1)
  cuts : c.currentCuts = c.partitioner.current.cuts
  table : c.Refreshed cfg

/-- The epoch is odd while the partition is rewritten. -/
structure Rewriting (c : Core G) (nextCuts : List ℕ) : Prop where
  epoch : c.partitionEpoch = 2 * c.trainingCount + 1
  next : nextCuts = c.partitioner.current.cuts

/-- How far `publish_partition` has come. -/
def PublishPc.At (c : Core G) (concurrent : Bool) (nextCuts : List ℕ) : PublishPc → Prop
  | .epochOpen => Unpublished cfg c concurrent nextCuts
  | .lockCuts => Rewriting c nextCuts
  | .assign => Rewriting c nextCuts
  | .refresh block lockIndex => Rewriting c nextCuts ∧ c.currentCuts = nextCuts ∧
      block < cfg.kBlocks ∧ lockIndex = lockBefore cfg.kLockCnt c.currentCuts block ∧
      ∀ b < block, c.blockToLock b = lockOfBlock cfg.kLockCnt c.currentCuts b
  | .unlockCuts => Rewriting c nextCuts ∧ c.currentCuts = nextCuts ∧ c.Refreshed cfg
  | .epochClose => Rewriting c nextCuts ∧ c.currentCuts = nextCuts ∧ c.Refreshed cfg

/-- How far `TrainOnBatch` has come. -/
def TrainPc.At (c : Core G) : TrainPc → Prop
  | .copyUnlock previousCuts => Settled cfg c ∧ previousCuts = c.currentCuts
  | .observe previousCuts => Settled cfg c ∧ previousCuts = c.currentCuts
  | .enabledLoad nextCuts => Unpublished cfg c false nextCuts
  | .pauseStore nextCuts => Unpublished cfg c false nextCuts
  | .lockAll nextCuts _ => Unpublished cfg c true nextCuts
  | .publish concurrent nextCuts pc => pc.At cfg c concurrent nextCuts
  | .unlockAll _ => Published cfg c
  | .clearPause => Published cfg c
  | .durationLoad => Published cfg c ∧ c.pauseQueries = false
  | .durationCas _ => Published cfg c ∧ c.pauseQueries = false
  | .countTraining => Published cfg c ∧ c.pauseQueries = false
  | _ => Settled cfg c

/-- Outside of a training the copies agree. -/
def Loc.At (c : Core G) : Loc → Prop
  | .train _ _ pc => pc.At cfg c
  | _ => True

/-! ## what a step does to the copies -/

/-- Under its range locks a query writes to none of the copies. -/
theorem core_insideStep {a : Act} {m m' : Mem Client G} {pc : InsidePc} {r : Option InsidePc}
    (h : insideStep a m pc = some (m', r)) : m'.core = m.core := by
  cases pc with
  | durationCas current =>
      cases a with
      | elapsed delta spurious =>
          simp only [insideStep] at h
          split at h
          · cases h; rfl
          · cases h; rfl
      | _ => contradiction
  | _ => cases h; rfl

section Steps

variable [DecidableEq Client] {std : GeneticPartitioner.StdLib G} {t : Tid Client} {a : Act}
  {m m' : Mem Client G}

/-- Nor does it anywhere else. -/
theorem core_queryStep {left right : ℕ} {pc : QueryPc} {r : Option QueryPc}
    (h : queryStep cfg t a m left right pc = some (m', r)) : m'.core = m.core := by
  cases pc with
  | acquire epoch firstLock lastLock index =>
      simp only [queryStep] at h
      split at h
      · cases h; rfl
      · contradiction
  | inside firstLock lastLock pc =>
      simp only [queryStep, Option.map_eq_some_iff, Prod.mk.injEq] at h
      obtain ⟨⟨m'', r'⟩, hstep, rfl, -⟩ := h
      exact core_insideStep hstep
  | _ => cases h; rfl

/-- A sample is put aside without a look at them. -/
theorem core_sampleStep {query : Query} {pc : SamplePc} {r : Option SamplePc}
    (h : sampleStep cfg t m query pc = some (m', r)) : m'.core = m.core := by
  cases pc with
  | probeLoad operations =>
      simp only [sampleStep] at h
      split at h
      · cases h; rfl
      · cases h; rfl
  | lockPending =>
      simp only [sampleStep] at h
      split at h
      · cases h; rfl
      · contradiction
  | _ => cases h; rfl

/-- A call, or the start of the background thread. -/
theorem core_idle {l' : Loc} (h : advance cfg std t a m .idle = some (m', l')) :
    m'.core = m.core := by
  cases t with
  | client c =>
      cases a with
      | call call =>
          cases call with
          | writeQuery left right =>
              simp only [advance, enter] at h
              split at h <;>
              · cases h
                rfl
          | countLocksForRange left right =>
              simp only [advance, enter] at h
              split at h <;>
              · cases h
                rfl
          | _ => cases h; rfl
      | _ => contradiction
  | background =>
      cases a with
      | step =>
          simp only [advance] at h
          split at h
          · cases h; rfl
          · contradiction
      | _ => contradiction

omit [DecidableEq Client] in
theorem core_flushStep {pc : FlushPc} {l' : Loc} (h : flushStep t m pc = some (m', l')) :
    m'.core = m.core := by
  cases pc with
  | lockPending =>
      simp only [flushStep] at h
      split at h
      · cases h; rfl
      · contradiction
  | _ => cases h; rfl

omit [DecidableEq Client] in
theorem core_trainerStep {pc : TrainerPc} {l' : Loc}
    (h : trainerStep cfg t a m pc = some (m', l')) : m'.core = m.core := by
  cases pc with
  | lockPending =>
      simp only [trainerStep] at h
      split at h
      · cases h; rfl
      · contradiction
  | lockTraining batch =>
      simp only [trainerStep] at h
      split at h
      · cases h; rfl
      · contradiction
  | sleep =>
      cases a with
      | wake => cases h; rfl
      | _ =>
          simp only [trainerStep] at h
          split at h
          · contradiction
          · cases h; rfl
  | _ => cases h; rfl

omit [DecidableEq Client] in
theorem core_startStep {pc : StartPc} {l' : Loc} (h : startStep cfg m pc = some (m', l')) :
    m'.core = m.core := by
  cases pc with
  | create =>
      simp only [startStep] at h
      split at h
      · cases h; rfl
      · contradiction
  | _ => cases h; rfl

omit [DecidableEq Client] in
theorem core_stopStep {pc : StopPc} {l' : Loc} (h : stopStep t m pc = some (m', l')) :
    m'.core = m.core := by
  cases pc with
  | join =>
      simp only [stopStep] at h
      split at h
      · cases h; rfl
      · split at h
        · cases h; rfl
        · contradiction
  | lockPending =>
      simp only [stopStep] at h
      split at h
      · cases h; rfl
      · contradiction
  | _ => cases h; rfl

/-- Only a training writes to the copies. -/
theorem core_advance {l l' : Loc} (hl : ¬l.HoldsTraining)
    (h : advance cfg std t a m l = some (m', l')) : m'.core = m.core := by
  cases l with
  | train => exact absurd trivial hl
  | idle => exact core_idle cfg h
  | query left right pc =>
      simp only [advance, Option.map_eq_some_iff, Prod.mk.injEq] at h
      obtain ⟨⟨m'', r⟩, hstep, rfl, -⟩ := h
      exact core_queryStep cfg hstep
  | sample query pc =>
      simp only [advance, Option.map_eq_some_iff, Prod.mk.injEq] at h
      obtain ⟨⟨m'', r⟩, hstep, rfl, -⟩ := h
      exact core_sampleStep cfg hstep
  | observe batch =>
      simp only [advance] at h
      split at h
      · cases h; rfl
      · contradiction
  | flush pc => exact core_flushStep h
  | trainer pc => exact core_trainerStep cfg h
  | start pc => exact core_startStep cfg h
  | stop pc => exact core_stopStep h
  | count left right pc => cases pc <;> (cases h; rfl)
  | cutsLock =>
      simp only [advance] at h
      split at h
      · cases h; rfl
      · contradiction
  | _ => cases h; rfl

/-- What one step does to the copies. -/
inductive CoreMove (std : GeneticPartitioner.StdLib G) : Loc → Core G → Core G → Prop
  | keep {l : Loc} {c : Core G} : CoreMove std l c c
  | observe {caller : Caller} {batch : List Query} {previousCuts : List ℕ} {c : Core G}
      {partitioner : GeneticPartitioner.State} {generator : G} :
      cfg.observeBatch std c.partitioner batch c.generator = some (partitioner, generator) →
      CoreMove std (.train caller batch (.observe previousCuts)) c { c with partitioner, generator }
  | epochOpen {caller : Caller} {batch : List Query} {concurrent : Bool} {nextCuts : List ℕ}
      {c : Core G} : CoreMove std (.train caller batch (.publish concurrent nextCuts .epochOpen)) c
        { c with partitionEpoch := c.partitionEpoch + 1 }
  | assign {caller : Caller} {batch : List Query} {concurrent : Bool} {nextCuts : List ℕ}
      {c : Core G} : CoreMove std (.train caller batch (.publish concurrent nextCuts .assign)) c
        { c with currentCuts := nextCuts }
  | refresh {caller : Caller} {batch : List Query} {concurrent : Bool} {nextCuts : List ℕ}
      {block lockIndex : ℕ} {c : Core G} :
      CoreMove std (.train caller batch (.publish concurrent nextCuts (.refresh block lockIndex))) c
        { c with
          blockToLock := Function.update c.blockToLock block <|
            advanceLock cfg.kLockCnt c.currentCuts block lockIndex }
  | epochClose {caller : Caller} {batch : List Query} {concurrent : Bool} {nextCuts : List ℕ}
      {c : Core G} : CoreMove std (.train caller batch (.publish concurrent nextCuts .epochClose)) c
        { c with partitionEpoch := c.partitionEpoch + 1 }
  | pauseStore {caller : Caller} {batch : List Query} {nextCuts : List ℕ} {c : Core G} :
      CoreMove std (.train caller batch (.pauseStore nextCuts)) c { c with pauseQueries := true }
  | clearPause {caller : Caller} {batch : List Query} {c : Core G} :
      CoreMove std (.train caller batch .clearPause) c { c with pauseQueries := false }
  | countTraining {caller : Caller} {batch : List Query} {c : Core G} :
      CoreMove std (.train caller batch .countTraining) c
        { c with trainingCount := c.trainingCount + 1 }

omit [DecidableEq Client] in
/-- A step of `publish_partition` is one of the moves of the copies. -/
theorem coreMove_publishStep {caller : Caller} {batch : List Query} {concurrent : Bool}
    {nextCuts : List ℕ} {pc : PublishPc} {r : Option PublishPc}
    (h : publishStep cfg t m nextCuts pc = some (m', r)) :
    CoreMove cfg std (.train caller batch (.publish concurrent nextCuts pc)) m.core m'.core := by
  cases pc with
  | epochOpen => cases h; exact .epochOpen
  | lockCuts =>
      simp only [publishStep] at h
      split at h
      · cases h; exact .keep
      · contradiction
  | assign => cases h; exact .assign
  | refresh block lockIndex => cases h; exact .refresh
  | unlockCuts => cases h; exact .keep
  | epochClose => cases h; exact .epochClose

/-- So is a step of a training. -/
theorem coreMove_trainStep {caller : Caller} {batch : List Query} {pc : TrainPc}
    {r : Option TrainPc} (h : trainStep cfg std t a m batch pc = some (m', r)) :
    CoreMove cfg std (.train caller batch pc) m.core m'.core := by
  cases pc with
  | copyLock =>
      simp only [trainStep] at h
      split at h
      · cases h; exact .keep
      · contradiction
  | observe previousCuts =>
      simp only [trainStep, Option.map_eq_some_iff, Prod.mk.injEq] at h
      obtain ⟨s, hobserve, rfl, -⟩ := h
      exact .observe hobserve
  | keepDurationCas current =>
      cases a with
      | elapsed delta spurious =>
          simp only [trainStep] at h
          split at h <;>
          · cases h
            exact .keep
      | _ => contradiction
  | lockAll nextCuts next =>
      simp only [trainStep] at h
      split at h
      · cases h; exact .keep
      · contradiction
  | publish concurrent nextCuts pc =>
      simp only [trainStep, Option.map_eq_some_iff, Prod.mk.injEq] at h
      obtain ⟨⟨m'', r'⟩, hpublish, rfl, -⟩ := h
      exact coreMove_publishStep cfg hpublish
  | durationCas current =>
      cases a with
      | elapsed delta spurious =>
          simp only [trainStep] at h
          split at h <;>
          · cases h
            exact .keep
      | _ => contradiction
  | pauseStore nextCuts => cases h; exact .pauseStore
  | clearPause => cases h; exact .clearPause
  | countTraining => cases h; exact .countTraining
  | _ => cases h; exact .keep

/-- Every step leaves the copies alone or is one of the writes of a training. -/
theorem core_move {l l' : Loc} (h : advance cfg std t a m l = some (m', l')) :
    CoreMove cfg std l m.core m'.core := by
  by_cases hl : l.HoldsTraining
  · cases l with
    | train caller batch pc =>
        simp only [advance, Option.map_eq_some_iff, Prod.mk.injEq] at h
        obtain ⟨⟨m'', r⟩, hstep, rfl, -⟩ := h
        exact coreMove_trainStep cfg hstep
    | _ => exact hl.elim
  · rw [core_advance cfg hl h]
    exact .keep

omit [DecidableEq Client] in
/-- A step of `publish_partition`. -/
theorem at_publishStep {caller : Caller} {batch : List Query} {concurrent : Bool}
    {nextCuts : List ℕ} {pc : PublishPc} {r : Option PublishPc}
    (hpc : pc.At cfg m.core concurrent nextCuts)
    (h : publishStep cfg t m nextCuts pc = some (m', r)) :
    (afterTrain caller batch (some (afterPublish cfg concurrent nextCuts r))).At cfg m'.core := by
  cases pc with
  | epochOpen =>
      cases h
      exact ⟨congrArg (· + 1) hpc.epoch, hpc.next⟩
  | lockCuts =>
      simp only [publishStep] at h
      split at h
      · cases h; exact hpc
      · contradiction
  | assign =>
      cases h
      exact ⟨⟨hpc.epoch, hpc.next⟩, rfl, cfg.kBlocks_pos, rfl, fun b hb =>
        absurd hb (Nat.not_lt_zero b)⟩
  | refresh block lockIndex =>
      obtain ⟨hrewriting, hcuts, hblock, hindex, htable⟩ := hpc
      cases h
      have hcells := table_refresh hindex htable
      split
      · next hlt =>
          refine ⟨⟨hrewriting.epoch, hrewriting.next⟩, hcuts, hlt, ?_, hcells⟩
          rw [hindex]
          exact (lockOfBlock_eq_advance _ _ _).symm
      · next hge =>
          exact ⟨⟨hrewriting.epoch, hrewriting.next⟩, hcuts, fun b hb => hcells b (by omega)⟩
  | unlockCuts => cases h; exact hpc
  | epochClose =>
      obtain ⟨hrewriting, hcuts, htable⟩ := hpc
      cases h
      have hpublished : Published cfg ({ m with partitionEpoch := m.partitionEpoch + 1 } :
          Mem Client G).core :=
        ⟨congrArg (· + 1) hrewriting.epoch, hcuts.trans hrewriting.next, htable⟩
      cases concurrent <;> exact hpublished

/-- A step of a training; its last one leaves the copies in agreement. -/
theorem at_trainStep {caller : Caller} {batch : List Query} {pc : TrainPc} {r : Option TrainPc}
    (hpc : pc.At cfg m.core) (h : trainStep cfg std t a m batch pc = some (m', r)) :
    (afterTrain caller batch r).At cfg m'.core ∧ (r = none → Settled cfg m'.core) := by
  cases pc with
  | copyLock =>
      simp only [trainStep] at h
      split at h
      · cases h; exact ⟨hpc, fun hr => by contradiction⟩
      · contradiction
  | copyRead => cases h; exact ⟨⟨hpc, rfl⟩, fun hr => by contradiction⟩
  | copyUnlock previousCuts => cases h; exact ⟨hpc, fun hr => by contradiction⟩
  | observe previousCuts =>
      obtain ⟨hsettled, hprevious⟩ := hpc
      simp only [trainStep, Option.map_eq_some_iff, Prod.mk.injEq] at h
      obtain ⟨s, -, rfl, rfl⟩ := h
      refine ⟨?_, fun hr => by contradiction⟩
      dsimp only [afterTrain]
      split
      · next hsame =>
          exact ⟨hsettled.epoch, (hsame.trans hprevious).symm, hsettled.table, hsettled.pause⟩
      · exact ⟨hsettled.epoch, hsettled.pause, rfl, hsettled.table⟩
  | keepDurationLoad => cases h; exact ⟨hpc, fun hr => by contradiction⟩
  | keepDurationCas current =>
      cases a with
      | elapsed delta spurious =>
          simp only [trainStep] at h
          split at h
          · cases h
            refine ⟨?_, fun hr => by contradiction⟩
            dsimp only [afterTrain, scheduleProbe]
            split <;> exact hpc
          · cases h
            exact ⟨hpc, fun hr => by contradiction⟩
      | _ => contradiction
  | probeLoad => cases h; exact ⟨hpc, fun hr => by contradiction⟩
  | probeStore current => cases h; exact ⟨hpc, fun hr => by contradiction⟩
  | enabledLoad nextCuts =>
      cases h
      refine ⟨?_, fun hr => by contradiction⟩
      dsimp only [afterTrain]
      split <;> exact hpc
  | pauseStore nextCuts =>
      cases h
      exact ⟨⟨hpc.epoch, rfl, hpc.next, hpc.table⟩, fun hr => by contradiction⟩
  | lockAll nextCuts next =>
      simp only [trainStep] at h
      split at h
      · cases h
        refine ⟨?_, fun hr => by contradiction⟩
        dsimp only [afterTrain]
        split <;> exact hpc
      · contradiction
  | publish concurrent nextCuts pc =>
      simp only [trainStep, Option.map_eq_some_iff, Prod.mk.injEq] at h
      obtain ⟨⟨m'', r'⟩, hstep, rfl, rfl⟩ := h
      exact ⟨at_publishStep cfg hpc hstep, fun hr => by contradiction⟩
  | unlockAll count =>
      cases h
      refine ⟨?_, fun hr => by contradiction⟩
      dsimp only [afterTrain]
      split <;> exact hpc
  | clearPause =>
      cases h
      exact ⟨⟨⟨hpc.epoch, hpc.cuts, hpc.table⟩, rfl⟩, fun hr => by contradiction⟩
  | durationLoad => cases h; exact ⟨hpc, fun hr => by contradiction⟩
  | durationCas current =>
      cases a with
      | elapsed delta spurious =>
          simp only [trainStep] at h
          split at h
          · cases h; exact ⟨hpc, fun hr => by contradiction⟩
          · cases h; exact ⟨hpc, fun hr => by contradiction⟩
      | _ => contradiction
  | countTraining =>
      cases h
      obtain ⟨hpublished, hpause⟩ := hpc
      exact ⟨⟨hpublished.epoch, hpublished.cuts, hpublished.table, hpause⟩,
        fun hr => by contradiction⟩
  | unlockTraining =>
      cases h
      refine ⟨?_, fun _ => hpc⟩
      cases caller <;> trivial

/-! ## in every reachable state -/

/-- The copies agree while `training_mutex_` is free, and are as far apart as the program counter
of its holder says. -/
structure InStep (s : State (Tid Client) (Mem Client G) Loc) : Prop where
  settled : s.mem.trainingMutex = none → Settled cfg s.mem.core
  training : ∀ t, (s.loc t).At cfg s.mem.core

/-- A training starts from copies that agree. -/
theorem Loc.Starting.at {l : Loc} (hl : l.Starting) {c : Core G} (hc : Settled cfg c) :
    l.At cfg c := by
  cases l with
  | train caller batch pc => rcases hl with rfl | rfl <;> exact hc
  | _ => trivial

/-- Outside of a training a thread knows nothing of the copies. -/
theorem Loc.at_of_not_holds {l : Loc} (hl : ¬l.HoldsTraining) (c : Core G) : l.At cfg c := by
  cases l with
  | train => exact absurd trivial hl
  | _ => trivial

variable {cfg} {seed : G} {s s' : State (Tid Client) (Mem Client G) Loc}

/-- In a new lock the copies agree. -/
theorem inStep_initial : InStep cfg (machine cfg std seed Client).initial where
  settled _ := ⟨rfl, rfl, fun _ hb => refreshTable_apply _ _ _ hb, rfl⟩
  training _ := trivial

/-- A step that is not one of a training takes the mutex with the copies in agreement, if at
all. -/
theorem InStep.step_other (h : InStep cfg s)
    (hmove : LockMove t s.mem.trainingMutex (s.loc t).HoldsTraining s'.mem.trainingMutex
      (s'.loc t).HoldsTraining)
    (ha : advance cfg std t a s.mem (s.loc t) = some (s'.mem, s'.loc t))
    (hframe : ∀ u, u ≠ t → s'.loc u = s.loc u) (hnot : ¬(s.loc t).HoldsTraining) :
    InStep cfg s' := by
  have hcore := core_advance cfg hnot ha
  refine ⟨fun hfree => ?_, fun u => ?_⟩
  · rw [hcore]
    refine h.settled ?_
    generalize s.mem.trainingMutex = own at hmove
    rw [hfree] at hmove
    cases hmove with
    | keep => rfl
    | give hheld => exact absurd hheld hnot
  · rw [hcore]
    by_cases hu : u = t
    · subst hu
      by_cases hholds : (s'.loc u).HoldsTraining
      · have hfree : s.mem.trainingMutex = none := by
          generalize s.mem.trainingMutex = own at hmove
          generalize s'.mem.trainingMutex = own' at hmove
          cases hmove with
          | keep hiff => exact absurd (hiff.mp hholds) hnot
          | take => rfl
          | give hheld => exact absurd hheld hnot
        have hother : (s.loc u).Other ∨ ∃ left right pc, s.loc u = .query left right pc := by
          cases hloc : s.loc u with
          | query left right pc => exact Or.inr ⟨left, right, pc, rfl⟩
          | train => rw [hloc] at hnot; exact absurd trivial hnot
          | _ => exact Or.inl trivial
        rcases hother with hother | ⟨left, right, pc, hloc⟩
        · exact (starting_of_advance cfg hother ha).at cfg (h.settled hfree)
        · rw [hloc] at ha
          simp only [advance, Option.map_eq_some_iff, Prod.mk.injEq] at ha
          obtain ⟨⟨m'', r⟩, -, -, hr⟩ := ha
          rw [← hr] at hholds
          cases r <;> exact hholds.elim
      · exact Loc.at_of_not_holds cfg hholds _
    · rw [hframe u hu]
      exact h.training u

/-- A step of a training. -/
theorem InStep.step_training (h : InStep cfg s)
    (howned : Owned s.mem.trainingMutex fun t => (s.loc t).HoldsTraining)
    (ha : advance cfg std t a s.mem (s.loc t) = some (s'.mem, s'.loc t))
    (hframe : ∀ u, u ≠ t → s'.loc u = s.loc u)
    (howned' : Owned s'.mem.trainingMutex fun t => (s'.loc t).HoldsTraining)
    (hheld : (s.loc t).HoldsTraining) : InStep cfg s' := by
  cases hloc : s.loc t with
  | train caller batch pc =>
      have hpc := h.training t
      rw [hloc] at hpc ha
      simp only [advance, Option.map_eq_some_iff, Prod.mk.injEq] at ha
      obtain ⟨⟨m'', r⟩, hstep, rfl, hr⟩ := ha
      obtain ⟨hat, hdone⟩ : (afterTrain caller batch r).At cfg s'.mem.core ∧
          (r = none → Settled cfg s'.mem.core) := at_trainStep cfg hpc hstep
      refine ⟨fun hfree => hdone ?_, fun u => ?_⟩
      · -- the mutex is free only after the last step
        cases r with
        | none => rfl
        | some pc' =>
            have hholds : (s'.loc t).HoldsTraining := by rw [← hr]; trivial
            have hsome := (howned' t).mpr hholds
            rw [hfree] at hsome
            contradiction
      · by_cases hu : u = t
        · rw [hu, ← hr]
          exact hat
        · rw [hframe u hu]
          exact Loc.at_of_not_holds cfg (fun hh => hu (howned.unique hh hheld)) _
  | _ => rw [hloc] at hheld; exact hheld.elim

/-- The copies are in step in every reachable state. -/
theorem inStep_of_reachable (hs : (machine cfg std seed Client).Reachable s) : InStep cfg s := by
  refine hs.invariant inStep_initial fun s s' hreach hinStep hstep => ?_
  obtain ⟨t, ht⟩ := hstep
  obtain ⟨⟨a, ha⟩, hframe⟩ := ht.elim
  have howned := owned_of_reachable hreach .training
  have howned' := owned_of_reachable (hreach.step ⟨t, ht⟩) .training
  by_cases hheld : (s.loc t).HoldsTraining
  · exact hinStep.step_training howned ha hframe howned' hheld
  · exact hinStep.step_other
      (advance_owner cfg (bounded_of_reachable hreach t) ha .training) ha hframe hheld

/-! ## the partitioner and the cut vector -/

/-- The partitioner of the lock is a reachable partitioner. -/
theorem partitioner_of_reachable (hs : (machine cfg std seed Client).Reachable s) :
    cfg.Reachable std seed s.mem.partitioner s.mem.generator := by
  refine hs.invariant (I := fun s => cfg.Reachable std seed s.mem.partitioner s.mem.generator) .init
    fun s s' _ hpartitioner ⟨t, ht⟩ => ?_
  obtain ⟨⟨a, ha⟩, -⟩ := ht.elim
  have hmove : CoreMove cfg std (s.loc t) s.mem.core s'.mem.core := core_move cfg ha
  change cfg.Reachable std seed s.mem.core.partitioner s.mem.core.generator at hpartitioner
  change cfg.Reachable std seed s'.mem.core.partitioner s'.mem.core.generator
  generalize s.loc t = l at *
  generalize s.mem.core = c at *
  generalize s'.mem.core = c' at *
  cases hmove with
  | observe hobserve => exact .observeBatch _ hpartitioner hobserve
  | _ => exact hpartitioner

/-- The installed cuts are a partition. -/
theorem valid_currentCuts (hle : cfg.kLockCnt ≤ cfg.kBlocks) (hfits : cfg.UniformFits)
    (hs : (machine cfg std seed Client).Reachable s) : cfg.Valid s.mem.currentCuts := by
  refine hs.invariant (I := fun s => cfg.Valid s.mem.currentCuts)
    ((GeneticPartitioner.Config.valid_makeUniform_iff hle).mpr hfits)
    fun s s' hreach hvalid ⟨t, ht⟩ => ?_
  obtain ⟨⟨a, ha⟩, -⟩ := ht.elim
  have hat := (inStep_of_reachable hreach).training t
  have hnext := (GeneticPartitioner.Config.partitionsValid_of_reachable hle hfits
    (partitioner_of_reachable hreach)).current
  have hmove : CoreMove cfg std (s.loc t) s.mem.core s'.mem.core := core_move cfg ha
  change cfg.Valid s.mem.core.currentCuts at hvalid
  change cfg.Valid s.mem.core.partitioner.current.cuts at hnext
  change cfg.Valid s'.mem.core.currentCuts
  generalize s.loc t = l at *
  generalize s.mem.core = c at *
  generalize s'.mem.core = c' at *
  cases hmove with
  | assign =>
      have hnew : Rewriting c _ := hat
      exact hnew.next ▸ hnext
  | _ => exact hvalid

/-- Whenever the epoch is even, the table is that of the cut vector. -/
theorem TrainPc.At.refreshed {c : Core G} {pc : TrainPc} (h : pc.At cfg c)
    (heven : c.partitionEpoch % 2 = 0) : c.Refreshed cfg := by
  have hodd : ∀ {nextCuts}, ¬Rewriting c nextCuts := fun hrewriting => by
    have := hrewriting.epoch
    omega
  cases pc with
  | copyUnlock => exact h.1.table
  | observe => exact h.1.table
  | durationLoad => exact h.1.table
  | durationCas => exact h.1.table
  | countTraining => exact h.1.table
  | publish concurrent nextCuts pc =>
      cases pc with
      | epochOpen => exact h.table
      | lockCuts => exact absurd h hodd
      | assign => exact absurd h hodd
      | _ => exact absurd h.1 hodd
  | _ => exact h.table

/-- While the epoch is even, the table is that of the cut vector. -/
theorem refreshed_of_even (hs : (machine cfg std seed Client).Reachable s)
    (heven : s.mem.partitionEpoch % 2 = 0) : s.mem.core.Refreshed cfg := by
  have hinStep := inStep_of_reachable hs
  cases hmutex : s.mem.trainingMutex with
  | none => exact (hinStep.settled hmutex).table
  | some t =>
      have hholds : (s.loc t).HoldsTraining := (owned_of_reachable hs .training t).mp hmutex
      have hat := hinStep.training t
      cases hloc : s.loc t with
      | train caller batch pc =>
          rw [hloc] at hat
          exact TrainPc.At.refreshed hat heven
      | _ => rw [hloc] at hholds; exact hholds.elim

end Steps

/-! ## a small lock -/

/-- Two locks over three blocks of one position each; any batch is worth a training. -/
def smallLock : Config where
  kLockCnt := 2
  kBlocks := 3
  arraySize := 3
  populationSize := 1
  eliteCount := 1
  generationCount := 1
  minTrainingSkew := 1
  kLockCnt_pos := Nat.two_pos
  kLockCnt_lt := GeneticPartitioner.two_lt_limit
  kBlocks_pos := GeneticPartitioner.three_blocks_pos
  kBlocks_lt := GeneticPartitioner.three_lt_size

/-- Queries of the last two blocks, which one lock owns at the start. -/
def rightBatch : List Query := GeneticPartitioner.onBlock 1 8 ++ GeneticPartitioner.onBlock 2 8

/-- Client `c` observes a batch; nobody has started the background thread. -/
def observing {Client : Type} (c : Client) (batch : List Query) : List (Tid Client × Act) :=
  (.client c, .call (.observeBatch batch)) :: List.replicate 16 (.client c, .step) ++
    [(.client c, .elapsed 0 false), (.client c, .step), (.client c, .step)]

/-- The training moves the cut. -/
example :
    ((machine smallLock GeneticPartitioner.lowestDraws () Unit).exec (observing () rightBatch)
      (machine smallLock GeneticPartitioner.lowestDraws () Unit).initial).map
        (fun s => (s.mem.currentCuts, s.mem.partitionEpoch)) = some ([0, 2, 3], 2) := by
  decide +kernel

end GeneticLock
end DynLocks
