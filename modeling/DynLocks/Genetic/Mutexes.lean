import DynLocks.Genetic.Machine

/-!
# DynLocks.Genetic.Mutexes

Which mutexes a thread of a `GeneticLock` holds at each program counter.

* `advance_bounded` — the locking and unlocking loops stay in their bounds;
* `advance_owner` — every step takes a mutex that is free, gives back one the
  thread holds, or leaves it alone;
* `owned_of_reachable` — so the recorded holder of a mutex is the one thread
  whose program counter says that it holds it.
-/

namespace DynLocks
namespace GeneticLock

open Interleaving

variable {Client G : Type} (cfg : Config)

/-! ## what is held where -/

/-- The mutexes of a `GeneticLock`. -/
inductive Mutex
  | range (i : ℕ)
  | pending
  | training
  | cuts
  deriving DecidableEq

/-- The recorded holder of a mutex. -/
def Mem.owner (m : Mem Client G) : Mutex → Option (Tid Client)
  | .range i => m.locks i
  | .pending => m.pendingMutex
  | .training => m.trainingMutex
  | .cuts => m.cutsMutex

/-- The range locks a query holds. -/
def QueryPc.Holds : QueryPc → ℕ → Prop
  | .acquire _ firstLock _ index, i => firstLock ≤ i ∧ i < index
  | .epochCheck _ firstLock lastLock, i => firstLock ≤ i ∧ i ≤ lastLock
  | .retry firstLock count, i => firstLock ≤ i ∧ i < firstLock + count
  | .inside firstLock lastLock _, i => firstLock ≤ i ∧ i ≤ lastLock
  | .release firstLock count, i => firstLock ≤ i ∧ i < firstLock + count
  | _, _ => False

/-- Inside the scope of `pending_mutex_` in `FlushTrainingSamples`. -/
def SamplePc.HoldsPending : SamplePc → Prop
  | .insert => True
  | .unlockPending _ => True
  | _ => False

/-- Inside the scope of `cuts_mutex_` in `publish_partition`. -/
def PublishPc.HoldsCuts : PublishPc → Prop
  | .assign => True
  | .refresh _ _ => True
  | .unlockCuts => True
  | _ => False

/-- The range locks a training holds. -/
def TrainPc.HoldsRange : TrainPc → ℕ → Prop
  | .lockAll _ next, i => i < next
  | .publish concurrent _ _, i => concurrent = true ∧ i < cfg.kLockCnt
  | .unlockAll count, i => i < count
  | _, _ => False

/-- Inside `PartitionCuts` or the scope of `cuts_mutex_` in `publish_partition`. -/
def TrainPc.HoldsCuts : TrainPc → Prop
  | .copyRead => True
  | .copyUnlock _ => True
  | .publish _ _ pc => pc.HoldsCuts
  | _ => False

/-- At the loops that record what a training has taken and when the next one is due. -/
def TrainPc.Records : TrainPc → Prop
  | .keepDurationLoad => True
  | .keepDurationCas _ => True
  | .probeLoad => True
  | .probeStore _ => True
  | .durationLoad => True
  | .durationCas _ => True
  | .countTraining => True
  | _ => False

/-- Between the decision to publish and the end of the pause. -/
def TrainPc.Publishes : TrainPc → Prop
  | .enabledLoad _ => True
  | .pauseStore _ => True
  | .lockAll _ _ => True
  | .publish _ _ _ => True
  | .unlockAll _ => True
  | .clearPause => True
  | _ => False

def FlushPc.HoldsPending : FlushPc → Prop
  | .lockPending => False
  | _ => True

def TrainerPc.HoldsPending : TrainerPc → Prop
  | .predStop => True
  | .predSize => True
  | .wait => True
  | .stopLoad => True
  | .swap => True
  | .unlockPending _ => True
  | .unlockExit => True
  | _ => False

def StopPc.HoldsPending : StopPc → Prop
  | .clear => True
  | .unlockPending => True
  | _ => False

def Loc.HoldsRange : Loc → ℕ → Prop
  | .query _ _ pc, i => pc.Holds i
  | .train _ _ pc, i => pc.HoldsRange cfg i
  | _, _ => False

def Loc.HoldsPending : Loc → Prop
  | .sample _ pc => pc.HoldsPending
  | .flush pc => pc.HoldsPending
  | .trainer pc => pc.HoldsPending
  | .stop pc => pc.HoldsPending
  | _ => False

def Loc.HoldsTraining : Loc → Prop
  | .train _ _ _ => True
  | _ => False

def Loc.HoldsCuts : Loc → Prop
  | .train _ _ pc => pc.HoldsCuts
  | .cutsCopy => True
  | .cutsUnlock _ => True
  | _ => False

/-- The thread holds the mutex. -/
def Loc.Holds (l : Loc) : Mutex → Prop
  | .range i => l.HoldsRange cfg i
  | .pending => l.HoldsPending
  | .training => l.HoldsTraining
  | .cuts => l.HoldsCuts

/-! ## the loops over the range locks -/

def QueryPc.Bounded : QueryPc → Prop
  | .acquire _ firstLock lastLock index => firstLock ≤ index ∧ index ≤ lastLock
  | .epochCheck _ firstLock lastLock => firstLock ≤ lastLock
  | .retry _ count => 0 < count
  | .inside firstLock lastLock _ => firstLock ≤ lastLock
  | .release _ count => 0 < count
  | _ => True

def TrainPc.Bounded : TrainPc → Prop
  | .lockAll _ next => next < cfg.kLockCnt
  | .unlockAll count => 0 < count
  | _ => True

/-- The loops that lock stop at the last lock, those that unlock have a lock left to unlock. -/
def Loc.Bounded : Loc → Prop
  | .query _ _ pc => pc.Bounded
  | .train _ _ pc => pc.Bounded cfg
  | _ => True

/-- Neither in the loop of a query nor in a training. -/
def Loc.Other : Loc → Prop
  | .query _ _ _ => False
  | .train _ _ _ => False
  | _ => True

theorem Loc.Other.bounded {l : Loc} (hl : l.Other) : l.Bounded cfg := by
  cases l with
  | query => exact hl.elim
  | train => exact hl.elim
  | _ => trivial

/-- A training starts with the copy of the cuts, or ends at once. -/
def Loc.Starting : Loc → Prop
  | .query _ _ pc => pc = .pauseLoad
  | .train _ _ pc => pc = .copyLock ∨ pc = .unlockTraining
  | _ => True

theorem Loc.Starting.bounded {l : Loc} (hl : l.Starting) : l.Bounded cfg := by
  cases l with
  | query left right pc =>
      obtain rfl : pc = .pauseLoad := hl
      trivial
  | train caller batch pc => rcases hl with rfl | rfl <;> trivial
  | _ => trivial

theorem Caller.bounded_resume (caller : Caller) : caller.resume.Bounded cfg := by
  cases caller <;> trivial

section Steps

variable [DecidableEq Client] {std : GeneticPartitioner.StdLib G} {t : Tid Client} {a : Act}
  {m m' : Mem Client G}

/-- The loops of an attempt stay between its first and its last lock. -/
theorem bounded_queryStep {left right : ℕ} {pc : QueryPc} {r : Option QueryPc}
    (hpc : pc.Bounded) (h : queryStep cfg t a m left right pc = some (m', r)) :
    (afterQuery left right r).Bounded cfg := by
  cases pc with
  | pauseLoad => cases h; dsimp only [afterQuery, Loc.Bounded]; split <;> trivial
  | epochLoad => cases h; dsimp only [afterQuery, Loc.Bounded]; split <;> trivial
  | leftLoad epoch => cases h; trivial
  | rightLoad epoch firstLock =>
      cases h
      dsimp only [afterQuery, Loc.Bounded]
      split
      · trivial
      · next hge => exact ⟨Nat.le_refl _, Nat.not_lt.mp hge⟩
  | acquire epoch firstLock lastLock index =>
      obtain ⟨hfirst, hlast⟩ := hpc
      simp only [queryStep] at h
      split at h
      · cases h
        dsimp only [afterQuery, Loc.Bounded]
        split
        · exact hfirst.trans hlast
        · next hne => exact ⟨Nat.le_succ_of_le hfirst, Nat.lt_of_le_of_ne hlast hne⟩
      · contradiction
  | epochCheck epoch firstLock lastLock =>
      cases h
      dsimp only [afterQuery, Loc.Bounded]
      split
      · exact Nat.sub_pos_of_lt (Nat.lt_succ_of_le hpc)
      · exact hpc
  | retry firstLock count =>
      cases h
      dsimp only [afterQuery, Loc.Bounded]
      split
      · trivial
      · exact Nat.sub_pos_of_lt (by omega)
  | inside firstLock lastLock pc =>
      simp only [queryStep, Option.map_eq_some_iff, Prod.mk.injEq] at h
      obtain ⟨⟨m'', r'⟩, -, rfl, rfl⟩ := h
      cases r' with
      | some pc' => exact hpc
      | none => exact Nat.sub_pos_of_lt (Nat.lt_succ_of_le hpc)
  | release firstLock count =>
      cases h
      split
      · trivial
      · exact Nat.sub_pos_of_lt (by omega)

/-- The loops of a training stay below `kLockCnt`. -/
theorem bounded_trainStep {caller : Caller} {batch : List Query} {pc : TrainPc}
    {r : Option TrainPc} (h : trainStep cfg std t a m batch pc = some (m', r)) :
    (afterTrain caller batch r).Bounded cfg := by
  cases pc with
  | copyLock =>
      simp only [trainStep] at h
      split at h
      · cases h; trivial
      · contradiction
  | observe previousCuts =>
      simp only [trainStep, Option.map_eq_some_iff, Prod.mk.injEq] at h
      obtain ⟨s, -, rfl, rfl⟩ := h
      dsimp only [afterTrain, Loc.Bounded]
      split <;> trivial
  | keepDurationCas current =>
      cases a with
      | elapsed delta spurious =>
          simp only [trainStep] at h
          split at h
          · cases h; dsimp only [afterTrain, Loc.Bounded, scheduleProbe]; split <;> trivial
          · cases h; trivial
      | _ => contradiction
  | durationCas current =>
      cases a with
      | elapsed delta spurious =>
          simp only [trainStep] at h
          split at h
          · cases h; trivial
          · cases h; trivial
      | _ => contradiction
  | enabledLoad nextCuts =>
      cases h
      dsimp only [afterTrain, Loc.Bounded]
      split <;> trivial
  | pauseStore nextCuts => cases h; exact cfg.kLockCnt_pos
  | lockAll nextCuts next =>
      simp only [trainStep] at h
      split at h
      · cases h
        dsimp only [afterTrain, Loc.Bounded]
        split
        · next hlt => exact hlt
        · trivial
      · contradiction
  | publish concurrent nextCuts pc =>
      simp only [trainStep, Option.map_eq_some_iff, Prod.mk.injEq] at h
      obtain ⟨⟨m'', r'⟩, -, rfl, rfl⟩ := h
      cases r' with
      | some pc' => trivial
      | none =>
          dsimp only [afterPublish, afterTrain, Loc.Bounded]
          split
          · exact cfg.kLockCnt_pos
          · trivial
  | unlockAll count =>
      cases h
      dsimp only [afterTrain, Loc.Bounded]
      split
      · trivial
      · exact Nat.sub_pos_of_lt (by omega)
  | unlockTraining => cases h; exact caller.bounded_resume cfg
  | _ => cases h; trivial

/-! ## every step takes a free mutex or gives back a held one -/

/-- What one step does to every mutex. -/
def OwnerMove (cfg : Config) (t : Tid Client) (m : Mem Client G) (l : Loc) (m' : Mem Client G)
    (l' : Loc) : Prop :=
  ∀ x, LockMove t (m.owner x) (l.Holds cfg x) (m'.owner x) (l'.Holds cfg x)

omit [DecidableEq Client] in
/-- A step that touches no mutex. -/
theorem OwnerMove.of_eq {l l' : Loc} (howner : ∀ x, m'.owner x = m.owner x)
    (hholds : ∀ x, l'.Holds cfg x ↔ l.Holds cfg x) : OwnerMove cfg t m l m' l' := by
  intro x
  rw [howner x]
  exact .keep (hholds x)

/-- A range mutex is taken. -/
theorem OwnerMove.lock {l l' : Loc} {next : ℕ} (hfree : m.locks next = none)
    (htaken : l'.HoldsRange cfg next)
    (hrest : ∀ i, i ≠ next → (l'.HoldsRange cfg i ↔ l.HoldsRange cfg i))
    (hpending : l'.HoldsPending ↔ l.HoldsPending) (htraining : l'.HoldsTraining ↔ l.HoldsTraining)
    (hcuts : l'.HoldsCuts ↔ l.HoldsCuts) :
    OwnerMove cfg t m l (m.lock next t) l' := by
  intro x
  cases x with
  | range i => exact .update_some hfree htaken (hrest i)
  | pending => exact .keep hpending
  | training => exact .keep htraining
  | cuts => exact .keep hcuts

omit [DecidableEq Client] in
/-- The last of the range mutexes that are still held is given back. -/
theorem OwnerMove.drop {l l' : Loc} {first count : ℕ} (hcount : 0 < count)
    (hl : ∀ i, l.HoldsRange cfg i ↔ first ≤ i ∧ i < first + count)
    (hl' : ∀ i, l'.HoldsRange cfg i ↔ first ≤ i ∧ i < first + (count - 1))
    (hpending : l'.HoldsPending ↔ l.HoldsPending) (htraining : l'.HoldsTraining ↔ l.HoldsTraining)
    (hcuts : l'.HoldsCuts ↔ l.HoldsCuts) :
    OwnerMove cfg t m l (m.unlock (first + (count - 1))) l' := by
  intro x
  cases x with
  | range i =>
      exact .update_none ((hl (first + (count - 1))).mpr (by omega))
        (fun hh => by have := (hl' _).mp hh; omega) fun hi => by rw [hl, hl']; omega
  | pending => exact .keep hpending
  | training => exact .keep htraining
  | cuts => exact .keep hcuts

omit [DecidableEq Client] in
/-- Under its range locks a query locks nothing else. -/
theorem owner_insideStep {pc : InsidePc} {r : Option InsidePc}
    (h : insideStep a m pc = some (m', r)) (x : Mutex) : m'.owner x = m.owner x := by
  cases pc with
  | durationCas current =>
      cases a with
      | elapsed delta spurious =>
          simp only [insideStep] at h
          split at h
          · cases h; cases x <;> rfl
          · cases h; rfl
      | _ => contradiction
  | durationLoad => cases h; rfl
  | countOperation => cases h; cases x <;> rfl
  | func => cases h; rfl

/-- An attempt takes its range locks one by one and gives them back from the last to the first. -/
theorem ownerMove_queryStep {left right : ℕ} {pc : QueryPc} {r : Option QueryPc}
    (hpc : pc.Bounded) (h : queryStep cfg t a m left right pc = some (m', r)) :
    OwnerMove cfg t m (.query left right pc) m' (afterQuery left right r) := by
  cases pc with
  | pauseLoad =>
      cases h
      refine .of_eq cfg (fun _ => rfl) fun x => ?_
      dsimp only [afterQuery]
      split <;> cases x <;> exact Iff.rfl
  | epochLoad =>
      cases h
      refine .of_eq cfg (fun _ => rfl) fun x => ?_
      dsimp only [afterQuery]
      split <;> cases x <;> exact Iff.rfl
  | leftLoad epoch => cases h; exact .of_eq cfg (fun _ => rfl) fun x => by cases x <;> exact Iff.rfl
  | rightLoad epoch firstLock =>
      cases h
      refine .of_eq cfg (fun _ => rfl) fun x => ?_
      dsimp only [afterQuery]
      split
      · cases x <;> exact Iff.rfl
      · cases x with
        | range i => exact ⟨fun hh => absurd hh.2 (Nat.not_lt.mpr hh.1), False.elim⟩
        | _ => exact Iff.rfl
  | acquire epoch firstLock lastLock index =>
      obtain ⟨hfirst, hlast⟩ := hpc
      simp only [queryStep] at h
      split at h
      · next hfree =>
          cases h
          dsimp only [afterQuery]
          split
          · next heq =>
              subst heq
              refine .lock cfg hfree ⟨hfirst, Nat.le_refl _⟩ (fun i hi => ?_) Iff.rfl Iff.rfl Iff.rfl
              simp only [Loc.HoldsRange, QueryPc.Holds]
              omega
          · refine .lock cfg hfree ⟨hfirst, Nat.lt_succ_self _⟩ (fun i hi => ?_) Iff.rfl Iff.rfl
              Iff.rfl
            simp only [Loc.HoldsRange, QueryPc.Holds]
            omega
      · contradiction
  | epochCheck epoch firstLock lastLock =>
      have hle : firstLock ≤ lastLock := hpc
      cases h
      refine .of_eq cfg (fun _ => rfl) fun x => ?_
      dsimp only [afterQuery]
      split
      · cases x with
        | range i =>
            simp only [Loc.Holds, Loc.HoldsRange, QueryPc.Holds]
            omega
        | _ => exact Iff.rfl
      · cases x <;> exact Iff.rfl
  | retry firstLock count =>
      cases h
      refine .drop cfg hpc (fun i => Iff.rfl) (fun i => ?_) ?_ ?_ ?_
      all_goals dsimp only [afterQuery]; split
      · exact ⟨False.elim, fun hh => by omega⟩
      all_goals exact Iff.rfl
  | inside firstLock lastLock pc =>
      simp only [queryStep, Option.map_eq_some_iff, Prod.mk.injEq] at h
      obtain ⟨⟨m'', r'⟩, hstep, rfl, rfl⟩ := h
      refine .of_eq cfg (owner_insideStep hstep) fun x => ?_
      cases r' with
      | some pc' => cases x <;> exact Iff.rfl
      | none =>
          have hle : firstLock ≤ lastLock := hpc
          cases x with
          | range i =>
              simp only [Loc.Holds, Loc.HoldsRange, afterQuery, afterInside, QueryPc.Holds]
              omega
          | _ => exact Iff.rfl
  | release firstLock count =>
      cases h
      refine .drop cfg hpc (fun i => Iff.rfl) (fun i => ?_) ?_ ?_ ?_
      all_goals split
      · exact ⟨False.elim, fun hh => by omega⟩
      all_goals exact Iff.rfl

/-- Sampling uses `pending_mutex_` only. -/
theorem ownerMove_sampleStep {query : Query} {pc : SamplePc} {r : Option SamplePc}
    (h : sampleStep cfg t m query pc = some (m', r)) :
    OwnerMove cfg t m (.sample query pc) m' (afterSample query r) := by
  cases pc with
  | enabledLoad =>
      cases h
      refine .of_eq cfg (fun _ => rfl) fun x => ?_
      split <;> cases x <;> exact Iff.rfl
  | countLoad => cases h; exact .of_eq cfg (fun _ => rfl) fun x => by cases x <;> exact Iff.rfl
  | probeLoad operations =>
      simp only [sampleStep] at h
      split at h
      · cases h
        exact .of_eq cfg (fun _ => rfl) fun x => by cases x <;> exact Iff.rfl
      · cases h
        refine .of_eq cfg (fun x => by cases x <;> rfl) fun x => ?_
        split <;> cases x <;> exact Iff.rfl
  | enqueue =>
      cases h
      refine .of_eq cfg (fun x => by cases x <;> rfl) fun x => ?_
      split <;> cases x <;> exact Iff.rfl
  | lockPending =>
      simp only [sampleStep] at h
      split at h
      · next hfree =>
          cases h
          intro x
          cases x with
          | pending => exact .take_of_free hfree trivial
          | _ => exact .keep Iff.rfl
      · contradiction
  | insert =>
      cases h
      exact .of_eq cfg (fun x => by cases x <;> rfl) fun x => by cases x <;> exact Iff.rfl
  | unlockPending shouldNotify =>
      cases h
      intro x
      cases shouldNotify <;> cases x <;>
        first | exact .keep Iff.rfl | exact .give trivial id
  | notify =>
      cases h
      exact .of_eq cfg (fun x => by cases x <;> rfl) fun x => by cases x <;> exact Iff.rfl
  | clear =>
      cases h
      exact .of_eq cfg (fun x => by cases x <;> rfl) fun x => by cases x <;> exact Iff.rfl

omit [DecidableEq Client] in
/-- Publication uses `cuts_mutex_`; the range locks it runs under are those of its caller. -/
theorem ownerMove_publishStep {caller : Caller} {batch : List Query} {concurrent : Bool}
    {nextCuts : List ℕ} {pc : PublishPc} {r : Option PublishPc}
    (h : publishStep cfg t m nextCuts pc = some (m', r)) :
    OwnerMove cfg t m (.train caller batch (.publish concurrent nextCuts pc)) m'
      (.train caller batch (afterPublish cfg concurrent nextCuts r)) := by
  cases pc with
  | epochOpen =>
      cases h
      exact .of_eq cfg (fun x => by cases x <;> rfl) fun x => by cases x <;> exact Iff.rfl
  | lockCuts =>
      simp only [publishStep] at h
      split at h
      · next hfree =>
          cases h
          intro x
          cases x with
          | cuts => exact .take_of_free hfree trivial
          | _ => exact .keep Iff.rfl
      · contradiction
  | assign =>
      cases h
      exact .of_eq cfg (fun x => by cases x <;> rfl) fun x => by cases x <;> exact Iff.rfl
  | refresh block lockIndex =>
      cases h
      refine .of_eq cfg (fun x => by cases x <;> rfl) fun x => ?_
      split <;> cases x <;> exact Iff.rfl
  | unlockCuts =>
      cases h
      intro x
      cases x with
      | cuts => exact .give trivial id
      | _ => exact .keep Iff.rfl
  | epochClose =>
      cases h
      refine .of_eq cfg (fun x => by cases x <;> rfl) fun x => ?_
      cases concurrent with
      | true =>
          cases x with
          | range i => exact ⟨fun hi => ⟨rfl, hi⟩, fun hi => hi.2⟩
          | _ => exact Iff.rfl
      | false =>
          cases x with
          | range i => exact ⟨False.elim, fun hi => absurd hi.1 Bool.false_ne_true⟩
          | _ => exact Iff.rfl

/-- The duration, the number and the next probe of a training are recorded without a mutex more. -/
theorem ownerMove_records {caller : Caller} {batch : List Query} {pc : TrainPc}
    {r : Option TrainPc} (hpc : pc.Records) (h : trainStep cfg std t a m batch pc = some (m', r)) :
    OwnerMove cfg t m (.train caller batch pc) m' (afterTrain caller batch r) := by
  cases pc with
  | keepDurationLoad =>
      cases h
      exact .of_eq cfg (fun _ => rfl) fun x => by cases x <;> exact Iff.rfl
  | keepDurationCas current =>
      cases a with
      | elapsed delta spurious =>
          simp only [trainStep] at h
          split at h
          · cases h
            refine .of_eq cfg (fun x => by cases x <;> rfl) fun x => ?_
            dsimp only [afterTrain, scheduleProbe]
            split <;> cases x <;> exact Iff.rfl
          · cases h
            exact .of_eq cfg (fun _ => rfl) fun x => by cases x <;> exact Iff.rfl
      | _ => contradiction
  | probeLoad => cases h; exact .of_eq cfg (fun _ => rfl) fun x => by cases x <;> exact Iff.rfl
  | probeStore current =>
      cases h
      exact .of_eq cfg (fun x => by cases x <;> rfl) fun x => by cases x <;> exact Iff.rfl
  | durationLoad => cases h; exact .of_eq cfg (fun _ => rfl) fun x => by cases x <;> exact Iff.rfl
  | durationCas current =>
      cases a with
      | elapsed delta spurious =>
          simp only [trainStep] at h
          split at h
          · cases h
            exact .of_eq cfg (fun x => by cases x <;> rfl) fun x => by cases x <;> exact Iff.rfl
          · cases h
            exact .of_eq cfg (fun _ => rfl) fun x => by cases x <;> exact Iff.rfl
      | _ => contradiction
  | countTraining =>
      cases h
      exact .of_eq cfg (fun x => by cases x <;> rfl) fun x => by cases x <;> exact Iff.rfl
  | _ => exact hpc.elim

/-- Around its publication a training takes the range locks in order and gives them back. -/
theorem ownerMove_publishes {caller : Caller} {batch : List Query} {pc : TrainPc}
    {r : Option TrainPc} (hpc : pc.Publishes) (hbounded : pc.Bounded cfg)
    (h : trainStep cfg std t a m batch pc = some (m', r)) :
    OwnerMove cfg t m (.train caller batch pc) m' (afterTrain caller batch r) := by
  cases pc with
  | enabledLoad nextCuts =>
      cases h
      refine .of_eq cfg (fun _ => rfl) fun x => ?_
      dsimp only [afterTrain]
      split
      · cases x <;> exact Iff.rfl
      · cases x with
        | range i => exact ⟨fun hi => absurd hi.1 Bool.false_ne_true, False.elim⟩
        | _ => exact Iff.rfl
  | pauseStore nextCuts =>
      cases h
      refine .of_eq cfg (fun x => by cases x <;> rfl) fun x => ?_
      cases x with
      | range i => exact ⟨fun hi => absurd hi (Nat.not_lt_zero i), False.elim⟩
      | _ => exact Iff.rfl
  | lockAll nextCuts next =>
      have hnext : next < cfg.kLockCnt := hbounded
      simp only [trainStep] at h
      split at h
      · next hfree =>
          cases h
          dsimp only [afterTrain]
          split
          · refine .lock cfg hfree (Nat.lt_succ_self _) (fun i hi => ?_) Iff.rfl Iff.rfl Iff.rfl
            simp only [Loc.HoldsRange, TrainPc.HoldsRange]
            omega
          · refine .lock cfg hfree ⟨rfl, hnext⟩ (fun i hi => ?_) Iff.rfl Iff.rfl Iff.rfl
            simp only [Loc.HoldsRange, TrainPc.HoldsRange, true_and]
            omega
      · contradiction
  | publish concurrent nextCuts pc =>
      simp only [trainStep, Option.map_eq_some_iff, Prod.mk.injEq] at h
      obtain ⟨⟨m'', r'⟩, hstep, rfl, rfl⟩ := h
      exact ownerMove_publishStep cfg hstep
  | unlockAll count =>
      cases h
      have hzero : count - 1 = 0 + (count - 1) := (Nat.zero_add _).symm
      rw [hzero]
      refine .drop cfg hbounded (fun i => ?_) (fun i => ?_) ?_ ?_ ?_
      · simp only [Loc.HoldsRange, TrainPc.HoldsRange]
        omega
      all_goals dsimp only [afterTrain]; split
      · exact ⟨False.elim, fun hh => by omega⟩
      · simp only [Loc.HoldsRange, TrainPc.HoldsRange]
        omega
      all_goals exact Iff.rfl
  | clearPause =>
      cases h
      exact .of_eq cfg (fun x => by cases x <;> rfl) fun x => by cases x <;> exact Iff.rfl
  | _ => exact hpc.elim

/-- A training takes `training_mutex_` along and gives it back at its end. -/
theorem ownerMove_trainStep {caller : Caller} {batch : List Query} {pc : TrainPc}
    {r : Option TrainPc} (hpc : pc.Bounded cfg)
    (h : trainStep cfg std t a m batch pc = some (m', r)) :
    OwnerMove cfg t m (.train caller batch pc) m' (afterTrain caller batch r) := by
  cases pc with
  | copyLock =>
      simp only [trainStep] at h
      split at h
      · next hfree =>
          cases h
          intro x
          cases x with
          | cuts => exact .take_of_free hfree trivial
          | _ => exact .keep Iff.rfl
      · contradiction
  | copyRead => cases h; exact .of_eq cfg (fun _ => rfl) fun x => by cases x <;> exact Iff.rfl
  | copyUnlock previousCuts =>
      cases h
      intro x
      cases x with
      | cuts => exact .give trivial id
      | _ => exact .keep Iff.rfl
  | observe previousCuts =>
      simp only [trainStep, Option.map_eq_some_iff, Prod.mk.injEq] at h
      obtain ⟨s, -, rfl, rfl⟩ := h
      refine .of_eq cfg (fun x => by cases x <;> rfl) fun x => ?_
      dsimp only [afterTrain]
      split <;> cases x <;> exact Iff.rfl
  | unlockTraining =>
      cases h
      intro x
      cases caller <;> cases x <;> first | exact .keep Iff.rfl | exact .give trivial id
  | enabledLoad nextCuts => exact ownerMove_publishes cfg trivial hpc h
  | pauseStore nextCuts => exact ownerMove_publishes cfg trivial hpc h
  | lockAll nextCuts next => exact ownerMove_publishes cfg trivial hpc h
  | publish concurrent nextCuts pc => exact ownerMove_publishes cfg trivial hpc h
  | unlockAll count => exact ownerMove_publishes cfg trivial hpc h
  | clearPause => exact ownerMove_publishes cfg trivial hpc h
  | _ => exact ownerMove_records cfg trivial h

omit [DecidableEq Client] in
/-- `FlushTrainingSamples` takes `pending_mutex_` and gives it back. -/
theorem ownerMove_flushStep {pc : FlushPc} {l' : Loc} (h : flushStep t m pc = some (m', l')) :
    OwnerMove cfg t m (.flush pc) m' l' := by
  cases pc with
  | lockPending =>
      simp only [flushStep] at h
      split at h
      · next hfree =>
          cases h
          intro x
          cases x with
          | pending => exact .take_of_free hfree trivial
          | _ => exact .keep Iff.rfl
      · contradiction
  | swap =>
      cases h
      exact .of_eq cfg (fun x => by cases x <;> rfl) fun x => by cases x <;> exact Iff.rfl
  | unlockPending batch =>
      cases h
      intro x
      split <;> cases x <;> first | exact .keep Iff.rfl | exact .give trivial id

omit [DecidableEq Client] in
/-- The loop gives `pending_mutex_` back before it takes `training_mutex_`. -/
theorem ownerMove_trainerStep {pc : TrainerPc} {l' : Loc}
    (h : trainerStep cfg t a m pc = some (m', l')) :
    OwnerMove cfg t m (.trainer pc) m' l' := by
  cases pc with
  | lockPending =>
      simp only [trainerStep] at h
      split at h
      · next hfree =>
          cases h
          intro x
          cases x with
          | pending => exact .take_of_free hfree trivial
          | _ => exact .keep Iff.rfl
      · contradiction
  | predStop =>
      cases h
      refine .of_eq cfg (fun _ => rfl) fun x => ?_
      split <;> cases x <;> exact Iff.rfl
  | predSize =>
      cases h
      refine .of_eq cfg (fun _ => rfl) fun x => ?_
      split <;> cases x <;> exact Iff.rfl
  | wait =>
      cases h
      intro x
      cases x <;> first | exact .keep Iff.rfl | exact .give trivial id
  | sleep =>
      cases a with
      | wake =>
          cases h
          exact .of_eq cfg (fun x => by cases x <;> rfl) fun x => by cases x <;> exact Iff.rfl
      | _ =>
          simp only [trainerStep] at h
          split at h
          · contradiction
          · cases h
            exact .of_eq cfg (fun _ => rfl) fun x => by cases x <;> exact Iff.rfl
  | stopLoad =>
      cases h
      refine .of_eq cfg (fun _ => rfl) fun x => ?_
      split <;> cases x <;> exact Iff.rfl
  | swap =>
      cases h
      exact .of_eq cfg (fun x => by cases x <;> rfl) fun x => by cases x <;> exact Iff.rfl
  | unlockPending batch =>
      cases h
      dsimp only [scheduleProbe]
      intro x
      split
      · cases x <;> first | exact .keep Iff.rfl | exact .give trivial id
      · split <;> cases x <;> first | exact .keep Iff.rfl | exact .give trivial id
  | probeLoad => cases h; exact .of_eq cfg (fun _ => rfl) fun x => by cases x <;> exact Iff.rfl
  | probeStore current =>
      cases h
      exact .of_eq cfg (fun x => by cases x <;> rfl) fun x => by cases x <;> exact Iff.rfl
  | lockTraining batch =>
      simp only [trainerStep] at h
      split at h
      · next hfree =>
          cases h
          intro x
          cases x with
          | training => exact .take_of_free hfree trivial
          | _ => exact .keep Iff.rfl
      · contradiction
  | unlockExit =>
      cases h
      intro x
      cases x <;> first | exact .keep Iff.rfl | exact .give trivial id
  | exit =>
      cases h
      exact .of_eq cfg (fun x => by cases x <;> rfl) fun x => by cases x <;> exact Iff.rfl

omit [DecidableEq Client] in
/-- `StartRebuilder` takes no mutex. -/
theorem ownerMove_startStep {pc : StartPc} {l' : Loc} (h : startStep cfg m pc = some (m', l')) :
    OwnerMove cfg t m (.start pc) m' l' := by
  cases pc with
  | create =>
      simp only [startStep] at h
      split at h
      · cases h
        exact .of_eq cfg (fun x => by cases x <;> rfl) fun x => by cases x <;> exact Iff.rfl
      · contradiction
  | _ =>
      cases h
      exact .of_eq cfg (fun x => by cases x <;> rfl) fun x => by cases x <;> exact Iff.rfl

omit [DecidableEq Client] in
/-- `StopRebuilder` takes `pending_mutex_` when the thread has been joined. -/
theorem ownerMove_stopStep {pc : StopPc} {l' : Loc} (h : stopStep t m pc = some (m', l')) :
    OwnerMove cfg t m (.stop pc) m' l' := by
  cases pc with
  | join =>
      simp only [stopStep] at h
      split at h
      · cases h
        exact .of_eq cfg (fun _ => rfl) fun x => by cases x <;> exact Iff.rfl
      · split at h
        · cases h
          exact .of_eq cfg (fun x => by cases x <;> rfl) fun x => by cases x <;> exact Iff.rfl
        · contradiction
  | lockPending =>
      simp only [stopStep] at h
      split at h
      · next hfree =>
          cases h
          intro x
          cases x with
          | pending => exact .take_of_free hfree trivial
          | _ => exact .keep Iff.rfl
      · contradiction
  | unlockPending =>
      cases h
      intro x
      cases x <;> first | exact .keep Iff.rfl | exact .give trivial id
  | _ =>
      cases h
      exact .of_eq cfg (fun x => by cases x <;> rfl) fun x => by cases x <;> exact Iff.rfl

omit [DecidableEq Client] in
/-- `CountLocksForRange` takes no mutex. -/
theorem ownerMove_countStep {left right : ℕ} {pc : CountPc} {l' : Loc}
    (h : countStep cfg m left right pc = some (m', l')) :
    OwnerMove cfg t m (.count left right pc) m' l' := by
  cases pc with
  | epochLoad =>
      cases h
      refine .of_eq cfg (fun _ => rfl) fun x => ?_
      split <;> cases x <;> exact Iff.rfl
  | epochCheck epoch firstLock lastLock =>
      cases h
      refine .of_eq cfg (fun _ => rfl) fun x => ?_
      split <;> cases x <;> exact Iff.rfl
  | _ =>
      cases h
      exact .of_eq cfg (fun _ => rfl) fun x => by cases x <;> exact Iff.rfl

omit [DecidableEq Client] in
/-- No call takes a mutex in its first step. -/
theorem ownerMove_enter {c : Call} {l' : Loc} (h : enter cfg m c = some (m', l')) :
    OwnerMove cfg t m .idle m' l' := by
  cases c with
  | writeQuery left right =>
      simp only [enter] at h
      split at h <;>
      · cases h
        exact .of_eq cfg (fun _ => rfl) fun x => by cases x <;> exact Iff.rfl
  | countLocksForRange left right =>
      simp only [enter] at h
      split at h <;>
      · cases h
        exact .of_eq cfg (fun _ => rfl) fun x => by cases x <;> exact Iff.rfl
  | observeBatch batch =>
      cases h
      refine .of_eq cfg (fun _ => rfl) fun x => ?_
      split <;> cases x <;> exact Iff.rfl
  | startRebuilder =>
      cases h
      refine .of_eq cfg (fun _ => rfl) fun x => ?_
      split <;> cases x <;> exact Iff.rfl
  | _ =>
      cases h
      exact .of_eq cfg (fun _ => rfl) fun x => by cases x <;> exact Iff.rfl

/-- Every step takes a mutex that is free, gives back one the thread holds, or leaves it alone. -/
theorem advance_owner {l l' : Loc} (hl : l.Bounded cfg)
    (h : advance cfg std t a m l = some (m', l')) : OwnerMove cfg t m l m' l' := by
  cases l with
  | idle =>
      cases t with
      | client c =>
          cases a with
          | call call => exact ownerMove_enter cfg h
          | _ => contradiction
      | background =>
          cases a with
          | step =>
              simp only [advance] at h
              split at h
              · cases h
                exact .of_eq cfg (fun x => by cases x <;> rfl) fun x => by cases x <;> exact Iff.rfl
              · contradiction
          | _ => contradiction
  | query left right pc =>
      simp only [advance, Option.map_eq_some_iff, Prod.mk.injEq] at h
      obtain ⟨⟨m'', r⟩, hstep, rfl, rfl⟩ := h
      exact ownerMove_queryStep cfg hl hstep
  | sample query pc =>
      simp only [advance, Option.map_eq_some_iff, Prod.mk.injEq] at h
      obtain ⟨⟨m'', r⟩, hstep, rfl, rfl⟩ := h
      exact ownerMove_sampleStep cfg hstep
  | observe batch =>
      simp only [advance] at h
      split at h
      · next hfree =>
          cases h
          intro x
          split <;> cases x <;> first | exact .take_of_free hfree trivial | exact .keep Iff.rfl
      · contradiction
  | train caller batch pc =>
      simp only [advance, Option.map_eq_some_iff, Prod.mk.injEq] at h
      obtain ⟨⟨m'', r⟩, hstep, rfl, rfl⟩ := h
      exact ownerMove_trainStep cfg hl hstep
  | flush pc => exact ownerMove_flushStep cfg h
  | trainer pc => exact ownerMove_trainerStep cfg h
  | start pc => exact ownerMove_startStep cfg h
  | stop pc => exact ownerMove_stopStep cfg h
  | setEnabled enabled =>
      cases h
      exact .of_eq cfg (fun x => by cases x <;> rfl) fun x => by cases x <;> exact Iff.rfl
  | count left right pc => exact ownerMove_countStep cfg h
  | counted locks => cases h; exact .of_eq cfg (fun _ => rfl) fun x => by cases x <;> exact Iff.rfl
  | cutsLock =>
      simp only [advance] at h
      split at h
      · next hfree =>
          cases h
          intro x
          cases x with
          | cuts => exact .take_of_free hfree trivial
          | _ => exact .keep Iff.rfl
      · contradiction
  | cutsCopy => cases h; exact .of_eq cfg (fun _ => rfl) fun x => by cases x <;> exact Iff.rfl
  | cutsUnlock cuts =>
      cases h
      intro x
      cases x <;> first | exact .keep Iff.rfl | exact .give trivial id
  | cuts cuts => cases h; exact .of_eq cfg (fun _ => rfl) fun x => by cases x <;> exact Iff.rfl

/-- A call leads to the start of a query or of a training, or to neither. -/
theorem starting_of_idle {l' : Loc} (h : advance cfg std t a m .idle = some (m', l')) :
    l'.Starting := by
  cases t with
  | client c =>
      cases a with
      | call call =>
          cases call with
          | writeQuery left right =>
              simp only [advance, enter] at h
              split at h
              · cases h; trivial
              · cases h; rfl
          | countLocksForRange left right =>
              simp only [advance, enter] at h
              split at h <;>
              · cases h
                trivial
          | observeBatch batch => cases h; split <;> trivial
          | startRebuilder => cases h; split <;> trivial
          | _ => cases h; trivial
      | _ => contradiction
  | background =>
      cases a with
      | step =>
          simp only [advance] at h
          split at h
          · cases h; trivial
          · contradiction
      | _ => contradiction

theorem starting_of_flush {pc : FlushPc} {l' : Loc}
    (h : advance cfg std t a m (.flush pc) = some (m', l')) : l'.Starting := by
  cases pc with
  | lockPending =>
      simp only [advance, flushStep] at h
      split at h
      · cases h; trivial
      · contradiction
  | swap => cases h; trivial
  | unlockPending batch => cases h; split <;> trivial

/-- The background thread trains once it has `training_mutex_`. -/
theorem starting_of_trainer {pc : TrainerPc} {l' : Loc}
    (h : advance cfg std t a m (.trainer pc) = some (m', l')) : l'.Starting := by
  cases pc with
  | lockPending =>
      simp only [advance, trainerStep] at h
      split at h
      · cases h; trivial
      · contradiction
  | lockTraining batch =>
      simp only [advance, trainerStep] at h
      split at h
      · cases h; exact Or.inl rfl
      · contradiction
  | sleep =>
      cases a with
      | wake => cases h; trivial
      | _ =>
          simp only [advance, trainerStep] at h
          split at h
          · contradiction
          · cases h; trivial
  | _ => cases h; trivial

theorem starting_of_start {pc : StartPc} {l' : Loc}
    (h : advance cfg std t a m (.start pc) = some (m', l')) : l'.Starting := by
  cases pc with
  | create =>
      simp only [advance, startStep] at h
      split at h
      · cases h; trivial
      · contradiction
  | _ => cases h; trivial

theorem starting_of_stop {pc : StopPc} {l' : Loc}
    (h : advance cfg std t a m (.stop pc) = some (m', l')) : l'.Starting := by
  cases pc with
  | join =>
      simp only [advance, stopStep] at h
      split at h
      · cases h; trivial
      · split at h
        · cases h; trivial
        · contradiction
  | lockPending =>
      simp only [advance, stopStep] at h
      split at h
      · cases h; trivial
      · contradiction
  | _ => cases h; trivial

/-- Any other step leads to the start of a query or of a training, or to neither. -/
theorem starting_of_advance {l l' : Loc} (hl : l.Other)
    (h : advance cfg std t a m l = some (m', l')) : l'.Starting := by
  cases l with
  | query => exact hl.elim
  | train => exact hl.elim
  | idle => exact starting_of_idle cfg h
  | sample query pc =>
      simp only [advance, Option.map_eq_some_iff, Prod.mk.injEq] at h
      obtain ⟨⟨m'', r⟩, -, rfl, rfl⟩ := h
      cases r <;> trivial
  | observe batch =>
      simp only [advance] at h
      split at h
      · cases h
        dsimp only [Loc.Starting]
        split
        · exact Or.inl rfl
        · exact Or.inr rfl
      · contradiction
  | flush pc => exact starting_of_flush cfg h
  | trainer pc => exact starting_of_trainer cfg h
  | start pc => exact starting_of_start cfg h
  | stop pc => exact starting_of_stop cfg h
  | count left right pc =>
      cases pc with
      | epochCheck epoch firstLock lastLock => cases h; split <;> trivial
      | _ => cases h; trivial
  | cutsLock =>
      simp only [advance] at h
      split at h
      · cases h; trivial
      · contradiction
  | _ => cases h; trivial

theorem advance_bounded {l l' : Loc} (hl : l.Bounded cfg)
    (h : advance cfg std t a m l = some (m', l')) : l'.Bounded cfg := by
  cases l with
  | query left right pc =>
      simp only [advance, Option.map_eq_some_iff, Prod.mk.injEq] at h
      obtain ⟨⟨m'', r⟩, hstep, rfl, rfl⟩ := h
      exact bounded_queryStep cfg hl hstep
  | train caller batch pc =>
      simp only [advance, Option.map_eq_some_iff, Prod.mk.injEq] at h
      obtain ⟨⟨m'', r⟩, hstep, rfl, rfl⟩ := h
      exact bounded_trainStep cfg hstep
  | _ => exact (starting_of_advance cfg (by trivial) h).bounded cfg

/-! ## in every reachable state -/

variable {cfg} {seed : G} {s : State (Tid Client) (Mem Client G) Loc}

/-- **Run lemma**: so they do in every reachable state. -/
theorem bounded_of_reachable (hs : (machine cfg std seed Client).Reachable s) (t : Tid Client) :
    (s.loc t).Bounded cfg :=
  hs.localInvariant (Q := fun _ _ l => l.Bounded cfg) (fun _ => trivial)
    (fun _ _ _ _ _ _ hl h => advance_bounded cfg hl h) (fun _ _ _ _ _ _ _ _ hl _ => hl) t

/-- A mutex is recorded as held by the one thread that holds it. -/
theorem owned_of_reachable (hs : (machine cfg std seed Client).Reachable s) (x : Mutex) :
    Owned (s.mem.owner x) fun t => (s.loc t).Holds cfg x :=
  hs.owned (fun m => m.owner x) (fun l => l.Holds cfg x)
    (by cases x <;> rfl) (fun t => by cases x <;> exact id)
    fun s t a m' l' hreach h => advance_owner cfg (bounded_of_reachable hreach t) h x

end Steps

end GeneticLock
end DynLocks
