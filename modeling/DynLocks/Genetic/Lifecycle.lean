import DynLocks.Genetic.Machine
import DynLocks.Lib.Lifecycle

/-!
# DynLocks.Genetic.Lifecycle

The background thread of a `GeneticLock` that one thread owns.  The class has no
destructor of its own: after the last call the members are destroyed as they are,
and with them `training_thread_`.

* `quiet_advance` — the other steps touch neither `training_thread_` nor the flag;
* `inv_of_reachable` — the four pieces of state agree after any calls.
-/

namespace DynLocks
namespace GeneticLock

open Interleaving

variable {Client G : Type} {cfg : Config} {std : GeneticPartitioner.StdLib G} {seed : G}

/-! ## the life of the background thread -/

def Thread.life : Thread → Lifecycle.Thread
  | .none => .none
  | .created => .created
  | .running => .running
  | .finished => .finished

/-- Where a thread stands in `StartRebuilder` or `StopRebuilder`. -/
def Loc.owner : Loc → Lifecycle.Owner
  | .start .clearStop => .clearing
  | .start _ => .creating
  | .stop .disable => .asking
  | .stop .setStop => .asking
  | .stop .notify => .joining
  | .stop .join => .joining
  | .stop _ => .joined
  | _ => .out

/-- Where a thread stands in `TrainingLoop`. -/
def Loc.body : Loc → Lifecycle.Body
  | .trainer .unlockExit => .leaving
  | .trainer .exit => .leaving
  | .trainer _ => .looping
  | .train .trainingLoop _ _ => .looping
  | _ => .absent

/-- The members that the life of the thread is about. -/
def Mem.life (m : Mem Client G) : Lifecycle.Thread × Bool :=
  (m.trainingThread.life, m.stopTrainingThread)

/-- Outside of the calls that start and stop the thread, and not at the end of its body. -/
def Loc.Ordinary : Loc → Prop
  | .idle => False
  | .start _ => False
  | .stop _ => False
  | .trainer .exit => False
  | _ => True

/-- The step leaves the thread and its flag alone; a body that goes on to its end has seen the
flag. -/
structure Quiet (m : Mem Client G) (l : Loc) (m' : Mem Client G) (l' : Loc) : Prop where
  life : m'.life = m.life
  owner : l'.owner = .out
  body : l'.body = l.body ∨ l.body = .looping ∧ m.stopTrainingThread = true ∧ l'.body = .leaving

section Steps

variable [DecidableEq Client] {t : Tid Client} {a : Act} {m m' : Mem Client G}

theorem life_queryStep {left right : ℕ} {pc : QueryPc} {r : Option QueryPc}
    (h : queryStep cfg t a m left right pc = some (m', r)) : m'.life = m.life := by
  cases pc with
  | acquire epoch firstLock lastLock index =>
      simp only [queryStep] at h
      split at h
      · cases h; rfl
      · contradiction
  | inside firstLock lastLock pc =>
      simp only [queryStep, Option.map_eq_some_iff, Prod.mk.injEq] at h
      obtain ⟨⟨m'', r'⟩, hstep, rfl, -⟩ := h
      cases pc with
      | durationCas current =>
          cases a with
          | elapsed delta spurious =>
              simp only [insideStep] at hstep
              split at hstep <;> cases hstep <;> rfl
          | _ => contradiction
      | _ => cases hstep; rfl
  | _ => cases h; rfl

theorem life_sampleStep {query : Query} {pc : SamplePc} {r : Option SamplePc}
    (h : sampleStep cfg t m query pc = some (m', r)) : m'.life = m.life := by
  cases pc with
  | probeLoad operations =>
      simp only [sampleStep] at h
      split at h <;> cases h <;> rfl
  | lockPending =>
      simp only [sampleStep] at h
      split at h
      · cases h; rfl
      · contradiction
  | _ => cases h; rfl

theorem life_trainStep {batch : List Query} {pc : TrainPc} {r : Option TrainPc}
    (h : trainStep cfg std t a m batch pc = some (m', r)) : m'.life = m.life := by
  cases pc with
  | copyLock =>
      simp only [trainStep] at h
      split at h
      · cases h; rfl
      · contradiction
  | observe previousCuts =>
      simp only [trainStep, Option.map_eq_some_iff, Prod.mk.injEq] at h
      obtain ⟨r', -, rfl, -⟩ := h
      rfl
  | keepDurationCas current =>
      cases a with
      | elapsed delta spurious =>
          simp only [trainStep] at h
          split at h <;> cases h <;> rfl
      | _ => contradiction
  | lockAll nextCuts next =>
      simp only [trainStep] at h
      split at h
      · cases h; rfl
      · contradiction
  | publish concurrent nextCuts pc =>
      simp only [trainStep, Option.map_eq_some_iff, Prod.mk.injEq] at h
      obtain ⟨⟨m'', r'⟩, hstep, rfl, -⟩ := h
      cases pc with
      | lockCuts =>
          simp only [publishStep] at hstep
          split at hstep
          · cases hstep; rfl
          · contradiction
      | _ => cases hstep; rfl
  | durationCas current =>
      cases a with
      | elapsed delta spurious =>
          simp only [trainStep] at h
          split at h <;> cases h <;> rfl
      | _ => contradiction
  | _ => cases h; rfl

omit [DecidableEq Client] in
theorem quiet_trainerStep {pc : TrainerPc} {l' : Loc} (hpc : pc ≠ .exit)
    (h : trainerStep cfg t a m pc = some (m', l')) : Quiet m (.trainer pc) m' l' := by
  cases pc with
  | exit => exact absurd rfl hpc
  | lockPending =>
      simp only [trainerStep] at h
      split at h
      · cases h; exact ⟨rfl, rfl, Or.inl rfl⟩
      · contradiction
  | predStop => cases h; exact ⟨rfl, rfl, Or.inl (by split <;> rfl)⟩
  | predSize => cases h; exact ⟨rfl, rfl, Or.inl (by split <;> rfl)⟩
  | sleep =>
      cases a with
      | wake => cases h; exact ⟨rfl, rfl, Or.inl rfl⟩
      | _ =>
          simp only [trainerStep] at h
          split at h
          · contradiction
          · cases h; exact ⟨rfl, rfl, Or.inl rfl⟩
  | stopLoad =>
      cases h
      by_cases hstop : m.stopTrainingThread = true
      · exact ⟨rfl, rfl, Or.inr ⟨rfl, hstop, by simp [hstop, Loc.body]⟩⟩
      · exact ⟨rfl, rfl, Or.inl (by simp [hstop, Loc.body])⟩
  | unlockPending batch =>
      cases h
      have hnext : ∃ pc, (if cfg.hasEnoughSkew batch then TrainerPc.lockTraining batch
          else scheduleProbe cfg .probeLoad .lockPending) = pc ∧
            (Loc.trainer pc).body = .looping := by
        refine ⟨_, rfl, ?_⟩
        unfold scheduleProbe
        split
        · rfl
        · split <;> rfl
      obtain ⟨pc, hpc', hbody⟩ := hnext
      rw [hpc']
      exact ⟨rfl, rfl, Or.inl hbody⟩
  | lockTraining batch =>
      simp only [trainerStep] at h
      split at h
      · cases h; exact ⟨rfl, rfl, Or.inl rfl⟩
      · contradiction
  | _ => cases h; exact ⟨rfl, rfl, Or.inl rfl⟩

/-- The other steps are quiet. -/
theorem quiet_advance {l l' : Loc} (hl : l.Ordinary)
    (h : advance cfg std t a m l = some (m', l')) : Quiet m l m' l' := by
  cases l with
  | idle => exact hl.elim
  | start => exact hl.elim
  | stop => exact hl.elim
  | query left right pc =>
      simp only [advance, Option.map_eq_some_iff, Prod.mk.injEq] at h
      obtain ⟨⟨m'', r⟩, hstep, rfl, rfl⟩ := h
      exact ⟨life_queryStep hstep, by cases r <;> rfl, Or.inl (by cases r <;> rfl)⟩
  | sample query pc =>
      simp only [advance, Option.map_eq_some_iff, Prod.mk.injEq] at h
      obtain ⟨⟨m'', r⟩, hstep, rfl, rfl⟩ := h
      exact ⟨life_sampleStep hstep, by cases r <;> rfl, Or.inl (by cases r <;> rfl)⟩
  | observe batch =>
      simp only [advance] at h
      split at h
      · cases h; exact ⟨rfl, rfl, Or.inl rfl⟩
      · contradiction
  | train caller batch pc =>
      simp only [advance, Option.map_eq_some_iff, Prod.mk.injEq] at h
      obtain ⟨⟨m'', r⟩, hstep, rfl, rfl⟩ := h
      refine ⟨life_trainStep hstep, ?_, Or.inl ?_⟩ <;> cases r <;> cases caller <;> rfl
  | flush pc =>
      cases pc with
      | lockPending =>
          simp only [advance, flushStep] at h
          split at h
          · cases h; exact ⟨rfl, rfl, Or.inl rfl⟩
          · contradiction
      | swap => cases h; exact ⟨rfl, rfl, Or.inl rfl⟩
      | unlockPending batch =>
          cases h
          exact ⟨rfl, by split <;> rfl, Or.inl (by split <;> rfl)⟩
  | trainer pc =>
      refine quiet_trainerStep (fun hpc => ?_) h
      rw [hpc] at hl
      exact hl
  | count left right pc =>
      cases pc with
      | epochLoad => cases h; exact ⟨rfl, rfl, Or.inl rfl⟩
      | epochCheck epoch firstLock lastLock =>
          cases h
          exact ⟨rfl, by split <;> rfl, Or.inl (by split <;> rfl)⟩
      | _ => cases h; exact ⟨rfl, rfl, Or.inl rfl⟩
  | cutsLock =>
      simp only [advance] at h
      split at h
      · cases h; exact ⟨rfl, rfl, Or.inl rfl⟩
      · contradiction
  | _ => cases h; exact ⟨rfl, rfl, Or.inl rfl⟩

end Steps

/-! ## one owner -/

def Call.life : Call → Option Lifecycle.Call
  | .startRebuilder => some .start
  | .stopRebuilder => some .stop
  | _ => none

/-- A state of the lock and its one owner as a state in the life of the background thread. -/
def life (s : State (Tid Unit) (Mem Unit G) Loc) : Lifecycle.State where
  thread := s.mem.trainingThread.life
  stopFlag := s.mem.stopTrainingThread
  owner := (s.loc (.client ())).owner
  body := (s.loc .background).body

/-- The background thread makes no calls, and the owner does not run its body. -/
structure Roles (s : State (Tid Unit) (Mem Unit G) Loc) : Prop where
  client : (s.loc (.client ())).body = .absent
  background : (s.loc .background).owner = .out

variable {s s' : State (Tid Unit) (Mem Unit G) Loc}

/-- Two states with the same life. -/
theorem life_eq (hmem : s'.mem.life = s.mem.life)
    (howner : (s'.loc (.client ())).owner = (s.loc (.client ())).owner)
    (hbody : (s'.loc .background).body = (s.loc .background).body) : life s' = life s := by
  simp only [Mem.life, Prod.mk.injEq] at hmem
  simp only [life, hmem.1, hmem.2, howner, hbody]

/-- Where a call starts; entering it changes nothing. -/
theorem owner_of_enter {m m' : Mem Unit G} {c : Call} {l' : Loc}
    (h : enter cfg m c = some (m', l')) : m' = m ∧ l'.body = .absent ∧ l'.owner =
      match c with
      | .startRebuilder => if m.trainingThread = .none then .clearing else .out
      | .stopRebuilder => .asking
      | _ => .out := by
  cases c with
  | writeQuery left right =>
      simp only [enter] at h
      split at h <;> cases h <;> exact ⟨rfl, rfl, rfl⟩
  | observeBatch batch =>
      cases h
      exact ⟨rfl, by split <;> rfl, by split <;> rfl⟩
  | startRebuilder =>
      cases h
      refine ⟨rfl, by split <;> rfl, ?_⟩
      by_cases hnone : m.trainingThread = .none <;> simp [hnone, Loc.owner]
  | countLocksForRange left right =>
      simp only [enter] at h
      split at h <;> cases h <;> exact ⟨rfl, rfl, rfl⟩
  | _ => cases h; exact ⟨rfl, rfl, rfl⟩

theorem Thread.life_eq_none {thread : Thread} : thread.life = .none ↔ thread = .none := by
  cases thread <;> simp [Thread.life]

/-- A call of the owner. -/
theorem move_of_enter {c : Call} (hs : Roles s) (hidle : s.loc (.client ()) = .idle)
    (h : enter cfg s.mem c = some (s'.mem, s'.loc (.client ())))
    (hframe : s'.loc .background = s.loc .background) :
    Lifecycle.Move (life s) c.life (life s') ∧ Roles s' := by
  obtain ⟨hmem, hbody, howner⟩ := owner_of_enter h
  have hout : (life s).owner = .out := by simp [life, hidle, Loc.owner]
  have hlife : life s' = { life s with owner := (s'.loc (.client ())).owner } := by
    simp [life, hmem, hframe]
  refine ⟨?_, hbody, by rw [hframe]; exact hs.background⟩
  rw [hlife, howner]
  cases c with
  | startRebuilder =>
      by_cases hnone : s.mem.trainingThread = .none
      · simp only [hnone, if_true]
        exact .startFirst hout (Thread.life_eq_none.mpr hnone)
      · simp only [hnone, if_false]
        rw [← hout]
        exact .startAgain hout fun hlife => hnone (Thread.life_eq_none.mp hlife)
  | stopRebuilder => exact .stop hout
  | _ => simp only; rw [← hout]; exact .stay

theorem Loc.Ordinary.owner {l : Loc} (h : l.Ordinary) : l.owner = .out := by
  cases l with
  | start => exact h.elim
  | stop => exact h.elim
  | _ => rfl

/-- A step of `StartRebuilder`. -/
theorem move_of_startStep {pc : StartPc} (hloc : s.loc (.client ()) = .start pc)
    (h : startStep cfg s.mem pc = some (s'.mem, s'.loc (.client ())))
    (hframe : s'.loc .background = s.loc .background) :
    Lifecycle.Move (life s) none (life s') ∧ (s'.loc (.client ())).body = .absent := by
  cases pc with
  | clearStop =>
      simp only [startStep, Option.some.injEq, Prod.mk.injEq] at h
      obtain ⟨hmem, hnext⟩ := h
      have hmove : life s' = { life s with stopFlag := false, owner := .creating } := by
        simp [life, ← hmem, ← hnext, hframe, Loc.owner]
      rw [hmove, ← hnext]
      exact ⟨.clear (by simp [life, hloc, Loc.owner]), rfl⟩
  | create =>
      simp only [startStep] at h
      split at h
      · next hnone =>
          simp only [Option.some.injEq, Prod.mk.injEq] at h
          obtain ⟨hmem, hnext⟩ := h
          have hmove : life s' = { life s with thread := .created, owner := .out } := by
            simp [life, ← hmem, ← hnext, hframe, Loc.owner, Thread.life]
          rw [hmove, ← hnext]
          exact ⟨.create (by simp [life, hloc, Loc.owner]) (by simp [life, hnone, Thread.life]), rfl⟩
      · contradiction
  | _ =>
      simp only [startStep, Option.some.injEq, Prod.mk.injEq] at h
      obtain ⟨hmem, hnext⟩ := h
      have hstay : life s' = life s := life_eq (by rw [← hmem]; rfl)
        (by rw [← hnext, hloc]; rfl) (by rw [hframe])
      rw [hstay, ← hnext]
      exact ⟨.stay, rfl⟩

/-- A step of `StopRebuilder`. -/
theorem move_of_stopStep {pc : StopPc} (hloc : s.loc (.client ()) = .stop pc)
    (h : stopStep (.client ()) s.mem pc = some (s'.mem, s'.loc (.client ())))
    (hframe : s'.loc .background = s.loc .background) :
    Lifecycle.Move (life s) none (life s') ∧ (s'.loc (.client ())).body = .absent := by
  have hstay : s'.mem.life = s.mem.life →
      (s'.loc (.client ())).owner = (s.loc (.client ())).owner →
        Lifecycle.Move (life s) none (life s') := by
    intro hmem howner
    rw [life_eq hmem howner (by rw [hframe])]
    exact .stay
  cases pc with
  | setStop =>
      simp only [stopStep, Option.some.injEq, Prod.mk.injEq] at h
      obtain ⟨hmem, hnext⟩ := h
      have hmove : life s' = { life s with stopFlag := true, owner := .joining } := by
        simp [life, ← hmem, ← hnext, hframe, Loc.owner]
      rw [hmove, ← hnext]
      exact ⟨.ask (by simp [life, hloc, Loc.owner]), rfl⟩
  | join =>
      have hjoining : (life s).owner = .joining := by simp [life, hloc, Loc.owner]
      have hjoined : ∀ (_ : (life s).thread = .none ∨ (life s).thread = .finished),
          s'.mem.trainingThread = .none → s'.mem.stopTrainingThread = s.mem.stopTrainingThread →
          s'.loc (.client ()) = .stop .lockPending →
          Lifecycle.Move (life s) none (life s') ∧ (s'.loc (.client ())).body = .absent := by
        intro hthread hnone hflag hnext
        have hmove : life s' = { life s with thread := .none, owner := .joined } := by
          simp [life, hnone, hflag, hnext, hframe, Loc.owner, Thread.life]
        rw [hmove, hnext]
        exact ⟨.join hjoining hthread, rfl⟩
      simp only [stopStep] at h
      split at h
      · next hnone =>
          simp only [Option.some.injEq, Prod.mk.injEq] at h
          obtain ⟨hmem, hnext⟩ := h
          exact hjoined (Or.inl (by simp [life, hnone, Thread.life])) (by rw [← hmem, hnone])
            (by rw [hmem]) hnext.symm
      · split at h
        · next hfinished =>
            simp only [Option.some.injEq, Prod.mk.injEq] at h
            obtain ⟨hmem, hnext⟩ := h
            exact hjoined (Or.inr (by simp [life, hfinished, Thread.life])) (by rw [← hmem])
              (by rw [← hmem]) hnext.symm
        · contradiction
  | lockPending =>
      simp only [stopStep] at h
      split at h
      · simp only [Option.some.injEq, Prod.mk.injEq] at h
        obtain ⟨hmem, hnext⟩ := h
        exact ⟨hstay (by rw [← hmem]; rfl) (by rw [← hnext, hloc]; rfl), by rw [← hnext]; rfl⟩
      · contradiction
  | unlockPending =>
      simp only [stopStep, Option.some.injEq, Prod.mk.injEq] at h
      obtain ⟨hmem, hnext⟩ := h
      have hmove : life s' = { life s with owner := .out } := by
        simp [life, ← hmem, ← hnext, hframe, Loc.owner]
      rw [hmove, ← hnext]
      exact ⟨.returned (by simp [life, hloc, Loc.owner]), rfl⟩
  | _ =>
      simp only [stopStep, Option.some.injEq, Prod.mk.injEq] at h
      obtain ⟨hmem, hnext⟩ := h
      exact ⟨hstay (by rw [← hmem]; rfl) (by rw [← hnext, hloc]; rfl), by rw [← hnext]; rfl⟩

/-- A step of the owner inside a call. -/
theorem move_of_client {a : Act} (hs : Roles s) (hbusy : s.loc (.client ()) ≠ .idle)
    (h : advance cfg std (.client ()) a s.mem (s.loc (.client ())) =
      some (s'.mem, s'.loc (.client ())))
    (hframe : s'.loc .background = s.loc .background) :
    Lifecycle.Move (life s) none (life s') ∧ Roles s' := by
  have hbackground : (s'.loc .background).owner = .out := by rw [hframe]; exact hs.background
  by_cases hordinary : (s.loc (.client ())).Ordinary
  · obtain ⟨hlife, howner, hbody⟩ := quiet_advance hordinary h
    rw [hs.client] at hbody
    have habsent : (s'.loc (.client ())).body = .absent := by
      rcases hbody with hsame | ⟨hlooping, -⟩
      · exact hsame
      · contradiction
    rw [life_eq hlife (howner.trans hordinary.owner.symm) (by rw [hframe])]
    exact ⟨.stay, habsent, hbackground⟩
  · cases hloc : s.loc (.client ()) with
    | idle => exact absurd hloc hbusy
    | start pc =>
        rw [hloc] at h
        obtain ⟨hmove, habsent⟩ := move_of_startStep hloc h hframe
        exact ⟨hmove, habsent, hbackground⟩
    | stop pc =>
        rw [hloc] at h
        obtain ⟨hmove, habsent⟩ := move_of_stopStep hloc h hframe
        exact ⟨hmove, habsent, hbackground⟩
    | trainer pc =>
        have hclient := hs.client
        rw [hloc] at hclient
        cases pc <;> contradiction
    | _ => rw [hloc] at hordinary; exact absurd trivial hordinary

/-- A step of the background thread. -/
theorem move_of_background {a : Act} (hs : Roles s)
    (h : advance cfg std .background a s.mem (s.loc .background) =
      some (s'.mem, s'.loc .background))
    (hframe : s'.loc (.client ()) = s.loc (.client ())) :
    Lifecycle.Move (life s) none (life s') ∧ Roles s' := by
  have hclient : (s'.loc (.client ())).body = .absent := by rw [hframe]; exact hs.client
  by_cases hordinary : (s.loc .background).Ordinary
  · obtain ⟨hlife, howner, hsame | ⟨hlooping, hstop, hleaving⟩⟩ := quiet_advance hordinary h
    · rw [life_eq hlife (by rw [hframe]) hsame]
      exact ⟨.stay, hclient, howner⟩
    · have hmove : life s' = { life s with body := .leaving } := by
        simp only [Mem.life, Prod.mk.injEq] at hlife
        simp [life, hlife.1, hlife.2, hframe, hleaving]
      rw [hmove]
      exact ⟨.leave hlooping hstop, hclient, howner⟩
  · cases hloc : s.loc .background with
    | idle =>
        rw [hloc] at h
        cases a with
        | step =>
            simp only [advance] at h
            split at h
            · next hcreated =>
                simp only [Option.some.injEq, Prod.mk.injEq] at h
                obtain ⟨hmem, hnext⟩ := h
                have hmove : life s' = { life s with thread := .running, body := .looping } := by
                  simp [life, ← hmem, ← hnext, hframe, Loc.body, Thread.life]
                rw [hmove]
                refine ⟨.begin ?_ ?_, hclient, by rw [← hnext]; rfl⟩
                · simp [life, hcreated, Thread.life]
                · simp [life, hloc, Loc.body]
            · contradiction
        | _ => contradiction
    | start pc =>
        have hbackground := hs.background
        rw [hloc] at hbackground
        cases pc <;> contradiction
    | stop pc =>
        have hbackground := hs.background
        rw [hloc] at hbackground
        cases pc <;> contradiction
    | trainer pc =>
        cases pc with
        | exit =>
            rw [hloc] at h
            simp only [advance, trainerStep, Option.some.injEq, Prod.mk.injEq] at h
            obtain ⟨hmem, hnext⟩ := h
            have hmove : life s' = { life s with thread := .finished, body := .absent } := by
              simp [life, ← hmem, ← hnext, hframe, Loc.body, Thread.life]
            rw [hmove]
            exact ⟨.finish (by simp [life, hloc, Loc.body]), hclient, by rw [← hnext]; rfl⟩
        | _ => rw [hloc] at hordinary; exact absurd trivial hordinary
    | _ => rw [hloc] at hordinary; exact absurd trivial hordinary

/-! ## after any calls -/

/-- The owner makes its calls from the client thread. -/
def ownerScript : Script (Tid Unit) Act Loc Call := ⟨.client (), Loc.isIdle, .call⟩

variable (cfg std seed) in
/-- A `GeneticLock` whose owner makes these calls and then destroys it. -/
def owned (calls : List Call) : Program (Tid Unit) Act (ScriptMem (Mem Unit G) Call) Loc :=
  ownerScript.program (machine cfg std seed Unit) calls

/-- After any calls the state of the lock and the place of its owner agree with the last of them
that starts or stops the thread. -/
theorem inv_of_reachable {calls : List Call}
    {s : State (Tid Unit) (ScriptMem (Mem Unit G) Call) Loc}
    (hs : (owned cfg std seed calls).Reachable s) :
    ∃ made, calls = made ++ s.mem.todo ∧
      Lifecycle.Inv (Lifecycle.lastCall Call.life made) (life (Script.object s)) := by
  have hroles : Roles (machine cfg std seed Unit).initial := ⟨rfl, rfl⟩
  refine Lifecycle.inv_of_reachable rfl hroles ?_ ?_ hs
  · intro c s s' hs hidle hadvance hframe
    have hloc : s.loc (.client ()) = .idle := Loc.eq_idle hidle
    have henter : enter cfg s.mem c = some (s'.mem, s'.loc (.client ())) := by
      rw [show s.loc ownerScript.owner = .idle from hloc] at hadvance
      exact hadvance
    exact move_of_enter hs hloc henter (hframe _ (by simp [ownerScript]))
  · intro s s' t a hs hbusy hadvance hframe
    cases t with
    | client c =>
        have hloc : s.loc (.client ()) ≠ .idle := by
          intro hidle
          have hnot := hbusy rfl
          rw [hidle] at hnot
          contradiction
        exact move_of_client hs hloc hadvance (hframe _ (by simp))
    | background => exact move_of_background hs hadvance (hframe _ (by simp))

end GeneticLock
end DynLocks
