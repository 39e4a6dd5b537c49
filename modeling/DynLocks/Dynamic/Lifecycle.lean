import DynLocks.Dynamic.Protocol
import DynLocks.Lib.Lifecycle

/-!
# DynLocks.Dynamic.Lifecycle

The background thread of a `DynamicLock` that one thread owns: `StartRebuilder`
creates it, `StopRebuilder` joins it, and the destructor is one more call of
`StopRebuilder` before the members are destroyed.

* `quiet_advance` — the other steps touch neither `rebuild_thread_` nor the flag;
* `move_of_advance` — every step is one in the life of the thread;
* `inv_of_reachable` — so the four pieces of state agree after any calls.
-/

namespace DynLocks
namespace DynamicLock

open Interleaving

variable {Client : Type} {cfg : Config}

/-! ## the life of the background thread -/

def Thread.life : Thread → Lifecycle.Thread
  | .none => .none
  | .created _ _ => .created
  | .running => .running
  | .finished => .finished

/-- Where a thread stands in `StartRebuilder` or `StopRebuilder`. -/
def Loc.owner : Loc → Lifecycle.Owner
  | .start _ _ 0 => .clearing
  | .start _ _ _ => .creating
  | .stop 0 => .asking
  | .stop 1 => .joining
  | .stop _ => .joined
  | _ => .out

theorem owner_start_ne (interval : ℕ) (changeThreshold : ℚ) (stage : Fin 4) :
    (Loc.start interval changeThreshold stage).owner ≠ .out := by
  unfold Loc.owner
  split <;> simp_all

theorem owner_stop_ne (stage : Fin 4) : (Loc.stop stage).owner ≠ .out := by
  unfold Loc.owner
  split <;> simp_all

def Caller.body : Caller → Lifecycle.Body
  | .rebuildNow => .absent
  | .rebuilder _ _ => .looping

/-- Where a thread stands in the body of the background thread. -/
def Loc.body : Loc → Lifecycle.Body
  | .rebuilder _ _ .exit => .leaving
  | .rebuilder _ _ _ => .looping
  | .rebuild caller _ _ => caller.body
  | .countRebuild caller => caller.body
  | _ => .absent

/-- The members that the life of the thread is about. -/
def Mem.life (m : Mem Client) : Lifecycle.Thread × Bool := (m.rebuildThread.life, m.stopRebuilder)

/-- Outside of the calls that start and stop the thread, and not at the end of its body. -/
def Loc.Ordinary : Loc → Prop
  | .idle => False
  | .start _ _ _ => False
  | .stop _ => False
  | .rebuilder _ _ .exit => False
  | _ => True

/-- The step leaves the thread and its flag alone; a body that goes on to its end has seen the
flag. -/
structure Quiet (m : Mem Client) (l : Loc) (m' : Mem Client) (l' : Loc) : Prop where
  life : m'.life = m.life
  owner : l'.owner = .out
  body : l'.body = l.body ∨ l.body = .looping ∧ m.stopRebuilder = true ∧ l'.body = .leaving

theorem Caller.owner_resume (caller : Caller) : caller.resume.owner = .out := by
  cases caller <;> rfl

theorem Caller.body_resume (caller : Caller) : caller.resume.body = caller.body := by
  cases caller <;> rfl

theorem life_resetStep (stats : ℕ → UInt64) (m : Mem Client) (pc : ResetPc) :
    (resetStep cfg stats m pc).1.life = m.life := by
  cases pc <;> rfl

section Steps

variable [DecidableEq Client] {t : Tid Client} {a : Act} {m m' : Mem Client}

theorem life_queryStep {left right : ℕ} {pc : QueryPc} {r : Option QueryPc}
    (h : queryStep cfg t a m left right pc = some (m', r)) : m'.life = m.life := by
  cases pc with
  | acquire epoch lockStart lockEnd index =>
      simp only [queryStep] at h
      split at h
      · cases h; rfl
      · contradiction
  | inside lockStart lockEnd pc =>
      simp only [queryStep, Option.map_eq_some_iff, Prod.mk.injEq] at h
      obtain ⟨⟨m'', r'⟩, hstep, rfl, -⟩ := h
      cases pc with
      | durationCas current =>
          cases a with
          | elapsed delta spurious =>
              simp only [insideStep] at hstep
              split at hstep <;> cases hstep <;> rfl
          | step => contradiction
          | call => contradiction
      | sampleLoad =>
          simp only [insideStep] at hstep
          split at hstep
          · cases hstep; rfl
          · split at hstep <;> cases hstep <;> rfl
      | _ => cases hstep; rfl
  | _ => cases h; rfl

theorem life_rebuildStep {snapshot snapshot' : Counters UInt64} {pc pc' : RebuildPc}
    (h : rebuildStep cfg t m snapshot pc = some (m', snapshot', pc')) : m'.life = m.life := by
  cases pc with
  | gainLock =>
      simp only [rebuildStep] at h
      split at h
      · cases h; rfl
      · contradiction
  | lockAll next =>
      simp only [rebuildStep] at h
      split at h
      · cases h; rfl
      · contradiction
  | keep pc =>
      simp only [rebuildStep, Option.map_eq_some_iff, Prod.mk.injEq] at h
      obtain ⟨⟨m'', r⟩, hstep, rfl, -, -⟩ := h
      cases pc with
      | lockStats =>
          simp only [keepStep] at hstep
          split at hstep
          · cases hstep; rfl
          · contradiction
      | reset pc => cases hstep; exact life_resetStep _ m pc
      | _ => cases hstep; rfl
  | publish pc =>
      simp only [rebuildStep, Option.map_eq_some_iff, Prod.mk.injEq] at h
      obtain ⟨⟨m'', r⟩, hstep, rfl, -, -⟩ := h
      cases pc with
      | lockPartitions =>
          simp only [publishStep] at hstep
          split at hstep
          · cases hstep; rfl
          · contradiction
      | lockStats =>
          simp only [publishStep] at hstep
          split at hstep
          · cases hstep; rfl
          · contradiction
      | reset pc => cases hstep; exact life_resetStep _ m pc
      | _ => cases hstep; rfl
  | ret result => contradiction
  | _ => cases h; rfl

omit [DecidableEq Client] in
theorem quiet_rebuilderStep {interval : ℕ} {changeThreshold : ℚ} {pc : RebuilderPc} {l' : Loc}
    (hpc : pc ≠ .exit) (h : rebuilderStep cfg t m interval changeThreshold pc = some (m', l')) :
    Quiet m (.rebuilder interval changeThreshold pc) m' l' := by
  cases pc with
  | exit => exact absurd rfl hpc
  | outerLoad =>
      cases h
      by_cases hstop : m.stopRebuilder = true
      · exact ⟨rfl, rfl, Or.inr ⟨rfl, hstop, by simp [hstop, Loc.body]⟩⟩
      · exact ⟨rfl, rfl, Or.inl (by simp [hstop, Loc.body])⟩
  | innerLoad slept =>
      cases h
      exact ⟨rfl, rfl, Or.inl (by split <;> rfl)⟩
  | stopLoad =>
      cases h
      by_cases hstop : m.stopRebuilder = true
      · exact ⟨rfl, rfl, Or.inr ⟨rfl, hstop, by simp [hstop, Loc.body]⟩⟩
      · exact ⟨rfl, rfl, Or.inl (by simp [hstop, Loc.body])⟩
  | should snapshot pc =>
      simp only [rebuilderStep, Option.map_eq_some_iff, Prod.mk.injEq] at h
      obtain ⟨⟨m'', snapshot', r⟩, hstep, rfl, rfl⟩ := h
      refine ⟨?_, by dsimp only; split <;> rfl, Or.inl (by dsimp only; split <;> rfl)⟩
      cases pc with
      | lockStats =>
          simp only [shouldStep] at hstep
          split at hstep
          · cases hstep; rfl
          · contradiction
      | decide =>
          simp only [shouldStep] at hstep
          split at hstep
          · cases hstep; rfl
          · split at hstep
            · cases hstep; rfl
            · split at hstep <;> cases hstep <;> rfl
      | reset pc => cases hstep; exact life_resetStep _ m pc
      | snapStats i => cases hstep; rfl
      | unlockStats result => cases hstep; rfl

/-- The other steps are quiet. -/
theorem quiet_advance {l l' : Loc} (hl : l.Ordinary) (h : advance cfg t a m l = some (m', l')) :
    Quiet m l m' l' := by
  cases l with
  | idle => exact hl.elim
  | start => exact hl.elim
  | stop => exact hl.elim
  | query left right pc =>
      simp only [advance, Option.map_eq_some_iff, Prod.mk.injEq] at h
      obtain ⟨⟨m'', r⟩, hstep, rfl, rfl⟩ := h
      exact ⟨life_queryStep hstep, by cases r <;> rfl, Or.inl (by cases r <;> rfl)⟩
  | rebuild caller snapshot pc =>
      rcases advance_rebuild cfg h with ⟨result, rfl, rfl, rfl⟩ | ⟨snapshot', pc', hstep, rfl⟩
      · cases result with
        | true => exact ⟨rfl, rfl, Or.inl rfl⟩
        | false => exact ⟨rfl, caller.owner_resume, Or.inl caller.body_resume⟩
      · exact ⟨life_rebuildStep hstep, rfl, Or.inl rfl⟩
  | countRebuild caller =>
      cases h
      exact ⟨rfl, caller.owner_resume, Or.inl caller.body_resume⟩
  | rebuildNow snapshot i =>
      cases h
      refine ⟨rfl, ?_, Or.inl ?_⟩ <;> (split; rfl; split <;> rfl)
  | rebuilder interval changeThreshold pc =>
      refine quiet_rebuilderStep (fun hpc => ?_) h
      rw [hpc] at hl
      exact hl
  | forceLock =>
      simp only [advance] at h
      split at h
      · cases h; exact ⟨rfl, rfl, Or.inl rfl⟩
      · contradiction
  | forceCrossings i =>
      cases h
      exact ⟨rfl, by split <;> rfl, Or.inl (by split <;> rfl)⟩
  | count left right pc =>
      cases pc with
      | lockPartitions =>
          simp only [advance, countStep] at h
          split at h
          · cases h; exact ⟨rfl, rfl, Or.inl rfl⟩
          · contradiction
      | _ => cases h; exact ⟨rfl, rfl, Or.inl rfl⟩
  | cutsLock =>
      simp only [advance] at h
      split at h
      · cases h; exact ⟨rfl, rfl, Or.inl rfl⟩
      · contradiction
  | _ => cases h; exact ⟨rfl, rfl, Or.inl rfl⟩

end Steps

/-! ## one owner -/

def Call.life : Call → Option Lifecycle.Call
  | .startRebuilder _ _ => some .start
  | .stopRebuilder => some .stop
  | _ => none

/-- A state of the lock and its one owner as a state in the life of the background thread. -/
def life (s : State (Tid Unit) (Mem Unit) Loc) : Lifecycle.State where
  thread := s.mem.rebuildThread.life
  stopFlag := s.mem.stopRebuilder
  owner := (s.loc (.client ())).owner
  body := (s.loc .background).body

/-- The background thread makes no calls, and the owner does not run its body. -/
structure Roles (s : State (Tid Unit) (Mem Unit) Loc) : Prop where
  client : (s.loc (.client ())).body = .absent
  background : (s.loc .background).owner = .out

variable {s s' : State (Tid Unit) (Mem Unit) Loc}

/-- Two states with the same life. -/
theorem life_eq (hmem : s'.mem.life = s.mem.life)
    (howner : (s'.loc (.client ())).owner = (s.loc (.client ())).owner)
    (hbody : (s'.loc .background).body = (s.loc .background).body) : life s' = life s := by
  simp only [Mem.life, Prod.mk.injEq] at hmem
  simp only [life, hmem.1, hmem.2, howner, hbody]

/-- Where a call starts. -/
theorem owner_of_enter {m m' : Mem Unit} {c : Call} {l' : Loc}
    (h : enter cfg m c = some (m', l')) : l'.body = .absent ∧ l'.owner =
      match c with
      | .startRebuilder _ _ => if m.rebuildThread = .none then .clearing else .out
      | .stopRebuilder => .asking
      | _ => .out := by
  cases c with
  | writeQuery left right =>
      simp only [enter] at h
      split at h <;> cases h <;> exact ⟨rfl, rfl⟩
  | startRebuilder interval changeThreshold =>
      simp only [enter] at h
      split at h
      · next hnone => cases h; exact ⟨rfl, by simp [hnone, Loc.owner]⟩
      · next hsome => cases h; exact ⟨rfl, by simp [hsome, Loc.owner]⟩
  | countLocksForRange left right =>
      simp only [enter] at h
      split at h <;> cases h <;> exact ⟨rfl, rfl⟩
  | _ => cases h; exact ⟨rfl, rfl⟩

theorem Thread.life_eq_none {thread : Thread} : thread.life = .none ↔ thread = .none := by
  cases thread <;> simp [Thread.life]

/-- A call of the owner. -/
theorem move_of_enter {c : Call} (hs : Roles s) (hidle : s.loc (.client ()) = .idle)
    (h : enter cfg s.mem c = some (s'.mem, s'.loc (.client ())))
    (hframe : s'.loc .background = s.loc .background) :
    Lifecycle.Move (life s) c.life (life s') ∧ Roles s' := by
  have hmem : s'.mem = s.mem := eq_of_enter h
  obtain ⟨hbody, howner⟩ := owner_of_enter h
  have hout : (life s).owner = .out := by simp [life, hidle, Loc.owner]
  have hlife : life s' = { life s with owner := (s'.loc (.client ())).owner } := by
    simp [life, hmem, hframe]
  refine ⟨?_, hbody, by rw [hframe]; exact hs.background⟩
  rw [hlife, howner]
  cases c with
  | startRebuilder interval changeThreshold =>
      by_cases hnone : s.mem.rebuildThread = .none
      · simp only [hnone, if_true]
        exact .startFirst hout (Thread.life_eq_none.mpr hnone)
      · simp only [hnone, if_false]
        rw [← hout]
        exact .startAgain hout fun hlife => hnone (Thread.life_eq_none.mp hlife)
  | stopRebuilder => exact .stop hout
  | _ => simp only; rw [← hout]; exact .stay

theorem Loc.Ordinary.owner {l : Loc} (h : l.Ordinary) : l.owner = .out := by
  cases l with
  | start => exact h.elim
  | stop => exact h.elim
  | _ => rfl

/-- A step of `StartRebuilder`. -/
theorem move_of_startStep {interval : ℕ} {changeThreshold : ℚ} {stage : Fin 4}
    (hloc : s.loc (.client ()) = .start interval changeThreshold stage)
    (h : startStep s.mem interval changeThreshold stage = some (s'.mem, s'.loc (.client ())))
    (hframe : s'.loc .background = s.loc .background) :
    Lifecycle.Move (life s) none (life s') ∧ (s'.loc (.client ())).body = .absent := by
  match stage with
  | 0 =>
      simp only [startStep, Option.some.injEq, Prod.mk.injEq] at h
      obtain ⟨hmem, hnext⟩ := h
      have hmove : life s' = { life s with stopFlag := false, owner := .creating } := by
        simp [life, ← hmem, ← hnext, hframe, Loc.owner]
      rw [hmove, ← hnext]
      exact ⟨.clear (by simp [life, hloc, Loc.owner]), rfl⟩
  | 1 =>
      simp only [startStep, Option.some.injEq, Prod.mk.injEq] at h
      obtain ⟨hmem, hnext⟩ := h
      have hstay : life s' = life s := life_eq (by rw [← hmem]; rfl)
        (by rw [← hnext, hloc]; rfl) (by rw [hframe])
      rw [hstay, ← hnext]
      exact ⟨.stay, rfl⟩
  | 2 =>
      simp only [startStep, Option.some.injEq, Prod.mk.injEq] at h
      obtain ⟨hmem, hnext⟩ := h
      have hstay : life s' = life s := life_eq (by rw [← hmem]; rfl)
        (by rw [← hnext, hloc]; rfl) (by rw [hframe])
      rw [hstay, ← hnext]
      exact ⟨.stay, rfl⟩
  | 3 =>
      simp only [startStep] at h
      split at h
      · next hnone =>
          simp only [Option.some.injEq, Prod.mk.injEq] at h
          obtain ⟨hmem, hnext⟩ := h
          have hmove : life s' = { life s with thread := .created, owner := .out } := by
            simp [life, ← hmem, ← hnext, hframe, Loc.owner, Thread.life]
          rw [hmove, ← hnext]
          exact ⟨.create (by simp [life, hloc, Loc.owner]) (by simp [life, hnone, Thread.life]), rfl⟩
      · contradiction

/-- A step of `StopRebuilder`. -/
theorem move_of_stopStep {stage : Fin 4} (hloc : s.loc (.client ()) = .stop stage)
    (h : stopStep s.mem stage = some (s'.mem, s'.loc (.client ())))
    (hframe : s'.loc .background = s.loc .background) :
    Lifecycle.Move (life s) none (life s') ∧ (s'.loc (.client ())).body = .absent := by
  match stage with
  | 0 =>
      simp only [stopStep, Option.some.injEq, Prod.mk.injEq] at h
      obtain ⟨hmem, hnext⟩ := h
      have hmove : life s' = { life s with stopFlag := true, owner := .joining } := by
        simp [life, ← hmem, ← hnext, hframe, Loc.owner]
      rw [hmove, ← hnext]
      exact ⟨.ask (by simp [life, hloc, Loc.owner]), rfl⟩
  | 1 =>
      have hjoining : (life s).owner = .joining := by simp [life, hloc, Loc.owner]
      have hjoined : ∀ (_ : (life s).thread = .none ∨ (life s).thread = .finished),
          s'.mem.rebuildThread = .none → s'.mem.stopRebuilder = s.mem.stopRebuilder →
          s'.loc (.client ()) = .stop 2 →
          Lifecycle.Move (life s) none (life s') ∧ (s'.loc (.client ())).body = .absent := by
        intro hthread hnone hflag hnext
        have hmove : life s' = { life s with thread := .none, owner := .joined } := by
          simp [life, hnone, hflag, hnext, hframe, Loc.owner, Thread.life]
        rw [hmove, hnext]
        exact ⟨.join hjoining hthread, rfl⟩
      simp only [stopStep] at h
      split at h
      · next hnone =>
          simp only [Option.some.injEq, Prod.mk.injEq] at h
          obtain ⟨hmem, hnext⟩ := h
          exact hjoined (Or.inl (by simp [life, hnone, Thread.life])) (by rw [← hmem, hnone])
            (by rw [hmem]) hnext.symm
      · split at h
        · next hfinished =>
            simp only [Option.some.injEq, Prod.mk.injEq] at h
            obtain ⟨hmem, hnext⟩ := h
            exact hjoined (Or.inr (by simp [life, hfinished, Thread.life])) (by rw [← hmem])
              (by rw [← hmem]) hnext.symm
        · contradiction
  | 2 =>
      simp only [stopStep, Option.some.injEq, Prod.mk.injEq] at h
      obtain ⟨hmem, hnext⟩ := h
      have hstay : life s' = life s := life_eq (by rw [← hmem]; rfl)
        (by rw [← hnext, hloc]; rfl) (by rw [hframe])
      rw [hstay, ← hnext]
      exact ⟨.stay, rfl⟩
  | 3 =>
      simp only [stopStep, Option.some.injEq, Prod.mk.injEq] at h
      obtain ⟨hmem, hnext⟩ := h
      have hmove : life s' = { life s with owner := .out } := by
        simp [life, ← hmem, ← hnext, hframe, Loc.owner]
      rw [hmove, ← hnext]
      exact ⟨.returned (by simp [life, hloc, Loc.owner]), rfl⟩

/-- A step of the owner inside a call. -/
theorem move_of_client {a : Act} (hs : Roles s) (hbusy : s.loc (.client ()) ≠ .idle)
    (h : advance cfg (.client ()) a s.mem (s.loc (.client ())) =
      some (s'.mem, s'.loc (.client ())))
    (hframe : s'.loc .background = s.loc .background) :
    Lifecycle.Move (life s) none (life s') ∧ Roles s' := by
  have hbackground : (s'.loc .background).owner = .out := by rw [hframe]; exact hs.background
  by_cases hordinary : (s.loc (.client ())).Ordinary
  · obtain ⟨hlife, howner, hbody⟩ := quiet_advance hordinary h
    rw [hs.client] at hbody
    have habsent : (s'.loc (.client ())).body = .absent := by
      rcases hbody with hsame | ⟨hlooping, -⟩
      · exact hsame
      · contradiction
    rw [life_eq hlife (howner.trans hordinary.owner.symm) (by rw [hframe])]
    exact ⟨.stay, habsent, hbackground⟩
  · cases hloc : s.loc (.client ()) with
    | idle => exact absurd hloc hbusy
    | start interval changeThreshold stage =>
        rw [hloc] at h
        obtain ⟨hmove, habsent⟩ := move_of_startStep hloc h hframe
        exact ⟨hmove, habsent, hbackground⟩
    | stop stage =>
        rw [hloc] at h
        obtain ⟨hmove, habsent⟩ := move_of_stopStep hloc h hframe
        exact ⟨hmove, habsent, hbackground⟩
    | rebuilder interval changeThreshold pc =>
        have hclient := hs.client
        rw [hloc] at hclient
        cases pc <;> contradiction
    | _ => rw [hloc] at hordinary; exact absurd trivial hordinary

/-- A step of the background thread. -/
theorem move_of_background {a : Act} (hs : Roles s)
    (h : advance cfg .background a s.mem (s.loc .background) = some (s'.mem, s'.loc .background))
    (hframe : s'.loc (.client ()) = s.loc (.client ())) :
    Lifecycle.Move (life s) none (life s') ∧ Roles s' := by
  have hclient : (s'.loc (.client ())).body = .absent := by rw [hframe]; exact hs.client
  by_cases hordinary : (s.loc .background).Ordinary
  · obtain ⟨hlife, howner, hsame | ⟨hlooping, hstop, hleaving⟩⟩ := quiet_advance hordinary h
    · rw [life_eq hlife (by rw [hframe]) hsame]
      exact ⟨.stay, hclient, howner⟩
    · have hmove : life s' = { life s with body := .leaving } := by
        simp only [Mem.life, Prod.mk.injEq] at hlife
        simp [life, hlife.1, hlife.2, hframe, hleaving]
      rw [hmove]
      exact ⟨.leave hlooping hstop, hclient, howner⟩
  · cases hloc : s.loc .background with
    | idle =>
        rw [hloc] at h
        cases a with
        | step =>
            simp only [advance] at h
            split at h
            · next interval changeThreshold hcreated =>
                simp only [Option.some.injEq, Prod.mk.injEq] at h
                obtain ⟨hmem, hnext⟩ := h
                have hmove : life s' = { life s with thread := .running, body := .looping } := by
                  simp [life, ← hmem, ← hnext, hframe, Loc.body, Thread.life]
                rw [hmove]
                refine ⟨.begin ?_ ?_, hclient, by rw [← hnext]; rfl⟩
                · simp [life, hcreated, Thread.life]
                · simp [life, hloc, Loc.body]
            · contradiction
        | call => contradiction
        | elapsed => contradiction
    | start interval changeThreshold stage =>
        have hbackground := hs.background
        rw [hloc] at hbackground
        exact absurd hbackground (owner_start_ne interval changeThreshold stage)
    | stop stage =>
        have hbackground := hs.background
        rw [hloc] at hbackground
        exact absurd hbackground (owner_stop_ne stage)
    | rebuilder interval changeThreshold pc =>
        cases pc with
        | exit =>
            rw [hloc] at h
            simp only [advance, rebuilderStep, Option.some.injEq, Prod.mk.injEq] at h
            obtain ⟨hmem, hnext⟩ := h
            have hmove : life s' = { life s with thread := .finished, body := .absent } := by
              simp [life, ← hmem, ← hnext, hframe, Loc.body, Thread.life]
            rw [hmove]
            exact ⟨.finish (by simp [life, hloc, Loc.body]), hclient, by rw [← hnext]; rfl⟩
        | _ => rw [hloc] at hordinary; exact absurd trivial hordinary
    | _ => rw [hloc] at hordinary; exact absurd trivial hordinary

/-! ## after any calls -/

/-- The owner makes its calls from client thread. -/
def ownerScript : Script (Tid Unit) Act Loc Call := ⟨.client (), Loc.isIdle, .call⟩

variable (cfg) in
/-- A `DynamicLock` whose owner makes these calls and then destroys it: the destructor is a call of
`StopRebuilder`. -/
def owned (calls : List Call) : Program (Tid Unit) Act (ScriptMem (Mem Unit) Call) Loc :=
  ownerScript.program (machine cfg Unit) (calls ++ [.stopRebuilder])

/-- After any calls the state of the lock and the place of its owner agree with the last of them
that starts or stops the thread. -/
theorem inv_of_reachable {calls : List Call}
    {s : State (Tid Unit) (ScriptMem (Mem Unit) Call) Loc} (hs : (owned cfg calls).Reachable s) :
    ∃ made, calls ++ [.stopRebuilder] = made ++ s.mem.todo ∧
      Lifecycle.Inv (Lifecycle.lastCall Call.life made) (life (Script.object s)) := by
  have hroles : Roles (machine cfg Unit).initial := ⟨rfl, rfl⟩
  refine Lifecycle.inv_of_reachable rfl hroles ?_ ?_ hs
  · intro c s s' hs hidle hadvance hframe
    have hloc : s.loc (.client ()) = .idle := Loc.eq_idle hidle
    have henter : enter cfg s.mem c = some (s'.mem, s'.loc (.client ())) := by
      rw [show s.loc ownerScript.owner = .idle from hloc] at hadvance
      exact hadvance
    exact move_of_enter hs hloc henter (hframe _ (by simp [ownerScript]))
  · intro s s' t a hs hbusy hadvance hframe
    cases t with
    | client c =>
        have hloc : s.loc (.client ()) ≠ .idle := by
          intro hidle
          have hnot := hbusy rfl
          rw [hidle] at hnot
          contradiction
        exact move_of_client hs hloc hadvance (hframe _ (by simp))
    | background => exact move_of_background hs hadvance (hframe _ (by simp))

end DynamicLock
end DynLocks
