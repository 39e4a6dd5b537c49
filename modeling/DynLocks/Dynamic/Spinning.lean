import DynLocks.Dynamic.Fairness
import DynLocks.Spinlock

/-!
# DynLocks.Dynamic.Spinning

Every call of a `DynamicLock` over spinlocks returns, but for `StartRebuilder` and
`StopRebuilder`.  A thread that does not get a spinlock goes round in `lock` and is never
blocked, so this is not a matter of schedules alone: the lock that it wants must be given
back, and then a weak exchange must succeed.
-/

namespace DynLocks
namespace DynamicLock

open Interleaving

variable {Client : Type} {cfg : Config} [DecidableEq Client]

/-- A `DynamicLock` over spinlocks, without new calls and rounds. -/
abbrev spinClosing (cfg : Config) (Client : Type) [DecidableEq Client] :
    Program (Tid Client) (Act × Bool) (CellMem (Mem Client) Mutex Bool) (CellLoc Loc Spinlock.Pc) :=
  ((guards cfg Client).upon spinlock).restrict (Program.Ranking.PermitsUpon closing)

/-- The compare-and-exchange of `AddDuration`, tried for ever, does not fail spuriously every
time. -/
def SpinExchangesFairly (r : (spinClosing cfg Client).Endless) : Prop :=
  ∀ t n, (∀ m ≥ n, ((r.states m).loc t).loc.Exchanges) →
    ∃ m ≥ n, ∃ delta spurious, r.moves m = some (t, .elapsed delta false, spurious)

omit [DecidableEq Client] in
/-- A thread at the exchange of `AddDuration` locks nothing. -/
theorem Loc.Exchanges.wants {l : Loc} (h : l.Exchanges) : l.wants = none := by
  cases l with
  | query left right pc =>
      cases pc with
      | inside => rfl
      | _ => exact h.elim
  | _ => exact h.elim

theorem exchangesFairly_inner {r : (spinClosing cfg Client).Endless}
    (hs : ((guards cfg Client).upon spinlock).Reachable (r.states 0))
    (h : SpinExchangesFairly r) : ExchangesFairly (r.inner hs) := by
  intro t n hexchanges
  obtain ⟨m, hm, delta, spurious, hmove⟩ := h t n hexchanges
  refine ⟨m, hm, delta, ?_⟩
  have hwants : (guards cfg Client).wants ((r.states m).loc t).loc = none :=
    (hexchanges m hm).wants
  show r.innerMove m = _
  simp [Program.Endless.innerMove, hmove, Guards.waiting, hwants]

/-- With all threads at rest every spinlock is clear. -/
theorem cells_of_rests {s : State (Tid Client) (CellMem (Mem Client) Mutex Bool)
      (CellLoc Loc Spinlock.Pc)}
    (hs : ((guards cfg Client).upon spinlock).Reachable s)
    (hrests : ∀ t, (s.loc t).loc.Rests) (x : Mutex) : s.mem.cells x = false := by
  obtain ⟨hreach, hheld⟩ := Guards.abstracts hs
  have hfree : s.mem.mem.owner x = none := (at_rest hreach hrests).1 x
  have hcell : s.mem.cells x = (s.mem.mem.owner x).isSome := hheld x
  rw [hcell, hfree]
  rfl

/-- **Every call returns over spinlocks**: whatever the threads have done so far, without new calls
and rounds they can all come to rest, with every spinlock clear; and in every run that is fair to the
threads, and in which a weak exchange that is tried again and again, of a `lock` or of `AddDuration`,
does not fail spuriously every time, they do.  In `StartRebuilder` and `StopRebuilder` a thread counts
as at rest. -/
theorem spinning_calls_return {s : State (Tid Client) (CellMem (Mem Client) Mutex Bool)
      (CellLoc Loc Spinlock.Pc)}
    (hs : ((guards cfg Client).upon spinlock).Reachable s) :
    (∃ s', Relation.ReflTransGen (spinClosing cfg Client).Step s s' ∧
      (∀ t, (s'.loc t).loc.Rests) ∧ ∀ x, s'.mem.cells x = false) ∧
    ∀ r : (spinClosing cfg Client).Endless, r.states 0 = s → r.Fair → r.LocksFairly →
      SpinExchangesFairly r →
        ∃ n, ∀ m ≥ n, (∀ t, ((r.states m).loc t).loc.Rests) ∧
          ∀ x, (r.states m).mem.cells x = false := by
  constructor
  · obtain ⟨s', hpath, hreach, hrests⟩ :=
      (ranking cfg Client).drains_upon (fun _ => exists_progress) hs
    exact ⟨s', hpath, hrests, cells_of_rests hreach hrests⟩
  · intro r hstart hfair hlocks hexchanges
    have hs₀ : ((guards cfg Client).upon spinlock).Reachable (r.states 0) := hstart ▸ hs
    obtain ⟨n, hall⟩ := eventually_rests (r.inner hs₀) (Guards.abstracts hs₀).1
      (r.fair_inner hs₀ hfair hlocks) (exchangesFairly_inner hs₀ hexchanges)
    refine ⟨n, fun m hm => ?_⟩
    have hrests := (hall m hm).2
    exact ⟨hrests, cells_of_rests (r.reachable_upon hs₀ m) hrests⟩

/-- A client is about to lock the mutex of its block. -/
def intoLock {Client : Type} (c : Client) (pos : ℕ) : List (Tid Client × Act) :=
  (.client c, .call (.writeQuery pos pos)) :: List.replicate 6 (.client c, .step)

/-- No weak exchange fails spuriously. -/
def unfailing {Client : Type} (schedule : List (Tid Client × Act)) :
    List (Tid Client × Act × Bool) :=
  schedule.map fun p => (p.1, p.2, false)

theorem isSome_exec_unfailing :
    (((guards twoBlocks Bool).upon spinlock).exec (unfailing (intoFunc false 0 ++ intoLock true 0))
      ((guards twoBlocks Bool).upon spinlock).initial).isSome :=
  rfl

/-- Client `false` is in `func`, and client `true` waits for its mutex. -/
def contended : State (Tid Bool) (CellMem (Mem Bool) Mutex Bool) (CellLoc Loc Spinlock.Pc) :=
  (((guards twoBlocks Bool).upon spinlock).exec (unfailing (intoFunc false 0 ++ intoLock true 0))
    ((guards twoBlocks Bool).upon spinlock).initial).get isSome_exec_unfailing

theorem reachable_contended : ((guards twoBlocks Bool).upon spinlock).Reachable contended :=
  Program.reachable_exec .init (Option.some_get isSome_exec_unfailing).symm

/-- Client `false` returns, and then client `true`, whose first exchange fails for no reason. -/
def bothReturn : List (Tid Bool × Act × Bool) :=
  unfailing (List.replicate 2 (.client false, .step) ++ [(.client true, .step)]) ++
    (.client true, .step, true) ::
      unfailing (List.replicate 4 (.client true, .step) ++
        (.client true, .elapsed 0 false) :: List.replicate 4 (.client true, .step))

theorem exec_bothReturn : ∃ s', (spinClosing twoBlocks Bool).exec bothReturn contended = some s' ∧
    s'.mem.mem.rebuildThread = .none ∧ ∀ t, (s'.loc t).loc.isIdle := by
  have hexec : ((spinClosing twoBlocks Bool).exec bothReturn contended).map (fun s' =>
      decide (s'.mem.mem.rebuildThread = .none) && ((s'.loc .background).loc.isIdle &&
        ((s'.loc (.client false)).loc.isIdle && (s'.loc (.client true)).loc.isIdle))) = some true :=
    rfl
  obtain ⟨s', hs', hend⟩ := Option.map_eq_some_iff.mp hexec
  obtain ⟨hthread, hidle⟩ := Bool.and_eq_true_iff.mp hend
  obtain ⟨hbackground, hclients⟩ := Bool.and_eq_true_iff.mp hidle
  exact ⟨s', hs', of_decide_eq_true hthread, Tid.forall_iff.mpr
    ⟨hbackground, Bool.forall_bool.mpr (Bool.and_eq_true_iff.mp hclients)⟩⟩

/-- Between two calls nothing is left to do, if there is no thread to start. -/
theorem next_of_isIdle {s : State (Tid Client) (CellMem (Mem Client) Mutex Bool)
      (CellLoc Loc Spinlock.Pc)} (hthread : s.mem.mem.rebuildThread = .none) {t : Tid Client}
    (h : (s.loc t).loc.isIdle) (a : Act × Bool) :
    (spinClosing cfg Client).next t a s = none := by
  rw [Program.next, Option.map_eq_none_iff]
  cases hloc : s.loc t with
  | mk l pc =>
      rw [hloc] at h
      obtain rfl : l = .idle := Loc.eq_idle h
      rw [Option.eq_none_iff_forall_not_mem]
      rintro ⟨m', l'⟩ hadvance
      obtain ⟨hpermits, hupon⟩ := Program.advance_of_restrict hadvance
      obtain ⟨act, spurious⟩ := a
      cases Guards.move_of_advance hupon with
      | wait hwants => contradiction
      | lock hwants => contradiction
      | rest _ hact =>
          cases t with
          | client c => cases act <;> contradiction
          | background =>
              cases act with
              | step =>
                  simp only [machine, advance, hthread] at hact
                  contradiction
              | _ => contradiction

/-- Both calls can return, and in a fair run they do. -/
theorem spinning_calls_return_two_clients :
    (contended.loc (.client true)).pc = .load ∧ contended.mem.cells (.range 0) = true ∧
      (∃ s', Relation.ReflTransGen (spinClosing twoBlocks Bool).Step contended s' ∧
        (∀ t, (s'.loc t).loc.Rests) ∧ ∀ x, s'.mem.cells x = false) ∧
      ∃ r : (spinClosing twoBlocks Bool).Endless, r.states 0 = contended ∧
        ∃ n, ∀ m ≥ n, (∀ t, ((r.states m).loc t).loc.Rests) ∧
          ∀ x, (r.states m).mem.cells x = false := by
  obtain ⟨hcan, hdo⟩ := spinning_calls_return reachable_contended
  refine ⟨rfl, rfl, hcan, ?_⟩
  obtain ⟨s', hexec, hthread, hidle⟩ := exec_bothReturn
  let r := Program.Endless.ofSchedule (spinClosing twoBlocks Bool) bothReturn contended
    (by rw [hexec]; rfl)
  -- in the end nobody locks and nobody exchanges
  have hlast : ∀ t n, ((r.states (max n bothReturn.length)).loc t).loc = .idle := by
    intro t n
    have hstate : r.states (max n bothReturn.length) = s' := by
      show (Program.exec _ (bothReturn.take _) _).getD _ = s'
      rw [List.take_of_length_le (le_max_right _ _), hexec, Option.getD_some]
    rw [hstate]
    exact Loc.eq_idle (hidle t)
  refine ⟨r, rfl, hdo r rfl
    (Program.Endless.fair_ofSchedule hexec fun t a =>
      next_of_isIdle hthread (hidle t) a)
    (fun t n hwants => ?_) fun t n hexchanges => ?_⟩
  · exact absurd (congrArg (guards twoBlocks Bool).wants (hlast t n))
      (hwants _ (le_max_left _ _))
  · have hlast' := hexchanges _ (le_max_left n bothReturn.length)
    rw [hlast] at hlast'
    exact hlast'.elim

end DynamicLock
end DynLocks
