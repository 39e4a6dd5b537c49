import DynLocks.Dynamic.Drain

/-!
# DynLocks.Dynamic.Fairness

Every call of a `DynamicLock`, but for `StartRebuilder` and `StopRebuilder`, returns in a
run that passes nobody over for ever.
From some tick on all steps wait, and then the memory stays as it is: whoever could go
on could do so all the time, and a fair run would have let it.
-/

namespace DynLocks
namespace DynamicLock

open Interleaving

variable {Client : Type} {cfg : Config}

section Steps

variable [DecidableEq Client] {t : Tid Client} {a : Act}

/-! ## fair runs -/

/-- A compare-and-exchange that is tried for ever does not fail spuriously every time. -/
def ExchangesFairly (r : ((machine cfg Client).restrict closing).Endless) : Prop :=
  ∀ t n, (∀ m ≥ n, ((r.states m).loc t).Exchanges) →
    ∃ m ≥ n, ∃ delta, r.moves m = some (t, .elapsed delta false)

/-- What a thread does at a tick. -/
theorem advance_of_move {r : ((machine cfg Client).restrict closing).Endless} {n : ℕ}
    (h : r.moves n = some (t, a)) :
    ∃ b, closing ((r.states n).loc t) b = true ∧
      advance cfg t b (r.states n).mem ((r.states n).loc t) =
        some ((r.states (n + 1)).mem, (r.states (n + 1)).loc t) := by
  have htick := r.tick n
  rw [h] at htick
  cases htick with
  | act hnext =>
      exact (Program.Ranking.elim_restrict (P := machine cfg Client) ⟨a, hnext⟩).1

section Fair

variable {r : ((machine cfg Client).restrict closing).Endless} {n : ℕ}
  (hwaits : ∀ m ≥ n, ∀ t a, r.moves m = some (t, a) →
    Waits ((r.states m).loc t) ((r.states (m + 1)).loc t))

include hwaits

/-- Once all steps wait the memory stays as it is. -/
theorem still_of_waits {m : ℕ} (hm : n ≤ m) : Still (r.states n).mem (r.states m).mem := by
  refine r.invariant (I := fun s => Still (r.states n).mem s.mem) ⟨rfl, rfl, rfl, rfl⟩ ?_ hm
  intro m hm t a hmove hsame hnext
  obtain ⟨⟨b, hpermits, hb⟩, -⟩ :=
    Program.Ranking.elim_restrict (P := machine cfg Client) ⟨a, hnext⟩
  have hstep := (hwaits m hm t a hmove).still hpermits hb
  exact ⟨hstep.owner.trans hsame.owner, hstep.pauseQueries.trans hsame.pauseQueries,
    hstep.partitionEpoch.trans hsame.partitionEpoch, hstep.totalLockTime.trans hsame.totalLockTime⟩

/-- A query that spins goes on spinning. -/
theorem spins_of_waits (ht : ((r.states n).loc t).Spins) {m : ℕ} (hm : n ≤ m) :
    ((r.states m).loc t).Spins := by
  refine r.invariant (I := fun s => (s.loc t).Spins) ht ?_ hm
  intro m hm u a hmove hspins hnext
  obtain ⟨-, hframe⟩ := Program.Ranking.elim_restrict (P := machine cfg Client) ⟨a, hnext⟩
  by_cases hu : t = u
  · subst hu
    rcases hwaits m hm t a hmove with hrests | ⟨-, hspins'⟩ | ⟨hexchanges, -⟩
    · generalize (r.states m).loc t = l at *
      cases l <;> first | exact hspins.elim | exact hrests.elim
    · exact hspins'
    · generalize (r.states m).loc t = l at *
      cases l with
      | query left right pc => cases pc <;> first | exact hspins.elim | exact hexchanges.elim
      | _ => exact hspins.elim
  · rw [hframe t hu]
    exact hspins

/-- A thread that neither rests nor spins stays where it is. -/
theorem stays_of_waits (hrests : ¬((r.states n).loc t).Rests)
    (hspins : ¬((r.states n).loc t).Spins) {m : ℕ} (hm : n ≤ m) :
    (r.states m).loc t = (r.states n).loc t := by
  refine r.invariant (I := fun s => s.loc t = (r.states n).loc t) rfl ?_ hm
  intro m hm u a hmove hloc hnext
  obtain ⟨-, hframe⟩ := Program.Ranking.elim_restrict (P := machine cfg Client) ⟨a, hnext⟩
  by_cases hu : t = u
  · subst hu
    rcases hwaits m hm t a hmove with h | ⟨h, -⟩ | ⟨-, heq⟩
    · rw [hloc] at h
      exact absurd h hrests
    · rw [hloc] at h
      exact absurd h hspins
    · rw [heq, hloc]
  · rw [hframe t hu, hloc]

/-- A query that reads the epoch, if it is even and stays so, does not wait. -/
theorem not_move_of_epochLoad {left right m : ℕ} (heven : (r.states n).mem.partitionEpoch % 2 = 0)
    (hm : n ≤ m) (hloc : (r.states m).loc t = .query left right .epochLoad) :
    r.moves m ≠ some (t, a) := by
  intro hmove
  have hepoch := (still_of_waits hwaits hm).partitionEpoch
  obtain ⟨b, -, hadvance⟩ := advance_of_move hmove
  rw [hloc] at hadvance
  simp only [advance, queryStep, hepoch, heven, ne_eq, not_true_eq_false, if_false,
    Option.map_some, Option.some.injEq, Prod.mk.injEq] at hadvance
  have hnot := hwaits m hm t a hmove
  rw [hloc, ← hadvance.2] at hnot
  rcases hnot with h | ⟨-, h⟩ | ⟨h, -⟩ <;> exact h

/-- A query that spins while nobody pauses it gets its turn, and would go on to read the table. -/
theorem not_spins_of_fair (hfair : r.Fair) (hpause : (r.states n).mem.pauseQueries = false)
    (heven : (r.states n).mem.partitionEpoch % 2 = 0) : ¬((r.states n).loc t).Spins := by
  intro ht
  have hspins := fun m hm => spins_of_waits hwaits ht (m := m) hm
  have hcan : ∀ m ≥ n, ∃ a s', ((machine cfg Client).restrict closing).next t a (r.states m) =
      some s' := by
    intro m hm
    have hspins := hspins m hm
    refine ⟨.step, ?_⟩
    simp only [Program.next, Program.restrict, machine, Option.map_eq_some_iff]
    generalize (r.states m).loc t = l at *
    cases l with
    | query left right pc =>
        cases pc with
        | pauseLoad => exact ⟨_, _, rfl, rfl⟩
        | epochLoad => exact ⟨_, _, rfl, rfl⟩
        | _ => exact hspins.elim
    | _ => exact hspins.elim
  -- its first turn brings it to the load of the epoch, where it cannot wait
  obtain ⟨m, hm, a, hmove⟩ := hfair t n hcan
  obtain ⟨left, right, hloc⟩ : ∃ left right,
      (r.states (m + 1)).loc t = .query left right .epochLoad := by
    obtain ⟨b, -, hadvance⟩ := advance_of_move hmove
    have hnot : ∀ left right, (r.states m).loc t = .query left right .epochLoad →
        r.moves m ≠ some (t, a) := fun _ _ => not_move_of_epochLoad hwaits heven hm
    have hspins := hspins m hm
    have hsame := (still_of_waits hwaits hm).pauseQueries
    generalize (r.states m).loc t = l at *
    cases l with
    | query left right pc =>
        cases pc with
        | pauseLoad =>
            simp only [advance, queryStep, hsame, hpause, Option.map_some,
              Option.some.injEq, Prod.mk.injEq] at hadvance
            exact ⟨left, right, hadvance.2.symm⟩
        | epochLoad => exact absurd hmove (hnot left right rfl)
        | _ => exact hspins.elim
    | _ => exact hspins.elim
  have hstays : ∀ k ≥ m + 1, (r.states k).loc t = .query left right .epochLoad := by
    intro k hk
    refine r.invariant (I := fun s => s.loc t = .query left right .epochLoad) hloc ?_ hk
    intro k hk u b hmove hloc hnext
    obtain ⟨-, hframe⟩ := Program.Ranking.elim_restrict (P := machine cfg Client) ⟨b, hnext⟩
    by_cases hu : t = u
    · subst hu
      exact absurd hmove (not_move_of_epochLoad hwaits heven (by omega) hloc)
    · rw [hframe t hu, hloc]
  obtain ⟨k, hk, b, hmove'⟩ := hfair t (m + 1) fun k hk => hcan k (by omega)
  exact not_move_of_epochLoad hwaits heven (by omega) (hstays k hk) hmove'

/-- A thread that could go on all the time gets its turn, and its exchange a chance. -/
theorem held_of_fair (hfair : r.Fair) (hexchanges : ExchangesFairly r)
    (hrests : ¬((r.states n).loc t).Rests) (hspins : ¬((r.states n).loc t).Spins) :
    ∃ x, ((r.states n).loc t).wants = some x ∧ (r.states n).mem.owner x ≠ none := by
  by_contra hfree
  push Not at hfree
  have hstays := fun m hm => stays_of_waits hwaits hrests hspins (m := m) hm
  by_cases hexchange : ((r.states n).loc t).Exchanges
  · obtain ⟨m, hm, delta, hmove⟩ := hexchanges t n fun m hm => by
      rw [hstays m hm]
      exact hexchange
    have htick := r.tick m
    rw [hmove] at htick
    cases htick with
    | act hnext =>
        obtain ⟨⟨m', l'⟩, hadvance, heq⟩ := Option.map_eq_some_iff.mp hnext
        refine not_waits_of_exchange (by rw [hstays m hm]; exact hexchange)
          (Program.advance_of_restrict hadvance).2 ?_
        have hl' : (r.states (m + 1)).loc t = l' := by
          rw [← heq]
          exact Function.update_self ..
        rw [← hl', hstays (m + 1) (by omega), hstays m hm]
  · have hcan : ∀ m ≥ n, ∃ a s',
        ((machine cfg Client).restrict closing).next t a (r.states m) = some s' := by
      intro m hm
      obtain ⟨a, m', l', hpermits, hadvance, -⟩ := exists_advance (t := t) cfg
        (m := (r.states m).mem) hrests
        (fun x hx => by rw [(still_of_waits hwaits hm).owner]; exact hfree x hx)
      refine ⟨a, ⟨m', Function.update (r.states m).loc t l'⟩, ?_⟩
      rw [Program.next, hstays m hm]
      simp only [Program.restrict, hpermits, if_true]
      exact Option.map_eq_some_iff.mpr ⟨_, hadvance, rfl⟩
    obtain ⟨m, hm, a, hmove⟩ := hfair t n hcan
    have hwait := hwaits m hm t a hmove
    rw [hstays m hm] at hwait
    rcases hwait with h | ⟨h, -⟩ | ⟨h, -⟩
    · exact hrests h
    · exact hspins h
    · exact hexchange h

/-- Once all steps wait, a fair run is at rest. -/
theorem rests_of_waits (hs : (machine cfg Client).Reachable (r.states n)) (hfair : r.Fair)
    (hexchanges : ExchangesFairly r) (t : Tid Client) : ((r.states n).loc t).Rests := by
  by_contra hrests
  by_cases hspin : ∀ t, ¬((r.states n).loc t).Rests → ((r.states n).loc t).Spins
  · -- nobody rebuilds, so nobody pauses the query that spins
    have hrebuild := not_inRebuild_of_spins hspin
    exact not_spins_of_fair hwaits hfair (unpaused_of_reachable hs hrebuild)
      (even_of_reachable hs hrebuild) (hspin t hrests)
  · push Not at hspin
    obtain ⟨t, hrests, hspins⟩ := hspin
    obtain ⟨u, hrests, hspins, hfree⟩ := exists_unblocked hs hrests hspins
    obtain ⟨x, hx, hheld⟩ := held_of_fair hwaits hfair hexchanges hrests hspins
    exact hheld (hfree x hx)

end Fair

/-- In a fair run without new calls and rounds all threads come to rest, from some tick on. -/
theorem eventually_rests (r : ((machine cfg Client).restrict closing).Endless)
    (hs : (machine cfg Client).Reachable (r.states 0)) (hfair : r.Fair)
    (hexchanges : ExchangesFairly r) :
    ∃ n, ∀ m ≥ n, (machine cfg Client).Reachable (r.states m) ∧
      ∀ t, ((r.states m).loc t).Rests := by
  obtain ⟨n, hwaits⟩ := (ranking cfg Client).eventually_waits r hs
  refine ⟨n, fun m hm => ?_⟩
  have hreach : (machine cfg Client).Reachable (r.states m) :=
    r.invariant (I := (machine cfg Client).Reachable) hs
      (fun _ _ t a _ hI hnext =>
        have hstep : ((machine cfg Client).restrict closing).StepBy t _ _ := ⟨a, hnext⟩
        hI.step ⟨t, hstep.of_restrict⟩) (Nat.zero_le m)
  exact ⟨hreach, rests_of_waits (fun k hk => hwaits k (by omega)) hreach hfair hexchanges⟩

/-- **Every call returns**: in a fair run without new calls and rounds, whatever state it starts
from, all threads come to rest, and then every mutex is free, no rebuild is announced and no query
paused.  In `StartRebuilder` and `StopRebuilder` a thread counts as at rest. -/
theorem calls_return_fairly (r : ((machine cfg Client).restrict closing).Endless)
    (hs : (machine cfg Client).Reachable (r.states 0)) (hfair : r.Fair)
    (hexchanges : ExchangesFairly r) :
    ∃ n, ∀ m ≥ n, (∀ t, ((r.states m).loc t).Rests) ∧ (∀ x, (r.states m).mem.owner x = none) ∧
      (r.states m).mem.rebuildFlag = false ∧ (r.states m).mem.pauseQueries = false ∧
        (r.states m).mem.partitionEpoch % 2 = 0 := by
  obtain ⟨n, hall⟩ := eventually_rests r hs hfair hexchanges
  refine ⟨n, fun m hm => ?_⟩
  obtain ⟨hreach, hrests⟩ := hall m hm
  exact ⟨hrests, at_rest hreach hrests⟩

end Steps

/-! ## the rest of a run -/

/-- The client returns from its rebuild; the background thread starts and waits for its next
round. -/
def drainSchedule : List (Tid Unit × Act) :=
  List.replicate 20 (.client (), .step) ++ List.replicate 4 (.background, .step)

/-- Is the background thread about to start a round? -/
def Loc.awaitsRound : Loc → Bool
  | .rebuilder _ _ .stopLoad => true
  | _ => false

theorem Loc.AwaitsRound.eq {l : Loc} (h : l.awaitsRound) :
    ∃ interval changeThreshold, l = .rebuilder interval changeThreshold .stopLoad := by
  cases l with
  | rebuilder interval changeThreshold pc =>
      cases pc with
      | stopLoad => exact ⟨interval, changeThreshold, rfl⟩
      | _ => contradiction
  | _ => contradiction

theorem exec_drainSchedule : ∃ s', ((machine threeBlocks Unit).restrict closing).exec drainSchedule
    (rebuildRun.states 53) = some s' ∧ (s'.loc (.client ())).isIdle ∧
      (s'.loc .background).awaitsRound := by
  have hexec : ((((machine threeBlocks Unit).restrict closing).exec drainSchedule
      (rebuildRun.states 53)).map fun s' =>
        (s'.loc (.client ())).isIdle && (s'.loc .background).awaitsRound) = some true := by
    decide +kernel
  obtain ⟨s', hs', hrests⟩ := Option.map_eq_some_iff.mp hexec
  exact ⟨s', hs', Bool.and_eq_true_iff.mp hrests⟩

/-- From the middle of a publication on. -/
theorem calls_return_fairly_three_blocks :
    ∃ r : ((machine threeBlocks Unit).restrict closing).Endless,
      r.states 0 = rebuildRun.states 53 ∧ ∃ n, ∀ m ≥ n, (∀ t, ((r.states m).loc t).Rests) ∧
        (∀ x, (r.states m).mem.owner x = none) ∧ (r.states m).mem.rebuildFlag = false ∧
          (r.states m).mem.pauseQueries = false ∧ (r.states m).mem.partitionEpoch % 2 = 0 := by
  obtain ⟨s', hexec, hclient, hbackground⟩ := exec_drainSchedule
  obtain ⟨interval, changeThreshold, hround⟩ := Loc.AwaitsRound.eq hbackground
  have hidle := Loc.eq_idle hclient
  have hend : ∀ t a, ((machine threeBlocks Unit).restrict closing).next t a s' = none := by
    intro t a
    simp only [Program.next, Program.restrict, Option.map_eq_none_iff]
    cases t with
    | client c => rw [show s'.loc (.client c) = .idle from hidle]; cases a <;> rfl
    | background => rw [hround]; cases a <;> rfl
  let r := Program.Endless.ofSchedule ((machine threeBlocks Unit).restrict closing) drainSchedule
    (rebuildRun.states 53) (by rw [hexec]; rfl)
  refine ⟨r, rfl, calls_return_fairly r (rebuildRun.reachable (by decide))
    (Program.Endless.fair_ofSchedule hexec hend) fun t n h => ?_⟩
  -- in the end nobody exchanges
  have hlast := h (max n drainSchedule.length) (le_max_left _ _)
  have hstate : r.states (max n drainSchedule.length) = s' := by
    show (Program.exec _ (drainSchedule.take _) _).getD _ = s'
    rw [List.take_of_length_le (le_max_right _ _), hexec, Option.getD_some]
  rw [hstate] at hlast
  cases t with
  | client c => rw [show s'.loc (.client c) = .idle from hidle] at hlast; exact hlast.elim
  | background => rw [hround] at hlast; exact hlast.elim

end DynamicLock
end DynLocks
