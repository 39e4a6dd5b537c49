import DynLocks.Genetic.Training
import DynLocks.Genetic.Lookup

/-!
# DynLocks.Genetic.Count

`CountLocksForRange` of `GeneticLock`.  It reads two cells of the block table
without a lock and returns only if the epoch was even and has not moved on
meanwhile.  `CountPc.Noted` says what the two cells are good for at each of its
program counters; a call that returns does so from an installed partition
(`counted_step`), and one that runs alone returns what the partitioner counts
(`exec_countLocksForRange`).
-/

namespace DynLocks
namespace GeneticLock

open Interleaving CutVector

variable {Client G : Type} (cfg : Config)

/-- The partition `cuts` is fully installed. -/
structure Installed (m : Mem Client G) (cuts : List ℕ) : Prop where
  currentCuts : m.currentCuts = cuts
  epoch : m.partitionEpoch % 2 = 0
  table : m.core.Refreshed cfg

/-- What the call has read belongs to the partition of the epoch it noted. -/
def CountPc.Noted (c : Core G) (left right : ℕ) : CountPc → Prop
  | .epochLoad => True
  | .leftLoad epoch => epoch % 2 = 0 ∧ epoch ≤ c.partitionEpoch
  | .rightLoad epoch firstLock => epoch % 2 = 0 ∧ epoch ≤ c.partitionEpoch ∧
      (c.partitionEpoch = epoch → firstLock = c.blockToLock (cfg.positionToBlock left))
  | .epochCheck epoch firstLock lastLock => epoch % 2 = 0 ∧ epoch ≤ c.partitionEpoch ∧
      (c.partitionEpoch = epoch → firstLock = c.blockToLock (cfg.positionToBlock left) ∧
        lastLock = c.blockToLock (cfg.positionToBlock right))

/-- The range of a call is clamped, and what it has noted is right. -/
def Loc.Counting (c : Core G) : Loc → Prop
  | .count left right pc => left ≤ right ∧ right < cfg.arraySize ∧ pc.Noted cfg c left right
  | _ => True

/-! ## what the call knows -/

variable {cfg} {std : GeneticPartitioner.StdLib G} {seed : G}

/-- The epoch never decreases, and while it stays even the table stays as it is. -/
theorem CoreMove.table_eq {l : Loc} {c c' : Core G} (h : CoreMove cfg std l c c') (hat : l.At cfg c) :
    c.partitionEpoch ≤ c'.partitionEpoch ∧
      (c.partitionEpoch % 2 = 0 → c'.partitionEpoch = c.partitionEpoch →
        c'.blockToLock = c.blockToLock) := by
  cases h with
  | epochOpen => exact ⟨Nat.le_succ _, fun _ _ => rfl⟩
  | epochClose => exact ⟨Nat.le_succ _, fun _ _ => rfl⟩
  | refresh =>
      refine ⟨le_rfl, fun heven => ?_⟩
      have hrewriting : Rewriting c _ := hat.1
      have := hrewriting.epoch
      omega
  | _ => exact ⟨le_rfl, fun _ _ => rfl⟩

/-- What was noted stays right under every write. -/
theorem CountPc.Noted.move {l : Loc} {c c' : Core G} (hmove : CoreMove cfg std l c c')
    (hat : l.At cfg c) {left right : ℕ} {pc : CountPc} (h : pc.Noted cfg c left right) :
    pc.Noted cfg c' left right := by
  obtain ⟨hle, hsame⟩ := hmove.table_eq hat
  cases pc with
  | epochLoad => trivial
  | leftLoad epoch => exact ⟨h.1, h.2.trans hle⟩
  | rightLoad epoch firstLock =>
      obtain ⟨heven, hepoch, hfirst⟩ := h
      refine ⟨heven, hepoch.trans hle, fun heq => ?_⟩
      have hold : c.partitionEpoch = epoch := by omega
      rw [hsame (by omega) (by omega)]
      exact hfirst hold
  | epochCheck epoch firstLock lastLock =>
      obtain ⟨heven, hepoch, hnoted⟩ := h
      refine ⟨heven, hepoch.trans hle, fun heq => ?_⟩
      have hold : c.partitionEpoch = epoch := by omega
      rw [hsame (by omega) (by omega)]
      exact hnoted hold

section Steps

variable {t : Tid Client} {a : Act} {m m' : Mem Client G}
  {s s' : State (Tid Client) (Mem Client G) Loc}

/-- A step of the call notes what it reads. -/
theorem counting_countStep {left right : ℕ} {pc : CountPc} {l' : Loc}
    (hpc : (Loc.count left right pc).Counting cfg m.core)
    (h : countStep cfg m left right pc = some (m', l')) : l'.Counting cfg m'.core := by
  obtain ⟨hle, hlt, hnoted⟩ := hpc
  cases pc with
  | epochLoad =>
      cases h
      refine ⟨hle, hlt, ?_⟩
      split
      · trivial
      · next heven => exact ⟨not_not.mp heven, le_rfl⟩
  | leftLoad epoch => cases h; exact ⟨hle, hlt, hnoted.1, hnoted.2, fun _ => rfl⟩
  | rightLoad epoch firstLock =>
      cases h
      exact ⟨hle, hlt, hnoted.1, hnoted.2.1, fun heq => ⟨hnoted.2.2 heq, rfl⟩⟩
  | epochCheck epoch firstLock lastLock =>
      cases h
      split
      · trivial
      · exact ⟨hle, hlt, trivial⟩

theorem counting_enter {call : Call} {l' : Loc} (h : enter cfg m call = some (m', l')) :
    l'.Counting cfg m'.core := by
  cases call with
  | countLocksForRange left right =>
      simp only [enter] at h
      split at h
      · cases h; trivial
      · next hne =>
          cases h
          exact ⟨clampRange_le _ _ _, clampRange_lt (Nat.pos_of_ne_zero hne) _ _, trivial⟩
  | writeQuery left right =>
      simp only [enter] at h
      split at h <;>
      · cases h
        trivial
  | observeBatch batch => cases h; split <;> trivial
  | startRebuilder => cases h; split <;> trivial
  | _ => cases h; trivial

variable [DecidableEq Client]

/-- A step keeps what the moving thread has noted. -/
theorem counting_advance {l l' : Loc} (hl : l.Counting cfg m.core)
    (h : advance cfg std t a m l = some (m', l')) : l'.Counting cfg m'.core := by
  cases l with
  | idle =>
      cases t with
      | client c =>
          cases a with
          | call call => exact counting_enter h
          | _ => contradiction
      | background =>
          cases a with
          | step =>
              simp only [advance] at h
              split at h
              · cases h; trivial
              · contradiction
          | _ => contradiction
  | query left right pc =>
      simp only [advance, Option.map_eq_some_iff, Prod.mk.injEq] at h
      obtain ⟨⟨m'', r⟩, -, rfl, rfl⟩ := h
      cases r <;> trivial
  | sample query pc =>
      simp only [advance, Option.map_eq_some_iff, Prod.mk.injEq] at h
      obtain ⟨⟨m'', r⟩, -, rfl, rfl⟩ := h
      cases r <;> trivial
  | train caller batch pc =>
      simp only [advance, Option.map_eq_some_iff, Prod.mk.injEq] at h
      obtain ⟨⟨m'', r⟩, -, rfl, rfl⟩ := h
      cases r with
      | some pc' => trivial
      | none => cases caller <;> trivial
  | observe batch =>
      simp only [advance] at h
      split at h
      · cases h; trivial
      · contradiction
  | flush pc =>
      cases pc with
      | lockPending =>
          simp only [advance, flushStep] at h
          split at h
          · cases h; trivial
          · contradiction
      | swap => cases h; trivial
      | unlockPending batch => cases h; split <;> trivial
  | trainer pc =>
      cases pc with
      | lockPending =>
          simp only [advance, trainerStep] at h
          split at h
          · cases h; trivial
          · contradiction
      | lockTraining batch =>
          simp only [advance, trainerStep] at h
          split at h
          · cases h; trivial
          · contradiction
      | sleep =>
          cases a with
          | wake => cases h; trivial
          | _ =>
              simp only [advance, trainerStep] at h
              split at h
              · contradiction
              · cases h; trivial
      | _ => cases h; trivial
  | start pc =>
      cases pc with
      | create =>
          simp only [advance, startStep] at h
          split at h
          · cases h; trivial
          · contradiction
      | _ => cases h; trivial
  | stop pc =>
      cases pc with
      | join =>
          simp only [advance, stopStep] at h
          split at h
          · cases h; trivial
          · split at h
            · cases h; trivial
            · contradiction
      | lockPending =>
          simp only [advance, stopStep] at h
          split at h
          · cases h; trivial
          · contradiction
      | _ => cases h; trivial
  | count left right pc => exact counting_countStep hl h
  | cutsLock =>
      simp only [advance] at h
      split at h
      · cases h; trivial
      · contradiction
  | _ => cases h; trivial

theorem counting_of_reachable (hs : (machine cfg std seed Client).Reachable s) (t : Tid Client) :
    (s.loc t).Counting cfg s.mem.core := by
  refine hs.localInvariant (Q := fun _ m l => l.Counting cfg m.core) (fun _ => trivial) ?_ ?_ t
  · exact fun s t a m' l' _ hl ha => counting_advance hl ha
  · intro s t u a m' l' hreach hut hl ha
    cases hloc : s.loc t with
    | count left right pc =>
        rw [hloc] at hl
        exact ⟨hl.1, hl.2.1, hl.2.2.move (core_move cfg ha) ((inStep_of_reachable hreach).training u)⟩
    | _ => trivial

/-! ## what the call returns -/

/-- A call returns from an installed partition: it has read the locks of its first and its last
block there. -/
theorem counted_step (hs : (machine cfg std seed Client).Reachable s) {left right locks : ℕ}
    {pc : CountPc} (hloc : s.loc t = .count left right pc)
    (h : advance cfg std t a s.mem (.count left right pc) = some (m', .counted locks)) :
    let firstLock := lockOfBlock cfg.kLockCnt s.mem.currentCuts (cfg.positionToBlock left)
    let lastLock := lockOfBlock cfg.kLockCnt s.mem.currentCuts (cfg.positionToBlock right)
    left ≤ right ∧ Installed cfg s.mem s.mem.currentCuts ∧
      pc = .epochCheck s.mem.partitionEpoch firstLock lastLock ∧
      locks = lockSpan firstLock lastLock := by
  have hcounting := counting_of_reachable hs t
  rw [hloc] at hcounting
  obtain ⟨hle, -, hnoted⟩ := hcounting
  cases pc with
  | epochCheck epoch firstLock lastLock =>
      simp only [advance, countStep, Option.some.injEq, Prod.mk.injEq] at h
      obtain ⟨-, hret⟩ := h
      split at hret
      · next hcheck =>
          obtain ⟨hepoch, heven, -⟩ := hcheck
          cases hret
          obtain ⟨-, -, hcells⟩ := hnoted
          obtain ⟨rfl, rfl⟩ := hcells hepoch.symm
          have htable : s.mem.core.Refreshed cfg := refreshed_of_even hs heven
          rw [htable _ (cfg.positionToBlock_lt left), htable _ (cfg.positionToBlock_lt right), hepoch]
          exact ⟨hle, ⟨rfl, heven, htable⟩, rfl, rfl⟩
      · contradiction
  | epochLoad =>
      simp only [advance, countStep, Option.some.injEq, Prod.mk.injEq] at h
      obtain ⟨-, hret⟩ := h
      contradiction
  | leftLoad epoch => cases h
  | rightLoad epoch firstLock => cases h

/-- While `training_mutex_` is free the table is the partitioner's own search. -/
theorem findLockForBlock_of_free (hs : (machine cfg std seed Client).Reachable s)
    (hfree : s.mem.trainingMutex = none) {b : ℕ} (hb : b < cfg.kBlocks) :
    s.mem.blockToLock b = cfg.findLockForBlock s.mem.currentCuts b := by
  have hsettled := (inStep_of_reachable hs).settled hfree
  have hcuts : s.mem.currentCuts = s.mem.partitioner.current.cuts := hsettled.cuts
  have hfirst : s.mem.currentCuts.getD 0 0 = 0 := by
    rw [hcuts]
    exact GeneticPartitioner.Config.first_of_reachable (partitioner_of_reachable hs)
  rw [GeneticPartitioner.Config.findLockForBlock_eq hfirst]
  exact hsettled.table b hb

/-- A call that runs alone while `training_mutex_` is free returns what the partitioner counts. -/
theorem exec_countLocksForRange (hs : (machine cfg std seed Client).Reachable s)
    (hfree : s.mem.trainingMutex = none) {c : Client} (hidle : s.loc (.client c) = .idle)
    (left right : ℕ) :
    ∃ steps s', (machine cfg std seed Client).exec
        ((.client c, .call (.countLocksForRange left right)) ::
          List.replicate steps (.client c, .step)) s = some s' ∧
      s'.loc (.client c) = .counted (cfg.countLocksForRange s.mem.partitioner.current left right) := by
  by_cases hempty : cfg.arraySize = 0
  · have henter : (machine cfg std seed Client).advance (.client c)
        (.call (.countLocksForRange left right)) s.mem .idle = some (s.mem, .counted 0) := if_pos hempty
    refine ⟨0, _, Program.exec_cons hidle henter [], ?_⟩
    rw [GeneticPartitioner.Config.countLocksForRange, if_pos hempty]
    exact Function.update_self _ _ _
  · have hsettled := (inStep_of_reachable hs).settled hfree
    have heven : s.mem.partitionEpoch % 2 = 0 := by
      have hepoch : s.mem.partitionEpoch = 2 * s.mem.trainingCount := hsettled.epoch
      omega
    have hcuts : s.mem.currentCuts = s.mem.partitioner.current.cuts := hsettled.cuts
    have hordered := clampRange_le cfg.arraySize left right
    have hcall : (machine cfg std seed Client).advance (.client c)
        (.call (.countLocksForRange left right)) s.mem .idle =
          some (s.mem, .count (clampRange cfg.arraySize left right).1
            (clampRange cfg.arraySize left right).2 .epochLoad) := if_neg hempty
    rw [GeneticPartitioner.Config.countLocksForRange, if_neg hempty]
    generalize clampRange cfg.arraySize left right = range at *
    obtain ⟨lo, hi⟩ := range
    let firstLock := s.mem.blockToLock (cfg.positionToBlock lo)
    let lastLock := s.mem.blockToLock (cfg.positionToBlock hi)
    have hsorted : firstLock ≤ lastLock := by
      have hfirst : firstLock = lockOfBlock cfg.kLockCnt s.mem.currentCuts _ :=
        hsettled.table _ (cfg.positionToBlock_lt lo)
      have hlast : lastLock = lockOfBlock cfg.kLockCnt s.mem.currentCuts _ :=
        hsettled.table _ (cfg.positionToBlock_lt hi)
      rw [hfirst, hlast]
      exact lockOfBlock_mono _ _ (cfg.positionToBlock_mono hordered)
    -- two reads of the table between two of the epoch
    have hepoch : (machine cfg std seed Client).advance (.client c) .step s.mem
        (.count lo hi .epochLoad) = some (s.mem, .count lo hi (.leftLoad s.mem.partitionEpoch)) := by
      simp [machine, advance, countStep, heven]
    have hcheck : (machine cfg std seed Client).advance (.client c) .step s.mem
        (.count lo hi (.epochCheck s.mem.partitionEpoch firstLock lastLock)) =
          some (s.mem, .counted (lockSpan firstLock lastLock)) := by
      simp [machine, advance, countStep, heven, hsorted]
    have hrun : (machine cfg std seed Client).exec
        ((.client c, .call (.countLocksForRange left right)) :: List.replicate 4 (.client c, .step)) s =
          some ⟨s.mem, Function.update s.loc (.client c) (.counted (lockSpan firstLock lastLock))⟩ := by
      rw [Program.exec_cons hidle hcall]
      show Program.exec _ [_, _, _, _] _ = _
      rw [Program.exec_cons_update _ hepoch, Program.exec_cons_update _ rfl,
        Program.exec_cons_update _ rfl, Program.exec_cons_update _ hcheck]
      rfl
    refine ⟨4, _, hrun, ?_⟩
    dsimp only
    rw [Function.update_self, ← hcuts, ← findLockForBlock_of_free hs hfree (cfg.positionToBlock_lt lo),
      ← findLockForBlock_of_free hs hfree (cfg.positionToBlock_lt hi)]

end Steps

end GeneticLock
end DynLocks
