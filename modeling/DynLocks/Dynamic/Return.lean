import DynLocks.Dynamic.LockOrder

/-!
# DynLocks.Dynamic.Return

A call of `RebuildPartitions` that nobody hinders returns, whichever way it
decides: each of its steps brings it nearer to the end (`remaining_rebuildStep`),
and while the other threads hold nothing it is never blocked (`exists_return`).
-/

namespace DynLocks
namespace DynamicLock

open Interleaving

variable {Client : Type} (cfg : Config)

/-! ## the steps that are left -/

def ResetPc.remaining : ResetPc → ℕ
  | .saveLast => 2 * cfg.kBlocks + 2
  | .zeroStats i => 2 * (cfg.kBlocks - i) + 1
  | .zeroCrossings i => 2 * (cfg.kBlocks - i)

def KeepPc.remaining : KeepPc → ℕ
  | .lockStats => 2 * cfg.kBlocks + 7
  | .reset pc => pc.remaining cfg + 4
  | .clearFlag => 3
  | .unlockStats => 2
  | .unlockPartitions => 1

def PublishPc.remaining : PublishPc → ℕ
  | .lockPartitions => cfg.kLockCnt + 3 * cfg.kBlocks + 14
  | .lockStats => cfg.kLockCnt + 3 * cfg.kBlocks + 13
  | .assign => cfg.kLockCnt + 3 * cfg.kBlocks + 12
  | .epochOpen => cfg.kLockCnt + 3 * cfg.kBlocks + 11
  | .refresh block _ => cfg.kLockCnt + 2 * cfg.kBlocks + 10 + (cfg.kBlocks - block)
  | .epochClose => cfg.kLockCnt + 2 * cfg.kBlocks + 9
  | .reset pc => cfg.kLockCnt + pc.remaining cfg + 6
  | .unlockStats => cfg.kLockCnt + 5
  | .unlockPartitions => cfg.kLockCnt + 4
  | .clearFlag => cfg.kLockCnt + 3
  | .clearPause => cfg.kLockCnt + 2

/-- At least as many steps as a call of `RebuildPartitions` still takes. -/
def RebuildPc.remaining : RebuildPc → ℕ
  | .exchange => 2 * cfg.kLockCnt + 5 * cfg.kBlocks + 22
  | .snapStats i => 2 * cfg.kLockCnt + 4 * cfg.kBlocks + 21 + (cfg.kBlocks - i)
  | .snapCrossings i => 2 * cfg.kLockCnt + 3 * cfg.kBlocks + 20 + (cfg.kBlocks - i)
  | .gainLock => 2 * cfg.kLockCnt + 3 * cfg.kBlocks + 19
  | .gainTest => 2 * cfg.kLockCnt + 3 * cfg.kBlocks + 18
  | .keep pc => pc.remaining cfg
  | .unlockGain => 2 * cfg.kLockCnt + 3 * cfg.kBlocks + 17
  | .pauseStore => 2 * cfg.kLockCnt + 3 * cfg.kBlocks + 16
  | .lockAll next => cfg.kLockCnt + 3 * cfg.kBlocks + 15 + (cfg.kLockCnt - next)
  | .publish pc => pc.remaining cfg
  | .unlockAll count => count + 1
  | .ret _ => 0

variable {cfg}

/-- The reset loop comes to its end. -/
theorem remaining_resetStep {stats : ℕ → UInt64} {m : Mem Client} {pc pc' : ResetPc}
    (h : (resetStep cfg stats m pc).2 = some pc') : pc'.remaining cfg < pc.remaining cfg := by
  cases pc with
  | saveLast => cases h; simp only [ResetPc.remaining]; omega
  | zeroStats i => cases h; simp only [ResetPc.remaining]; omega
  | zeroCrossings i =>
      simp only [resetStep, Option.ite_none_right_eq_some] at h
      obtain ⟨hlt, heq⟩ := h
      cases heq
      simp only [ResetPc.remaining]
      omega

section Steps

variable [DecidableEq Client] {t : Tid Client} {m m' : Mem Client}
  {snapshot snapshot' : Counters UInt64} {pc pc' : RebuildPc}

/-- Every step of a rebuild brings it nearer to its end. -/
theorem remaining_rebuildStep
    (h : rebuildStep cfg t m snapshot pc = some (m', snapshot', pc')) :
    pc'.remaining cfg < pc.remaining cfg := by
  cases pc with
  | exchange =>
      cases h
      split <;> simp only [RebuildPc.remaining] <;> omega
  | snapStats i =>
      cases h
      split <;> simp only [RebuildPc.remaining] <;> omega
  | snapCrossings i =>
      cases h
      split <;> simp only [RebuildPc.remaining] <;> omega
  | gainLock =>
      simp only [rebuildStep] at h
      split at h
      · cases h; simp only [RebuildPc.remaining]; omega
      · contradiction
  | gainTest =>
      cases h
      split <;> simp only [RebuildPc.remaining, KeepPc.remaining] <;> omega
  | keep pc =>
      simp only [rebuildStep, Option.map_eq_some_iff, Prod.mk.injEq] at h
      obtain ⟨⟨m'', r⟩, hstep, -, -, rfl⟩ := h
      cases pc with
      | lockStats =>
          simp only [keepStep] at hstep
          split at hstep
          · cases hstep
            simp only [RebuildPc.remaining, KeepPc.remaining, ResetPc.remaining]
            omega
          · contradiction
      | reset pc =>
          cases hstep
          dsimp only
          split
          · next next hnext =>
              have hless := remaining_resetStep hnext
              simp only [RebuildPc.remaining, KeepPc.remaining]
              omega
          · simp only [RebuildPc.remaining, KeepPc.remaining]
            omega
      | _ =>
          cases hstep
          simp only [RebuildPc.remaining, KeepPc.remaining]
          omega
  | unlockGain => cases h; simp only [RebuildPc.remaining]; omega
  | pauseStore => cases h; simp only [RebuildPc.remaining]; omega
  | lockAll next =>
      simp only [rebuildStep] at h
      split at h
      · cases h
        split <;> simp only [RebuildPc.remaining, PublishPc.remaining] <;> omega
      · contradiction
  | publish pc =>
      simp only [rebuildStep, Option.map_eq_some_iff, Prod.mk.injEq] at h
      obtain ⟨⟨m'', r⟩, hstep, -, -, rfl⟩ := h
      cases pc with
      | lockPartitions =>
          simp only [publishStep] at hstep
          split at hstep
          · cases hstep; simp only [RebuildPc.remaining, PublishPc.remaining]; omega
          · contradiction
      | lockStats =>
          simp only [publishStep] at hstep
          split at hstep
          · cases hstep; simp only [RebuildPc.remaining, PublishPc.remaining]; omega
          · contradiction
      | refresh block lockIndex =>
          cases hstep
          dsimp only
          split <;> simp only [RebuildPc.remaining, PublishPc.remaining] <;> omega
      | reset pc =>
          cases hstep
          dsimp only
          split
          · next next hnext =>
              have hless := remaining_resetStep hnext
              simp only [RebuildPc.remaining, PublishPc.remaining]
              omega
          · simp only [RebuildPc.remaining, PublishPc.remaining]
            omega
      | _ =>
          cases hstep
          simp only [RebuildPc.remaining, PublishPc.remaining, ResetPc.remaining]
          omega
  | unlockAll count =>
      cases h
      split <;> simp only [RebuildPc.remaining] <;> omega
  | ret result => contradiction

/-- A rebuild is held up by a mutex at most. -/
theorem exists_rebuildStep (caller : Caller) (hpc : ∀ result, pc ≠ .ret result)
    (hfree : ∀ x, (Loc.rebuild caller snapshot pc).wants = some x → m.owner x = none) :
    ∃ m' snapshot' pc', rebuildStep cfg t m snapshot pc = some (m', snapshot', pc') := by
  cases pc with
  | gainLock =>
      have hown : m.partitionsMutex = none := hfree .partitions rfl
      exact ⟨_, _, _, by simp only [rebuildStep, hown, if_true]; rfl⟩
  | keep pc =>
      cases pc with
      | lockStats =>
          have hown : m.statsMutex = none := hfree .stats rfl
          exact ⟨_, _, _, by simp only [rebuildStep, keepStep, hown, if_true]; rfl⟩
      | _ => exact ⟨_, _, _, rfl⟩
  | lockAll next =>
      have hown : m.locks next = none := hfree (.range next) rfl
      exact ⟨_, _, _, by simp only [rebuildStep, hown, if_true]; rfl⟩
  | publish pc =>
      cases pc with
      | lockPartitions =>
          have hown : m.partitionsMutex = none := hfree .partitions rfl
          exact ⟨_, _, _, by simp only [rebuildStep, publishStep, hown, if_true]; rfl⟩
      | lockStats =>
          have hown : m.statsMutex = none := hfree .stats rfl
          exact ⟨_, _, _, by simp only [rebuildStep, publishStep, hown, if_true]; rfl⟩
      | _ => exact ⟨_, _, _, rfl⟩
  | ret result => exact absurd rfl (hpc result)
  | _ => exact ⟨_, _, _, rfl⟩

theorem advance_of_rebuildStep {a : Act} (caller : Caller)
    (h : rebuildStep cfg t m snapshot pc = some (m', snapshot', pc')) :
    advance cfg t a m (.rebuild caller snapshot pc) = some (m', .rebuild caller snapshot' pc') := by
  cases pc with
  | ret result => contradiction
  | _ => simp only [advance, h, Option.map_some]

/-- In a call of `RebuildPartitions` that has not come to its return. -/
def Loc.Rebuilding (l : Loc) : Prop :=
  ∃ caller snapshot pc, l = .rebuild caller snapshot pc ∧ ∀ result, pc ≠ .ret result

/-- **A rebuild that nobody hinders returns**: from every reachable state in which the other threads
are idle, whatever its snapshot says. -/
theorem exists_return {s : State (Tid Client) (Mem Client) Loc} {caller : Caller}
    (hs : (machine cfg Client).Reachable s) (hloc : s.loc t = .rebuild caller snapshot pc)
    (hothers : ∀ u, u ≠ t → s.loc u = .idle) :
    ∃ s' snapshot' result, s'.loc t = .rebuild caller snapshot' (.ret result) ∧
      (∀ u, u ≠ t → s'.loc u = .idle) ∧
        Relation.ReflTransGen (fun s s' => ((s.loc t).Rebuilding ∧ ∀ u, u ≠ t → s.loc u = .idle) ∧
          (machine cfg Client).Step s s') s s' := by
  induction hleft : pc.remaining cfg using Nat.strong_induction_on generalizing s snapshot pc with
  | _ left ih =>
      by_cases hret : ∃ result, pc = .ret result
      · obtain ⟨result, rfl⟩ := hret
        exact ⟨s, snapshot, result, hloc, hothers, .refl⟩
      · have hpc : ∀ result, pc ≠ .ret result := fun result heq => hret ⟨result, heq⟩
        -- a mutex that is wanted and held would be held by the call itself
        have hfree : ∀ x, (Loc.rebuild caller snapshot pc).wants = some x →
            s.mem.owner x = none := by
          intro x hwants
          by_contra hheld
          obtain ⟨u, hu⟩ := Option.ne_none_iff_exists'.mp hheld
          have hholds : (s.loc u).Holds cfg x := (owned_of_reachable hs x u).mp hu
          by_cases hut : u = t
          · rw [hut, hloc] at hholds
            exact absurd (rank_lt_of_wants hwants hholds) (lt_irrefl _)
          · rw [hothers u hut] at hholds
            cases x <;> exact hholds
        obtain ⟨m', snapshot', pc', hstep⟩ := exists_rebuildStep (t := t) caller hpc hfree
        have hadvance : (machine cfg Client).advance t .step s.mem (s.loc t) =
            some (m', .rebuild caller snapshot' pc') := by
          rw [hloc]
          exact advance_of_rebuildStep caller hstep
        have hmove := Program.stepBy_of_advance hadvance
        have hnext : (Function.update s.loc t (.rebuild caller snapshot' pc')) t =
            .rebuild caller snapshot' pc' := Function.update_self ..
        obtain ⟨s', snap, result, hloc', hothers', hchain⟩ := ih _
          (hleft ▸ remaining_rebuildStep hstep) (hs.step ⟨t, hmove⟩) hnext
          (fun u hu => (Function.update_of_ne hu ..).trans (hothers u hu)) rfl
        exact ⟨s', snap, result, hloc', hothers',
          .head ⟨⟨⟨caller, snapshot, pc, hloc, hpc⟩, hothers⟩, t, hmove⟩ hchain⟩

end Steps

end DynamicLock
end DynLocks
