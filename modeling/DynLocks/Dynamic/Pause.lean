import DynLocks.Dynamic.Rebuild

/-!
# DynLocks.Dynamic.Pause

`pause_queries_` under any number of concurrent rebuilds.  A rebuild clears
`rebuild_flag_` before it clears `pause_queries_`, so a second rebuild can be
on its way while the first one has the pause still to take back.  The second
one does not get as far as setting it: the first one still holds every range
lock and has zeroed every counter (`cleared`), so the snapshot of the second
one is blank (`blank_of_clearPause`), and a blank snapshot never wins the gain
test (`gainTest_zero`).
-/

namespace DynLocks
namespace DynamicLock

open Interleaving

variable {Client : Type} {cfg : Config}

/-! ## a blank snapshot -/

theorem prefixSum_zero (i : ℕ) : prefixSum (fun _ => (0 : UInt64)) i = 0 := by
  induction i with
  | zero => rfl
  | succ i ih => rw [prefixSum, ih]; rfl

/-- Nothing observed, nothing to pay. -/
theorem partitionCost_zero (kLockCnt : ℕ) (partitions : List ℕ) :
    partitionCost kLockCnt partitions (prefixSum fun _ => (0 : UInt64)) (fun _ => 0) = 0 := by
  simp [partitionCost, prefixSum_zero, cutPenalty]

/-- A snapshot without observations never asks for a rebuild. -/
theorem gainTest_zero (partitions : List ℕ) : cfg.gainTest partitions .zero = false := by
  unfold Config.gainTest hasEnoughPartitionGain Counters.zero
  split
  · rfl
  · simp only [partitionCost_zero]
    simp

/-! ## who counts -/

/-- Every counter is left alone or zeroed. -/
def Shrinks (m m' : Mem Client) : Prop :=
  ∀ b, (m'.counters.stats b = m.counters.stats b ∨ m'.counters.stats b = 0) ∧
    (m'.counters.boundaryCrossings b = m.counters.boundaryCrossings b ∨
      m'.counters.boundaryCrossings b = 0)

theorem Shrinks.of_eq {m m' : Mem Client} (h : m'.counters = m.counters) : Shrinks m m' :=
  fun b => ⟨Or.inl (by rw [h]), Or.inl (by rw [h])⟩

/-- A store of zero leaves a counter as it is or clears it. -/
theorem setCounter_zero (c : ℕ → UInt64) (i b : ℕ) :
    setCounter c i 0 b = c b ∨ setCounter c i 0 b = 0 := by
  by_cases hb : b = i
  · rw [hb]; exact Or.inr (Function.update_self ..)
  · exact Or.inl (Function.update_of_ne hb ..)

/-- `ResetCollectedStatsUnlocked` only clears counters. -/
theorem shrinks_resetStep (stats : ℕ → UInt64) (m : Mem Client) (pc : ResetPc) :
    Shrinks m (resetStep cfg stats m pc).1 := by
  cases pc with
  | saveLast => exact .of_eq rfl
  | zeroStats i => exact fun b => ⟨setCounter_zero _ i b, Or.inl rfl⟩
  | zeroCrossings i => exact fun b => ⟨Or.inl rfl, setCounter_zero _ i b⟩

section Steps

variable [DecidableEq Client] {t : Tid Client} {a : Act} {m m' : Mem Client}

/-- A rebuild does nothing else to them. -/
theorem shrinks_rebuildStep {snapshot snapshot' : Counters UInt64} {pc pc' : RebuildPc}
    (h : rebuildStep cfg t m snapshot pc = some (m', snapshot', pc')) : Shrinks m m' := by
  cases pc with
  | gainLock =>
      simp only [rebuildStep] at h
      split at h
      · cases h; exact .of_eq rfl
      · contradiction
  | lockAll next =>
      simp only [rebuildStep] at h
      split at h
      · cases h; exact .of_eq rfl
      · contradiction
  | keep pc =>
      simp only [rebuildStep, Option.map_eq_some_iff, Prod.mk.injEq] at h
      obtain ⟨⟨m'', r⟩, hstep, rfl, -, -⟩ := h
      cases pc with
      | lockStats =>
          simp only [keepStep] at hstep
          split at hstep
          · cases hstep; exact .of_eq rfl
          · contradiction
      | reset pc => cases hstep; exact shrinks_resetStep _ m pc
      | _ => cases hstep; exact .of_eq rfl
  | publish pc =>
      simp only [rebuildStep, Option.map_eq_some_iff, Prod.mk.injEq] at h
      obtain ⟨⟨m'', r⟩, hstep, rfl, -, -⟩ := h
      cases pc with
      | lockPartitions =>
          simp only [publishStep] at hstep
          split at hstep
          · cases hstep; exact .of_eq rfl
          · contradiction
      | lockStats =>
          simp only [publishStep] at hstep
          split at hstep
          · cases hstep; exact .of_eq rfl
          · contradiction
      | reset pc => cases hstep; exact shrinks_resetStep _ m pc
      | _ => cases hstep; exact .of_eq rfl
  | ret result => contradiction
  | _ => cases h; exact .of_eq rfl

omit [DecidableEq Client] in
/-- Neither does a round of the background thread. -/
theorem shrinks_rebuilderStep {interval : ℕ} {changeThreshold : ℚ} {pc : RebuilderPc} {l' : Loc}
    (h : rebuilderStep cfg t m interval changeThreshold pc = some (m', l')) : Shrinks m m' := by
  cases pc with
  | should snapshot pc =>
      simp only [rebuilderStep, Option.map_eq_some_iff, Prod.mk.injEq] at h
      obtain ⟨⟨m'', r⟩, hstep, rfl, -⟩ := h
      cases pc with
      | lockStats =>
          simp only [shouldStep] at hstep
          split at hstep
          · cases hstep; exact .of_eq rfl
          · contradiction
      | decide =>
          simp only [shouldStep] at hstep
          split at hstep
          · cases hstep; exact .of_eq rfl
          · split at hstep
            · cases hstep; exact .of_eq rfl
            · split at hstep
              · cases hstep; exact .of_eq rfl
              · cases hstep; exact .of_eq rfl
      | reset pc => cases hstep; exact shrinks_resetStep _ m pc
      | snapStats i => cases hstep; exact .of_eq rfl
      | unlockStats result => cases hstep; exact .of_eq rfl
  | _ => cases h; exact .of_eq rfl

omit [DecidableEq Client] in
theorem shrinks_startStep {interval : ℕ} {changeThreshold : ℚ} {stage : Fin 4} {l' : Loc}
    (h : startStep m interval changeThreshold stage = some (m', l')) : Shrinks m m' := by
  match stage with
  | 0 => cases h; exact .of_eq rfl
  | 1 => cases h; exact .of_eq rfl
  | 2 => cases h; exact .of_eq rfl
  | 3 =>
      simp only [startStep] at h
      split at h
      · cases h; exact .of_eq rfl
      · contradiction

omit [DecidableEq Client] in
theorem shrinks_stopStep {stage : Fin 4} {l' : Loc} (h : stopStep m stage = some (m', l')) :
    Shrinks m m' := by
  match stage with
  | 0 => cases h; exact .of_eq rfl
  | 2 => cases h; exact .of_eq rfl
  | 3 => cases h; exact .of_eq rfl
  | 1 =>
      simp only [stopStep] at h
      split at h
      · cases h; exact .of_eq rfl
      · split at h
        · cases h; exact .of_eq rfl
        · contradiction

/-- Only a query that is inside its locks counts. -/
theorem shrinks_queryStep {left right : ℕ} {pc : QueryPc} {r : Option QueryPc}
    (hpc : ∀ lo hi, ¬(pc.phase lo hi).Inside)
    (h : queryStep cfg t a m left right pc = some (m', r)) : Shrinks m m' := by
  cases pc with
  | acquire epoch lockStart lockEnd index =>
      simp only [queryStep] at h
      split at h
      · cases h; exact .of_eq rfl
      · contradiction
  | inside lockStart lockEnd pc => exact absurd trivial (hpc 0 0)
  | _ => cases h; exact .of_eq rfl

/-- Only a query that is inside its locks counts; every other step leaves the counters alone or
zeroes them. -/
theorem shrinks_advance {l l' : Loc} (hl : ¬(l.phase cfg).Inside)
    (h : advance cfg t a m l = some (m', l')) : Shrinks m m' := by
  cases l with
  | idle =>
      cases t with
      | client c =>
          cases a with
          | call c => exact .of_eq (by rw [eq_of_enter h])
          | step => contradiction
          | elapsed => contradiction
      | background =>
          cases a with
          | step =>
              simp only [advance] at h
              split at h
              · cases h; exact .of_eq rfl
              · contradiction
          | call => contradiction
          | elapsed => contradiction
  | query left right pc =>
      simp only [advance, Option.map_eq_some_iff, Prod.mk.injEq] at h
      obtain ⟨⟨m'', r⟩, hstep, rfl, -⟩ := h
      refine shrinks_queryStep (fun lo hi hin => hl ?_) hstep
      cases pc <;> exact hin
  | rebuild caller snapshot pc =>
      rcases advance_rebuild cfg h with ⟨result, -, rfl, -⟩ | ⟨snapshot', pc', hstep, -⟩
      · exact .of_eq rfl
      · exact shrinks_rebuildStep hstep
  | rebuilder interval changeThreshold pc => exact shrinks_rebuilderStep h
  | start interval changeThreshold stage => exact shrinks_startStep h
  | stop stage => exact shrinks_stopStep h
  | forceLock =>
      simp only [advance] at h
      split at h
      · cases h; exact .of_eq rfl
      · contradiction
  | forceStats i => cases h; exact fun b => ⟨setCounter_zero _ i b, Or.inl rfl⟩
  | forceCrossings i => cases h; exact fun b => ⟨Or.inl rfl, setCounter_zero _ i b⟩
  | count left right pc =>
      cases pc with
      | lockPartitions =>
          simp only [advance, countStep] at h
          split at h
          · cases h; exact .of_eq rfl
          · contradiction
      | _ => cases h; exact .of_eq rfl
  | cutsLock =>
      simp only [advance] at h
      split at h
      · cases h; exact .of_eq rfl
      · contradiction
  | _ => cases h; exact .of_eq rfl

/-! ## the counters of a rebuild that is done with them -/

/-- What a publication knows of the counters: those it has passed are zero. -/
def PublishPc.Cleared (kBlocks : ℕ) (c : Counters UInt64) : PublishPc → Prop
  | .reset (.zeroStats i) => ∀ b < i, c.stats b = 0 ∧ c.boundaryCrossings b = 0
  | .reset (.zeroCrossings i) =>
      (∀ b < i, c.stats b = 0 ∧ c.boundaryCrossings b = 0) ∧ c.stats i = 0
  | .unlockStats => ∀ b < kBlocks, c.stats b = 0 ∧ c.boundaryCrossings b = 0
  | .unlockPartitions => ∀ b < kBlocks, c.stats b = 0 ∧ c.boundaryCrossings b = 0
  | .clearFlag => ∀ b < kBlocks, c.stats b = 0 ∧ c.boundaryCrossings b = 0
  | .clearPause => ∀ b < kBlocks, c.stats b = 0 ∧ c.boundaryCrossings b = 0
  | _ => True

/-- What a thread knows of the counters. -/
def Loc.Cleared (kBlocks : ℕ) (c : Counters UInt64) : Loc → Prop
  | .rebuild _ _ (.publish pc) => pc.Cleared kBlocks c
  | _ => True

omit [DecidableEq Client] in
/-- Zeroing more does not hurt. -/
theorem Loc.Cleared.shrinks {l : Loc} {kBlocks : ℕ} (h : l.Cleared kBlocks m.counters)
    (hmem : Shrinks m m') : l.Cleared kBlocks m'.counters := by
  have hzero : ∀ b, m.counters.stats b = 0 → m'.counters.stats b = 0 :=
    fun b hb => (hmem b).1.elim (fun heq => heq.trans hb) id
  have hboth : ∀ b, m.counters.stats b = 0 ∧ m.counters.boundaryCrossings b = 0 →
      m'.counters.stats b = 0 ∧ m'.counters.boundaryCrossings b = 0 :=
    fun b hb => ⟨hzero b hb.1, (hmem b).2.elim (fun heq => heq.trans hb.2) id⟩
  cases l with
  | rebuild caller snapshot pc =>
      cases pc with
      | publish pc =>
          cases pc with
          | reset pc =>
              cases pc with
              | saveLast => trivial
              | zeroStats i => exact fun b hb => hboth b (h b hb)
              | zeroCrossings i => exact ⟨fun b hb => hboth b (h.1 b hb), hzero i h.2⟩
          | unlockStats => exact fun b hb => hboth b (h b hb)
          | unlockPartitions => exact fun b hb => hboth b (h b hb)
          | clearFlag => exact fun b hb => hboth b (h b hb)
          | clearPause => exact fun b hb => hboth b (h b hb)
          | _ => trivial
      | _ => trivial
  | _ => trivial

/-- The zeroing loop zeroes one cell after the other. -/
theorem cleared_publishStep {caller : Caller} {snapshot snapshot' : Counters UInt64}
    {pc : PublishPc} {pc' : RebuildPc} (hcleared : pc.Cleared cfg.kBlocks m.counters)
    (h : rebuildStep cfg t m snapshot (.publish pc) = some (m', snapshot', pc')) :
    (Loc.rebuild caller snapshot' pc').Cleared cfg.kBlocks m'.counters := by
  simp only [rebuildStep, Option.map_eq_some_iff, Prod.mk.injEq] at h
  obtain ⟨⟨m'', r⟩, hstep, rfl, rfl, rfl⟩ := h
  cases pc with
  | lockPartitions =>
      simp only [publishStep] at hstep
      split at hstep
      · cases hstep; trivial
      · contradiction
  | lockStats =>
      simp only [publishStep] at hstep
      split at hstep
      · cases hstep; trivial
      · contradiction
  | refresh block lockIndex => cases hstep; split <;> trivial
  | unlockStats => cases hstep; exact hcleared
  | unlockPartitions => cases hstep; exact hcleared
  | clearFlag => cases hstep; exact hcleared
  | reset pc =>
      cases hstep
      cases pc with
      | saveLast => exact fun b hb => absurd hb (Nat.not_lt_zero b)
      | zeroStats i =>
          refine ⟨fun b hb => ?_, Function.update_self ..⟩
          exact ⟨(Function.update_of_ne (by omega) ..).trans (hcleared b hb).1, (hcleared b hb).2⟩
      | zeroCrossings i =>
          have hcells : ∀ b < i + 1, m.counters.stats b = 0 ∧
              setCounter m.counters.boundaryCrossings i 0 b = 0 := by
            intro b hb
            by_cases heq : b = i
            · rw [heq]; exact ⟨hcleared.2, Function.update_self ..⟩
            · have hb' := hcleared.1 b (by omega)
              exact ⟨hb'.1, (Function.update_of_ne heq ..).trans hb'.2⟩
          simp only [resetStep]
          by_cases hlt : i + 1 < cfg.kBlocks
          · rw [if_pos hlt]; exact hcells
          · rw [if_neg hlt]; exact fun b hb => hcells b (by omega)
  | _ => cases hstep; trivial

/-- A thread keeps what it knows of the counters by its own steps. -/
theorem cleared_advance {l l' : Loc} (hcleared : l.Cleared cfg.kBlocks m.counters)
    (h : advance cfg t a m l = some (m', l')) : l'.Cleared cfg.kBlocks m'.counters := by
  cases l' with
  | rebuild caller snapshot' pc' =>
      rcases rebuild_of_advance h with rfl | ⟨snapshot, pc, rfl, hstep⟩
      · trivial
      · cases pc with
        | publish pc => exact cleared_publishStep hcleared hstep
        | lockAll next =>
            simp only [rebuildStep] at hstep
            split at hstep
            · cases hstep; split <;> trivial
            · contradiction
        | keep pc =>
            simp only [rebuildStep, Option.map_eq_some_iff, Prod.mk.injEq] at hstep
            obtain ⟨⟨m'', r⟩, hkeep, -, rfl, rfl⟩ := hstep
            have hout := (keepStep_frame cfg hkeep).2.2
            cases r with
            | publish pc => cases pc <;> contradiction
            | _ => trivial
        | gainLock =>
            simp only [rebuildStep] at hstep
            split at hstep
            · cases hstep; trivial
            · contradiction
        | ret result => contradiction
        | exchange => cases hstep; split <;> trivial
        | snapStats i => cases hstep; split <;> trivial
        | snapCrossings i => cases hstep; split <;> trivial
        | gainTest => cases hstep; split <;> trivial
        | unlockAll count => cases hstep; split <;> trivial
        | _ => cases hstep; trivial
  | _ => trivial

/-! ## a snapshot taken meanwhile -/

/-- The snapshot loops stay inside the arrays. -/
def RebuildPc.InBounds (kBlocks : ℕ) : RebuildPc → Prop
  | .snapStats i => i < kBlocks
  | .snapCrossings i => i < kBlocks
  | _ => True

/-- The loops over the blocks stay in their bounds. -/
theorem inBounds_rebuildStep {snapshot snapshot' : Counters UInt64} {pc pc' : RebuildPc}
    (h : rebuildStep cfg t m snapshot pc = some (m', snapshot', pc')) :
    pc'.InBounds cfg.kBlocks := by
  cases pc with
  | exchange => cases h; split; exacts [trivial, cfg.kBlocks_pos]
  | snapStats i =>
      cases h
      split
      · next hlt => exact hlt
      · exact cfg.kBlocks_pos
  | snapCrossings i =>
      cases h
      split
      · next hlt => exact hlt
      · trivial
  | gainLock =>
      simp only [rebuildStep] at h
      split at h
      · cases h; trivial
      · contradiction
  | gainTest => cases h; split <;> trivial
  | keep pc =>
      simp only [rebuildStep, Option.map_eq_some_iff, Prod.mk.injEq] at h
      obtain ⟨⟨m'', r⟩, hstep, -, -, rfl⟩ := h
      have hout := (keepStep_frame cfg hstep).2.2
      cases pc with
      | lockStats =>
          simp only [keepStep] at hstep
          split at hstep
          · cases hstep; trivial
          · contradiction
      | reset pc => cases hstep; split <;> trivial
      | _ => cases hstep; trivial
  | lockAll next =>
      simp only [rebuildStep] at h
      split at h
      · cases h; split <;> trivial
      · contradiction
  | publish pc =>
      simp only [rebuildStep, Option.map_eq_some_iff, Prod.mk.injEq] at h
      obtain ⟨⟨m'', r⟩, hstep, -, -, rfl⟩ := h
      cases pc with
      | lockPartitions =>
          simp only [publishStep] at hstep
          split at hstep
          · cases hstep; trivial
          · contradiction
      | lockStats =>
          simp only [publishStep] at hstep
          split at hstep
          · cases hstep; trivial
          · contradiction
      | _ => cases hstep; trivial
  | unlockAll count => cases h; split <;> trivial
  | ret result => contradiction
  | _ => cases h; trivial

/-- Nothing has been read, or the gain test has failed. -/
def Blank (snapshot : Counters UInt64) (pc : RebuildPc) : Prop :=
  pc.stage = .deciding ∧ snapshot = .zero ∨ pc.stage = .keeping

/-- A rebuild that finds every counter zero stays blank up to the end. -/
theorem blank_rebuildStep {snapshot snapshot' : Counters UInt64} {pc pc' : RebuildPc}
    (hzero : ∀ b < cfg.kBlocks, m.counters.stats b = 0 ∧ m.counters.boundaryCrossings b = 0)
    (hbounds : pc.InBounds cfg.kBlocks) (hblank : pc.InFlag → Blank snapshot pc)
    (h : rebuildStep cfg t m snapshot pc = some (m', snapshot', pc')) (hflag : pc'.InFlag) :
    Blank snapshot' pc' := by
  have hupdate : ∀ {c : ℕ → UInt64} {i : ℕ}, c i = 0 →
      setCounter (fun _ => 0) i (c i) = fun _ => 0 := by
    intro c i hi
    rw [hi]
    exact Function.update_eq_self i _
  cases pc with
  | exchange =>
      cases h
      split at hflag
      · exact hflag.elim
      · next hfree => rw [if_neg hfree]; exact Or.inl ⟨rfl, rfl⟩
  | snapStats i =>
      cases h
      obtain ⟨-, rfl⟩ | hkeep := hblank trivial
      · refine Or.inl ⟨by split <;> rfl, ?_⟩
        simp only [Counters.zero, hupdate (hzero i hbounds).1]
      · contradiction
  | snapCrossings i =>
      cases h
      obtain ⟨-, rfl⟩ | hkeep := hblank trivial
      · refine Or.inl ⟨by split <;> rfl, ?_⟩
        simp only [Counters.zero, hupdate (hzero i hbounds).2]
      · contradiction
  | gainLock =>
      simp only [rebuildStep] at h
      split at h
      · cases h
        obtain ⟨-, rfl⟩ | hkeep := hblank trivial
        · exact Or.inl ⟨rfl, rfl⟩
        · contradiction
      · contradiction
  | gainTest =>
      cases h
      obtain ⟨-, rfl⟩ | hkeep := hblank trivial
      · rw [gainTest_zero]; exact Or.inr rfl
      · contradiction
  | keep pc => exact Or.inr (stage_of_keeping h rfl).1
  | unlockGain =>
      obtain ⟨hstage, -⟩ | hstage := hblank trivial
      · contradiction
      · contradiction
  | pauseStore =>
      obtain ⟨hstage, -⟩ | hstage := hblank trivial
      · contradiction
      · contradiction
  | lockAll next =>
      obtain ⟨hstage, -⟩ | hstage := hblank trivial
      · contradiction
      · contradiction
  | publish pc =>
      by_cases hpc : (RebuildPc.publish pc).InFlag
      · obtain ⟨hstage, -⟩ | hstage := hblank hpc
        · cases pc <;> contradiction
        · cases pc <;> contradiction
      · cases pc with
        | clearPause => cases h; exact hflag.elim
        | _ => exact absurd trivial hpc
  | unlockAll count =>
      cases h
      split at hflag <;> exact hflag.elim
  | ret result => contradiction

/-- The store that clears the pause is the one after the store that clears the flag. -/
theorem eq_clearFlag_of_clearPause {snapshot snapshot' : Counters UInt64} {pc : RebuildPc}
    (h : rebuildStep cfg t m snapshot pc = some (m', snapshot', .publish .clearPause)) :
    pc = .publish .clearFlag := by
  cases pc with
  | publish pc =>
      simp only [rebuildStep, Option.map_eq_some_iff, Prod.mk.injEq] at h
      obtain ⟨⟨m'', r⟩, hstep, -, -, rfl⟩ := h
      cases pc with
      | clearFlag => rfl
      | lockPartitions =>
          simp only [publishStep] at hstep
          split at hstep <;> cases hstep
      | lockStats =>
          simp only [publishStep] at hstep
          split at hstep <;> cases hstep
      | refresh block lockIndex =>
          simp only [publishStep, Option.some.injEq, Prod.mk.injEq] at hstep
          split at hstep <;> simp at hstep
      | reset pc =>
          simp only [publishStep, Option.some.injEq, Prod.mk.injEq] at hstep
          split at hstep <;> simp at hstep
      | _ => cases hstep
  | keep pc =>
      simp only [rebuildStep, Option.map_eq_some_iff, Prod.mk.injEq] at h
      obtain ⟨⟨m'', r⟩, hstep, -, -, rfl⟩ := h
      have hout := (keepStep_frame cfg hstep).2.2
      contradiction
  | lockAll next =>
      simp only [rebuildStep] at h
      split at h
      · split at h <;> cases h
      · contradiction
  | gainLock =>
      simp only [rebuildStep] at h
      split at h <;> cases h
  | ret result => contradiction
  | exchange => simp only [rebuildStep] at h; split at h <;> cases h
  | snapStats i => simp only [rebuildStep] at h; split at h <;> cases h
  | snapCrossings i => simp only [rebuildStep] at h; split at h <;> cases h
  | gainTest => simp only [rebuildStep] at h; split at h <;> cases h
  | unlockAll count => simp only [rebuildStep] at h; split at h <;> cases h
  | _ => cases h

end Steps

/-! ## the pause -/

/-- The rebuild has cleared the flag and the pause is its next store. -/
def Loc.AtClearPause : Loc → Prop
  | .rebuild _ _ (.publish .clearPause) => True
  | _ => False

theorem Loc.AtClearPause.eq {l : Loc} (h : l.AtClearPause) :
    ∃ caller snapshot, l = .rebuild caller snapshot (.publish .clearPause) := by
  cases l with
  | rebuild caller snapshot pc =>
      cases pc with
      | publish pc =>
          cases pc with
          | clearPause => exact ⟨caller, snapshot, rfl⟩
          | _ => exact h.elim
      | _ => exact h.elim
  | _ => exact h.elim

/-- The thread has stored true into `pause_queries_` and has not stored false since. -/
def Loc.InPause : Loc → Prop
  | .rebuild _ _ (.lockAll _) => True
  | .rebuild _ _ (.publish _) => True
  | _ => False

/-- The thread is inside `RebuildPartitions`. -/
def Loc.InRebuild : Loc → Prop
  | .rebuild _ _ _ => True
  | _ => False

/-- Up to the last store the flag is still up. -/
theorem Loc.InPause.cases {l : Loc} (h : l.InPause) : l.InFlag ∨ l.AtClearPause := by
  cases l with
  | rebuild caller snapshot pc =>
      cases pc with
      | lockAll next => exact Or.inl trivial
      | publish pc =>
          cases pc with
          | clearPause => exact Or.inr trivial
          | _ => exact Or.inl trivial
      | _ => exact h.elim
  | _ => exact h.elim

section PauseSteps

variable [DecidableEq Client] {t : Tid Client} {a : Act} {m m' : Mem Client}

/-- A step of a rebuild sets the pause, takes it back, or leaves it. -/
theorem pauseMove_rebuildStep {caller : Caller} {snapshot snapshot' : Counters UInt64}
    {pc pc' : RebuildPc} (hfree : pc = .pauseStore → m.pauseQueries = false)
    (h : rebuildStep cfg t m snapshot pc = some (m', snapshot', pc')) :
    FlagMove m.pauseQueries (Loc.rebuild caller snapshot pc).InPause m'.pauseQueries
      (Loc.rebuild caller snapshot' pc').InPause := by
  cases pc with
  | exchange => cases h; exact .keep (by split <;> exact Iff.rfl)
  | snapStats i => cases h; exact .keep (by split <;> exact Iff.rfl)
  | snapCrossings i => cases h; exact .keep (by split <;> exact Iff.rfl)
  | gainLock =>
      simp only [rebuildStep] at h
      split at h
      · cases h; exact .keep Iff.rfl
      · contradiction
  | gainTest => cases h; exact .keep (by split <;> exact Iff.rfl)
  | keep pc =>
      simp only [rebuildStep, Option.map_eq_some_iff, Prod.mk.injEq] at h
      obtain ⟨⟨m'', r⟩, hstep, rfl, -, rfl⟩ := h
      cases pc with
      | lockStats =>
          simp only [keepStep] at hstep
          split at hstep
          · cases hstep; exact .keep Iff.rfl
          · contradiction
      | reset pc =>
          cases hstep
          have hcore := core_resetStep cfg snapshot.stats m pc
          dsimp only
          rw [show (resetStep cfg snapshot.stats m pc).1.pauseQueries = m.pauseQueries from
            congrArg (Control.pauseQueries ∘ Prod.snd) hcore]
          exact .keep (by split <;> exact Iff.rfl)
      | _ => cases hstep; exact .keep Iff.rfl
  | unlockGain => cases h; exact .keep Iff.rfl
  | pauseStore =>
      cases h
      rw [hfree rfl]
      exact .take trivial
  | lockAll next =>
      simp only [rebuildStep] at h
      split at h
      · cases h; exact .keep (by split <;> exact Iff.rfl)
      · contradiction
  | publish pc =>
      simp only [rebuildStep, Option.map_eq_some_iff, Prod.mk.injEq] at h
      obtain ⟨⟨m'', r⟩, hstep, rfl, -, rfl⟩ := h
      cases pc with
      | lockPartitions =>
          simp only [publishStep] at hstep
          split at hstep
          · cases hstep; exact .keep Iff.rfl
          · contradiction
      | lockStats =>
          simp only [publishStep] at hstep
          split at hstep
          · cases hstep; exact .keep Iff.rfl
          · contradiction
      | reset pc =>
          cases hstep
          have hcore := core_resetStep cfg snapshot.stats m pc
          dsimp only
          rw [show (resetStep cfg snapshot.stats m pc).1.pauseQueries = m.pauseQueries from
            congrArg (Control.pauseQueries ∘ Prod.snd) hcore]
          exact .keep Iff.rfl
      | clearPause => cases hstep; exact .give trivial id
      | _ => cases hstep; exact .keep Iff.rfl
  | unlockAll count => cases h; exact .keep (by split <;> exact Iff.rfl)
  | ret result => contradiction

/-- A thread at the start of a rebuild, or not in one, has not set the pause. -/
theorem Loc.AtStart.not_inPause {l : Loc} (h : l.AtStart) : ¬l.InPause := by
  cases l with
  | rebuild caller snapshot pc =>
      obtain rfl : pc = .exchange := h
      exact id
  | _ => exact id

/-- **Step lemma**: the pause is set by a rebuild that finds it clear and taken back by that
rebuild. -/
theorem pauseMove_advance {l l' : Loc}
    (hfree : ∀ caller snapshot, l = .rebuild caller snapshot .pauseStore → m.pauseQueries = false)
    (h : advance cfg t a m l = some (m', l')) :
    FlagMove m.pauseQueries l.InPause m'.pauseQueries l'.InPause := by
  cases l with
  | query left right pc =>
      simp only [advance, Option.map_eq_some_iff, Prod.mk.injEq] at h
      obtain ⟨⟨m'', r⟩, hstep, rfl, rfl⟩ := h
      rw [show m''.pauseQueries = m.pauseQueries from
        congrArg Control.pauseQueries (control_queryStep cfg hstep)]
      exact .keep (by cases r <;> exact Iff.rfl)
  | rebuild caller snapshot pc =>
      rcases advance_rebuild cfg h with ⟨result, rfl, rfl, rfl⟩ | ⟨snapshot', pc', hstep, rfl⟩
      · have haside := caller.aside_returned cfg m' result
        exact .keep ⟨fun hin => absurd hin haside.atStart.not_inPause, False.elim⟩
      · exact pauseMove_rebuildStep (fun hpc => hfree caller snapshot (by rw [hpc])) hstep
  | _ =>
      have haside := advance_aside cfg (by trivial) h
      rw [show m'.pauseQueries = m.pauseQueries from
        congrArg (Control.pauseQueries ∘ Prod.snd) haside.core]
      exact .keep ⟨fun hin => absurd hin haside.atStart.not_inPause, False.elim⟩

end PauseSteps

section Runs

variable [DecidableEq Client] {s s' : State (Tid Client) (Mem Client) Loc} {t u : Tid Client}

omit [DecidableEq Client] in
/-- A thread that holds every range lock is alone with the counters. -/
theorem Safe.not_inside (h : Safe cfg s)
    (ht : ∀ i < cfg.kLockCnt, ((s.loc t).phase cfg).Holds (layout cfg) i) (hu : u ≠ t) :
    ¬((s.loc u).phase cfg).Inside := by
  intro hin
  cases hphase : (s.loc u).phase cfg with
  | inside lo hi first last =>
      obtain ⟨hle, hlt⟩ := h.inv.first_le_last (t := u) hphase
      have hheld : ((s.loc u).phase cfg).Holds (layout cfg) first := by
        rw [hphase]; exact ⟨Nat.le_refl _, hle⟩
      exact hu ((h.inv.owned first).unique hheld (ht first (Nat.lt_of_le_of_lt hle hlt)))
  | _ => rw [hphase] at hin; exact hin

/-- While a publication zeroes the counters, and up to its end, nobody counts. -/
theorem cleared (hs : (machine cfg Client).Reachable s) (t : Tid Client) :
    (s.loc t).Cleared cfg.kBlocks s.mem.counters := by
  refine hs.localInvariant (Q := fun _ m l => l.Cleared cfg.kBlocks m.counters)
    (fun _ => trivial) ?_ ?_ t
  · intro s t a m' l' _ hcleared ha
    exact cleared_advance hcleared ha
  · intro s t u a m' l' hs hu hcleared ha
    -- only the publications that hold every lock know something
    by_cases hall : ∀ i < cfg.kLockCnt, ((s.loc t).phase cfg).Holds (layout cfg) i
    · exact hcleared.shrinks
        (shrinks_advance ((safe_of_reachable hs).not_inside hall hu) ha)
    · cases hloc : s.loc t with
      | rebuild caller snapshot pc =>
          rw [hloc] at hall
          cases pc with
          | publish pc =>
              cases pc with
              | refresh => trivial
              | lockPartitions => trivial
              | lockStats => trivial
              | assign => trivial
              | epochOpen => trivial
              | epochClose => trivial
              | _ => exact absurd (fun i hi => ⟨Nat.zero_le i, by omega⟩) hall
          | _ => trivial
      | _ => trivial

theorem inBounds (hs : (machine cfg Client).Reachable s) {caller : Caller}
    {snapshot : Counters UInt64} {pc : RebuildPc} (hloc : s.loc t = .rebuild caller snapshot pc) :
    pc.InBounds cfg.kBlocks := by
  refine hs.localInvariant (Q := fun _ _ l => ∀ caller snapshot pc,
    l = .rebuild caller snapshot pc → pc.InBounds cfg.kBlocks) ?_ ?_ ?_ t caller snapshot pc hloc
  · exact fun t caller snapshot pc hstart => by contradiction
  · rintro s t a m' _ - - ha caller snapshot pc' rfl
    rcases rebuild_of_advance ha with rfl | ⟨snapshot, pc, -, hstep⟩
    · trivial
    · exact inBounds_rebuildStep hstep
  · exact fun s t u a m' l' _ _ h _ => h

/-- While a rebuild has its pause to take back, another one gets no further than a lost gain
test. -/
theorem blank_of_clearPause (hs : (machine cfg Client).Reachable s)
    (ht : (s.loc t).AtClearPause) {caller : Caller} {snapshot : Counters UInt64} {pc : RebuildPc}
    (hloc : s.loc u = .rebuild caller snapshot pc) (hflag : pc.InFlag) : Blank snapshot pc := by
  refine hs.invariant (I := fun s => ∀ t u, (s.loc t).AtClearPause → ∀ caller snapshot pc,
    s.loc u = .rebuild caller snapshot pc → pc.InFlag → Blank snapshot pc) ?_ ?_ t u ht caller
    snapshot pc hloc hflag
  · exact fun t u ht => ht.elim
  · rintro s s' hs hblank ⟨v, hv⟩ t u ht caller snapshot' pc' hloc hflag
    obtain ⟨⟨a, ha⟩, hframe⟩ := advance_of_stepBy hv
    obtain ⟨caller', snap', hpause⟩ := ht.eq
    have hut : u ≠ t := by
      rintro rfl
      rw [hpause] at hloc
      cases hloc
      exact hflag
    by_cases hvt : v = t
    · -- the first rebuild has just given the flag up, which nobody shares
      subst hvt
      rw [hpause] at ha
      rw [hframe u hut] at hloc
      rcases rebuild_of_advance ha with hexchange | ⟨snap, pc, hfrom, hstep⟩
      · contradiction
      · obtain rfl := eq_clearFlag_of_clearPause hstep
        have hin : (s.loc v).InFlag := by rw [hfrom]; trivial
        have hin' : (s.loc u).InFlag := by rw [hloc]; exact hflag
        exact absurd ((flag_owned hs).unique hin' hin) hut
    · rw [hframe t (Ne.symm hvt)] at hpause
      have ht' : (s.loc t).AtClearPause := by rw [hpause]; trivial
      by_cases hvu : v = u
      · subst hvu
        rw [hloc] at ha
        rcases rebuild_of_advance ha with rfl | ⟨snapshot, pc, hfrom, hstep⟩
        · exact hflag.elim
        · have hzero := cleared hs t
          rw [hpause] at hzero
          exact blank_rebuildStep hzero (inBounds hs hfrom)
            (hblank t v ht' caller snapshot pc hfrom) hstep hflag
      · rw [hframe u (Ne.symm hvu)] at hloc
        exact hblank t u ht' caller snapshot' pc' hloc hflag

/-- The pause is the thread's that has set it and not taken it back. -/
theorem pause_owned (hs : (machine cfg Client).Reachable s) :
    FlagOwned s.mem.pauseQueries fun t => (s.loc t).InPause := by
  refine hs.invariant (I := fun s => FlagOwned s.mem.pauseQueries fun t => (s.loc t).InPause)
    ⟨none, rfl, fun t => by simp [Program.initial, machine, Loc.InPause]⟩ ?_
  rintro s s' hs howned ⟨t, ht⟩
  obtain ⟨⟨a, ha⟩, hframe⟩ := advance_of_stepBy ht
  refine howned.move (pauseMove_advance ?_ ha) fun u hu => by rw [hframe u hu]
  -- nobody has set the pause when a thread that won the gain test is about to
  intro caller snapshot hloc
  obtain ⟨own, hown, howner⟩ := howned
  cases own with
  | none => exact hown
  | some u =>
      have hin : (s.loc t).InFlag := by rw [hloc]; trivial
      rcases Loc.InPause.cases ((howner u).mp rfl) with hflag | hpause
      · obtain rfl := (flag_owned hs).unique hin hflag
        have hpaused : (s.loc t).InPause := (howner t).mp rfl
        rw [hloc] at hpaused
        exact hpaused.elim
      · rcases blank_of_clearPause hs hpause hloc trivial with ⟨hstage, -⟩ | hstage
        · contradiction
        · contradiction

/-- **The pause of a rebuild is not cancelled**: in every reachable state `pause_queries_` is set
while some rebuild has set it and not taken it back, and clear once no thread is inside
`RebuildPartitions`. -/
theorem pauseQueries_kept (hs : (machine cfg Client).Reachable s) :
    (∀ t, (s.loc t).InPause → s.mem.pauseQueries = true) ∧
      ((∀ t, ¬(s.loc t).InRebuild) → s.mem.pauseQueries = false) := by
  obtain ⟨own, hown, howner⟩ := pause_owned hs
  constructor
  · intro t ht
    rw [hown, (howner t).mpr ht]
    rfl
  · intro hnone
    cases own with
    | none => exact hown
    | some u =>
        have hpaused : (s.loc u).InPause := (howner u).mp rfl
        refine absurd ?_ (hnone u)
        cases hloc : s.loc u with
        | rebuild => trivial
        | _ => rw [hloc] at hpaused; exact hpaused.elim

end Runs

/-- Is this thread publishing? -/
def Loc.publishes : Loc → Bool
  | .rebuild _ _ (.publish _) => true
  | _ => false

theorem Loc.inPause_of_publishes {l : Loc} (h : l.publishes) : l.InPause := by
  cases l with
  | rebuild caller snapshot pc =>
      cases pc with
      | publish pc => trivial
      | _ => contradiction
  | _ => contradiction

theorem Loc.not_inRebuild_of_isIdle {l : Loc} (h : l.isIdle) : ¬l.InRebuild := by
  rw [Loc.eq_idle h]
  exact id

/-- Two clients ask for a rebuild. The first one has published and given the flag up, and the second
one has taken it and looks at the counters. -/
def twoRebuilds : List (Tid Bool × Act) :=
  fillStats false ++
    (.client true, .call .rebuildNow) :: List.replicate 3 (.client true, .step) ++
    (.client false, .call .rebuildNow) :: List.replicate 34 (.client false, .step) ++
    List.replicate 8 (.client true, .step)

/-- Both return. -/
def twoReturns : List (Tid Bool × Act) :=
  List.replicate 5 (.client false, .step) ++ List.replicate 13 (.client true, .step)

/-- In the middle both of them rebuild, and in the end both have returned. -/
theorem exec_twoRebuilds :
    ∃ s, (machine threeBlocks Bool).exec twoRebuilds (machine threeBlocks Bool).initial = some s ∧
      (s.loc (.client false)).publishes ∧ (s.loc (.client true)).midRebuild ∧
      ∃ s', (machine threeBlocks Bool).exec twoReturns s = some s' ∧
        ∀ t, (s'.loc t).isIdle := by
  have hexec : ((machine threeBlocks Bool).exec twoRebuilds (machine threeBlocks Bool).initial).map
      (fun s => (s.loc (.client false)).publishes && (s.loc (.client true)).midRebuild &&
        ((machine threeBlocks Bool).exec twoReturns s).any fun s' =>
          (s'.loc .background).isIdle && ((s'.loc (.client false)).isIdle &&
            (s'.loc (.client true)).isIdle)) = some true := by
    decide +kernel
  obtain ⟨s, hs, hcheck⟩ := Option.map_eq_some_iff.mp hexec
  obtain ⟨hmiddle, hend⟩ := Bool.and_eq_true_iff.mp hcheck
  obtain ⟨hfirst, hsecond⟩ := Bool.and_eq_true_iff.mp hmiddle
  obtain ⟨s', hs', hidle⟩ := (Option.any_eq_true _ _).mp hend
  obtain ⟨hbackground, hclients⟩ := Bool.and_eq_true_iff.mp hidle
  obtain ⟨hfalse, htrue⟩ := Bool.and_eq_true_iff.mp hclients
  exact ⟨s, hs, hfirst, hsecond, s', hs',
    Tid.forall_iff.mpr ⟨hbackground, Bool.forall_bool.mpr ⟨hfalse, htrue⟩⟩⟩

/-- Beside a second rebuild the first one's pause stays, and it is gone when both have returned. -/
theorem pauseQueries_kept_three_blocks :
    ∃ s s', (machine threeBlocks Bool).exec twoRebuilds (machine threeBlocks Bool).initial = some s ∧
      (s.loc (.client true)).midRebuild ∧ s.mem.pauseQueries = true ∧
      (machine threeBlocks Bool).exec twoReturns s = some s' ∧ s'.mem.pauseQueries = false := by
  obtain ⟨s, hs, hfirst, hsecond, s', hs', hidle⟩ := exec_twoRebuilds
  have hreach := Program.reachable_exec .init hs
  exact ⟨s, s', hs, hsecond,
    (pauseQueries_kept hreach).1 _ (Loc.inPause_of_publishes hfirst), hs',
    (pauseQueries_kept (Program.reachable_exec hreach hs')).2 fun t =>
      Loc.not_inRebuild_of_isIdle (hidle t)⟩

end DynamicLock
end DynLocks
