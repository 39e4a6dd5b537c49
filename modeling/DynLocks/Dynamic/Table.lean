import DynLocks.Dynamic.Mutexes
import DynLocks.Dynamic.Rebuild

/-!
# DynLocks.Dynamic.Table

The block table of `DynamicLock` against its cut vector.  Both are written
under `partitions_mutex_`, the table after the vector and one cell at a time, so
they agree whenever nobody is in between (`refreshed_of_reachable`), and with
them the epoch is even (`installed_of_free`).  `CountLocksForRange` reads the
table under the same mutex (`Counting`).
-/

namespace DynLocks
namespace DynamicLock

open Interleaving EpochTable CutVector

variable {Client : Type} (cfg : Config)

/-! ## table and cut vector -/

/-- Every cell of the table is the one `RefreshBlockToLock` stores for the cut vector. -/
def Refreshed (m : Mem Client) : Prop :=
  ∀ b < cfg.kBlocks, m.blockToLock b = lockOfBlock cfg.kLockCnt m.partitions b

/-- The new cut vector is assigned and the table not yet rewritten. -/
def Loc.Rewrites : Loc → Prop
  | .rebuild _ _ (.publish .epochOpen) => True
  | .rebuild _ _ (.publish (.refresh _ _)) => True
  | _ => False

theorem Loc.Rewrites.holdsPartitions {l : Loc} (h : l.Rewrites) : l.HoldsPartitions := by
  cases l with
  | rebuild caller snapshot pc =>
      cases pc with
      | publish pc =>
          cases pc with
          | epochOpen => trivial
          | refresh => trivial
          | _ => exact h.elim
      | _ => exact h.elim
  | _ => exact h.elim

theorem holdsPartitions_of_publishing {l : Loc} (h : (l.phase cfg).Publishing) :
    l.HoldsPartitions := by
  cases l with
  | query left right pc => cases pc <;> exact h.elim
  | rebuild caller snapshot pc =>
      cases pc with
      | publish pc =>
          cases pc with
          | refresh => trivial
          | epochClose => trivial
          | _ => exact h.elim
      | _ => exact h.elim
  | _ => exact h.elim

/-- The cuts cover the blocks; with at most one lock a block only segments at the front are
empty. -/
structure Config.Partition (cuts : List ℕ) : Prop where
  covers : Covers cfg.kLockCnt cfg.kBlocks cuts
  packed : cfg.kLockCnt ≤ cfg.kBlocks → Packed cfg.kLockCnt cuts

/-- The partition `cuts` is fully installed. -/
structure Installed (m : Mem Client) (cuts : List ℕ) : Prop where
  partitions : m.partitions = cuts
  epoch : m.partitionEpoch % 2 = 0
  table : Refreshed cfg m

/-- What `CountLocksForRange` has read so far. -/
def CountPc.Noted (m : Mem Client) (left right : ℕ) : CountPc → Prop
  | .lockPartitions => True
  | .leftLoad => True
  | .rightLoad lockStart => lockStart = m.blockToLock (cfg.positionToBlock left)
  | .unlockPartitions lockStart lockEnd => lockStart = m.blockToLock (cfg.positionToBlock left) ∧
      lockEnd = m.blockToLock (cfg.positionToBlock right)

/-- The range of a call is clamped, and what it has read is still there. -/
def Loc.Counting (m : Mem Client) : Loc → Prop
  | .count left right pc => left ≤ right ∧ right < cfg.arraySize ∧ pc.Noted cfg m left right
  | _ => True

section Steps

variable {cfg} [DecidableEq Client] {t : Tid Client} {a : Act} {m m' : Mem Client}
  {s s' : State (Tid Client) (Mem Client) Loc}

/-! ## in every reachable state -/

/-- **Run lemma**: the cut vector is always a partition. -/
theorem partition_of_reachable (hs : (machine cfg Client).Reachable s) :
    cfg.Partition s.mem.partitions := by
  refine hs.invariant (I := fun s => cfg.Partition s.mem.partitions) ?_ ?_
  · refine ⟨?_, fun hle => (cfg.isCuts_initialPartitions hle).packed⟩
    show Covers cfg.kLockCnt cfg.kBlocks cfg.initialPartitions
    rw [cfg.initialPartitions_eq]
    exact covers_uniformCuts cfg.kLockCnt_pos cfg.kBlocks
  · rintro s s' - hpartition ⟨t, ht⟩
    obtain ⟨⟨a, ha⟩, -⟩ := advance_of_stepBy ht
    rcases advance_partitions cfg ha with hsame | ⟨caller, snapshot, -, hmem, -⟩
    · rw [hsame]
      exact hpartition
    · rw [hmem]
      have hnew : Covers cfg.kLockCnt cfg.kBlocks (cfg.newPartitions snapshot) ∧
          Packed cfg.kLockCnt (cfg.newPartitions snapshot) :=
        optimizePartitions_covers cfg.kLockCnt_pos
      exact ⟨hnew.1, fun _ => hnew.2⟩

/-- The rewrite goes on until the last cell is written. -/
theorem rewrites_advance {l l' : Loc} (hl : l.Rewrites) (h : advance cfg t a m l = some (m', l')) :
    l'.Rewrites ∨ ∃ caller snapshot, l' = .rebuild caller snapshot (.publish .epochClose) := by
  cases l with
  | rebuild caller snapshot pc =>
      cases pc with
      | publish pc =>
          cases pc with
          | epochOpen => cases h; exact Or.inl trivial
          | refresh block lockIndex =>
              simp only [advance, rebuildStep, publishStep, Option.map_some, Option.some.injEq,
                Prod.mk.injEq] at h
              obtain ⟨-, rfl⟩ := h
              split
              · exact Or.inl trivial
              · exact Or.inr ⟨caller, snapshot, rfl⟩
          | _ => exact hl.elim
      | _ => exact hl.elim
  | _ => exact hl.elim

/-- Outside of the rewrite no cell is written. -/
theorem blockToLock_of_not_rewrites {l' : Loc} (hsafe : Safe cfg s) (hl : ¬(s.loc t).Rewrites)
    (h : advance cfg t a s.mem (s.loc t) = some (m', l')) : m'.blockToLock = s.mem.blockToLock := by
  by_cases hpub : ((s.loc t).phase cfg).Publishing
  · generalize s.loc t = l at *
    cases l with
    | query left right pc => cases pc <;> exact hpub.elim
    | rebuild caller snapshot pc =>
        cases pc with
        | publish pc =>
            cases pc with
            | refresh => exact absurd trivial hl
            | epochClose => cases h; rfl
            | _ => exact hpub.elim
        | _ => exact hpub.elim
    | _ => exact hpub.elim
  · rcases advance_move cfg (EpochTable.Quiet (abs cfg s)) (hsafe.locals t) (hsafe.inv.fresh t)
      hsafe.even h with ⟨hmem, -⟩ | hmove
    · exact congrArg EpochTable.Mem.table hmem
    · exact hmove.table_eq hpub

/-- Table and cut vector agree unless a thread is in the middle of the rewrite. -/
theorem refreshed_of_reachable (hs : (machine cfg Client).Reachable s)
    (hnone : ∀ t, ¬(s.loc t).Rewrites) : Refreshed cfg s.mem := by
  refine hs.invariant (I := fun s => (∀ t, ¬(s.loc t).Rewrites) → Refreshed cfg s.mem) ?_ ?_ hnone
  · exact fun _ b hb => refreshTable_apply _ _ _ hb
  · rintro s s' hreach hrefreshed ⟨t, ht⟩ hnone
    have hsafe := safe_of_reachable hreach
    obtain ⟨⟨a, ha⟩, hframe⟩ := advance_of_stepBy ht
    by_cases hl : (s.loc t).Rewrites
    · rcases rewrites_advance hl ha with hl' | ⟨caller, snapshot, hloc⟩
      · exact absurd hl' (hnone t)
      · have hlocal := advance_local cfg (hsafe.locals t) ha
        rw [hloc] at hlocal
        exact hlocal
    · have hold : Refreshed cfg s.mem := hrefreshed fun u => by
        by_cases hu : u = t
        · rw [hu]
          exact hl
        · rw [← hframe u hu]
          exact hnone u
      rcases advance_partitions cfg ha with hsame | ⟨caller, snapshot, -, -, hloc⟩
      · intro b hb
        rw [hsame, blockToLock_of_not_rewrites hsafe hl ha]
        exact hold b hb
      · exact absurd (by rw [hloc]; trivial) (hnone t)

/-- Whoever holds `partitions_mutex_` keeps the others from writing table, cut vector and epoch. -/
theorem same_of_holdsPartitions {u : Tid Client} (hs : (machine cfg Client).Reachable s)
    (hheld : (s.loc t).HoldsPartitions) (hu : u ≠ t) {l' : Loc}
    (h : advance cfg u a s.mem (s.loc u) = some (m', l')) :
    m'.partitions = s.mem.partitions ∧ m'.blockToLock = s.mem.blockToLock := by
  have hnot : ¬(s.loc u).HoldsPartitions := fun hh =>
    hu ((owned_of_reachable hs .partitions).unique hh hheld)
  constructor
  · rcases advance_partitions cfg h with hsame | ⟨caller, snapshot, hloc, -, -⟩
    · exact hsame
    · exact absurd (by rw [hloc]; trivial) hnot
  · exact blockToLock_of_not_rewrites (safe_of_reachable hs) (fun hl => hnot hl.holdsPartitions) h

/-- While nobody rewrites and nobody publishes, the partition is installed. -/
theorem installed_of_not_holds (hs : (machine cfg Client).Reachable s)
    (hnone : ∀ t, (s.loc t).HoldsPartitions → ¬((s.loc t).phase cfg).Publishing ∧ ¬(s.loc t).Rewrites) :
    Installed cfg s.mem s.mem.partitions where
  partitions := rfl
  epoch := by
    rcases Nat.mod_two_eq_zero_or_one s.mem.partitionEpoch with heven | hodd
    · exact heven
    · obtain ⟨t, ht⟩ := (safe_of_reachable hs).inv.odd hodd
      exact absurd ht (hnone t (holdsPartitions_of_publishing cfg ht)).1
  table := refreshed_of_reachable hs fun t ht => (hnone t ht.holdsPartitions).2 ht

/-- While `partitions_mutex_` is free the partition is installed. -/
theorem installed_of_free (hs : (machine cfg Client).Reachable s)
    (hfree : s.mem.partitionsMutex = none) : Installed cfg s.mem s.mem.partitions :=
  installed_of_not_holds hs fun t ht => by
    have hsome : s.mem.partitionsMutex = some t := (owned_of_reachable hs .partitions t).mpr ht
    rw [hfree] at hsome
    contradiction

/-! ## `CountLocksForRange` -/

omit [DecidableEq Client] in
/-- A step of the call notes what it reads. -/
theorem counting_countStep {left right : ℕ} {pc : CountPc} {l' : Loc}
    (hpc : (Loc.count left right pc).Counting cfg m)
    (h : countStep cfg t m left right pc = some (m', l')) : l'.Counting cfg m' := by
  obtain ⟨hle, hlt, hnoted⟩ := hpc
  cases pc with
  | lockPartitions =>
      simp only [countStep] at h
      split at h
      · cases h; exact ⟨hle, hlt, trivial⟩
      · contradiction
  | leftLoad => cases h; exact ⟨hle, hlt, rfl⟩
  | rightLoad lockStart => cases h; exact ⟨hle, hlt, hnoted, rfl⟩
  | unlockPartitions lockStart lockEnd => cases h; trivial

omit [DecidableEq Client] in
theorem counting_enter {call : Call} {l' : Loc} (h : enter cfg m call = some (m', l')) :
    l'.Counting cfg m' := by
  cases call with
  | countLocksForRange left right =>
      simp only [enter] at h
      split at h
      · cases h; trivial
      · next hne =>
          cases h
          exact ⟨clampRange_le _ _ _, clampRange_lt (Nat.pos_of_ne_zero hne) _ _, trivial⟩
  | writeQuery left right =>
      simp only [enter] at h
      split at h <;>
      · cases h
        trivial
  | startRebuilder interval changeThreshold =>
      simp only [enter] at h
      split at h <;>
      · cases h
        trivial
  | _ => cases h; trivial

omit [DecidableEq Client] in
theorem counting_startStep {interval : ℕ} {changeThreshold : ℚ} {stage : Fin 4} {l' : Loc}
    (h : startStep m interval changeThreshold stage = some (m', l')) : l'.Counting cfg m' := by
  match stage with
  | 0 => cases h; trivial
  | 1 => cases h; trivial
  | 2 => cases h; trivial
  | 3 =>
      simp only [startStep] at h
      split at h
      · cases h; trivial
      · contradiction

omit [DecidableEq Client] in
theorem counting_stopStep {stage : Fin 4} {l' : Loc} (h : stopStep m stage = some (m', l')) :
    l'.Counting cfg m' := by
  match stage with
  | 0 => cases h; trivial
  | 2 => cases h; trivial
  | 3 => cases h; trivial
  | 1 =>
      simp only [stopStep] at h
      split at h
      · cases h; trivial
      · split at h
        · cases h; trivial
        · contradiction

/-- A step keeps what the moving thread has noted. -/
theorem counting_advance {l l' : Loc} (hl : l.Counting cfg m)
    (h : advance cfg t a m l = some (m', l')) : l'.Counting cfg m' := by
  cases l with
  | idle =>
      cases t with
      | client c =>
          cases a with
          | call call => exact counting_enter h
          | _ => contradiction
      | background =>
          cases a with
          | step =>
              simp only [advance] at h
              split at h
              · cases h; trivial
              · contradiction
          | _ => contradiction
  | query left right pc =>
      simp only [advance, Option.map_eq_some_iff, Prod.mk.injEq] at h
      obtain ⟨⟨m'', r⟩, -, rfl, rfl⟩ := h
      cases r <;> trivial
  | rebuild caller snapshot pc =>
      rcases advance_rebuild cfg h with ⟨result, rfl, rfl, rfl⟩ | ⟨snapshot', pc', -, rfl⟩
      · cases result <;> cases caller <;> trivial
      · trivial
  | countRebuild caller => cases h; cases caller <;> trivial
  | rebuildNow snapshot i =>
      simp only [advance] at h
      split at h
      · cases h; trivial
      · split at h <;>
        · cases h
          trivial
  | rebuilder interval changeThreshold pc =>
      cases pc with
      | should snapshot pc =>
          simp only [advance, rebuilderStep, Option.map_eq_some_iff, Prod.mk.injEq] at h
          obtain ⟨⟨m'', snapshot', r⟩, -, rfl, rfl⟩ := h
          dsimp only
          split <;> trivial
      | _ => cases h; trivial
  | start interval changeThreshold stage => exact counting_startStep h
  | stop stage => exact counting_stopStep h
  | forceLock =>
      simp only [advance] at h
      split at h
      · cases h; trivial
      · contradiction
  | forceCrossings i => cases h; split <;> trivial
  | count left right pc => exact counting_countStep hl h
  | cutsLock =>
      simp only [advance] at h
      split at h
      · cases h; trivial
      · contradiction
  | _ => cases h; trivial

/-- **Run lemma**: what a call has read of the table is in the table, and in order. -/
theorem counting_of_reachable (hs : (machine cfg Client).Reachable s) (t : Tid Client) :
    (s.loc t).Counting cfg s.mem := by
  refine hs.localInvariant (Q := fun _ m l => l.Counting cfg m) (fun _ => trivial) ?_ ?_ t
  · exact fun s t a m' l' _ hl ha => counting_advance hl ha
  · intro s t u a m' l' hreach hut hl ha
    cases hloc : s.loc t with
    | count left right pc =>
        rw [hloc] at hl
        obtain ⟨hle, hlt, hnoted⟩ := hl
        refine ⟨hle, hlt, ?_⟩
        cases pc with
        | lockPartitions => trivial
        | leftLoad => trivial
        | rightLoad lockStart =>
            have hsame := (same_of_holdsPartitions hreach (by rw [hloc]; trivial) hut ha).2
            rw [CountPc.Noted, hsame]
            exact hnoted
        | unlockPartitions lockStart lockEnd =>
            have hsame := (same_of_holdsPartitions hreach (by rw [hloc]; trivial) hut ha).2
            rw [CountPc.Noted, hsame]
            exact hnoted
    | _ => trivial

/-- A call returns from an installed partition: it has read the locks of its first and its last
block there. -/
theorem counted_step (hs : (machine cfg Client).Reachable s) {left right locks : ℕ} {pc : CountPc}
    (hloc : s.loc t = .count left right pc)
    (h : advance cfg t a s.mem (.count left right pc) = some (m', .counted locks)) :
    let lockStart := lockOfBlock cfg.kLockCnt s.mem.partitions (cfg.positionToBlock left)
    let lockEnd := lockOfBlock cfg.kLockCnt s.mem.partitions (cfg.positionToBlock right)
    left ≤ right ∧ Installed cfg s.mem s.mem.partitions ∧
      pc = .unlockPartitions lockStart lockEnd ∧ locks = lockSpan lockStart lockEnd := by
  have hcounting := counting_of_reachable hs t
  rw [hloc] at hcounting
  obtain ⟨hle, -, hnoted⟩ := hcounting
  cases pc with
  | unlockPartitions lockStart lockEnd =>
      cases h
      obtain ⟨rfl, rfl⟩ := hnoted
      have hinstalled : Installed cfg s.mem s.mem.partitions :=
        installed_of_not_holds hs fun u hu => by
          obtain rfl : u = t :=
            (owned_of_reachable hs .partitions).unique hu (by rw [hloc]; trivial)
          rw [hloc]
          exact ⟨id, id⟩
      rw [hinstalled.table _ (cfg.positionToBlock_lt left),
        hinstalled.table _ (cfg.positionToBlock_lt right)]
      exact ⟨hle, hinstalled, rfl, rfl⟩
  | lockPartitions =>
      simp only [advance, countStep] at h
      split at h
      · cases h
      · contradiction
  | leftLoad => cases h
  | rightLoad lockStart => cases h

end Steps

end DynamicLock
end DynLocks
