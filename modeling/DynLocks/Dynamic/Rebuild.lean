import DynLocks.Dynamic.Exclusion

/-!
# DynLocks.Dynamic.Rebuild

The decision of `RebuildPartitions` under any interleaving.  One thread at a
time is between the successful exchange of `rebuild_flag_` and the store that
clears it (`flag_owned`), and only that thread writes `partitions_`, so the gain
test and the publication, which are two critical sections, are about the same
partition.

* `rebuild_decision` — a call that acquires the flag returns whether the
  partition it tested costs more than the gain factor times the optimum;
* `publish_costs_le` — what is published costs no more than what it replaces,
  as long as the costs it was chosen by fit a machine word.
-/

namespace DynLocks
namespace DynamicLock

open Interleaving CutVector

variable {Client : Type} {cfg : Config}

/-! ## the stages of a rebuild -/

/-- How far a call of `RebuildPartitions` has come. -/
inductive Stage
  | entering
  | deciding
  | keeping
  | winning
  | published

def PublishPc.stage : PublishPc → Stage
  | .lockPartitions => .winning
  | .lockStats => .winning
  | .assign => .winning
  | _ => .published

def RebuildPc.stage : RebuildPc → Stage
  | .exchange => .entering
  | .snapStats _ => .deciding
  | .snapCrossings _ => .deciding
  | .gainLock => .deciding
  | .gainTest => .deciding
  | .keep _ => .keeping
  | .unlockGain => .winning
  | .pauseStore => .winning
  | .lockAll _ => .winning
  | .publish pc => pc.stage
  | .unlockAll _ => .published
  | .ret result => if result then .published else .keeping

/-- Between the exchange that sets the flag and the store that clears it. -/
def RebuildPc.InFlag : RebuildPc → Prop
  | .exchange => False
  | .keep .unlockStats => False
  | .keep .unlockPartitions => False
  | .publish .clearPause => False
  | .unlockAll _ => False
  | .ret _ => False
  | _ => True

def Loc.InFlag : Loc → Prop
  | .rebuild _ _ pc => pc.InFlag
  | _ => False

section Steps

variable [DecidableEq Client] {t : Tid Client} {a : Act} {m m' : Mem Client}
  {snapshot snapshot' : Counters UInt64} {pc pc' : RebuildPc}

/-- A step of a rebuild sets the flag, clears it, or leaves it. -/
theorem flagMove_rebuildStep (h : rebuildStep cfg t m snapshot pc = some (m', snapshot', pc')) :
    FlagMove m.rebuildFlag pc.InFlag m'.rebuildFlag pc'.InFlag := by
  cases pc with
  | exchange =>
      simp only [rebuildStep] at h
      cases h
      dsimp only
      cases hflag : m.rebuildFlag with
      | true => exact .keep Iff.rfl
      | false => exact .take trivial
  | snapStats i => cases h; exact .keep (by split <;> exact Iff.rfl)
  | snapCrossings i => cases h; exact .keep (by split <;> exact Iff.rfl)
  | gainLock =>
      simp only [rebuildStep] at h
      split at h
      · cases h; exact .keep Iff.rfl
      · contradiction
  | gainTest => cases h; exact .keep (by split <;> exact Iff.rfl)
  | keep pc =>
      simp only [rebuildStep, Option.map_eq_some_iff, Prod.mk.injEq] at h
      obtain ⟨⟨m'', r⟩, hstep, rfl, -, rfl⟩ := h
      cases pc with
      | lockStats =>
          simp only [keepStep] at hstep
          split at hstep
          · cases hstep; exact .keep Iff.rfl
          · contradiction
      | reset pc =>
          cases hstep
          have hcore := core_resetStep cfg snapshot.stats m pc
          dsimp only
          rw [show (resetStep cfg snapshot.stats m pc).1.rebuildFlag = m.rebuildFlag from
            congrArg (Control.rebuildFlag ∘ Prod.snd) hcore]
          exact .keep (by split <;> exact Iff.rfl)
      | clearFlag => cases hstep; exact .give trivial id
      | unlockStats => cases hstep; exact .keep Iff.rfl
      | unlockPartitions => cases hstep; exact .keep Iff.rfl
  | unlockGain => cases h; exact .keep Iff.rfl
  | pauseStore => cases h; exact .keep Iff.rfl
  | lockAll next =>
      simp only [rebuildStep] at h
      split at h
      · cases h; exact .keep (by split <;> exact Iff.rfl)
      · contradiction
  | publish pc =>
      simp only [rebuildStep, Option.map_eq_some_iff, Prod.mk.injEq] at h
      obtain ⟨⟨m'', r⟩, hstep, rfl, -, rfl⟩ := h
      cases pc with
      | lockPartitions =>
          simp only [publishStep] at hstep
          split at hstep
          · cases hstep; exact .keep Iff.rfl
          · contradiction
      | lockStats =>
          simp only [publishStep] at hstep
          split at hstep
          · cases hstep; exact .keep Iff.rfl
          · contradiction
      | refresh block lockIndex => cases hstep; exact .keep (by split <;> exact Iff.rfl)
      | reset pc =>
          cases hstep
          have hcore := core_resetStep cfg snapshot.stats m pc
          dsimp only
          rw [show (resetStep cfg snapshot.stats m pc).1.rebuildFlag = m.rebuildFlag from
            congrArg (Control.rebuildFlag ∘ Prod.snd) hcore]
          exact .keep (by split <;> exact Iff.rfl)
      | clearFlag => cases hstep; exact .give trivial id
      | _ => cases hstep; exact .keep Iff.rfl
  | unlockAll count => cases h; exact .keep (by split <;> exact Iff.rfl)
  | ret result => contradiction

/-- A thread at the start of a rebuild, or not in one, is outside the flag. -/
theorem Loc.AtStart.not_inFlag {l : Loc} (h : l.AtStart) : ¬l.InFlag := by
  cases l with
  | rebuild caller snapshot pc =>
      obtain rfl : pc = .exchange := h
      exact id
  | _ => exact id

theorem flagMove_advance {l l' : Loc} (h : advance cfg t a m l = some (m', l')) :
    FlagMove m.rebuildFlag l.InFlag m'.rebuildFlag l'.InFlag := by
  cases l with
  | query left right pc =>
      simp only [advance, Option.map_eq_some_iff, Prod.mk.injEq] at h
      obtain ⟨⟨m'', r⟩, hstep, rfl, rfl⟩ := h
      rw [show m''.rebuildFlag = m.rebuildFlag from
        congrArg Control.rebuildFlag (control_queryStep cfg hstep)]
      exact .keep (by cases r <;> exact Iff.rfl)
  | rebuild caller snapshot pc =>
      rcases advance_rebuild cfg h with ⟨result, rfl, rfl, rfl⟩ | ⟨snapshot', pc', hstep, rfl⟩
      · have haside := caller.aside_returned cfg m' result
        exact .keep ⟨fun hin => absurd hin haside.atStart.not_inFlag, False.elim⟩
      · exact flagMove_rebuildStep hstep
  | _ =>
      have haside := advance_aside cfg (by trivial) h
      rw [show m'.rebuildFlag = m.rebuildFlag from
        congrArg (Control.rebuildFlag ∘ Prod.snd) haside.core]
      exact .keep ⟨fun hin => absurd hin haside.atStart.not_inFlag, False.elim⟩

/-! ## what each stage does -/

/-- Until the gain test is won a rebuild leaves the partition, its table and the epoch alone. -/
theorem frame_rebuildStep (h : rebuildStep cfg t m snapshot pc = some (m', snapshot', pc'))
    (hstage : pc.stage = .entering ∨ pc.stage = .deciding ∨ pc.stage = .keeping) :
    absMem m' = absMem m ∧ m'.partitions = m.partitions := by
  cases pc with
  | gainLock =>
      simp only [rebuildStep] at h
      split at h
      · cases h; exact ⟨rfl, rfl⟩
      · contradiction
  | keep pc =>
      simp only [rebuildStep, Option.map_eq_some_iff, Prod.mk.injEq] at h
      obtain ⟨⟨m'', r⟩, hstep, rfl, -, -⟩ := h
      have hframe := keepStep_frame cfg hstep
      exact ⟨hframe.1, hframe.2.1⟩
  | exchange => cases h; exact ⟨rfl, rfl⟩
  | snapStats i => cases h; exact ⟨rfl, rfl⟩
  | snapCrossings i => cases h; exact ⟨rfl, rfl⟩
  | gainTest => cases h; exact ⟨rfl, rfl⟩
  | publish pc => cases pc <;> simp [RebuildPc.stage, PublishPc.stage] at hstage
  | ret result => contradiction
  | _ => simp [RebuildPc.stage] at hstage

/-- A thread in the middle of a rebuild got there by a step of that rebuild. -/
theorem rebuild_of_advance {l : Loc} {caller : Caller}
    (h : advance cfg t a m l = some (m', .rebuild caller snapshot' pc')) :
    pc' = .exchange ∨ ∃ snapshot pc, l = .rebuild caller snapshot pc ∧
      rebuildStep cfg t m snapshot pc = some (m', snapshot', pc') := by
  cases l with
  | query left right pc =>
      simp only [advance, Option.map_eq_some_iff, Prod.mk.injEq] at h
      obtain ⟨⟨m'', r⟩, -, -, hloc⟩ := h
      cases r <;> contradiction
  | rebuild caller' snapshot pc =>
      rcases advance_rebuild cfg h with ⟨result, -, -, hloc⟩ | ⟨snapshot'', pc'', hstep, hloc⟩
      · cases result with
        | true => contradiction
        | false => cases caller' <;> contradiction
      · cases hloc
        exact Or.inr ⟨snapshot, pc, rfl, hstep⟩
  | _ => exact Or.inl (advance_aside cfg (by trivial) h).atStart

/-- The exchange wins the flag or gives up. -/
theorem stage_of_entering (h : rebuildStep cfg t m snapshot pc = some (m', snapshot', pc'))
    (hstage : pc.stage = .entering) :
    pc' = if m.rebuildFlag then .ret false else .snapStats 0 := by
  cases pc with
  | exchange => cases h; rfl
  | publish pc => cases pc <;> contradiction
  | ret result => contradiction
  | _ => contradiction

/-- The gain test decides; nothing before it does. -/
theorem stage_of_deciding (h : rebuildStep cfg t m snapshot pc = some (m', snapshot', pc'))
    (hstage : pc.stage = .deciding) :
    pc'.stage = .deciding ∨ pc = .gainTest ∧ snapshot' = snapshot ∧ m' = m ∧
      pc'.stage = if cfg.gainTest m.partitions snapshot then .winning else .keeping := by
  cases pc with
  | snapStats i => cases h; left; split <;> rfl
  | snapCrossings i => cases h; left; split <;> rfl
  | gainLock =>
      simp only [rebuildStep] at h
      split at h
      · cases h; exact Or.inl rfl
      · contradiction
  | gainTest => cases h; exact Or.inr ⟨rfl, rfl, rfl, by split <;> rfl⟩
  | publish pc => cases pc <;> contradiction
  | ret result => contradiction
  | _ => contradiction

/-- A test that failed is not taken back. -/
theorem stage_of_keeping (h : rebuildStep cfg t m snapshot pc = some (m', snapshot', pc'))
    (hstage : pc.stage = .keeping) : pc'.stage = .keeping ∧ snapshot' = snapshot := by
  cases pc with
  | keep pc =>
      simp only [rebuildStep, Option.map_eq_some_iff, Prod.mk.injEq] at h
      obtain ⟨⟨m'', r⟩, hstep, -, rfl, rfl⟩ := h
      refine ⟨?_, rfl⟩
      cases pc with
      | lockStats =>
          simp only [keepStep] at hstep
          split at hstep
          · cases hstep; rfl
          · contradiction
      | reset pc => cases hstep; split <;> rfl
      | _ => cases hstep; rfl
  | publish pc => cases pc <;> contradiction
  | ret result => contradiction
  | _ => contradiction

/-- A test that was won leads to the publication. -/
theorem stage_of_winning (h : rebuildStep cfg t m snapshot pc = some (m', snapshot', pc'))
    (hstage : pc.stage = .winning) :
    snapshot' = snapshot ∧ (pc'.stage = .winning ∧ m'.partitions = m.partitions ∨
      pc = .publish .assign ∧ pc'.stage = .published ∧
        m'.partitions = cfg.newPartitions snapshot) := by
  cases pc with
  | unlockGain => cases h; exact ⟨rfl, Or.inl ⟨rfl, rfl⟩⟩
  | pauseStore => cases h; exact ⟨rfl, Or.inl ⟨rfl, rfl⟩⟩
  | lockAll next =>
      simp only [rebuildStep] at h
      split at h
      · cases h; exact ⟨rfl, Or.inl ⟨by split <;> rfl, rfl⟩⟩
      · contradiction
  | publish pc =>
      simp only [rebuildStep, Option.map_eq_some_iff, Prod.mk.injEq] at h
      obtain ⟨⟨m'', r⟩, hstep, rfl, rfl, rfl⟩ := h
      cases pc with
      | lockPartitions =>
          simp only [publishStep] at hstep
          split at hstep
          · cases hstep; exact ⟨rfl, Or.inl ⟨rfl, rfl⟩⟩
          · contradiction
      | lockStats =>
          simp only [publishStep] at hstep
          split at hstep
          · cases hstep; exact ⟨rfl, Or.inl ⟨rfl, rfl⟩⟩
          · contradiction
      | assign => cases hstep; exact ⟨rfl, Or.inr ⟨rfl, rfl, rfl⟩⟩
      | _ => contradiction
  | ret result => cases result <;> contradiction
  | _ => contradiction

/-- A publication goes through to the end. -/
theorem stage_of_published (h : rebuildStep cfg t m snapshot pc = some (m', snapshot', pc'))
    (hstage : pc.stage = .published) : pc'.stage = .published ∧ snapshot' = snapshot := by
  cases pc with
  | unlockAll count => cases h; exact ⟨by split <;> rfl, rfl⟩
  | publish pc =>
      simp only [rebuildStep, Option.map_eq_some_iff, Prod.mk.injEq] at h
      obtain ⟨⟨m'', r⟩, hstep, -, rfl, rfl⟩ := h
      refine ⟨?_, rfl⟩
      cases pc with
      | lockPartitions => contradiction
      | lockStats => contradiction
      | assign => contradiction
      | refresh block lockIndex => cases hstep; split <;> rfl
      | reset pc => cases hstep; split <;> rfl
      | _ => cases hstep; rfl
  | ret result => contradiction
  | _ => contradiction

end Steps

/-- Deciding and winning happen inside the flag. -/
theorem RebuildPc.inFlag {pc : RebuildPc} (h : pc.stage = .deciding ∨ pc.stage = .winning) :
    pc.InFlag := by
  cases pc with
  | exchange => simp [RebuildPc.stage] at h
  | keep pc => simp [RebuildPc.stage] at h
  | unlockAll count => simp [RebuildPc.stage] at h
  | ret result => cases result <;> simp [RebuildPc.stage] at h
  | publish pc => cases pc <;> simp [RebuildPc.stage, PublishPc.stage] at h <;> trivial
  | _ => trivial

/-! ## one rebuild at a time -/

section Runs

variable [DecidableEq Client] {s s' : State (Tid Client) (Mem Client) Loc} {t u : Tid Client}

theorem flag_owned (hs : (machine cfg Client).Reachable s) :
    FlagOwned s.mem.rebuildFlag fun t => (s.loc t).InFlag := by
  refine hs.invariant (I := fun s => FlagOwned s.mem.rebuildFlag fun t => (s.loc t).InFlag)
    ⟨none, rfl, fun t => by simp [Program.initial, machine, Loc.InFlag]⟩ ?_
  rintro s s' - howned ⟨t, ht⟩
  obtain ⟨⟨a, ha⟩, hframe⟩ := advance_of_stepBy ht
  exact howned.move (flagMove_advance ha) fun u hu => by rw [hframe u hu]

/-- While a thread is inside the flag, nobody else writes the cut vector. -/
theorem partitions_eq_of_inFlag (hs : (machine cfg Client).Reachable s) (ht : (s.loc t).InFlag)
    (hu : u ≠ t) {a : Act} {m' : Mem Client} {l' : Loc}
    (h : advance cfg u a s.mem (s.loc u) = some (m', l')) :
    m'.partitions = s.mem.partitions := by
  rcases advance_partitions cfg h with hsame | ⟨caller, snapshot, hloc, -, -⟩
  · exact hsame
  · have hin : (s.loc u).InFlag := by rw [hloc]; trivial
    exact absurd ((flag_owned hs).unique hin ht) hu

/-- A winning rebuild has won against the partition that is still installed. -/
theorem gainTest_of_winning (hs : (machine cfg Client).Reachable s) {caller : Caller}
    {snapshot : Counters UInt64} {pc : RebuildPc} (hloc : s.loc t = .rebuild caller snapshot pc)
    (hstage : pc.stage = .winning) : cfg.gainTest s.mem.partitions snapshot = true := by
  refine hs.localInvariant (Q := fun _ m l => ∀ caller snapshot pc,
    l = .rebuild caller snapshot pc → pc.stage = .winning →
      cfg.gainTest m.partitions snapshot = true) ?_ ?_ ?_ t caller snapshot pc hloc hstage
  · exact fun t caller snapshot pc hstart => by contradiction
  · rintro s t a m' _ - hwon ha caller snapshot' pc' rfl hstage'
    rcases rebuild_of_advance ha with rfl | ⟨snapshot, pc, hfrom, hstep⟩
    · contradiction
    · cases hfrom' : pc.stage with
      | entering =>
          rw [stage_of_entering hstep hfrom'] at hstage'
          split at hstage' <;> contradiction
      | deciding =>
          rcases stage_of_deciding hstep hfrom' with hsame | ⟨-, rfl, rfl, hdecided⟩
          · rw [hsame] at hstage'; contradiction
          · by_contra htest
            rw [hdecided, if_neg htest] at hstage'
            contradiction
      | keeping => rw [(stage_of_keeping hstep hfrom').1] at hstage'; contradiction
      | winning =>
          obtain ⟨rfl, ⟨-, hsame⟩ | ⟨-, hpublished, -⟩⟩ := stage_of_winning hstep hfrom'
          · rw [hsame]; exact hwon caller _ pc hfrom hfrom'
          · rw [hpublished] at hstage'; contradiction
      | published => rw [(stage_of_published hstep hfrom').1] at hstage'; contradiction
  · intro s t u a m' l' hs hne hwon ha caller snapshot pc hloc hstage
    have hin : (s.loc t).InFlag := by rw [hloc]; exact RebuildPc.inFlag (Or.inr hstage)
    rw [partitions_eq_of_inFlag hs hin hne ha]
    exact hwon caller snapshot pc hloc hstage

/-! ## costs never go up -/

/-- No reachable partition has a cut out of order. -/
theorem ascending_partitions (hs : (machine cfg Client).Reachable s) :
    Ascending cfg.kLockCnt s.mem.partitions := by
  refine hs.invariant (I := fun s => Ascending cfg.kLockCnt s.mem.partitions)
    cfg.ascending_initialPartitions ?_
  rintro s s' - hasc ⟨t, ht⟩
  obtain ⟨⟨a, ha⟩, -⟩ := advance_of_stepBy ht
  rcases advance_partitions cfg ha with hsame | ⟨caller, snapshot, -, hmem, -⟩
  · rw [hsame]; exact hasc
  · rw [hmem]; exact optimizePartitions_ascending _ _ _ _

/-- **What is published costs no more**: a step from a reachable state leaves the partition, or
it publishes the proposal of some rebuild; and the exact cost of that proposal on its snapshot is
at most that of the partition it replaces, provided the costs it was chosen by did not wrap. -/
theorem publish_costs_le (hs : (machine cfg Client).Reachable s)
    (hstep : (machine cfg Client).Step s s') :
    s'.mem.partitions = s.mem.partitions ∨ ∃ t caller snapshot,
      s.loc t = .rebuild caller snapshot (.publish .assign) ∧
        s'.mem.partitions = cfg.newPartitions snapshot ∧
          (cfg.NoWrap snapshot → cfg.snapshotCost snapshot s'.mem.partitions ≤
            cfg.snapshotCost snapshot s.mem.partitions) := by
  obtain ⟨t, ht⟩ := hstep
  obtain ⟨⟨a, ha⟩, -⟩ := advance_of_stepBy ht
  rcases advance_partitions cfg ha with hsame | ⟨caller, snapshot, hloc, hmem, -⟩
  · exact Or.inl hsame
  · have hnew : s'.mem.partitions = cfg.newPartitions snapshot := by rw [hmem]
    refine Or.inr ⟨t, caller, snapshot, hloc, hnew, fun hwrap => ?_⟩
    rw [hnew]
    exact cfg.snapshotCost_newPartitions_le hwrap (ascending_partitions hs)
      (gainTest_of_winning hs hloc rfl)

/-! ## runs whose snapshots fit -/

variable (r : Program.Run (machine cfg Client))

/-- Every snapshot that a gain test of the run looks at has costs below `inf`. -/
def SnapshotsFit : Prop :=
  ∀ n ≤ r.length, ∀ t caller snapshot,
    (r.states n).loc t = .rebuild caller snapshot .gainTest → cfg.Fits snapshot

/-- The call of thread `t` that acquires `rebuild_flag_` in step `a` and has come to return
`result` in state `b`, having decided on `snapshot`. -/
structure RebuildCall (t : Tid Client) (a b : ℕ) (snapshot : Counters UInt64) (result : Bool) :
    Prop where
  before : a < b
  length : b ≤ r.length
  who : r.who a = t
  flag : (r.states a).mem.rebuildFlag = false
  enters : ∃ caller old, (r.states a).loc t = .rebuild caller old .exchange
  inside : ∀ n, a < n → n < b → ∃ caller snap pc,
    (r.states n).loc t = .rebuild caller snap pc ∧ ∀ res, pc ≠ .ret res
  returns : ∃ caller, (r.states b).loc t = .rebuild caller snapshot (.ret result)

/-- Step `n` tests the installed partition on `snapshot`. -/
def TestsAt (t : Tid Client) (snapshot : Counters UInt64) (n : ℕ) : Prop :=
  r.who n = t ∧ ∃ caller, (r.states n).loc t = .rebuild caller snapshot .gainTest

/-- Step `n` installs the partition proposed for `snapshot`. -/
def PublishesAt (t : Tid Client) (snapshot : Counters UInt64) (n : ℕ) : Prop :=
  r.who n = t ∧ ∃ caller, (r.states n).loc t = .rebuild caller snapshot (.publish .assign)

/-- The steps of `t` from `a` up to `b` leave the partition, its table and the epoch alone. -/
def Untouched (t : Tid Client) (a b : ℕ) : Prop :=
  ∀ n, a ≤ n → n < b → r.who n = t →
    (r.states (n + 1)).mem.partitions = (r.states n).mem.partitions ∧
      (r.states (n + 1)).mem.blockToLock = (r.states n).mem.blockToLock ∧
      (r.states (n + 1)).mem.partitionEpoch = (r.states n).mem.partitionEpoch

/-- What the part of the call from `a` to `n` has done, by stage. -/
def Progress (t : Tid Client) (a n : ℕ) (snapshot : Counters UInt64) : Stage → Prop
  | .entering => False
  | .deciding => Untouched r t a n
  | .keeping => Untouched r t a n ∧ ∃ j, a < j ∧ j < n ∧ TestsAt r t snapshot j ∧
      cfg.gainTest (r.states j).mem.partitions snapshot = false
  | .winning => ∃ j, a < j ∧ j < n ∧ TestsAt r t snapshot j ∧
      cfg.gainTest (r.states j).mem.partitions snapshot = true ∧
        (r.states n).mem.partitions = (r.states j).mem.partitions
  | .published => ∃ j, a < j ∧ TestsAt r t snapshot j ∧
      cfg.gainTest (r.states j).mem.partitions snapshot = true ∧
        ∃ m, j < m ∧ m < n ∧ PublishesAt r t snapshot m ∧
          (r.states m).mem.partitions = (r.states j).mem.partitions ∧
            (r.states (m + 1)).mem.partitions = cfg.newPartitions snapshot

variable {r} {a b n : ℕ} {snapshot : Counters UInt64} {result : Bool}

theorem Untouched.succ (h : Untouched r t a n)
    (hstep : r.who n = t → (r.states (n + 1)).mem.partitions = (r.states n).mem.partitions ∧
      (r.states (n + 1)).mem.blockToLock = (r.states n).mem.blockToLock ∧
      (r.states (n + 1)).mem.partitionEpoch = (r.states n).mem.partitionEpoch) :
    Untouched r t a (n + 1) := by
  intro i hai hin hwho
  rcases Nat.lt_succ_iff_lt_or_eq.mp hin with hlt | rfl
  · exact h i hai hlt hwho
  · exact hstep hwho

/-- A step of another thread takes nothing back. -/
theorem progress_other {caller : Caller} {pc : RebuildPc} (hn : n < r.length) (hwho : r.who n ≠ t)
    (hloc : (r.states n).loc t = .rebuild caller snapshot pc)
    (h : Progress r t a n snapshot pc.stage) : Progress r t a (n + 1) snapshot pc.stage := by
  obtain ⟨⟨act, hact⟩, -⟩ := advance_of_stepBy (r.step n hn)
  cases hstage : pc.stage with
  | entering => rw [hstage] at h; exact h
  | deciding => rw [hstage] at h; exact h.succ fun heq => absurd heq hwho
  | keeping =>
      rw [hstage] at h
      obtain ⟨huntouched, j, haj, hjn, htest⟩ := h
      exact ⟨huntouched.succ fun heq => absurd heq hwho, j, haj, Nat.lt_succ_of_lt hjn, htest⟩
  | winning =>
      rw [hstage] at h
      obtain ⟨j, haj, hjn, htest, hgain, hsame⟩ := h
      have hin : ((r.states n).loc t).InFlag := by
        rw [hloc]; exact RebuildPc.inFlag (Or.inr hstage)
      refine ⟨j, haj, Nat.lt_succ_of_lt hjn, htest, hgain, ?_⟩
      rw [partitions_eq_of_inFlag (r.reachable hn.le) hin hwho hact, hsame]
  | published =>
      rw [hstage] at h
      obtain ⟨j, haj, htest, hgain, m, hjm, hmn, hpub⟩ := h
      exact ⟨j, haj, htest, hgain, m, hjm, Nat.lt_succ_of_lt hmn, hpub⟩

/-- A step of the call itself goes on by one stage at most. -/
theorem progress_self {caller : Caller} {snapshot' : Counters UInt64} {pc pc' : RebuildPc}
    (han : a < n) (hwho : r.who n = t) (hloc : (r.states n).loc t = .rebuild caller snapshot pc)
    (hstep : rebuildStep cfg t (r.states n).mem snapshot pc =
      some ((r.states (n + 1)).mem, snapshot', pc'))
    (h : Progress r t a n snapshot pc.stage) :
    Progress r t a (n + 1) snapshot' pc'.stage := by
  have hframe : pc.stage = .entering ∨ pc.stage = .deciding ∨ pc.stage = .keeping →
      (r.states (n + 1)).mem.partitions = (r.states n).mem.partitions ∧
        (r.states (n + 1)).mem.blockToLock = (r.states n).mem.blockToLock ∧
        (r.states (n + 1)).mem.partitionEpoch = (r.states n).mem.partitionEpoch := by
    intro hstage
    obtain ⟨hmem, hpartitions⟩ := frame_rebuildStep hstep hstage
    exact ⟨hpartitions, congrArg EpochTable.Mem.table hmem, congrArg EpochTable.Mem.epoch hmem⟩
  cases hstage : pc.stage with
  | entering => rw [hstage] at h; exact h.elim
  | deciding =>
      rw [hstage] at h
      have huntouched := h.succ fun _ => hframe (Or.inr (Or.inl hstage))
      rcases stage_of_deciding hstep hstage with hsame | ⟨rfl, rfl, hmem, hdecided⟩
      · rw [hsame]; exact huntouched
      · have htest : TestsAt r t snapshot' n := ⟨hwho, caller, hloc⟩
        rw [hdecided]
        split
        · next hgain => exact ⟨n, han, Nat.lt_succ_self n, htest, hgain, by rw [hmem]⟩
        · next hgain =>
            exact ⟨huntouched, n, han, Nat.lt_succ_self n, htest, Bool.not_eq_true _ ▸ hgain⟩
  | keeping =>
      rw [hstage] at h
      obtain ⟨hkeep, rfl⟩ := stage_of_keeping hstep hstage
      obtain ⟨huntouched, j, haj, hjn, htest⟩ := h
      rw [hkeep]
      exact ⟨huntouched.succ fun _ => hframe (Or.inr (Or.inr hstage)), j, haj,
        Nat.lt_succ_of_lt hjn, htest⟩
  | winning =>
      rw [hstage] at h
      obtain ⟨j, haj, hjn, htest, hgain, hsame⟩ := h
      obtain ⟨rfl, ⟨hwin, hpartitions⟩ | ⟨rfl, hpub, hpartitions⟩⟩ :=
        stage_of_winning hstep hstage
      · rw [hwin]
        exact ⟨j, haj, Nat.lt_succ_of_lt hjn, htest, hgain, hpartitions.trans hsame⟩
      · rw [hpub]
        exact ⟨j, haj, htest, hgain, n, hjn, Nat.lt_succ_self n, ⟨hwho, caller, hloc⟩, hsame,
          hpartitions⟩
  | published =>
      rw [hstage] at h
      obtain ⟨hpub, rfl⟩ := stage_of_published hstep hstage
      obtain ⟨j, haj, htest, hgain, m, hjm, hmn, hrest⟩ := h
      rw [hpub]
      exact ⟨j, haj, htest, hgain, m, hjm, Nat.lt_succ_of_lt hmn, hrest⟩

/-- The call makes progress through its stages up to the state it returns in. -/
theorem RebuildCall.progress (hcall : RebuildCall r t a b snapshot result) (hn : n ≤ b)
    (han : a < n) : ∃ caller snap pc, (r.states n).loc t = .rebuild caller snap pc ∧
      Progress r t a n snap pc.stage := by
  induction n, han using Nat.le_induction with
  | base =>
      obtain ⟨caller, old, hloc⟩ := hcall.enters
      obtain ⟨⟨act, hact⟩, -⟩ := advance_of_stepBy (r.step a (by have := hcall.length; omega))
      rw [hcall.who, hloc] at hact
      rcases advance_rebuild cfg hact with ⟨result, hret, -, -⟩ | ⟨snap, pc, hstep, hloc'⟩
      · contradiction
      · have hpc : pc = .snapStats 0 := by
          rw [stage_of_entering hstep rfl, hcall.flag]
          rfl
        refine ⟨caller, snap, pc, hloc', ?_⟩
        rw [hpc]
        intro i hai hin _
        obtain rfl : i = a := by omega
        obtain ⟨hmem, hpartitions⟩ := frame_rebuildStep hstep (Or.inl rfl)
        exact ⟨hpartitions, congrArg EpochTable.Mem.table hmem,
          congrArg EpochTable.Mem.epoch hmem⟩
  | succ n han ih =>
      obtain ⟨caller, snap, pc, hloc, hprogress⟩ := ih (by omega)
      have hlen : n < r.length := by have := hcall.length; omega
      by_cases hwho : r.who n = t
      · obtain ⟨⟨act, hact⟩, -⟩ := advance_of_stepBy (r.step n hlen)
        rw [hwho, hloc] at hact
        rcases advance_rebuild cfg hact with ⟨res, hret, -, -⟩ | ⟨snap', pc', hstep, hloc'⟩
        · obtain ⟨caller', snap', pc', hloc', hnot⟩ := hcall.inside n han hn
          rw [hloc] at hloc'
          cases hloc'
          exact absurd hret (hnot res)
        · exact ⟨caller, snap', pc', hloc', progress_self han hwho hloc hstep hprogress⟩
      · have hframe := (advance_of_stepBy (r.step n hlen)).2 t (Ne.symm hwho)
        exact ⟨caller, snap, pc, hframe.trans hloc, progress_other hlen hwho hloc hprogress⟩

/-- Along a run whose snapshots fit, every partition is one, and whoever has won the gain test
did so on a snapshot that fits. -/
theorem isCuts_partitions (hle : cfg.kLockCnt ≤ cfg.kBlocks) (hfit : SnapshotsFit r)
    (hn : n ≤ r.length) : IsCuts cfg.kLockCnt cfg.kBlocks (r.states n).mem.partitions ∧
      ∀ t caller snap pc, (r.states n).loc t = .rebuild caller snap pc → pc.stage = .winning →
        cfg.Fits snap := by
  induction n with
  | zero =>
      rw [r.start]
      exact ⟨cfg.isCuts_initialPartitions hle, fun t caller snap pc hloc => by contradiction⟩
  | succ n ih =>
      obtain ⟨hcuts, hwon⟩ := ih (by omega)
      obtain ⟨⟨act, hact⟩, hframe⟩ := advance_of_stepBy (r.step n hn)
      constructor
      · rcases advance_partitions cfg hact with hsame | ⟨caller, snap, hloc, hmem, -⟩
        · rw [hsame]; exact hcuts
        · rw [hmem]
          exact (cfg.newPartitions_spec hle (hwon _ caller snap _ hloc rfl)).1
      · intro t caller snap' pc' hloc hstage
        by_cases hwho : t = r.who n
        · subst hwho
          rw [hloc] at hact
          rcases rebuild_of_advance hact with rfl | ⟨snap, pc, hfrom, hstep⟩
          · contradiction
          · cases hfrom' : pc.stage with
            | entering =>
                rw [stage_of_entering hstep hfrom'] at hstage
                split at hstage <;> contradiction
            | deciding =>
                rcases stage_of_deciding hstep hfrom' with hsame | ⟨rfl, rfl, -, -⟩
                · rw [hsame] at hstage; contradiction
                · exact hfit n (by omega) _ caller _ hfrom
            | keeping => rw [(stage_of_keeping hstep hfrom').1] at hstage; contradiction
            | winning =>
                obtain ⟨rfl, -⟩ := stage_of_winning hstep hfrom'
                exact hwon _ caller _ pc hfrom hfrom'
            | published => rw [(stage_of_published hstep hfrom').1] at hstage; contradiction
        · rw [hframe t hwho] at hloc
          exact hwon t caller snap' pc' hloc hstage

/-- **The rebuild decision is exact and stable**: along a run whose snapshots fit, every
partition is valid, and a call that acquires `rebuild_flag_` returns true exactly when the
partition its gain test saw costs more than the gain factor times the optimum of its snapshot.
On true that partition is still the installed one when the call publishes one of optimal cost,
on which the same snapshot would not decide again; on false the call has left the partition, its
table and the epoch alone. -/
theorem rebuild_decision (r : Program.Run (machine cfg Client))
    (hle : cfg.kLockCnt ≤ cfg.kBlocks) (hfit : SnapshotsFit r) :
    (∀ n ≤ r.length, IsCuts cfg.kLockCnt cfg.kBlocks (r.states n).mem.partitions) ∧
      ∀ t a b snapshot result, RebuildCall r t a b snapshot result →
        ∃ j, a < j ∧ j < b ∧ TestsAt r t snapshot j ∧ ∃ opt, cfg.IsOptimum snapshot opt ∧
          (result = true ↔ (cfg.snapshotCost snapshot (r.states j).mem.partitions : ℚ) >
            cfg.rebuildGain * opt) ∧
          (result = true → ∃ m, j < m ∧ m < b ∧ PublishesAt r t snapshot m ∧
            (r.states m).mem.partitions = (r.states j).mem.partitions ∧
            cfg.snapshotCost snapshot (r.states (m + 1)).mem.partitions = opt ∧
            cfg.gainTest (r.states (m + 1)).mem.partitions snapshot = false) ∧
          (result = false → Untouched r t a b) := by
  refine ⟨fun n hn => (isCuts_partitions hle hfit hn).1, ?_⟩
  intro t a b snapshot result hcall
  obtain ⟨caller, snap, pc, hloc, hprogress⟩ := hcall.progress le_rfl hcall.before
  obtain ⟨caller', hret⟩ := hcall.returns
  rw [hret] at hloc
  cases hloc
  -- the test of step `j` is decided by the exact costs
  have hexact : ∀ j, j < b → TestsAt r t snapshot j → ∃ opt, cfg.IsOptimum snapshot opt ∧
      cfg.snapshotCost snapshot (cfg.newPartitions snapshot) = opt ∧
        (cfg.gainTest (r.states j).mem.partitions snapshot = true ↔
          (cfg.snapshotCost snapshot (r.states j).mem.partitions : ℚ) >
            cfg.rebuildGain * opt) := by
    rintro j hjb ⟨-, caller, hloc⟩
    have hj : j ≤ r.length := by have := hcall.length; omega
    have hfits := hfit j hj t caller snapshot hloc
    obtain ⟨-, hopt⟩ := cfg.newPartitions_spec hle hfits
    exact ⟨_, hopt, rfl, cfg.gainTest_iff hle hfits (isCuts_partitions hle hfit hj).1 hopt⟩
  cases result with
  | true =>
      obtain ⟨j, haj, htest, hgain, m, hjm, hmb, hpub, hsame, hnew⟩ := hprogress
      obtain ⟨opt, hopt, hcost, hiff⟩ := hexact j (by omega) htest
      refine ⟨j, haj, by omega, htest, opt, hopt, ?_, fun _ => ?_, fun h => by contradiction⟩
      · rw [← hiff, hgain]
      · refine ⟨m, hjm, hmb, hpub, hsame, ?_⟩
        rw [hnew]
        exact ⟨hcost, cfg.gainTest_newPartitions snapshot⟩
  | false =>
      obtain ⟨huntouched, j, haj, hjb, htest, hgain⟩ := hprogress
      obtain ⟨opt, hopt, -, hiff⟩ := hexact j hjb htest
      refine ⟨j, haj, hjb, htest, opt, hopt, ?_, fun h => by contradiction, fun _ => huntouched⟩
      rw [← hiff, hgain]

end Runs

/-! ## one rebuild from start to end -/

/-- Three blocks of one position each. -/
def threeBlocks : Config :=
  { twoLocks with kBlocks := 3, arraySize := 3, kBlocks_pos := Nat.succ_pos 2 }

/-- Client `c` queries one position of a lock that samples the query. -/
def sampledQuery {Client : Type} (c : Client) (pos : ℕ) : List (Tid Client × Act) :=
  (.client c, .call (.writeQuery pos pos)) :: List.replicate 7 (.client c, .step) ++
    (.client c, .elapsed 0 false) :: List.replicate 5 (.client c, .step)

/-- Client `c` turns statistics on and queries the last two blocks, which share a lock. -/
def fillStats {Client : Type} (c : Client) : List (Tid Client × Act) :=
  (.client c, .call (.startRebuilder 50 1)) :: List.replicate 4 (.client c, .step) ++
    sampledQuery c 1 ++ sampledQuery c 2

/-- The client asks for a rebuild after that. -/
def rebuildSchedule : List (Tid Unit × Act) :=
  fillStats () ++ (.client (), .call .rebuildNow) :: List.replicate 37 (.client (), .step)

theorem isSome_exec_rebuildSchedule :
    ((machine threeBlocks Unit).exec rebuildSchedule (machine threeBlocks Unit).initial).isSome := by
  decide +kernel

def rebuildRun : Program.Run (machine threeBlocks Unit) :=
  .ofSchedule _ rebuildSchedule .background isSome_exec_rebuildSchedule

/-- Does the gain test of this thread, if it is at one, look at few hits and crossings? -/
def Loc.testsFew : Loc → Bool
  | .rebuild _ snapshot .gainTest =>
      prefixSum (natOf snapshot.stats) 3 * prefixSum (natOf snapshot.stats) 3 +
        10000000 * prefixSum (natOf snapshot.boundaryCrossings) 3 < 2 ^ 64 - 1
  | _ => true

/-- Has this thread not returned from a rebuild yet? -/
def Loc.midRebuild : Loc → Bool
  | .rebuild _ _ (.ret _) => false
  | .rebuild _ _ _ => true
  | _ => false

/-- The snapshot of a rebuild that is about to return true. -/
def Loc.returned : Loc → Option (Counters UInt64)
  | .rebuild _ snapshot (.ret true) => some snapshot
  | _ => none

theorem Loc.eq_of_midRebuild {l : Loc} (h : l.midRebuild) :
    ∃ caller snapshot pc, l = .rebuild caller snapshot pc ∧ ∀ result, pc ≠ .ret result := by
  cases l with
  | rebuild caller snapshot pc =>
      refine ⟨caller, snapshot, pc, rfl, ?_⟩
      rintro result rfl
      contradiction
  | _ => contradiction

theorem Loc.eq_of_returned {l : Loc} {snapshot : Counters UInt64}
    (h : l.returned = some snapshot) : ∃ caller, l = .rebuild caller snapshot (.ret true) := by
  cases l with
  | rebuild caller snapshot' pc =>
      cases pc with
      | ret result =>
          cases result with
          | true =>
              cases h
              exact ⟨caller, rfl⟩
          | false => contradiction
      | _ => contradiction
  | _ => contradiction

theorem testsFew_rebuildRun : ∀ n ≤ 71, ((rebuildRun.states n).loc (.client ())).testsFew ∧
    ((rebuildRun.states n).loc .background).testsFew := by
  decide +kernel

theorem midRebuild_rebuildRun :
    ∀ n < 71, 37 < n → ((rebuildRun.states n).loc (.client ())).midRebuild := by
  decide +kernel

theorem returned_rebuildRun : ((rebuildRun.states 71).loc (.client ())).returned.isSome := by
  decide +kernel

theorem snapshotsFit_rebuildRun : SnapshotsFit rebuildRun := by
  intro n hn t caller snapshot hloc
  have hfew : ((rebuildRun.states n).loc t).testsFew := by
    cases t with
    | client c => exact (testsFew_rebuildRun n hn).1
    | background => exact (testsFew_rebuildRun n hn).2
  rw [hloc] at hfew
  exact threeBlocks.fits_of_total (of_decide_eq_true hfew)

/-- In the middle of the rebuild: the call from its exchange to its return. -/
theorem rebuildCall_rebuildRun : ∃ snapshot,
    RebuildCall rebuildRun (.client ()) 37 71 snapshot true := by
  obtain ⟨snapshot, hret⟩ := Option.isSome_iff_exists.mp returned_rebuildRun
  exact ⟨snapshot, by decide, by decide, rfl, rfl, ⟨_, _, rfl⟩,
    fun n hn hlt => Loc.eq_of_midRebuild (midRebuild_rebuildRun n hlt hn), Loc.eq_of_returned hret⟩

/-- The run satisfies what `rebuild_decision` asks for, and its rebuild publishes. -/
theorem rebuild_decision_three_blocks : ∃ snapshot j m opt,
    37 < j ∧ j < m ∧ m < 71 ∧ threeBlocks.IsOptimum snapshot opt ∧
      (threeBlocks.snapshotCost snapshot (rebuildRun.states j).mem.partitions : ℚ) >
        threeBlocks.rebuildGain * opt ∧
      (rebuildRun.states m).mem.partitions = (rebuildRun.states j).mem.partitions ∧
      threeBlocks.snapshotCost snapshot (rebuildRun.states (m + 1)).mem.partitions = opt := by
  obtain ⟨snapshot, hcall⟩ := rebuildCall_rebuildRun
  obtain ⟨-, hdecision⟩ := rebuild_decision rebuildRun (by decide) snapshotsFit_rebuildRun
  obtain ⟨j, hj, -, -, opt, hopt, hiff, htrue, -⟩ := hdecision _ _ _ _ _ hcall
  obtain ⟨m, hjm, hm, -, hsame, hcost, -⟩ := htrue rfl
  exact ⟨snapshot, j, m, opt, hj, hjm, hm, hopt, hiff.mp rfl, hsame, hcost⟩

theorem partitions_rebuildRun : (rebuildRun.states 52).mem.partitions = [0, 1, 3] ∧
    (rebuildRun.states 53).mem.partitions = [0, 2, 3] := by
  decide +kernel

/-- The publication of the run, whose costs are far from wrapping. -/
theorem publish_costs_le_three_blocks : ∃ snapshot, threeBlocks.NoWrap snapshot ∧
    threeBlocks.snapshotCost snapshot [0, 2, 3] ≤ threeBlocks.snapshotCost snapshot [0, 1, 3] := by
  obtain ⟨hbefore, hafter⟩ := partitions_rebuildRun
  have hstep : (machine threeBlocks Unit).Step (rebuildRun.states 52) (rebuildRun.states 53) :=
    ⟨_, rebuildRun.step 52 (by decide)⟩
  rcases publish_costs_le (rebuildRun.reachable (by decide)) hstep with
    hsame | ⟨t, caller, snapshot, hloc, -, hcosts⟩
  · rw [hbefore, hafter] at hsame
    contradiction
  · have hfits := (isCuts_partitions (by decide) snapshotsFit_rebuildRun (n := 52)
      (by decide)).2 t caller snapshot _ hloc rfl
    have hwrap : threeBlocks.NoWrap snapshot :=
      ⟨hfits.candidatesFit, fun hlt => absurd hlt (by decide)⟩
    have hle := hcosts hwrap
    rw [hbefore, hafter] at hle
    exact ⟨snapshot, hwrap, hle⟩

end DynamicLock
end DynLocks
