import DynLocks.Lib.EpochTable
import DynLocks.Dynamic.Machine

/-!
# DynLocks.Dynamic.Protocol

The machine as an instance of the epoch-validated table of `EpochTable`: a
query is a reader of the blocks of its range, a rebuild that publishes is a
publisher that takes every lock.

* `advance_move` — every step is a step of the protocol or leaves it alone;
* `advance_partitions` — one step writes the cut vector;
* `advance_local` — what a thread knows besides the protocol.
-/

namespace DynLocks
namespace DynamicLock

open Interleaving EpochTable

variable {Client : Type} (cfg : Config)

/-! ## the machine as a protocol over blocks -/

/-- The locks and blocks of a `DynamicLock`. -/
def layout : Layout := ⟨cfg.kLockCnt, cfg.kBlocks, cfg.kLockCnt_pos⟩

/-- The part of the memory that the protocol is about. -/
def absMem (m : Mem Client) : EpochTable.Mem (Tid Client) :=
  ⟨m.locks, m.blockToLock, m.partitionEpoch⟩

/-- What a rebuild writes besides. -/
structure Control where
  partitions : List ℕ
  rebuildFlag : Bool
  pauseQueries : Bool

def control (m : Mem Client) : Control := ⟨m.partitions, m.rebuildFlag, m.pauseQueries⟩

/-- The members that only queries and rebuilds write to. -/
def core (m : Mem Client) : EpochTable.Mem (Tid Client) × Control := (absMem m, control m)

/-- A query as a reader of the blocks `lo … hi`. -/
def QueryPc.phase (lo hi : ℕ) : QueryPc → Phase
  | .pauseLoad => .out
  | .epochLoad => .out
  | .leftLoad epoch => .readLeft lo hi epoch
  | .rightLoad epoch lockStart => .readRight lo hi epoch lockStart
  | .acquire epoch lockStart lockEnd index => .taking lo hi epoch lockStart lockEnd index
  | .epochCheck epoch lockStart lockEnd => .taking lo hi epoch lockStart lockEnd (lockEnd + 1)
  | .retry lockStart count => .dropping lockStart count
  | .inside lockStart lockEnd _ => .inside lo hi lockStart lockEnd
  | .release lockStart count => .dropping lockStart count

/-- The publishing part of a rebuild. -/
def PublishPc.phase : PublishPc → Phase
  | .lockPartitions => .grabbing cfg.kLockCnt
  | .lockStats => .grabbing cfg.kLockCnt
  | .assign => .grabbing cfg.kLockCnt
  | .epochOpen => .grabbing cfg.kLockCnt
  | .refresh _ _ => .publishing true
  | .epochClose => .publishing true
  | .reset _ => .dropping 0 cfg.kLockCnt
  | .unlockStats => .dropping 0 cfg.kLockCnt
  | .unlockPartitions => .dropping 0 cfg.kLockCnt
  | .clearFlag => .dropping 0 cfg.kLockCnt
  | .clearPause => .dropping 0 cfg.kLockCnt

/-- A rebuild takes part once it grabs the locks. -/
def RebuildPc.phase : RebuildPc → Phase
  | .lockAll next => .grabbing next
  | .publish pc => pc.phase cfg
  | .unlockAll count => .dropping 0 count
  | _ => .out

/-- Only queries and rebuilds take part. -/
def Loc.phase : Loc → Phase
  | .query left right pc => pc.phase (cfg.positionToBlock left) (cfg.positionToBlock right)
  | .rebuild _ _ pc => pc.phase cfg
  | _ => .out

/-- A state of the machine as a state of the protocol. -/
def abs (s : State (Tid Client) (Mem Client) Loc) :
    State (Tid Client) (EpochTable.Mem (Tid Client)) Phase :=
  ⟨absMem s.mem, fun t => (s.loc t).phase cfg⟩

/-- The locking loop stops at the last lock of the segment. -/
def QueryPc.Bounded : QueryPc → Prop
  | .acquire _ _ lockEnd index => index ≤ lockEnd
  | _ => True

/-- What a thread knows besides: the range is clamped, the loops stay in their bounds, and while
the table is rewritten its finished cells are those of the new partition. -/
def Local (m : Mem Client) : Loc → Prop
  | .query left right pc => left ≤ right ∧ right < cfg.arraySize ∧ pc.Bounded
  | .rebuild _ _ (.lockAll next) => next < cfg.kLockCnt
  | .rebuild _ _ (.publish (.refresh block lockIndex)) => block < cfg.kBlocks ∧
      lockIndex = lockBefore cfg.kLockCnt m.partitions block ∧
      ∀ b < block, m.blockToLock b = lockOfBlock cfg.kLockCnt m.partitions b
  | .rebuild _ _ (.publish .epochClose) =>
      ∀ b < cfg.kBlocks, m.blockToLock b = lockOfBlock cfg.kLockCnt m.partitions b
  | _ => True

/-! ## every step is a step of the protocol -/

/-- `ResetCollectedStatsUnlocked` writes to the statistics alone. -/
theorem core_resetStep (stats : ℕ → UInt64) (m : Mem Client) (pc : ResetPc) :
    core (resetStep cfg stats m pc).1 = core m := by
  cases pc <;> rfl

/-- A step of a rebuild that turns the new partition down. -/
theorem keepStep_frame {t : Tid Client} {m m' : Mem Client} {stats : ℕ → UInt64}
    {pc : KeepPc} {r : RebuildPc} (h : keepStep cfg t stats m pc = some (m', r)) :
    absMem m' = absMem m ∧ m'.partitions = m.partitions ∧ r.phase cfg = .out := by
  cases pc with
  | lockStats =>
      simp only [keepStep] at h
      split at h
      · cases h; exact ⟨rfl, rfl, rfl⟩
      · contradiction
  | reset pc =>
      cases h
      have hcore := core_resetStep cfg stats m pc
      refine ⟨congrArg Prod.fst hcore, congrArg (Control.partitions ∘ Prod.snd) hcore, ?_⟩
      split <;> rfl
  | clearFlag => cases h; exact ⟨rfl, rfl, rfl⟩
  | unlockStats => cases h; exact ⟨rfl, rfl, rfl⟩
  | unlockPartitions => cases h; exact ⟨rfl, rfl, rfl⟩

/-- A finished table is good, whatever the cuts. -/
theorem good_of_lockOfBlock {partitions : List ℕ} {table : ℕ → ℕ}
    (h : ∀ b < cfg.kBlocks, table b = lockOfBlock cfg.kLockCnt partitions b) :
    Good (layout cfg) table := by
  intro b b' hle hlt
  have hlt' : b' < cfg.kBlocks := hlt
  rw [h b (by omega), h b' hlt']
  exact ⟨lockOfBlock_mono _ _ hle, lockOfBlock_lt cfg.kLockCnt_pos _ _⟩

/-- Not in the middle of a rebuild. -/
def Loc.AtStart : Loc → Prop
  | .rebuild _ _ pc => pc = .exchange
  | _ => True

/-- The step leaves the protocol alone and ends outside it. -/
structure Aside (m m' : Mem Client) (l' : Loc) : Prop where
  core : core m' = core m
  phase : l'.phase cfg = .out
  locals : Local cfg m' l'
  atStart : l'.AtStart

/-- The other operations stay outside. -/
theorem rebuilderStep_aside {t : Tid Client} {m m' : Mem Client} {interval : ℕ}
    {changeThreshold : ℚ} {pc : RebuilderPc} {l' : Loc}
    (h : rebuilderStep cfg t m interval changeThreshold pc = some (m', l')) :
    Aside cfg m m' l' := by
  cases pc with
  | outerLoad => cases h; exact ⟨rfl, rfl, trivial, trivial⟩
  | innerLoad slept => cases h; exact ⟨rfl, rfl, trivial, trivial⟩
  | stopLoad => cases h; exact ⟨rfl, rfl, trivial, trivial⟩
  | exit => cases h; exact ⟨rfl, rfl, trivial, trivial⟩
  | should snapshot pc =>
      simp only [rebuilderStep, Option.map_eq_some_iff, Prod.mk.injEq] at h
      obtain ⟨⟨m'', snapshot', r⟩, hstep, rfl, rfl⟩ := h
      refine ⟨?_, by dsimp only; split <;> rfl, by dsimp only; split <;> trivial,
        by dsimp only; split <;> trivial⟩
      cases pc with
      | lockStats =>
          simp only [shouldStep] at hstep
          split at hstep
          · cases hstep; rfl
          · contradiction
      | snapStats i => cases hstep; rfl
      | decide =>
          simp only [shouldStep] at hstep
          split at hstep
          · cases hstep; rfl
          · split at hstep
            · cases hstep; rfl
            · split at hstep
              · cases hstep; rfl
              · cases hstep; rfl
      | reset pc => cases hstep; exact core_resetStep cfg snapshot.stats m pc
      | unlockStats result => cases hstep; rfl

/-- `CountLocksForRange` writes to nothing that the protocol is about. -/
theorem countStep_aside {t : Tid Client} {m m' : Mem Client} {left right : ℕ} {pc : CountPc}
    {l' : Loc} (h : countStep cfg t m left right pc = some (m', l')) :
    Aside cfg m m' l' := by
  cases pc with
  | lockPartitions =>
      simp only [countStep] at h
      split at h
      · cases h; exact ⟨rfl, rfl, trivial, trivial⟩
      · contradiction
  | leftLoad => cases h; exact ⟨rfl, rfl, trivial, trivial⟩
  | rightLoad lockStart => cases h; exact ⟨rfl, rfl, trivial, trivial⟩
  | unlockPartitions lockStart lockEnd => cases h; exact ⟨rfl, rfl, trivial, trivial⟩

/-- Entering an operation changes nothing. -/
theorem eq_of_enter {cfg : Config} {m m' : Mem Client} {c : Call} {l' : Loc}
    (h : enter cfg m c = some (m', l')) : m' = m := by
  cases c with
  | writeQuery left right =>
      simp only [enter] at h
      split at h <;> cases h <;> rfl
  | startRebuilder interval changeThreshold =>
      simp only [enter] at h
      split at h <;> cases h <;> rfl
  | countLocksForRange left right =>
      simp only [enter] at h
      split at h <;> cases h <;> rfl
  | _ => cases h; rfl

/-- Neither does the first step of a call. -/
theorem enter_aside {m m' : Mem Client} {c : Call} {l' : Loc}
    (h : enter cfg m c = some (m', l')) : Aside cfg m m' l' := by
  cases c with
  | writeQuery left right =>
      simp only [enter] at h
      split at h
      · cases h; exact ⟨rfl, rfl, trivial, trivial⟩
      · next hne =>
          cases h
          exact ⟨rfl, rfl, ⟨clampRange_le _ _ _, clampRange_lt (Nat.pos_of_ne_zero hne) _ _,
            trivial⟩, trivial⟩
  | startRebuilder interval changeThreshold =>
      simp only [enter] at h
      split at h
      · cases h; exact ⟨rfl, rfl, trivial, trivial⟩
      · cases h; exact ⟨rfl, rfl, trivial, trivial⟩
  | countLocksForRange left right =>
      simp only [enter] at h
      split at h
      · cases h; exact ⟨rfl, rfl, trivial, trivial⟩
      · cases h; exact ⟨rfl, rfl, trivial, trivial⟩
  | rebuildNow => cases h; exact ⟨rfl, rfl, trivial, trivial⟩
  | stopRebuilder => cases h; exact ⟨rfl, rfl, trivial, trivial⟩
  | forceSaveStats => cases h; exact ⟨rfl, rfl, trivial, trivial⟩
  | partitionCuts => cases h; exact ⟨rfl, rfl, trivial, trivial⟩

/-- `StartRebuilder` does not either. -/
theorem startStep_aside {m m' : Mem Client} {interval : ℕ} {changeThreshold : ℚ}
    {stage : Fin 4} {l' : Loc} (h : startStep m interval changeThreshold stage = some (m', l')) :
    Aside cfg m m' l' := by
  match stage with
  | 0 => cases h; exact ⟨rfl, rfl, trivial, trivial⟩
  | 1 => cases h; exact ⟨rfl, rfl, trivial, trivial⟩
  | 2 => cases h; exact ⟨rfl, rfl, trivial, trivial⟩
  | 3 =>
      simp only [startStep] at h
      split at h
      · cases h; exact ⟨rfl, rfl, trivial, trivial⟩
      · contradiction

/-- `StopRebuilder` does not either. -/
theorem stopStep_aside {m m' : Mem Client} {stage : Fin 4} {l' : Loc}
    (h : stopStep m stage = some (m', l')) : Aside cfg m m' l' := by
  match stage with
  | 0 => cases h; exact ⟨rfl, rfl, trivial, trivial⟩
  | 2 => cases h; exact ⟨rfl, rfl, trivial, trivial⟩
  | 3 => cases h; exact ⟨rfl, rfl, trivial, trivial⟩
  | 1 =>
      simp only [stopStep] at h
      split at h
      · cases h; exact ⟨rfl, rfl, trivial, trivial⟩
      · split at h
        · cases h; exact ⟨rfl, rfl, trivial, trivial⟩
        · contradiction

/-- A caller goes on from a rebuild without a write. -/
theorem Caller.aside_resume (caller : Caller) {m m' : Mem Client} (h : core m' = core m) :
    Aside cfg m m' caller.resume := by
  cases caller with
  | rebuildNow => exact ⟨h, rfl, trivial, trivial⟩
  | rebuilder => exact ⟨h, rfl, trivial, trivial⟩

/-- So it does on either result. -/
theorem Caller.aside_returned (caller : Caller) (m : Mem Client) (result : Bool) :
    Aside cfg m m (if result then .countRebuild caller else caller.resume) := by
  cases result with
  | true => exact ⟨rfl, rfl, trivial, trivial⟩
  | false => exact caller.aside_resume cfg rfl

/-- A rebuild that grabs no lock knows nothing. -/
theorem local_of_out {m : Mem Client} {caller : Caller} {snapshot : Counters UInt64}
    {pc : RebuildPc} (h : pc.phase cfg = .out) : Local cfg m (.rebuild caller snapshot pc) := by
  cases pc with
  | lockAll next => contradiction
  | publish pc => cases pc <;> contradiction
  | _ => trivial

section Steps

variable [DecidableEq Client] {t : Tid Client} {a : Act} {m m' : Mem Client} (quiet : Prop)

/-- Under its range locks a query writes to the statistics alone. -/
theorem core_insideStep {left right : ℕ} {pc : InsidePc} {r : Option InsidePc}
    (h : insideStep cfg t a m left right pc = some (m', r)) : core m' = core m := by
  cases pc with
  | durationCas current =>
      cases a with
      | elapsed delta spurious =>
          simp only [insideStep] at h
          split at h
          · cases h; rfl
          · cases h; rfl
      | step => contradiction
      | call => contradiction
  | sampleLoad =>
      simp only [insideStep] at h
      split at h
      · cases h; rfl
      · split at h
        · cases h; rfl
        · cases h; rfl
  | durationLoad => cases h; rfl
  | countOperation => cases h; rfl
  | addHit => cases h; rfl
  | addCrossing => cases h; rfl
  | func => cases h; rfl

/-- A step of a query. -/
theorem queryStep_move {left right : ℕ} {pc : QueryPc} {r : Option QueryPc}
    (hlocal : Local cfg m (.query left right pc))
    (hfresh : Fresh (layout cfg) (absMem m) (Loc.phase cfg (.query left right pc)))
    (h : queryStep cfg t a m left right pc = some (m', r)) :
    (absMem m' = absMem m ∧
        (afterQuery left right r).phase cfg = Loc.phase cfg (.query left right pc)) ∨
      Move (layout cfg) quiet t (absMem m) (Loc.phase cfg (.query left right pc)) (absMem m')
        ((afterQuery left right r).phase cfg) := by
  have hle := cfg.positionToBlock_mono hlocal.1
  have hlt : cfg.positionToBlock right < (layout cfg).nBlocks := cfg.positionToBlock_lt right
  cases pc with
  | pauseLoad =>
      cases h
      left
      dsimp only [afterQuery]
      split <;> exact ⟨rfl, rfl⟩
  | epochLoad =>
      cases h
      dsimp only [afterQuery]
      split
      · exact Or.inl ⟨rfl, rfl⟩
      · next heven => exact Or.inr (.start hle hlt (not_not.mp heven))
  | leftLoad epoch =>
      cases h
      exact Or.inr .left
  | rightLoad epoch lockStart =>
      cases h
      right
      dsimp only [afterQuery]
      split
      · next hgt => exact .giveUp hgt
      · next hge => exact .right (Nat.not_lt.mp hge)
  | acquire epoch lockStart lockEnd index =>
      simp only [queryStep] at h
      split at h
      · next hfree =>
          cases h
          right
          dsimp only [afterQuery]
          split
          · next heq => subst heq; exact .take hlocal.2.2 hfree
          · exact .take hlocal.2.2 hfree
      · contradiction
  | epochCheck epoch lockStart lockEnd =>
      cases h
      obtain ⟨-, -, heven, -⟩ := hfresh
      right
      dsimp only [afterQuery]
      split
      · next hne => exact .stale (by simp only [absMem]; omega)
      · next heq =>
          obtain rfl : epoch = m.partitionEpoch := by omega
          exact .enter
  | retry lockStart count =>
      cases h
      exact Or.inr (.unlock hfresh (by split <;> rfl))
  | inside lockStart lockEnd pc =>
      simp only [queryStep, Option.map_eq_some_iff, Prod.mk.injEq] at h
      obtain ⟨⟨m'', pc'⟩, hstep, rfl, rfl⟩ := h
      have hmem : absMem m'' = absMem m := congrArg Prod.fst (core_insideStep cfg hstep)
      dsimp only
      rw [hmem]
      cases pc' with
      | some pc' => exact Or.inl ⟨rfl, rfl⟩
      | none => exact Or.inr .leave
  | release lockStart count =>
      cases h
      exact Or.inr (.unlock hfresh (by split <;> rfl))

/-- A step of a rebuild that publishes. -/
theorem publishStep_move {caller : Caller} {snapshot : Counters UInt64} {pc : PublishPc}
    {r : RebuildPc} (hlocal : Local cfg m (.rebuild caller snapshot (.publish pc)))
    (heven : pc.phase cfg = .grabbing cfg.kLockCnt → m.partitionEpoch % 2 = 0)
    (h : publishStep cfg t snapshot m pc = some (m', r)) :
    (absMem m' = absMem m ∧ r.phase cfg = pc.phase cfg) ∨
      Move (layout cfg) quiet t (absMem m) (pc.phase cfg) (absMem m') (r.phase cfg) := by
  cases pc with
  | lockPartitions =>
      simp only [publishStep] at h
      split at h
      · cases h; exact Or.inl ⟨rfl, rfl⟩
      · contradiction
  | lockStats =>
      simp only [publishStep] at h
      split at h
      · cases h; exact Or.inl ⟨rfl, rfl⟩
      · contradiction
  | assign => cases h; exact Or.inl ⟨rfl, rfl⟩
  | epochOpen => cases h; exact Or.inr (.openAll (heven rfl))
  | refresh block lockIndex =>
      cases h
      right
      split
      · exact .write _ _
      · exact .write _ _
  | epochClose =>
      cases h
      exact Or.inr (.closeAll (good_of_lockOfBlock cfg hlocal))
  | reset pc =>
      cases h
      refine Or.inl ⟨congrArg Prod.fst (core_resetStep cfg snapshot.stats m pc), ?_⟩
      split <;> rfl
  | unlockStats => cases h; exact Or.inl ⟨rfl, rfl⟩
  | unlockPartitions => cases h; exact Or.inl ⟨rfl, rfl⟩
  | clearFlag => cases h; exact Or.inl ⟨rfl, rfl⟩
  | clearPause => cases h; exact Or.inl ⟨rfl, rfl⟩

/-- A step of a rebuild. -/
theorem rebuildStep_move {caller : Caller} {snapshot snapshot' : Counters UInt64}
    {pc pc' : RebuildPc} (hlocal : Local cfg m (.rebuild caller snapshot pc))
    (hfresh : Fresh (layout cfg) (absMem m) (pc.phase cfg))
    (heven : pc.phase cfg = .grabbing cfg.kLockCnt → m.partitionEpoch % 2 = 0)
    (h : rebuildStep cfg t m snapshot pc = some (m', snapshot', pc')) :
    (absMem m' = absMem m ∧ pc'.phase cfg = pc.phase cfg) ∨
      Move (layout cfg) quiet t (absMem m) (pc.phase cfg) (absMem m') (pc'.phase cfg) := by
  cases pc with
  | exchange =>
      cases h
      left
      split <;> exact ⟨rfl, rfl⟩
  | snapStats i =>
      cases h
      left
      split <;> exact ⟨rfl, rfl⟩
  | snapCrossings i =>
      cases h
      left
      split <;> exact ⟨rfl, rfl⟩
  | gainLock =>
      simp only [rebuildStep] at h
      split at h
      · cases h; exact Or.inl ⟨rfl, rfl⟩
      · contradiction
  | gainTest =>
      cases h
      left
      split <;> exact ⟨rfl, rfl⟩
  | keep pc =>
      simp only [rebuildStep, Option.map_eq_some_iff, Prod.mk.injEq] at h
      obtain ⟨⟨m'', r⟩, hstep, rfl, -, rfl⟩ := h
      exact Or.inl ⟨(keepStep_frame cfg hstep).1, (keepStep_frame cfg hstep).2.2⟩
  | unlockGain => cases h; exact Or.inl ⟨rfl, rfl⟩
  | pauseStore => cases h; exact Or.inr .startGrab
  | lockAll next =>
      simp only [rebuildStep] at h
      split at h
      · next hfree =>
          cases h
          right
          split
          · exact .grab hlocal hfree
          · next hlast =>
              have hnext : next + 1 = cfg.kLockCnt := by
                have : next < cfg.kLockCnt := hlocal
                omega
              show Move _ _ _ _ (.grabbing next) _ (.grabbing cfg.kLockCnt)
              rw [← hnext]
              exact .grab hlocal hfree
      · contradiction
  | publish pc =>
      simp only [rebuildStep, Option.map_eq_some_iff, Prod.mk.injEq] at h
      obtain ⟨⟨m'', r⟩, hstep, rfl, -, rfl⟩ := h
      exact publishStep_move cfg quiet hlocal heven hstep
  | unlockAll count =>
      cases h
      right
      rw [show m.unlock (count - 1) = m.unlock (0 + (count - 1)) by rw [Nat.zero_add]]
      exact .unlock hfresh (by split <;> rfl)
  | ret result => contradiction

/-! ## what a step keeps of the rest -/

/-- A query writes neither the cut vector nor the two flags. -/
theorem control_queryStep {left right : ℕ} {pc : QueryPc} {r : Option QueryPc}
    (h : queryStep cfg t a m left right pc = some (m', r)) : control m' = control m := by
  cases pc with
  | acquire epoch lockStart lockEnd index =>
      simp only [queryStep] at h
      split at h
      · cases h; rfl
      · contradiction
  | inside lockStart lockEnd pc =>
      simp only [queryStep, Option.map_eq_some_iff, Prod.mk.injEq] at h
      obtain ⟨⟨m'', pc'⟩, hstep, rfl, -⟩ := h
      exact congrArg Prod.snd (core_insideStep cfg hstep)
  | _ => cases h; rfl

/-- One step of a rebuild writes the cut vector. -/
theorem partitions_rebuildStep {snapshot snapshot' : Counters UInt64} {pc pc' : RebuildPc}
    (h : rebuildStep cfg t m snapshot pc = some (m', snapshot', pc')) :
    m'.partitions = m.partitions ∨ pc = .publish .assign ∧ snapshot' = snapshot ∧
      m' = { m with partitions := cfg.newPartitions snapshot } ∧ pc' = .publish .epochOpen := by
  cases pc with
  | gainLock =>
      simp only [rebuildStep] at h
      split at h
      · cases h; exact Or.inl rfl
      · contradiction
  | keep pc =>
      simp only [rebuildStep, Option.map_eq_some_iff, Prod.mk.injEq] at h
      obtain ⟨⟨m'', r⟩, hstep, rfl, -, rfl⟩ := h
      exact Or.inl (keepStep_frame cfg hstep).2.1
  | lockAll next =>
      simp only [rebuildStep] at h
      split at h
      · cases h; exact Or.inl rfl
      · contradiction
  | publish pc =>
      simp only [rebuildStep, Option.map_eq_some_iff, Prod.mk.injEq] at h
      obtain ⟨⟨m'', r⟩, hstep, rfl, rfl, rfl⟩ := h
      cases pc with
      | assign => cases hstep; exact Or.inr ⟨rfl, rfl, rfl, rfl⟩
      | lockPartitions =>
          simp only [publishStep] at hstep
          split at hstep
          · cases hstep; exact Or.inl rfl
          · contradiction
      | lockStats =>
          simp only [publishStep] at hstep
          split at hstep
          · cases hstep; exact Or.inl rfl
          · contradiction
      | reset pc =>
          cases hstep
          exact Or.inl (congrArg (Control.partitions ∘ Prod.snd)
            (core_resetStep cfg snapshot.stats m pc))
      | _ => cases hstep; exact Or.inl rfl
  | ret result => contradiction
  | _ => cases h; exact Or.inl rfl

/-- What a query knows of the memory it still knows after its own step. -/
theorem local_queryStep {left right : ℕ} {pc : QueryPc} {r : Option QueryPc}
    (hlocal : Local cfg m (.query left right pc))
    (h : queryStep cfg t a m left right pc = some (m', r)) :
    Local cfg m' (afterQuery left right r) := by
  obtain ⟨hle, hlt, hpc⟩ := hlocal
  cases pc with
  | pauseLoad => cases h; exact ⟨hle, hlt, by split <;> trivial⟩
  | epochLoad => cases h; exact ⟨hle, hlt, by split <;> trivial⟩
  | leftLoad epoch => cases h; exact ⟨hle, hlt, trivial⟩
  | rightLoad epoch lockStart =>
      cases h
      refine ⟨hle, hlt, ?_⟩
      split
      · trivial
      · next hge => exact Nat.not_lt.mp hge
  | acquire epoch lockStart lockEnd index =>
      simp only [queryStep] at h
      split at h
      · cases h
        refine ⟨hle, hlt, ?_⟩
        split
        · trivial
        · next hne => exact Nat.lt_of_le_of_ne hpc hne
      · contradiction
  | epochCheck epoch lockStart lockEnd => cases h; exact ⟨hle, hlt, by split <;> trivial⟩
  | retry lockStart count => cases h; exact ⟨hle, hlt, by split <;> trivial⟩
  | inside lockStart lockEnd pc =>
      simp only [queryStep, Option.map_eq_some_iff, Prod.mk.injEq] at h
      obtain ⟨⟨m'', pc'⟩, -, rfl, rfl⟩ := h
      cases pc' with
      | some pc' => exact ⟨hle, hlt, trivial⟩
      | none => exact ⟨hle, hlt, trivial⟩
  | release lockStart count =>
      cases h
      split
      · trivial
      · exact ⟨hle, hlt, trivial⟩

/-- So does a rebuild. -/
theorem local_rebuildStep {caller : Caller} {snapshot snapshot' : Counters UInt64}
    {pc pc' : RebuildPc} (hlocal : Local cfg m (.rebuild caller snapshot pc))
    (h : rebuildStep cfg t m snapshot pc = some (m', snapshot', pc')) :
    Local cfg m' (.rebuild caller snapshot' pc') := by
  cases pc with
  | exchange => cases h; exact local_of_out cfg (by split <;> rfl)
  | snapStats i => cases h; exact local_of_out cfg (by split <;> rfl)
  | snapCrossings i => cases h; exact local_of_out cfg (by split <;> rfl)
  | gainLock =>
      simp only [rebuildStep] at h
      split at h
      · cases h; trivial
      · contradiction
  | gainTest => cases h; exact local_of_out cfg (by split <;> rfl)
  | keep pc =>
      simp only [rebuildStep, Option.map_eq_some_iff, Prod.mk.injEq] at h
      obtain ⟨⟨m'', r⟩, hstep, rfl, rfl, rfl⟩ := h
      exact local_of_out cfg (keepStep_frame cfg hstep).2.2
  | unlockGain => cases h; trivial
  | pauseStore => cases h; exact cfg.kLockCnt_pos
  | lockAll next =>
      simp only [rebuildStep] at h
      split at h
      · cases h
        split
        · next hlt => exact hlt
        · trivial
      · contradiction
  | publish pc =>
      simp only [rebuildStep, Option.map_eq_some_iff, Prod.mk.injEq] at h
      obtain ⟨⟨m'', r⟩, hstep, rfl, rfl, rfl⟩ := h
      cases pc with
      | lockPartitions =>
          simp only [publishStep] at hstep
          split at hstep
          · cases hstep; trivial
          · contradiction
      | lockStats =>
          simp only [publishStep] at hstep
          split at hstep
          · cases hstep; trivial
          · contradiction
      | epochOpen =>
          cases hstep
          exact ⟨cfg.kBlocks_pos, rfl, fun b hb => absurd hb (Nat.not_lt_zero b)⟩
      | refresh block lockIndex =>
          cases hstep
          obtain ⟨hblock, hindex, htable⟩ := hlocal
          have hcells := table_refresh hindex htable
          split
          · next hlt =>
              refine ⟨hlt, ?_, hcells⟩
              rw [hindex, ← lockOfBlock_eq_advance]
              rfl
          · next hge => exact fun b hb => hcells b (by omega)
      | reset pc => cases hstep; split <;> trivial
      | _ => cases hstep; trivial
  | unlockAll count => cases h; exact (by split <;> trivial)
  | ret result => contradiction

/-- Neither a query nor a rebuild. -/
def Loc.Other : Loc → Prop
  | .query _ _ _ => False
  | .rebuild _ _ _ => False
  | _ => True

theorem Loc.Other.phase {l : Loc} (hl : l.Other) : l.phase cfg = .out := by
  cases l with
  | query => exact hl.elim
  | rebuild => exact hl.elim
  | _ => rfl

theorem advance_aside {l l' : Loc} (hl : l.Other) (h : advance cfg t a m l = some (m', l')) :
    Aside cfg m m' l' := by
  cases l with
  | query => exact hl.elim
  | rebuild => exact hl.elim
  | idle =>
      cases t with
      | client c =>
          cases a with
          | call c => exact enter_aside cfg h
          | step => contradiction
          | elapsed => contradiction
      | background =>
          cases a with
          | step =>
              simp only [advance] at h
              split at h
              · cases h; exact ⟨rfl, rfl, trivial, trivial⟩
              · contradiction
          | call => contradiction
          | elapsed => contradiction
  | countRebuild caller => cases h; exact caller.aside_resume cfg rfl
  | rebuildNow snapshot i =>
      simp only [advance] at h
      split at h
      · cases h; exact ⟨rfl, rfl, trivial, trivial⟩
      · split at h
        · cases h; exact ⟨rfl, rfl, trivial, trivial⟩
        · cases h; exact ⟨rfl, rfl, trivial, rfl⟩
  | rebuilder interval changeThreshold pc => exact rebuilderStep_aside cfg h
  | start interval changeThreshold stage => exact startStep_aside cfg h
  | stop stage => exact stopStep_aside cfg h
  | forceLock =>
      simp only [advance] at h
      split at h
      · cases h; exact ⟨rfl, rfl, trivial, trivial⟩
      · contradiction
  | forceStats i => cases h; exact ⟨rfl, rfl, trivial, trivial⟩
  | forceCrossings i =>
      simp only [advance] at h
      split at h
      · cases h; exact ⟨rfl, rfl, trivial, trivial⟩
      · cases h; exact ⟨rfl, rfl, trivial, trivial⟩
  | forceUnlock => cases h; exact ⟨rfl, rfl, trivial, trivial⟩
  | count left right pc => exact countStep_aside cfg h
  | counted locks => cases h; exact ⟨rfl, rfl, trivial, trivial⟩
  | cutsLock =>
      simp only [advance] at h
      split at h
      · cases h; exact ⟨rfl, rfl, trivial, trivial⟩
      · contradiction
  | cutsCopy => cases h; exact ⟨rfl, rfl, trivial, trivial⟩
  | cutsUnlock cuts => cases h; exact ⟨rfl, rfl, trivial, trivial⟩
  | cuts cuts => cases h; exact ⟨rfl, rfl, trivial, trivial⟩

/-- A step of a rebuild: it returns to its caller, or goes on as `rebuildStep` says. -/
theorem advance_rebuild {caller : Caller} {snapshot : Counters UInt64} {pc : RebuildPc} {l' : Loc}
    (h : advance cfg t a m (.rebuild caller snapshot pc) = some (m', l')) :
    (∃ result, pc = .ret result ∧ m' = m ∧
        l' = if result then .countRebuild caller else caller.resume) ∨
      ∃ snapshot' pc', rebuildStep cfg t m snapshot pc = some (m', snapshot', pc') ∧
        l' = .rebuild caller snapshot' pc' := by
  cases pc with
  | ret result =>
      left
      cases result with
      | true => cases h; exact ⟨true, rfl, rfl, rfl⟩
      | false => cases h; exact ⟨false, rfl, rfl, rfl⟩
  | _ =>
      right
      simp only [advance, Option.map_eq_some_iff, Prod.mk.injEq] at h
      obtain ⟨⟨m'', snapshot', pc'⟩, hstep, rfl, rfl⟩ := h
      exact ⟨snapshot', pc', hstep, rfl⟩

/-- Every step of a thread is a step of the protocol or leaves it alone. -/
theorem advance_move {l l' : Loc} (hlocal : Local cfg m l)
    (hfresh : Fresh (layout cfg) (absMem m) (l.phase cfg))
    (heven : l.phase cfg = .grabbing cfg.kLockCnt → m.partitionEpoch % 2 = 0)
    (h : advance cfg t a m l = some (m', l')) :
    (absMem m' = absMem m ∧ l'.phase cfg = l.phase cfg) ∨
      Move (layout cfg) quiet t (absMem m) (l.phase cfg) (absMem m') (l'.phase cfg) := by
  cases l with
  | query left right pc =>
      simp only [advance, Option.map_eq_some_iff, Prod.mk.injEq] at h
      obtain ⟨⟨m'', r⟩, hstep, rfl, rfl⟩ := h
      exact queryStep_move cfg quiet hlocal hfresh hstep
  | rebuild caller snapshot pc =>
      rcases advance_rebuild cfg h with ⟨result, rfl, rfl, rfl⟩ | ⟨snapshot', pc', hstep, rfl⟩
      · have haside := caller.aside_returned cfg m' result
        exact Or.inl ⟨rfl, haside.phase⟩
      · exact rebuildStep_move cfg quiet hlocal hfresh heven hstep
  | _ =>
      have haside := advance_aside cfg (by trivial) h
      exact Or.inl ⟨congrArg Prod.fst haside.core, haside.phase⟩

/-- The only step that writes the cut vector. -/
theorem advance_partitions {l l' : Loc} (h : advance cfg t a m l = some (m', l')) :
    m'.partitions = m.partitions ∨ ∃ caller snapshot,
      l = .rebuild caller snapshot (.publish .assign) ∧
        m' = { m with partitions := cfg.newPartitions snapshot } ∧
          l' = .rebuild caller snapshot (.publish .epochOpen) := by
  cases l with
  | query left right pc =>
      simp only [advance, Option.map_eq_some_iff, Prod.mk.injEq] at h
      obtain ⟨⟨m'', r⟩, hstep, rfl, -⟩ := h
      exact Or.inl (congrArg Control.partitions (control_queryStep cfg hstep))
  | rebuild caller snapshot pc =>
      rcases advance_rebuild cfg h with ⟨result, -, rfl, -⟩ | ⟨snapshot', pc', hstep, rfl⟩
      · exact Or.inl rfl
      · rcases partitions_rebuildStep cfg hstep with hsame | ⟨rfl, rfl, rfl, rfl⟩
        · exact Or.inl hsame
        · exact Or.inr ⟨caller, _, rfl, rfl, rfl⟩
  | _ =>
      have haside := advance_aside cfg (by trivial) h
      exact Or.inl (congrArg (Control.partitions ∘ Prod.snd) haside.core)

/-- A step keeps what the moving thread knows. -/
theorem advance_local {l l' : Loc} (hlocal : Local cfg m l)
    (h : advance cfg t a m l = some (m', l')) : Local cfg m' l' := by
  cases l with
  | query left right pc =>
      simp only [advance, Option.map_eq_some_iff, Prod.mk.injEq] at h
      obtain ⟨⟨m'', r⟩, hstep, rfl, rfl⟩ := h
      exact local_queryStep cfg hlocal hstep
  | rebuild caller snapshot pc =>
      rcases advance_rebuild cfg h with ⟨result, -, rfl, rfl⟩ | ⟨snapshot', pc', hstep, rfl⟩
      · exact (caller.aside_returned cfg m' result).locals
      · exact local_rebuildStep cfg hlocal hstep
  | _ => exact (advance_aside cfg (by trivial) h).locals

end Steps

end DynamicLock
end DynLocks
