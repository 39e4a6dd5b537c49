import DynLocks.Lib.Drain
import DynLocks.Dynamic.Return
import DynLocks.Dynamic.Pause

/-!
# DynLocks.Dynamic.Drain

Every call of a `DynamicLock` can return, but for `StartRebuilder` and `StopRebuilder`,
which join a thread that need not end.  Without new calls and new rounds of the background
thread

* a rebuild publishes at most once, and only a publication makes a query try
  again; a query adds its duration at most once, and only that makes the
  compare-and-exchange of another one fail (`Loc.writes`);
* everything else is bounded loops (`Loc.todo`), so `ranking` is a ranking;
* somebody can always go on, because the mutexes are taken in order and a rebuild
  that pauses the queries waits for nobody who is paused (`exists_progress`).
-/

namespace DynLocks
namespace DynamicLock

open Interleaving

variable {Client : Type} (cfg : Config)

/-! ## rest -/

/-- Between two calls, in `StartRebuilder` or `StopRebuilder`, or between two rounds of the
background thread.  These two calls count as rest wherever they stand: the join of
`StopRebuilder` need not return. -/
def Loc.Rests : Loc → Prop
  | .idle => True
  | .start _ _ _ => True
  | .stop _ => True
  | .rebuilder _ _ (.should _ _) => False
  | .rebuilder _ _ _ => True
  | _ => False

/-- No new call and no new round. -/
def closing : Loc → Act → Bool
  | .idle, .call _ => false
  | .rebuilder _ _ .stopLoad, _ => false
  | _, _ => true

/-- The weak compare-and-exchange of `AddDuration`. -/
def Loc.Exchanges : Loc → Prop
  | .query _ _ (.inside _ _ (.durationCas _)) => True
  | _ => False

/-- A step of a thread at rest, of a query that spins, or of a compare-and-exchange that fails and
finds the value it knows. -/
def Waits (l l' : Loc) : Prop := l.Rests ∨ l.Spins ∧ l'.Spins ∨ l.Exchanges ∧ l' = l

/-! ## what is still to do -/

def PublishPc.writes : PublishPc → ℕ
  | .lockPartitions => 2
  | .lockStats => 2
  | .assign => 2
  | .epochOpen => 2
  | .refresh _ _ => 1
  | .epochClose => 1
  | _ => 0

def RebuildPc.writes : RebuildPc → ℕ
  | .keep _ => 0
  | .publish pc => pc.writes
  | .unlockAll _ => 0
  | .ret _ => 0
  | _ => 2

def ShouldPc.writes : ShouldPc → ℕ
  | .reset _ => 0
  | .unlockStats result => if result then 2 else 0
  | _ => 2

def QueryPc.writes : QueryPc → ℕ
  | .inside _ _ .durationLoad => 1
  | .inside _ _ (.durationCas _) => 1
  | .inside _ _ _ => 0
  | .release _ _ => 0
  | _ => 1

/-- The writes still to come that other threads may have to react to: increments of the epoch by a
rebuild and the duration that a query adds. -/
def Loc.writes : Loc → ℕ
  | .query _ _ pc => pc.writes
  | .rebuild _ _ pc => pc.writes
  | .rebuildNow _ _ => 2
  | .rebuilder _ _ (.should _ pc) => pc.writes
  | _ => 0

/-- The steps of the locked part of a query. -/
def InsidePc.todo (m : Mem Client) : InsidePc → ℕ
  | .durationLoad => 2 * cfg.kBlocks + 9
  | .durationCas current => 2 * cfg.kBlocks + 7 + if m.totalLockTime = current then 0 else 1
  | .countOperation => 2 * cfg.kBlocks + 6
  | .sampleLoad => 2 * cfg.kBlocks + 5
  | .addHit block => cfg.kBlocks - block + cfg.kBlocks + 3
  | .addCrossing boundary => cfg.kBlocks - boundary + 2
  | .func => 1

/-- The steps of a query from the start, if the epoch does not move. -/
def Config.queryTodo : ℕ := 2 * cfg.kLockCnt + 2 * cfg.kBlocks + 14

/-- `again` steps if the epoch is no longer the noted one, else `on`. -/
def Mem.ifStale (m : Mem Client) (epoch again on : ℕ) : ℕ :=
  if epoch ≠ m.partitionEpoch ∨ m.partitionEpoch % 2 ≠ 0 then again else on

/-- The steps of a query; one whose epoch is stale has to start again. -/
def QueryPc.todo (m : Mem Client) : QueryPc → ℕ
  | .pauseLoad => cfg.queryTodo
  | .epochLoad => cfg.queryTodo
  | .leftLoad epoch =>
      2 * cfg.kLockCnt + m.ifStale epoch (cfg.queryTodo + 4) (2 * cfg.kBlocks + 13)
  | .rightLoad epoch _ =>
      2 * cfg.kLockCnt + m.ifStale epoch (cfg.queryTodo + 3) (2 * cfg.kBlocks + 12)
  | .acquire epoch lockStart lockEnd index =>
      lockEnd + 1 - index + (lockEnd + 1 - lockStart + 1) +
        m.ifStale epoch (cfg.queryTodo + 1) (2 * cfg.kBlocks + 10)
  | .epochCheck epoch lockStart lockEnd =>
      lockEnd + 1 - lockStart + 1 + m.ifStale epoch (cfg.queryTodo + 1) (2 * cfg.kBlocks + 10)
  | .retry _ count => count + 1 + cfg.queryTodo
  | .inside lockStart lockEnd pc => pc.todo cfg m + (lockEnd + 1 - lockStart) + 1
  | .release _ count => count + 1

/-- The steps of a round up to a rebuild, and those of the rebuild. -/
def ShouldPc.todo : ShouldPc → ℕ
  | .lockStats => RebuildPc.exchange.remaining cfg + cfg.kBlocks + 8
  | .snapStats i => RebuildPc.exchange.remaining cfg + 7 + (cfg.kBlocks - i)
  | .decide => RebuildPc.exchange.remaining cfg + 6
  | .reset pc => pc.remaining cfg + 2
  | .unlockStats result => if result then RebuildPc.exchange.remaining cfg + 3 else 1

def CountPc.todo : CountPc → ℕ
  | .lockPartitions => 5
  | .leftLoad => 4
  | .rightLoad _ => 3
  | .unlockPartitions _ _ => 2

/-- The steps of a call or a round, unless some thread spends one of its writes. -/
def Loc.todo (m : Mem Client) : Loc → ℕ
  | .query _ _ pc => pc.todo cfg m
  | .rebuild _ _ pc => pc.remaining cfg + 2
  | .countRebuild _ => 1
  | .rebuildNow _ i => RebuildPc.exchange.remaining cfg + 3 + (cfg.kBlocks - i)
  | .rebuilder _ _ (.should _ pc) => pc.todo cfg
  | .forceLock => 2 * cfg.kBlocks + 4
  | .forceStats i => 2 * (cfg.kBlocks - i) + 3
  | .forceCrossings i => 2 * (cfg.kBlocks - i) + 2
  | .forceUnlock => 1
  | .count _ _ pc => pc.todo
  | .counted _ => 1
  | .cutsLock => 4
  | .cutsCopy => 3
  | .cutsUnlock _ => 2
  | .cuts _ => 1
  | _ => 0

/-- A step spends one of the writes, or leaves what others may have to react to and brings the
thread nearer to its end or lets it wait. -/
def Lowers (m : Mem Client) (l : Loc) (m' : Mem Client) (l' : Loc) : Prop :=
  l'.writes < l.writes ∨ l'.writes = l.writes ∧
    (m'.partitionEpoch = m.partitionEpoch ∧ m'.totalLockTime = m.totalLockTime) ∧
      (l'.todo cfg m' < l.todo cfg m ∨ Waits l l' ∧ l'.todo cfg m' ≤ l.todo cfg m)

section Steps

variable {cfg} {t : Tid Client} {a : Act} {m m' : Mem Client} {l l' : Loc}

attribute [local simp] Loc.todo QueryPc.todo InsidePc.todo ShouldPc.todo RebuildPc.writes

/-- A step that writes nothing others wait for has less to do afterwards. -/
theorem Lowers.of_todo (hwrites : l'.writes ≤ l.writes)
    (hmem : m'.partitionEpoch = m.partitionEpoch ∧ m'.totalLockTime = m.totalLockTime)
    (htodo : l'.todo cfg m' < l.todo cfg m) : Lowers cfg m l m' l' := by
  rcases Nat.lt_or_eq_of_le hwrites with hlt | heq
  · exact Or.inl hlt
  · exact Or.inr ⟨heq, hmem, Or.inl htodo⟩

theorem Mem.ifStale_congr (hepoch : m'.partitionEpoch = m.partitionEpoch) (epoch again on : ℕ) :
    m'.ifStale epoch again on = m.ifStale epoch again on := by
  simp only [Mem.ifStale, hepoch]

/-- What another thread has to do depends on what is written only. -/
theorem Loc.todo_congr
    (h : m'.partitionEpoch = m.partitionEpoch ∧ m'.totalLockTime = m.totalLockTime) (l : Loc) :
    l.todo cfg m' = l.todo cfg m := by
  cases l with
  | query left right pc =>
      cases pc with
      | inside lockStart lockEnd pc =>
          cases pc <;> simp only [Loc.todo, QueryPc.todo, InsidePc.todo, h.2]
      | _ => simp only [Loc.todo, QueryPc.todo, Mem.ifStale_congr h.1]
  | rebuilder interval changeThreshold pc => cases pc <;> rfl
  | _ => rfl

/-! ## queries -/

/-- A locked part that has added its duration and counted itself. -/
def InsidePc.Counted : InsidePc → Prop
  | .addHit _ => True
  | .addCrossing _ => True
  | .func => True
  | _ => False

theorem InsidePc.Counted.writes {pc : InsidePc} (h : pc.Counted) (lockStart lockEnd : ℕ) :
    (QueryPc.inside lockStart lockEnd pc).writes = 0 := by
  cases pc with
  | addHit => rfl
  | addCrossing => rfl
  | func => rfl
  | _ => exact h.elim

theorem todo_firstCrossing (cfg : Config) (m : Mem Client) (left right : ℕ) :
    (firstCrossing cfg left right).Counted ∧
      (firstCrossing cfg left right).todo cfg m ≤ cfg.kBlocks + 1 := by
  simp only [firstCrossing]
  split
  · refine ⟨trivial, ?_⟩
    simp only [InsidePc.todo]
    omega
  · exact ⟨trivial, Nat.le_add_left ..⟩

/-- The hit on `block`, or the crossings when there is none. -/
theorem todo_hit (cfg : Config) (m : Mem Client) (left right block : ℕ) :
    let pc := if block ≤ cfg.positionToBlock right ∧ block < cfg.kBlocks then .addHit block
      else firstCrossing cfg left right
    pc.Counted ∧ (pc.todo cfg m ≤ cfg.kBlocks + 1 ∨
      block < cfg.kBlocks ∧ pc.todo cfg m = cfg.kBlocks - block + cfg.kBlocks + 3) := by
  obtain ⟨hcounted, hle⟩ := todo_firstCrossing cfg m left right
  dsimp only
  split
  · next hblock => exact ⟨trivial, Or.inr ⟨hblock.2, rfl⟩⟩
  · exact ⟨hcounted, Or.inl hle⟩

/-- A step from the hits on. -/
theorem lowers_inside {left right lockStart lockEnd : ℕ} {pc pc' : InsidePc}
    (hcounted : pc'.Counted)
    (hmem : m'.partitionEpoch = m.partitionEpoch ∧ m'.totalLockTime = m.totalLockTime)
    (htodo : pc'.todo cfg m < pc.todo cfg m) :
    Lowers cfg m (.query left right (.inside lockStart lockEnd pc)) m'
      (.query left right (.inside lockStart lockEnd pc')) := by
  refine .of_todo ?_ hmem ?_
  · simp only [Loc.writes, hcounted.writes, Nat.zero_le]
  · rw [Loc.todo_congr hmem]
    simp only [Loc.todo, QueryPc.todo]
    omega

variable [DecidableEq Client]

/-- Under its mutexes a query goes on, or tries again an exchange that failed. -/
theorem lowers_insideStep {left right lockStart lockEnd : ℕ} {pc : InsidePc} {r : Option InsidePc}
    (h : insideStep cfg t a m left right pc = some (m', r)) :
    Lowers cfg m (.query left right (.inside lockStart lockEnd pc)) m'
      (.query left right (afterInside lockStart lockEnd r)) := by
  cases pc with
  | durationLoad =>
      cases h
      refine .of_todo le_rfl ⟨rfl, rfl⟩ ?_
      simp only [afterInside, Loc.todo, QueryPc.todo, InsidePc.todo, if_true]
      omega
  | durationCas current =>
      simp only [insideStep] at h
      split at h
      · split at h
        · cases h
          exact Or.inl Nat.zero_lt_one
        · -- the exchange failed; what it found is what it knows from now on
          cases h
          refine Or.inr ⟨rfl, ⟨rfl, rfl⟩, ?_⟩
          by_cases hcurrent : m.totalLockTime = current
          · refine Or.inr ⟨Or.inr (Or.inr ⟨trivial, by rw [hcurrent]; rfl⟩), ?_⟩
            simp only [afterInside, Loc.todo, QueryPc.todo, InsidePc.todo, if_true]
            omega
          · left
            simp only [afterInside, Loc.todo, QueryPc.todo, InsidePc.todo, if_true, if_neg hcurrent]
            omega
      · contradiction
  | countOperation =>
      cases h
      refine .of_todo le_rfl ⟨rfl, rfl⟩ ?_
      simp only [afterInside, Loc.todo, QueryPc.todo, InsidePc.todo]
      omega
  | sampleLoad =>
      have hfunc : ∀ {m' : Mem Client},
          (m'.partitionEpoch = m.partitionEpoch ∧ m'.totalLockTime = m.totalLockTime) →
            Lowers cfg m (.query left right (.inside lockStart lockEnd .sampleLoad)) m'
              (.query left right (.inside lockStart lockEnd .func)) := by
        intro m' hmem
        refine lowers_inside trivial hmem ?_
        simp only [InsidePc.todo]
        omega
      obtain ⟨hcounted, hle⟩ := todo_hit cfg m left right (cfg.positionToBlock left)
      have hnow : InsidePc.sampleLoad.todo cfg m = 2 * cfg.kBlocks + 5 := rfl
      simp only [insideStep] at h
      split at h
      · cases h
        exact hfunc ⟨rfl, rfl⟩
      · split at h
        · cases h
          exact lowers_inside hcounted ⟨rfl, rfl⟩ (by omega)
        · cases h
          simp only [afterInside]
          split
          · exact lowers_inside hcounted ⟨rfl, rfl⟩ (by omega)
          · exact hfunc ⟨rfl, rfl⟩
  | addHit block =>
      cases h
      obtain ⟨hcounted, hle⟩ := todo_hit cfg m left right (block + 1)
      have hnow : (InsidePc.addHit block).todo cfg m = cfg.kBlocks - block + cfg.kBlocks + 3 := rfl
      exact lowers_inside hcounted ⟨rfl, rfl⟩ (by omega)
  | addCrossing boundary =>
      cases h
      refine lowers_inside ?_ ⟨rfl, rfl⟩ ?_
      · split <;> trivial
      · split <;> simp only [InsidePc.todo] <;> omega
  | func =>
      cases h
      refine .of_todo le_rfl ⟨rfl, rfl⟩ ?_
      simp only [afterInside, Loc.todo, QueryPc.todo, InsidePc.todo]
      omega

/-- A query gets on, unless it spins; it goes back to the start with a stale epoch only. -/
theorem lowers_queryStep {left right : ℕ} {pc : QueryPc} {r : Option QueryPc}
    (hbounded : pc.Bounded) (hlt : ∀ b, m.blockToLock b < cfg.kLockCnt)
    (hfresh : ∀ epoch lockStart, pc = .rightLoad epoch lockStart → epoch = m.partitionEpoch →
      m.partitionEpoch % 2 = 0 → lockStart ≤ m.blockToLock (cfg.positionToBlock right))
    (h : queryStep cfg t a m left right pc = some (m', r)) :
    Lowers cfg m (.query left right pc) m' (afterQuery left right r) := by
  cases pc with
  | pauseLoad =>
      cases h
      refine Or.inr ⟨by split <;> rfl, ⟨rfl, rfl⟩, Or.inr ⟨Or.inr (Or.inl ?_), ?_⟩⟩
      · exact ⟨trivial, by split <;> trivial⟩
      · split <;> exact le_rfl
  | epochLoad =>
      cases h
      by_cases hodd : m.partitionEpoch % 2 ≠ 0
      · rw [if_pos hodd]
        exact Or.inr ⟨rfl, ⟨rfl, rfl⟩, Or.inr ⟨Or.inr (Or.inl ⟨trivial, trivial⟩), le_rfl⟩⟩
      · rw [if_neg hodd]
        refine .of_todo le_rfl ⟨rfl, rfl⟩ ?_
        have hstale : ¬(m.partitionEpoch ≠ m.partitionEpoch ∨ m.partitionEpoch % 2 ≠ 0) := by omega
        simp only [afterQuery, Loc.todo, QueryPc.todo, Mem.ifStale, if_neg hstale, Config.queryTodo]
        omega
  | leftLoad epoch =>
      cases h
      refine .of_todo le_rfl ⟨rfl, rfl⟩ ?_
      simp only [afterQuery, Loc.todo, QueryPc.todo, Mem.ifStale]
      split <;> omega
  | rightLoad epoch lockStart =>
      have hend := hlt (cfg.positionToBlock right)
      cases h
      by_cases hle : lockStart > m.blockToLock (cfg.positionToBlock right)
      · rw [if_pos hle]
        refine .of_todo le_rfl ⟨rfl, rfl⟩ ?_
        -- the two ends were read in different epochs
        have hstale : epoch ≠ m.partitionEpoch ∨ m.partitionEpoch % 2 ≠ 0 := by
          by_contra hnot
          have := hfresh epoch lockStart rfl (by omega) (by omega)
          omega
        simp only [afterQuery, Loc.todo, QueryPc.todo, Mem.ifStale, if_pos hstale]
        omega
      · rw [if_neg hle]
        refine .of_todo le_rfl ⟨rfl, rfl⟩ ?_
        simp only [afterQuery, Loc.todo, QueryPc.todo, Mem.ifStale]
        split <;> omega
  | acquire epoch lockStart lockEnd index =>
      have hindex : index ≤ lockEnd := hbounded
      simp only [queryStep] at h
      split at h
      · cases h
        refine .of_todo (by split <;> exact le_rfl) ⟨rfl, rfl⟩ ?_
        have hsame : (m.lock index t).ifStale epoch (cfg.queryTodo + 1) (2 * cfg.kBlocks + 10) =
            m.ifStale epoch (cfg.queryTodo + 1) (2 * cfg.kBlocks + 10) :=
          Mem.ifStale_congr rfl epoch _ _
        split <;> simp only [afterQuery, Loc.todo, QueryPc.todo, hsame] <;> omega
      · contradiction
  | epochCheck epoch lockStart lockEnd =>
      cases h
      refine .of_todo (by split <;> exact le_rfl) ⟨rfl, rfl⟩ ?_
      split
      · next hstale =>
          simp only [afterQuery, Loc.todo, QueryPc.todo, Mem.ifStale, if_pos hstale]
          omega
      · next hstale =>
          simp only [afterQuery, Loc.todo, QueryPc.todo, InsidePc.todo, Mem.ifStale, if_neg hstale]
          omega
  | retry lockStart count =>
      cases h
      refine .of_todo (by split <;> exact le_rfl) ⟨rfl, rfl⟩ ?_
      split <;> simp only [afterQuery, Loc.todo, QueryPc.todo] <;> omega
  | inside lockStart lockEnd pc =>
      simp only [queryStep, Option.map_eq_some_iff, Prod.mk.injEq] at h
      obtain ⟨⟨m'', r'⟩, hstep, rfl, rfl⟩ := h
      exact lowers_insideStep hstep
  | release lockStart count =>
      cases h
      refine .of_todo (by split <;> exact le_rfl) ⟨rfl, rfl⟩ ?_
      split <;> simp only [afterQuery, Loc.todo, QueryPc.todo] <;> omega

/-! ## rebuilds -/

omit [DecidableEq Client] in
theorem frame_resetStep (stats : ℕ → UInt64) (m : Mem Client) (pc : ResetPc) :
    (resetStep cfg stats m pc).1.partitionEpoch = m.partitionEpoch ∧
      (resetStep cfg stats m pc).1.totalLockTime = m.totalLockTime := by
  cases pc <;> exact ⟨rfl, rfl⟩

/-- A rebuild spends a write with each increment of the epoch. -/
theorem lowers_rebuildStep {caller : Caller} {snapshot snapshot' : Counters UInt64}
    {pc pc' : RebuildPc} (h : rebuildStep cfg t m snapshot pc = some (m', snapshot', pc')) :
    Lowers cfg m (.rebuild caller snapshot pc) m' (.rebuild caller snapshot' pc') := by
  have hless := remaining_rebuildStep h
  have hmem : (m'.partitionEpoch = m.partitionEpoch ∧ m'.totalLockTime = m.totalLockTime) →
      pc'.writes ≤ pc.writes →
        Lowers cfg m (.rebuild caller snapshot pc) m' (.rebuild caller snapshot' pc') :=
    fun hmem hle => .of_todo hle hmem (by simp only [Loc.todo]; omega)
  clear hless
  cases pc with
  | exchange => cases h; exact hmem ⟨rfl, rfl⟩ (by split <;> simp)
  | snapStats i => cases h; exact hmem ⟨rfl, rfl⟩ (by split <;> exact le_rfl)
  | snapCrossings i => cases h; exact hmem ⟨rfl, rfl⟩ (by split <;> exact le_rfl)
  | gainLock =>
      simp only [rebuildStep] at h
      split at h
      · cases h; exact hmem ⟨rfl, rfl⟩ le_rfl
      · contradiction
  | gainTest => cases h; exact hmem ⟨rfl, rfl⟩ (by split <;> simp)
  | keep pc =>
      simp only [rebuildStep, Option.map_eq_some_iff, Prod.mk.injEq] at h
      obtain ⟨⟨m'', r⟩, hstep, rfl, rfl, rfl⟩ := h
      cases pc with
      | lockStats =>
          simp only [keepStep] at hstep
          split at hstep
          · cases hstep; exact hmem ⟨rfl, rfl⟩ le_rfl
          · contradiction
      | reset pc =>
          cases hstep
          exact hmem (frame_resetStep _ m pc) (by dsimp only; split <;> exact le_rfl)
      | _ => cases hstep; exact hmem ⟨rfl, rfl⟩ le_rfl
  | unlockGain => cases h; exact hmem ⟨rfl, rfl⟩ le_rfl
  | pauseStore => cases h; exact hmem ⟨rfl, rfl⟩ le_rfl
  | lockAll next =>
      simp only [rebuildStep] at h
      split at h
      · cases h; exact hmem ⟨rfl, rfl⟩ (by split <;> exact le_rfl)
      · contradiction
  | publish pc =>
      simp only [rebuildStep, Option.map_eq_some_iff, Prod.mk.injEq] at h
      obtain ⟨⟨m'', r⟩, hstep, rfl, rfl, rfl⟩ := h
      cases pc with
      | lockPartitions =>
          simp only [publishStep] at hstep
          split at hstep
          · cases hstep; exact hmem ⟨rfl, rfl⟩ le_rfl
          · contradiction
      | lockStats =>
          simp only [publishStep] at hstep
          split at hstep
          · cases hstep; exact hmem ⟨rfl, rfl⟩ le_rfl
          · contradiction
      | epochOpen => cases hstep; exact Or.inl Nat.one_lt_two
      | refresh block lockIndex =>
          cases hstep
          exact hmem ⟨rfl, rfl⟩ (by dsimp only; split <;> exact le_rfl)
      | epochClose => cases hstep; exact Or.inl Nat.zero_lt_one
      | reset pc =>
          cases hstep
          exact hmem (frame_resetStep _ m pc) (by dsimp only; split <;> exact le_rfl)
      | _ => cases hstep; exact hmem ⟨rfl, rfl⟩ le_rfl
  | unlockAll count => cases h; exact hmem ⟨rfl, rfl⟩ (by split <;> exact le_rfl)
  | ret result => contradiction

/-! ## the other operations -/

omit [DecidableEq Client] in
/-- `ShouldRebuild` goes on in its loops over the blocks. -/
theorem lowers_shouldStep {interval : ℕ} {changeThreshold : ℚ} {snapshot : Counters UInt64}
    {pc : ShouldPc}
    (h : rebuilderStep cfg t m interval changeThreshold (.should snapshot pc) = some (m', l')) :
    Lowers cfg m (.rebuilder interval changeThreshold (.should snapshot pc)) m' l' := by
  simp only [rebuilderStep, Option.map_eq_some_iff, Prod.mk.injEq] at h
  obtain ⟨⟨m'', snapshot', r⟩, hstep, rfl, rfl⟩ := h
  cases pc with
  | lockStats =>
      simp only [shouldStep] at hstep
      split at hstep
      · cases hstep
        refine .of_todo le_rfl ⟨rfl, rfl⟩ ?_
        simp only [Loc.todo, ShouldPc.todo]
        omega
      · contradiction
  | snapStats i =>
      cases hstep
      refine .of_todo (by dsimp only; split <;> exact le_rfl) ⟨rfl, rfl⟩ ?_
      dsimp only
      split <;> simp only [Loc.todo, ShouldPc.todo] <;> omega
  | decide =>
      have hlower : ∀ {m' : Mem Client} {result : Bool},
          (m'.partitionEpoch = m.partitionEpoch ∧ m'.totalLockTime = m.totalLockTime) →
            Lowers cfg m (.rebuilder interval changeThreshold (.should snapshot .decide)) m'
              (.rebuilder interval changeThreshold (.should snapshot (.unlockStats result))) := by
        intro m' result hmem
        refine .of_todo ?_ hmem ?_
        · cases result
          · exact Nat.zero_le _
          · exact le_rfl
        · cases result <;> simp
      simp only [shouldStep] at hstep
      split at hstep
      · cases hstep
        exact hlower ⟨rfl, rfl⟩
      · split at hstep
        · cases hstep
          exact Or.inl Nat.two_pos
        · split at hstep
          · cases hstep
            exact hlower ⟨rfl, rfl⟩
          · cases hstep
            exact hlower ⟨rfl, rfl⟩
  | reset pc =>
      cases hstep
      dsimp only
      split
      · next hnext =>
          have := remaining_resetStep hnext
          refine .of_todo le_rfl (frame_resetStep _ m pc) ?_
          simp only [Loc.todo, ShouldPc.todo]
          omega
      · refine .of_todo le_rfl (frame_resetStep _ m pc) ?_
        simp
  | unlockStats result =>
      cases hstep
      cases result with
      | true =>
          refine .of_todo le_rfl ⟨rfl, rfl⟩ ?_
          simp
      | false =>
          refine .of_todo le_rfl ⟨rfl, rfl⟩ ?_
          simp

omit [DecidableEq Client] in
/-- `CountLocksForRange` goes on. -/
theorem lowers_countStep {left right : ℕ} {pc : CountPc}
    (h : countStep cfg t m left right pc = some (m', l')) :
    Lowers cfg m (.count left right pc) m' l' := by
  cases pc with
  | lockPartitions =>
      simp only [countStep] at h
      split at h
      · cases h; exact .of_todo le_rfl ⟨rfl, rfl⟩ (Nat.lt_succ_self _)
      · contradiction
  | _ => cases h; exact .of_todo le_rfl ⟨rfl, rfl⟩ (Nat.lt_succ_self _)

/-- Nothing changes that a thread in a call may have to react to. -/
structure Still (m m' : Mem Client) : Prop where
  owner : m'.owner = m.owner
  pauseQueries : m'.pauseQueries = m.pauseQueries
  partitionEpoch : m'.partitionEpoch = m.partitionEpoch
  totalLockTime : m'.totalLockTime = m.totalLockTime

omit [DecidableEq Client] in
/-- `StartRebuilder` writes nothing that others wait for. -/
theorem rests_startStep {interval : ℕ} {changeThreshold : ℚ} {stage : Fin 4}
    (h : startStep m interval changeThreshold stage = some (m', l')) : l'.Rests ∧ Still m m' := by
  match stage with
  | 0 => cases h; exact ⟨trivial, rfl, rfl, rfl, rfl⟩
  | 1 => cases h; exact ⟨trivial, rfl, rfl, rfl, rfl⟩
  | 2 => cases h; exact ⟨trivial, rfl, rfl, rfl, rfl⟩
  | 3 =>
      simp only [startStep] at h
      split at h
      · cases h; exact ⟨trivial, rfl, rfl, rfl, rfl⟩
      · contradiction

omit [DecidableEq Client] in
/-- Neither does `StopRebuilder`. -/
theorem rests_stopStep {stage : Fin 4} (h : stopStep m stage = some (m', l')) :
    l'.Rests ∧ Still m m' := by
  match stage with
  | 0 => cases h; exact ⟨trivial, rfl, rfl, rfl, rfl⟩
  | 2 => cases h; exact ⟨trivial, rfl, rfl, rfl, rfl⟩
  | 3 => cases h; exact ⟨trivial, rfl, rfl, rfl, rfl⟩
  | 1 =>
      simp only [stopStep] at h
      split at h
      · cases h; exact ⟨trivial, rfl, rfl, rfl, rfl⟩
      · split at h
        · cases h; exact ⟨trivial, rfl, rfl, rfl, rfl⟩
        · contradiction

/-- A step of a thread at rest, other than a call or the start of a round. -/
theorem rests_advance (hpermits : closing l a = true)
    (h : advance cfg t a m l = some (m', l')) (hl : l.Rests) : l'.Rests ∧ Still m m' := by
  cases l with
  | idle =>
      cases t with
      | client c => cases a <;> contradiction
      | background =>
          cases a with
          | step =>
              simp only [advance] at h
              split at h
              · cases h; exact ⟨trivial, rfl, rfl, rfl, rfl⟩
              · contradiction
          | _ => contradiction
  | rebuilder interval changeThreshold pc =>
      cases pc with
      | should => exact hl.elim
      | outerLoad => cases h; exact ⟨by split <;> trivial, rfl, rfl, rfl, rfl⟩
      | innerLoad slept => cases h; exact ⟨by split <;> trivial, rfl, rfl, rfl, rfl⟩
      | stopLoad => contradiction
      | exit => cases h; exact ⟨trivial, rfl, rfl, rfl, rfl⟩
  | start interval changeThreshold stage => exact rests_startStep h
  | stop stage => exact rests_stopStep h
  | _ => exact hl.elim

theorem writes_resume (caller : Caller) : caller.resume.writes = 0 := by
  cases caller <;> rfl

omit [DecidableEq Client] in
theorem todo_resume (m : Mem Client) (caller : Caller) : caller.resume.todo cfg m = 0 := by
  cases caller <;> rfl

/-- **Step lemma**: whoever is not at rest spends a write, gets nearer to the end, or waits. -/
theorem lowers_advance (hlocal : Local cfg m l) (hlt : ∀ b, m.blockToLock b < cfg.kLockCnt)
    (hfresh : ∀ left right epoch lockStart, l = .query left right (.rightLoad epoch lockStart) →
      epoch = m.partitionEpoch → m.partitionEpoch % 2 = 0 →
        lockStart ≤ m.blockToLock (cfg.positionToBlock right))
    (h : advance cfg t a m l = some (m', l')) (hl : ¬l.Rests) : Lowers cfg m l m' l' := by
  cases l with
  | query left right pc =>
      simp only [advance, Option.map_eq_some_iff, Prod.mk.injEq] at h
      obtain ⟨⟨m'', r⟩, hstep, rfl, rfl⟩ := h
      exact lowers_queryStep hlocal.2.2 hlt
        (fun epoch lockStart hpc => hfresh left right epoch lockStart (by rw [hpc])) hstep
  | rebuild caller snapshot pc =>
      rcases advance_rebuild cfg h with ⟨result, rfl, rfl, rfl⟩ | ⟨snapshot', pc', hstep, rfl⟩
      · cases result with
        | true => exact .of_todo le_rfl ⟨rfl, rfl⟩ Nat.one_lt_two
        | false =>
            refine .of_todo (writes_resume caller).le ⟨rfl, rfl⟩ ?_
            show caller.resume.todo cfg m' < _
            rw [todo_resume]
            exact Nat.two_pos
      · exact lowers_rebuildStep hstep
  | countRebuild caller =>
      cases h
      refine .of_todo (writes_resume caller).le ⟨rfl, rfl⟩ ?_
      rw [todo_resume]
      exact Nat.one_pos
  | rebuildNow snapshot i =>
      simp only [advance] at h
      split at h
      · cases h
        refine .of_todo le_rfl ⟨rfl, rfl⟩ ?_
        simp only [Loc.todo]
        omega
      · split at h
        · cases h
          refine .of_todo (Nat.zero_le _) ⟨rfl, rfl⟩ ?_
          simp only [Loc.todo]
          omega
        · cases h
          refine .of_todo le_rfl ⟨rfl, rfl⟩ ?_
          simp only [Loc.todo]
          omega
  | rebuilder interval changeThreshold pc =>
      cases pc with
      | should snapshot pc => exact lowers_shouldStep h
      | _ => exact absurd trivial hl
  | forceLock =>
      simp only [advance] at h
      split at h
      · cases h; exact .of_todo le_rfl ⟨rfl, rfl⟩ (by simp only [Loc.todo]; omega)
      · contradiction
  | forceStats i =>
      cases h
      exact .of_todo le_rfl ⟨rfl, rfl⟩ (Nat.lt_succ_self _)
  | forceCrossings i =>
      simp only [advance] at h
      split at h
      · cases h; exact .of_todo le_rfl ⟨rfl, rfl⟩ (by simp only [Loc.todo]; omega)
      · cases h; exact .of_todo le_rfl ⟨rfl, rfl⟩ (by simp only [Loc.todo]; omega)
  | forceUnlock => cases h; exact .of_todo le_rfl ⟨rfl, rfl⟩ Nat.one_pos
  | count left right pc => exact lowers_countStep h
  | counted locks => cases h; exact .of_todo le_rfl ⟨rfl, rfl⟩ Nat.one_pos
  | cutsLock =>
      simp only [advance] at h
      split at h
      · cases h; exact .of_todo le_rfl ⟨rfl, rfl⟩ (Nat.lt_succ_self _)
      · contradiction
  | cutsCopy => cases h; exact .of_todo le_rfl ⟨rfl, rfl⟩ (Nat.lt_succ_self _)
  | cutsUnlock cuts => cases h; exact .of_todo le_rfl ⟨rfl, rfl⟩ (Nat.lt_succ_self _)
  | cuts cuts => cases h; exact .of_todo le_rfl ⟨rfl, rfl⟩ (Nat.lt_succ_self _)
  | _ => exact absurd trivial hl

/-! ## the ranking -/

omit [DecidableEq Client] in
/-- A thread at rest has nothing left to do. -/
theorem Loc.Rests.zero (h : l.Rests) : l.writes = 0 ∧ ∀ m : Mem Client, l.todo cfg m = 0 := by
  cases l with
  | idle => exact ⟨rfl, fun _ => rfl⟩
  | start => exact ⟨rfl, fun _ => rfl⟩
  | stop => exact ⟨rfl, fun _ => rfl⟩
  | rebuilder interval changeThreshold pc =>
      cases pc with
      | should => exact h.elim
      | _ => exact ⟨rfl, fun _ => rfl⟩
  | _ => exact h.elim

variable {s : State (Tid Client) (Mem Client) Loc}

/-- The two ends of a segment that are read in one epoch are in order. -/
theorem le_of_rightLoad (hs : (machine cfg Client).Reachable s) {left right epoch lockStart : ℕ}
    (ht : s.loc t = .query left right (.rightLoad epoch lockStart))
    (hepoch : epoch = s.mem.partitionEpoch) (heven : s.mem.partitionEpoch % 2 = 0) :
    lockStart ≤ s.mem.blockToLock (cfg.positionToBlock right) := by
  have hinv := (safe_of_reachable hs).inv
  have hfresh := hinv.fresh t
  have hphase : (abs cfg s).loc t = .readRight (cfg.positionToBlock left)
      (cfg.positionToBlock right) epoch lockStart := by
    simp only [abs, ht]
    rfl
  rw [hphase] at hfresh
  obtain ⟨hle, hlt, -, -, hfirst⟩ := hfresh
  rw [hfirst hepoch.symm]
  exact (hinv.good heven _ _ hle hlt).1

/-- **Step lemma**: in every reachable state a step of a call lowers what is left of it. -/
theorem lowers_of_reachable (hs : (machine cfg Client).Reachable s)
    (h : advance cfg t a s.mem (s.loc t) = some (m', l')) (hl : ¬(s.loc t).Rests) :
    Lowers cfg s.mem (s.loc t) m' l' :=
  lowers_advance ((safe_of_reachable hs).locals t) (blockToLock_lt hs)
    (fun _ _ _ _ hloc => le_of_rightLoad hs hloc) h hl

/-- The writes and the steps that are left, as a ranking. -/
def ranking (cfg : Config) (Client : Type) [DecidableEq Client] :
    Program.Ranking (machine cfg Client) closing Loc.Rests Waits ℕ where
  budget := Loc.writes
  todo m l := l.todo cfg m
  start _ := trivial
  zero := Loc.Rests.zero
  waits hl := Or.inl hl
  keep _ hpermits h hl := (rests_advance hpermits h hl).1
  own hs _ h hl := by
    rcases lowers_of_reachable hs h hl with hlt | ⟨heq, -, htodo⟩
    · exact Or.inl hlt
    · exact Or.inr ⟨heq, htodo⟩
  other {s t u a m' l'} hs hpermits h _ := by
    by_cases hl : (s.loc t).Rests
    · have hsame := (rests_advance hpermits h hl).2
      exact Or.inr (Loc.todo_congr ⟨hsame.partitionEpoch, hsame.totalLockTime⟩ _).le
    · rcases lowers_of_reachable hs h hl with hlt | ⟨-, hmem, -⟩
      · exact Or.inl hlt
      · exact Or.inr (Loc.todo_congr hmem _).le

/-! ## somebody can go on -/

/-- A thread at rest holds no mutex. -/
theorem Loc.Rests.not_holds (h : l.Rests) (x : Mutex) : ¬l.Holds cfg x := by
  intro hholds
  cases l with
  | idle => cases x <;> exact hholds
  | start => cases x <;> exact hholds
  | stop => cases x <;> exact hholds
  | rebuilder interval changeThreshold pc =>
      cases pc with
      | should => exact h.elim
      | _ => cases x <;> exact hholds
  | _ => exact h.elim

/-- Only a mutex that is held keeps a query that does not spin from going on; the exchange may
succeed, or find another value. -/
theorem exists_queryStep (cfg : Config) {left right : ℕ} {pc : QueryPc}
    (hfree : ∀ x, (Loc.query left right pc).wants = some x → m.owner x = none) :
    ∃ a m' r, queryStep cfg t a m left right pc = some (m', r) ∧
      ¬((Loc.query left right pc).Exchanges ∧ afterQuery left right r = .query left right pc) := by
  cases pc with
  | acquire epoch lockStart lockEnd index =>
      have hown : m.locks index = none := hfree (.range index) rfl
      exact ⟨.step, _, _, by simp only [queryStep, hown, if_true]; rfl, fun h => h.1.elim⟩
  | inside lockStart lockEnd pc =>
      cases pc with
      | durationCas current =>
          by_cases hcurrent : m.totalLockTime = current
          · refine ⟨.elapsed 0 false, { m with totalLockTime := current + 0 },
              some (.inside lockStart lockEnd .countOperation), ?_, fun h => ?_⟩
            · simp [queryStep, insideStep, hcurrent, afterInside]
            · cases h.2
          · refine ⟨.elapsed 0 false, m,
              some (.inside lockStart lockEnd (.durationCas m.totalLockTime)), ?_, fun h => ?_⟩
            · simp [queryStep, insideStep, hcurrent, afterInside]
            · cases h.2
              exact hcurrent rfl
      | sampleLoad =>
          obtain ⟨r, hr⟩ : ∃ r, insideStep cfg t .step m left right .sampleLoad = some r := by
            simp only [insideStep]
            split
            · exact ⟨_, rfl⟩
            · split <;> exact ⟨_, rfl⟩
          exact ⟨.step, r.1, _, by simp only [queryStep, hr, Option.map_some]; rfl, fun h => h.1.elim⟩
      | _ => exact ⟨.step, _, _, rfl, fun h => h.1.elim⟩
  | _ => exact ⟨.step, _, _, rfl, fun h => h.1.elim⟩

omit [DecidableEq Client] in
/-- Only a mutex that is held keeps a round from going on. -/
theorem exists_shouldStep {changeThreshold : ℚ} {snapshot : Counters UInt64} {pc : ShouldPc}
    (hfree : pc = .lockStats → m.statsMutex = none) :
    ∃ r, shouldStep cfg t changeThreshold m snapshot pc = some r := by
  cases pc with
  | lockStats => exact ⟨_, by simp only [shouldStep, hfree rfl, if_true]; rfl⟩
  | decide =>
      simp only [shouldStep]
      split
      · exact ⟨_, rfl⟩
      · split
        · exact ⟨_, rfl⟩
        · split <;> exact ⟨_, rfl⟩
  | _ => exact ⟨_, rfl⟩

/-- A thread that neither rests nor spins nor waits for a mutex that is held can go on. -/
theorem exists_advance (cfg : Config) (hrests : ¬l.Rests)
    (hfree : ∀ x, l.wants = some x → m.owner x = none) :
    ∃ a m' l', closing l a = true ∧ advance cfg t a m l = some (m', l') ∧
      ¬(l.Exchanges ∧ l' = l) := by
  cases l with
  | query left right pc =>
      obtain ⟨a, m', r, hstep, hnot⟩ := exists_queryStep (t := t) cfg hfree
      exact ⟨a, m', _, rfl, by simp only [advance, hstep, Option.map_some], hnot⟩
  | rebuild caller snapshot pc =>
      by_cases hret : ∃ result, pc = .ret result
      · obtain ⟨result, rfl⟩ := hret
        cases result with
        | true => exact ⟨.step, _, _, rfl, rfl, fun h => h.1.elim⟩
        | false => exact ⟨.step, _, _, rfl, rfl, fun h => h.1.elim⟩
      · obtain ⟨m', snapshot', pc', hstep⟩ : ∃ m' snapshot' pc',
            rebuildStep cfg t m snapshot pc = some (m', snapshot', pc') :=
          exists_rebuildStep caller (fun result heq => hret ⟨result, heq⟩) hfree
        exact ⟨.step, _, _, rfl, advance_of_rebuildStep caller hstep, fun h => h.1.elim⟩
  | rebuilder interval changeThreshold pc =>
      cases pc with
      | should snapshot pc =>
          obtain ⟨r, hr⟩ : ∃ r, shouldStep cfg t changeThreshold m snapshot pc = some r :=
            exists_shouldStep fun hpc => hfree .stats (by rw [hpc]; rfl)
          have hadvance : ∃ l', advance cfg t .step m
              (.rebuilder interval changeThreshold (.should snapshot pc)) = some (r.1, l') := by
            simp only [advance, rebuilderStep, hr, Option.map_some]
            exact ⟨_, rfl⟩
          obtain ⟨l', hl'⟩ := hadvance
          exact ⟨.step, r.1, l', rfl, hl', fun h => h.1.elim⟩
      | _ => exact absurd trivial hrests
  | forceLock =>
      have hown : m.statsMutex = none := hfree .stats rfl
      exact ⟨.step, _, _, rfl, by simp only [advance, hown, if_true]; rfl, fun h => h.1.elim⟩
  | count left right pc =>
      cases pc with
      | lockPartitions =>
          have hown : m.partitionsMutex = none := hfree .partitions rfl
          exact ⟨.step, _, _, rfl, by simp only [advance, countStep, hown, if_true]; rfl,
            fun h => h.1.elim⟩
      | _ => exact ⟨.step, _, _, rfl, rfl, fun h => h.1.elim⟩
  | cutsLock =>
      have hown : m.partitionsMutex = none := hfree .partitions rfl
      exact ⟨.step, _, _, rfl, by simp only [advance, hown, if_true]; rfl, fun h => h.1.elim⟩
  | _ => first | exact absurd trivial hrests | exact ⟨.step, _, _, rfl, rfl, fun h => h.1.elim⟩

/-- If somebody neither rests nor spins, one of those waits for no mutex that is held. -/
theorem exists_unblocked (hs : (machine cfg Client).Reachable s) (hrests : ¬(s.loc t).Rests)
    (hspins : ¬(s.loc t).Spins) :
    ∃ u, ¬(s.loc u).Rests ∧ ¬(s.loc u).Spins ∧
      ∀ x, (s.loc u).wants = some x → s.mem.owner x = none := by
  obtain ⟨u, hu, hfree⟩ := (ordered_of_reachable hs).exists_unblocked t
  -- whoever holds a mutex neither rests nor spins
  rcases hu with rfl | ⟨x, hx⟩
  · exact ⟨u, hrests, hspins, hfree⟩
  · exact ⟨u, fun h => h.not_holds x ((owned_of_reachable hs x u).mp hx),
      fun h => owner_ne_of_spins hs h x hx, hfree⟩

omit [DecidableEq Client] in
/-- Nobody rebuilds while all threads rest or spin. -/
theorem not_inRebuild_of_spins (h : ∀ t, ¬(s.loc t).Rests → (s.loc t).Spins) (t : Tid Client) :
    ¬(s.loc t).InRebuild := by
  intro hin
  cases hloc : s.loc t with
  | rebuild caller snapshot pc =>
      have hspins := h t (by rw [hloc]; exact id)
      rw [hloc] at hspins
      exact hspins
  | _ => rw [hloc] at hin; exact hin

/-- No query is paused unless somebody rebuilds. -/
theorem unpaused_of_reachable (hs : (machine cfg Client).Reachable s)
    (hrebuild : ∀ t, ¬(s.loc t).InRebuild) : s.mem.pauseQueries = false := by
  obtain ⟨own, hown, howner⟩ := pause_owned hs
  cases own with
  | none => exact hown
  | some u =>
      have hpaused : (s.loc u).InPause := (howner u).mp rfl
      refine absurd ?_ (hrebuild u)
      cases hloc : s.loc u with
      | rebuild => trivial
      | _ => rw [hloc] at hpaused; exact hpaused.elim

/-- The epoch is even unless somebody rebuilds. -/
theorem even_of_reachable (hs : (machine cfg Client).Reachable s)
    (hrebuild : ∀ t, ¬(s.loc t).InRebuild) : s.mem.partitionEpoch % 2 = 0 := by
  rcases Nat.mod_two_eq_zero_or_one s.mem.partitionEpoch with heven | hodd
  · exact heven
  · obtain ⟨u, hu⟩ := (safe_of_reachable hs).inv.odd hodd
    refine absurd ?_ (hrebuild u)
    cases hloc : s.loc u with
    | rebuild => trivial
    | query left right pc => simp only [abs, hloc] at hu; cases pc <;> exact hu.elim
    | _ => simp only [abs, hloc] at hu; exact hu.elim

/-- Unless all threads rest, one that neither rests nor spins has its mutex free, or nobody pauses
the queries that spin. -/
theorem exists_progress (hs : (machine cfg Client).Reachable s) (hrests : ∃ t, ¬(s.loc t).Rests) :
    ∃ s₁ t s₂, Relation.ReflTransGen ((machine cfg Client).restrict closing).Step s s₁ ∧
      ((machine cfg Client).restrict closing).StepBy t s₁ s₂ ∧
        ¬Waits (s₁.loc t) (s₂.loc t) := by
  by_cases hspin : ∀ t, ¬(s.loc t).Rests → (s.loc t).Spins
  · -- nobody is inside a rebuild: a query that waits at the start goes on to read the table
    obtain ⟨t, ht⟩ := hrests
    have hrebuild := not_inRebuild_of_spins hspin
    have hpause := unpaused_of_reachable hs hrebuild
    have heven : ¬s.mem.partitionEpoch % 2 ≠ 0 := by
      rw [even_of_reachable hs hrebuild]
      exact fun h => h rfl
    have hread : ∀ {s₁ : State (Tid Client) (Mem Client) Loc} {left right : ℕ}, s₁.mem = s.mem →
        s₁.loc t = .query left right .epochLoad → ∃ s₂,
          ((machine cfg Client).restrict closing).StepBy t s₁ s₂ ∧
            ¬Waits (s₁.loc t) (s₂.loc t) := by
      intro s₁ left right hmem hloc
      have hadvance : ((machine cfg Client).restrict closing).advance t .step s₁.mem (s₁.loc t) =
          some (s₁.mem, .query left right (.leftLoad s₁.mem.partitionEpoch)) := by
        rw [hloc, hmem]
        simp only [Program.restrict, closing, if_true, machine, advance, queryStep, if_neg heven,
          Option.map_some, afterQuery]
      obtain ⟨s₂, hstep, -, hnext, -⟩ := Program.exists_stepBy hadvance
      refine ⟨s₂, hstep, ?_⟩
      rw [hloc, hnext]
      rintro (h | ⟨-, h⟩ | ⟨h, -⟩) <;> exact h
    cases hloc : s.loc t with
    | query left right pc =>
        have hspins := hspin t ht
        rw [hloc] at hspins
        cases pc with
        | pauseLoad =>
            have hadvance : ((machine cfg Client).restrict closing).advance t .step s.mem
                (s.loc t) = some (s.mem, .query left right .epochLoad) := by
              rw [hloc]
              simp [Program.restrict, closing, machine, advance, queryStep, hpause, afterQuery]
            obtain ⟨s₁, hstep, hmem, hnext, -⟩ := Program.exists_stepBy hadvance
            obtain ⟨s₂, hstep', hnot⟩ := hread hmem hnext
            exact ⟨s₁, t, s₂, .single ⟨t, hstep⟩, hstep', hnot⟩
        | epochLoad =>
            obtain ⟨s₂, hstep, hnot⟩ := hread rfl hloc
            exact ⟨s, t, s₂, .refl, hstep, hnot⟩
        | _ => exact hspins.elim
    | _ =>
        have hspins := hspin t ht
        rw [hloc] at hspins
        exact hspins.elim
  · push Not at hspin
    obtain ⟨t, hrest, hnot⟩ := hspin
    obtain ⟨u, hrests, hspins, hfree⟩ := exists_unblocked hs hrest hnot
    obtain ⟨a, m', l', hpermits, hadvance, hmoves⟩ :=
      exists_advance (t := u) cfg hrests hfree
    have hrestrict : ((machine cfg Client).restrict closing).advance u a s.mem (s.loc u) =
        some (m', l') := by
      simp only [Program.restrict, hpermits, if_true]
      exact hadvance
    obtain ⟨s₂, hstep, -, hnext, -⟩ := Program.exists_stepBy hrestrict
    refine ⟨s, u, s₂, .refl, hstep, ?_⟩
    rw [hnext]
    rintro (h | ⟨h, -⟩ | h)
    · exact hrests h
    · exact hspins h
    · exact hmoves h

/-- A step that waits leaves the memory as it is. -/
theorem Waits.still (hpermits : closing l a = true) (h : advance cfg t a m l = some (m', l'))
    (hwaits : Waits l l') : Still m m' := by
  rcases hwaits with hl | ⟨hl, -⟩ | ⟨hl, heq⟩
  · exact (rests_advance hpermits h hl).2
  · cases l with
    | query left right pc =>
        cases pc with
        | pauseLoad => cases h; exact ⟨rfl, rfl, rfl, rfl⟩
        | epochLoad => cases h; exact ⟨rfl, rfl, rfl, rfl⟩
        | _ => exact hl.elim
    | _ => exact hl.elim
  · cases l with
    | query left right pc =>
        cases pc with
        | inside lockStart lockEnd pc =>
            cases pc with
            | durationCas current =>
                cases a with
                | elapsed delta spurious =>
                    simp only [advance, queryStep, insideStep] at h
                    split at h
                    · cases h; cases heq
                    · cases h; exact ⟨rfl, rfl, rfl, rfl⟩
                | _ => contradiction
            | _ => exact hl.elim
        | _ => exact hl.elim
    | _ => exact hl.elim

/-- An exchange that does not fail spuriously makes progress. -/
theorem not_waits_of_exchange {delta : ℕ} (hl : l.Exchanges)
    (h : advance cfg t (.elapsed delta false) m l = some (m', l')) : l' ≠ l := by
  cases l with
  | query left right pc =>
      cases pc with
      | inside lockStart lockEnd pc =>
          cases pc with
          | durationCas current =>
              simp only [advance, queryStep, insideStep, and_true] at h
              split at h
              · cases h; exact fun heq => by cases heq
              · next hne =>
                  cases h
                  intro heq
                  cases heq
                  exact hne rfl
          | _ => exact hl.elim
      | _ => exact hl.elim
  | _ => exact hl.elim

/-! ## what it says -/

/-- With all threads at rest the lock is as a new one, but for its partition and its statistics. -/
theorem at_rest (hs : (machine cfg Client).Reachable s) (hrests : ∀ t, (s.loc t).Rests) :
    (∀ x, s.mem.owner x = none) ∧ s.mem.rebuildFlag = false ∧ s.mem.pauseQueries = false ∧
      s.mem.partitionEpoch % 2 = 0 := by
  have hrebuild := not_inRebuild_of_spins fun t hnot => absurd (hrests t) hnot
  refine ⟨fun x => ?_, ?_, unpaused_of_reachable hs hrebuild, even_of_reachable hs hrebuild⟩
  · by_contra hheld
    obtain ⟨t, ht⟩ := Option.ne_none_iff_exists'.mp hheld
    exact (hrests t).not_holds x ((owned_of_reachable hs x t).mp ht)
  · obtain ⟨own, hflag, howned⟩ := flag_owned hs
    cases own with
    | none => exact hflag
    | some t =>
        have hin : (s.loc t).InFlag := (howned t).mp rfl
        refine absurd ?_ (hrebuild t)
        cases hloc : s.loc t with
        | rebuild => trivial
        | _ => rw [hloc] at hin; exact hin

/-- **Every call can return**: whatever the threads have done so far, without new calls and rounds
they can all come to rest, with every mutex free, no rebuild announced and no query paused.  In
`StartRebuilder` and `StopRebuilder` a thread counts as at rest. -/
theorem calls_return (hs : (machine cfg Client).Reachable s) :
    ∃ s', Relation.ReflTransGen ((machine cfg Client).restrict closing).Step s s' ∧
      (∀ t, (s'.loc t).Rests) ∧ (∀ x, s'.mem.owner x = none) ∧ s'.mem.rebuildFlag = false ∧
        s'.mem.pauseQueries = false ∧ s'.mem.partitionEpoch % 2 = 0 := by
  obtain ⟨s', hpath, hreach, hrests⟩ := (ranking cfg Client).drains (fun _ => exists_progress) hs
  exact ⟨s', hpath, hrests, at_rest hreach hrests⟩

/-- In the middle of a publication. -/
theorem calls_return_three_blocks :
    ∃ s', Relation.ReflTransGen ((machine threeBlocks Unit).restrict closing).Step
        (rebuildRun.states 53) s' ∧
      (∀ t, (s'.loc t).Rests) ∧ (∀ x, s'.mem.owner x = none) ∧ s'.mem.rebuildFlag = false ∧
        s'.mem.pauseQueries = false ∧ s'.mem.partitionEpoch % 2 = 0 :=
  calls_return (rebuildRun.reachable (by decide))

end Steps

end DynamicLock
end DynLocks
