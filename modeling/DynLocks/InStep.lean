import DynLocks.Dynamic.Table
import DynLocks.Genetic.Count
import Mathlib.Tactic.IntervalCases

/-!
# DynLocks.InStep

The copies of the partition in `GeneticLock` and `DynamicLock` agree whenever
the mutex that guards their writers is free (`tables_inStep`), and
`CountLocksForRange` never returns a mix of two partitions
(`countLocksForRange_installed`).
-/

namespace DynLocks

open Interleaving CutVector

/-! ## table, cut vector and partitioner -/

/-- **The copies stay in step.**  Whenever `training_mutex_` of a `GeneticLock` is free, the epoch
is even and twice the number of trainings, the cut vector is the partitioner's, the table is its
linear search, and a `CountLocksForRange` that runs alone returns what the partitioner counts.
Whenever `partitions_mutex_` of a `DynamicLock` is free, the epoch is even and the table names the
one lock whose segment owns the block. -/
theorem tables_inStep :
    (∀ (cfg : GeneticLock.Config) {G : Type} (std : GeneticPartitioner.StdLib G) (seed : G)
        {Client : Type} [DecidableEq Client]
        {s : State (Tid Client) (GeneticLock.Mem Client G) GeneticLock.Loc},
      (GeneticLock.machine cfg std seed Client).Reachable s → s.mem.trainingMutex = none →
        s.mem.partitionEpoch % 2 = 0 ∧ s.mem.partitionEpoch = 2 * s.mem.trainingCount ∧
        s.mem.currentCuts = s.mem.partitioner.current.cuts ∧
        (∀ b < cfg.kBlocks, s.mem.blockToLock b = cfg.findLockForBlock s.mem.currentCuts b) ∧
        ∀ c, s.loc (.client c) = .idle → ∀ left right, ∃ steps s',
          (GeneticLock.machine cfg std seed Client).exec
            ((.client c, .call (.countLocksForRange left right)) ::
              List.replicate steps (.client c, .step)) s = some s' ∧
          s'.loc (.client c) =
            .counted (cfg.countLocksForRange s.mem.partitioner.current left right)) ∧
      ∀ (cfg : DynamicLock.Config) {Client : Type} [DecidableEq Client]
        {s : State (Tid Client) (DynamicLock.Mem Client) DynamicLock.Loc},
      (DynamicLock.machine cfg Client).Reachable s → s.mem.partitionsMutex = none →
        s.mem.partitionEpoch % 2 = 0 ∧ ∀ b < cfg.kBlocks,
          s.mem.blockToLock b < cfg.kLockCnt ∧ Owns s.mem.partitions (s.mem.blockToLock b) b ∧
          ∀ i < cfg.kLockCnt, Owns s.mem.partitions i b → i = s.mem.blockToLock b := by
  constructor
  · intro cfg G std seed Client _ s hs hfree
    have hsettled := (GeneticLock.inStep_of_reachable hs).settled hfree
    have hepoch : s.mem.partitionEpoch = 2 * s.mem.trainingCount := hsettled.epoch
    exact ⟨by omega, hepoch, hsettled.cuts,
      fun b hb => GeneticLock.findLockForBlock_of_free hs hfree hb,
      fun c hidle left right => GeneticLock.exec_countLocksForRange hs hfree hidle left right⟩
  · intro cfg Client _ s hs hfree
    have hinstalled := DynamicLock.installed_of_free hs hfree
    have hcovers := (DynamicLock.partition_of_reachable hs).covers
    refine ⟨hinstalled.epoch, fun b hb => ?_⟩
    have hlt := lockOfBlock_lt cfg.kLockCnt_pos s.mem.partitions b
    have howns := owns_lockOfBlock hcovers cfg.kLockCnt_pos hb
    rw [hinstalled.table b hb]
    exact ⟨hlt, howns, fun i hi hi' => hcovers.ascending.owns_unique hi hlt hi' howns⟩

theorem isSome_observing :
    ((GeneticLock.machine GeneticLock.smallLock GeneticPartitioner.lowestDraws () Unit).exec
      (GeneticLock.observing () GeneticLock.rightBatch)
      (GeneticLock.machine GeneticLock.smallLock GeneticPartitioner.lowestDraws () Unit).initial
      ).isSome := by
  decide +kernel

/-- After a training that moves the cut the table follows it, and so does a new `DynamicLock`. -/
theorem tables_inStep_trained :
    let s := ((GeneticLock.machine GeneticLock.smallLock GeneticPartitioner.lowestDraws () Unit).exec
      (GeneticLock.observing () GeneticLock.rightBatch)
      (GeneticLock.machine GeneticLock.smallLock GeneticPartitioner.lowestDraws () Unit).initial
      ).get isSome_observing
    let d := (DynamicLock.machine DynamicLock.twoBlocks Unit).initial
    (s.mem.partitionEpoch = 2 * s.mem.trainingCount ∧ s.mem.partitionEpoch = 2 ∧
        s.mem.blockToLock 1 = GeneticLock.smallLock.findLockForBlock [0, 2, 3] 1) ∧
      Owns d.mem.partitions (d.mem.blockToLock 1) 1 := by
  intro s d
  have hs : (GeneticLock.machine GeneticLock.smallLock GeneticPartitioner.lowestDraws () Unit).Reachable
      s := Program.reachable_exec .init (Option.some_get isSome_observing).symm
  have hfree : s.mem.trainingMutex = none := by decide +kernel
  have hcuts : s.mem.currentCuts = [0, 2, 3] := by decide +kernel
  obtain ⟨hgenetic, hdynamic⟩ := tables_inStep
  obtain ⟨-, hepoch, -, htable, -⟩ :=
    hgenetic GeneticLock.smallLock GeneticPartitioner.lowestDraws () hs hfree
  refine ⟨⟨hepoch, by decide +kernel, ?_⟩, ?_⟩
  · rw [← hcuts]
    exact htable 1 (by decide)
  · have hd : (DynamicLock.machine DynamicLock.twoBlocks Unit).Reachable d := .init
    exact ((hdynamic DynamicLock.twoBlocks hd rfl).2 1 (by decide)).2.1

/-! ## counting locks during a rewrite -/

section Calls

variable {Client : Type} [DecidableEq Client]

/-- Thread `t` of a `GeneticLock` calls `CountLocksForRange(left, right)` in step `a` of the run and
has come to return `locks` in state `b`. -/
def GeneticLock.CountCall {cfg : GeneticLock.Config} {G : Type} {std : GeneticPartitioner.StdLib G}
    {seed : G} (r : Program.Run (GeneticLock.machine cfg std seed Client)) (t : Tid Client)
    (left right a b locks : ℕ) : Prop :=
  r.Call t a b .idle (fun m => GeneticLock.enter cfg m (.countLocksForRange left right))
    (fun l => ∃ pc, l = .count (clampRange cfg.arraySize left right).1
      (clampRange cfg.arraySize left right).2 pc) (.counted locks)

/-- The same for a `DynamicLock`. -/
def DynamicLock.CountCall {cfg : DynamicLock.Config}
    (r : Program.Run (DynamicLock.machine cfg Client)) (t : Tid Client)
    (left right a b locks : ℕ) : Prop :=
  r.Call t a b .idle (fun m => DynamicLock.enter cfg m (.countLocksForRange left right))
    (fun l => ∃ pc, l = .count (clampRange cfg.arraySize left right).1
      (clampRange cfg.arraySize left right).2 pc) (.counted locks)

/-- The cells that a thread about to return from `CountLocksForRange` has read. -/
def GeneticLock.Loc.cellsRead : GeneticLock.Loc → Option (ℕ × ℕ)
  | .count _ _ (.epochCheck _ firstLock lastLock) => some (firstLock, lastLock)
  | _ => none

/-- The same for a `DynamicLock`. -/
def DynamicLock.Loc.cellsRead : DynamicLock.Loc → Option (ℕ × ℕ)
  | .count _ _ (.unlockPartitions lockStart lockEnd) => some (lockStart, lockEnd)
  | _ => none

/-- A call of a `GeneticLock` returns from an installed partition. -/
theorem GeneticLock.CountCall.installed {cfg : GeneticLock.Config} {G : Type}
    {std : GeneticPartitioner.StdLib G} {seed : G}
    {r : Program.Run (GeneticLock.machine cfg std seed Client)} {t : Tid Client}
    {left right a b locks : ℕ} (h : GeneticLock.CountCall r t left right a b locks)
    (hsize : 1 ≤ cfg.arraySize) :
    let lo := cfg.positionToBlock (clampRange cfg.arraySize left right).1
    let hi := cfg.positionToBlock (clampRange cfg.arraySize left right).2
    ∃ n cuts, a < n ∧ n + 1 = b ∧ GeneticLock.Installed cfg (r.states n).mem cuts ∧ lo ≤ hi ∧
      ((r.states n).loc t).cellsRead =
        some (lockOfBlock cfg.kLockCnt cuts lo, lockOfBlock cfg.kLockCnt cuts hi) ∧
      locks = lockSpan (lockOfBlock cfg.kLockCnt cuts lo) (lockOfBlock cfg.kLockCnt cuts hi) := by
  intro lo hi
  obtain ⟨n, hn, hb, ⟨pc, hloc⟩, hstep⟩ := h.exit (by simp) (fun m m' henter => by
    rw [GeneticLock.enter, if_neg (by omega)] at henter
    cases henter)
  obtain ⟨⟨act, hact⟩, -⟩ := hstep.elim
  have hreach := r.reachable (n := n) (by have := h.length; omega)
  rw [hb, h.returns, hloc] at hact
  have hadvance : GeneticLock.advance cfg std t act (r.states n).mem (.count _ _ pc) =
      some ((r.states b).mem, .counted locks) := hact
  obtain ⟨hle, hinstalled, hpc, hlocks⟩ := GeneticLock.counted_step hreach hloc hadvance
  refine ⟨n, _, hn, hb, hinstalled, cfg.positionToBlock_mono hle, ?_, hlocks⟩
  rw [hloc, hpc]
  rfl

/-- A call of a `DynamicLock` returns from an installed partition. -/
theorem DynamicLock.CountCall.installed {cfg : DynamicLock.Config}
    {r : Program.Run (DynamicLock.machine cfg Client)} {t : Tid Client}
    {left right a b locks : ℕ} (h : DynamicLock.CountCall r t left right a b locks)
    (hsize : 1 ≤ cfg.arraySize) :
    let lo := cfg.positionToBlock (clampRange cfg.arraySize left right).1
    let hi := cfg.positionToBlock (clampRange cfg.arraySize left right).2
    ∃ n cuts, a < n ∧ n + 1 = b ∧ DynamicLock.Installed cfg (r.states n).mem cuts ∧ lo ≤ hi ∧
      ((r.states n).loc t).cellsRead =
        some (lockOfBlock cfg.kLockCnt cuts lo, lockOfBlock cfg.kLockCnt cuts hi) ∧
      locks = lockSpan (lockOfBlock cfg.kLockCnt cuts lo) (lockOfBlock cfg.kLockCnt cuts hi) := by
  intro lo hi
  obtain ⟨n, hn, hb, ⟨pc, hloc⟩, hstep⟩ := h.exit (by simp) (fun m m' henter => by
    rw [DynamicLock.enter, if_neg (by omega)] at henter
    cases henter)
  obtain ⟨⟨act, hact⟩, -⟩ := hstep.elim
  have hreach := r.reachable (n := n) (by have := h.length; omega)
  rw [hb, h.returns, hloc] at hact
  have hadvance : DynamicLock.advance cfg t act (r.states n).mem (.count _ _ pc) =
      some ((r.states b).mem, .counted locks) := hact
  obtain ⟨hle, hinstalled, hpc, hlocks⟩ := DynamicLock.counted_step hreach hloc hadvance
  refine ⟨n, _, hn, hb, hinstalled, cfg.positionToBlock_mono hle, ?_, hlocks⟩
  rw [hloc, hpc]
  rfl

end Calls

/-- **No mix of two partitions**: `CountLocksForRange` on a nonempty array returns a number from one
to `kLockCnt`; at an instant of the call some partition is fully installed, the two cells the call
has read are its cells, in order, so that their difference does not wrap; and the number is that
of the locks whose segments the blocks of the clamped range meet, if there are at most as many
locks as blocks. -/
theorem countLocksForRange_installed :
    (∀ (cfg : GeneticLock.Config) {G : Type} (std : GeneticPartitioner.StdLib G) (seed : G)
        {Client : Type} [DecidableEq Client]
        (r : Program.Run (GeneticLock.machine cfg std seed Client)) (t : Tid Client)
        (left right a b locks : ℕ), 1 ≤ cfg.arraySize →
      GeneticLock.CountCall r t left right a b locks →
        1 ≤ locks ∧ locks ≤ cfg.kLockCnt ∧
        ∃ n cuts firstLock lastLock, a < n ∧ n < b ∧ GeneticLock.Installed cfg (r.states n).mem cuts ∧
          ((r.states (b - 1)).loc t).cellsRead = some (firstLock, lastLock) ∧
          firstLock = (r.states n).mem.blockToLock
            (cfg.positionToBlock (clampRange cfg.arraySize left right).1) ∧
          lastLock = (r.states n).mem.blockToLock
            (cfg.positionToBlock (clampRange cfg.arraySize left right).2) ∧
          firstLock ≤ lastLock ∧ locks = lastLock - firstLock + 1 ∧
          (cfg.kLockCnt ≤ cfg.kBlocks → cfg.UniformFits → locks = (segmentsMeeting cfg.kLockCnt cuts
            (cfg.positionToBlock (clampRange cfg.arraySize left right).1)
            (cfg.positionToBlock (clampRange cfg.arraySize left right).2)).card)) ∧
      ∀ (cfg : DynamicLock.Config) {Client : Type} [DecidableEq Client]
        (r : Program.Run (DynamicLock.machine cfg Client)) (t : Tid Client)
        (left right a b locks : ℕ), 1 ≤ cfg.arraySize →
      DynamicLock.CountCall r t left right a b locks →
        1 ≤ locks ∧ locks ≤ cfg.kLockCnt ∧
        ∃ n cuts lockStart lockEnd, a < n ∧ n < b ∧ DynamicLock.Installed cfg (r.states n).mem cuts ∧
          ((r.states (b - 1)).loc t).cellsRead = some (lockStart, lockEnd) ∧
          lockStart = (r.states n).mem.blockToLock
            (cfg.positionToBlock (clampRange cfg.arraySize left right).1) ∧
          lockEnd = (r.states n).mem.blockToLock
            (cfg.positionToBlock (clampRange cfg.arraySize left right).2) ∧
          lockStart ≤ lockEnd ∧ locks = lockEnd - lockStart + 1 ∧
          (cfg.kLockCnt ≤ cfg.kBlocks → locks = (segmentsMeeting cfg.kLockCnt cuts
            (cfg.positionToBlock (clampRange cfg.arraySize left right).1)
            (cfg.positionToBlock (clampRange cfg.arraySize left right).2)).card) := by
  constructor
  · intro cfg G std seed Client _ r t left right a b locks hsize hcall
    obtain ⟨n, cuts, hn, hb, hinstalled, hle, hcells, hlocks⟩ := hcall.installed hsize
    have hlt : cfg.kLockCnt < 2 ^ 64 := by
      have := cfg.kLockCnt_lt
      have : GeneticPartitioner.vectorLimit ≤ 2 ^ 64 := by decide
      omega
    obtain ⟨hspan, hone, hall⟩ := lockSpan_lockOfBlock cfg.kLockCnt_pos hlt cuts hle
    rw [← hlocks] at hspan hone hall
    have htable : ∀ b < cfg.kBlocks, lockOfBlock cfg.kLockCnt cuts b =
        (r.states n).mem.blockToLock b := by
      intro b hb
      rw [← hinstalled.currentCuts]
      exact (hinstalled.table b hb).symm
    refine ⟨hone, hall, n, cuts, _, _, hn, by omega, hinstalled, ?_,
      htable _ (cfg.positionToBlock_lt _), htable _ (cfg.positionToBlock_lt _),
      lockOfBlock_mono _ _ hle, hspan, fun hblocks hfits => ?_⟩
    · rw [← hb]
      exact hcells
    · have hreach := r.reachable (n := n) (by have := hcall.length; omega)
      have hvalid : cfg.Valid cuts := by
        rw [← hinstalled.currentCuts]
        exact GeneticLock.valid_currentCuts hblocks hfits hreach
      rw [hlocks]
      exact lockSpan_eq_card cfg.kLockCnt_pos hlt hvalid.covers hvalid.packed hle
        (cfg.positionToBlock_lt _)
  · intro cfg Client _ r t left right a b locks hsize hcall
    obtain ⟨n, cuts, hn, hb, hinstalled, hle, hcells, hlocks⟩ := hcall.installed hsize
    obtain ⟨hspan, hone, hall⟩ := lockSpan_lockOfBlock cfg.kLockCnt_pos cfg.kLockCnt_lt cuts hle
    rw [← hlocks] at hspan hone hall
    have htable : ∀ b < cfg.kBlocks, lockOfBlock cfg.kLockCnt cuts b =
        (r.states n).mem.blockToLock b := by
      intro b hb
      rw [← hinstalled.partitions]
      exact (hinstalled.table b hb).symm
    refine ⟨hone, hall, n, cuts, _, _, hn, by omega, hinstalled, ?_,
      htable _ (cfg.positionToBlock_lt _), htable _ (cfg.positionToBlock_lt _),
      lockOfBlock_mono _ _ hle, hspan, fun hblocks => ?_⟩
    · rw [← hb]
      exact hcells
    · have hreach := r.reachable (n := n) (by have := hcall.length; omega)
      have hpartition : cfg.Partition cuts := by
        rw [← hinstalled.partitions]
        exact DynamicLock.partition_of_reachable hreach
      rw [hlocks]
      exact lockSpan_eq_card cfg.kLockCnt_pos cfg.kLockCnt_lt hpartition.covers
        (hpartition.packed hblocks) hle (cfg.positionToBlock_lt _)

/-- Is this thread counting the locks of the last two of three blocks? -/
def GeneticLock.Loc.countsLast : GeneticLock.Loc → Bool
  | .count 1 2 _ => true
  | _ => false

theorem GeneticLock.Loc.eq_of_countsLast {l : GeneticLock.Loc} (h : l.countsLast) :
    ∃ pc, l = .count 1 2 pc := by
  unfold countsLast at h
  split at h
  · exact ⟨_, rfl⟩
  · contradiction

/-- Has this thread counted two locks? -/
def GeneticLock.Loc.countedTwo : GeneticLock.Loc → Bool
  | .counted 2 => true
  | _ => false

theorem GeneticLock.Loc.eq_of_countedTwo {l : GeneticLock.Loc} (h : l.countedTwo) :
    l = .counted 2 := by
  unfold countedTwo at h
  split at h
  · rfl
  · contradiction

/-- A client counts the locks of the last two blocks. It has read the first cell when another client
trains, which moves the cut between the two blocks. -/
def GeneticLock.recounting : List (Tid Bool × GeneticLock.Act) :=
  (.client true, .call (.countLocksForRange 1 2)) :: List.replicate 2 (.client true, .step) ++
    GeneticLock.observing false GeneticLock.rightBatch ++ List.replicate 6 (.client true, .step)

theorem isSome_exec_recounting :
    ((GeneticLock.machine GeneticLock.smallLock GeneticPartitioner.lowestDraws () Bool).exec
      GeneticLock.recounting
      (GeneticLock.machine GeneticLock.smallLock GeneticPartitioner.lowestDraws () Bool).initial
      ).isSome := by
  decide +kernel

def GeneticLock.recountRun :
    Program.Run (GeneticLock.machine GeneticLock.smallLock GeneticPartitioner.lowestDraws () Bool) :=
  .ofSchedule _ GeneticLock.recounting .background isSome_exec_recounting

/-- The call lasts from step 0 to state 29. -/
theorem counts_recountRun :
    (∀ n < 29, 0 < n → ((GeneticLock.recountRun.states n).loc (.client true)).countsLast) ∧
      ((GeneticLock.recountRun.states 29).loc (.client true)).countedTwo := by
  decide +kernel

/-- It returns two locks. -/
theorem countCall_recountRun : GeneticLock.CountCall GeneticLock.recountRun (.client true) 1 2 0 29 2
    where
  before := by decide
  length := by decide
  starts := rfl
  enters := rfl
  inside n hn hlt := GeneticLock.Loc.eq_of_countsLast (counts_recountRun.1 n hlt hn)
  returns := GeneticLock.Loc.eq_of_countedTwo counts_recountRun.2

/-- The same for a `DynamicLock`. -/
def DynamicLock.Loc.countsLast : DynamicLock.Loc → Bool
  | .count 1 2 _ => true
  | _ => false

theorem DynamicLock.Loc.eq_of_countsLast {l : DynamicLock.Loc} (h : l.countsLast) :
    ∃ pc, l = .count 1 2 pc := by
  unfold countsLast at h
  split at h
  · exact ⟨_, rfl⟩
  · contradiction

def DynamicLock.Loc.countedTwo : DynamicLock.Loc → Bool
  | .counted 2 => true
  | _ => false

theorem DynamicLock.Loc.eq_of_countedTwo {l : DynamicLock.Loc} (h : l.countedTwo) :
    l = .counted 2 := by
  unfold countedTwo at h
  split at h
  · rfl
  · contradiction

/-- A client has begun to count the locks of the last two blocks when another one queries them and
rebuilds, which moves the cut between them. -/
def DynamicLock.recounting : List (Tid Bool × DynamicLock.Act) :=
  (.client true, .call (.countLocksForRange 1 2)) :: DynamicLock.fillStats false ++
    (.client false, .call .rebuildNow) :: List.replicate 39 (.client false, .step) ++
    List.replicate 4 (.client true, .step)

theorem DynamicLock.isSome_exec_recounting :
    ((DynamicLock.machine DynamicLock.threeBlocks Bool).exec DynamicLock.recounting
      (DynamicLock.machine DynamicLock.threeBlocks Bool).initial).isSome := by
  decide +kernel

def DynamicLock.recountRun : Program.Run (DynamicLock.machine DynamicLock.threeBlocks Bool) :=
  .ofSchedule _ DynamicLock.recounting .background DynamicLock.isSome_exec_recounting

/-- The call lasts from step 0 to state 78. -/
theorem DynamicLock.counts_recountRun :
    (∀ n < 78, 0 < n → ((DynamicLock.recountRun.states n).loc (.client true)).countsLast) ∧
      ((DynamicLock.recountRun.states 78).loc (.client true)).countedTwo := by
  decide +kernel

/-- It returns two locks. -/
theorem DynamicLock.countCall_recountRun :
    DynamicLock.CountCall DynamicLock.recountRun (.client true) 1 2 0 78 2 where
  before := by decide
  length := by decide
  starts := rfl
  enters := rfl
  inside n hn hlt := DynamicLock.Loc.eq_of_countsLast (DynamicLock.counts_recountRun.1 n hlt hn)
  returns := DynamicLock.Loc.eq_of_countedTwo DynamicLock.counts_recountRun.2

/-- The two blocks have one lock before the cut moves and two after it. -/
theorem countLocksForRange_installed_two_locks :
    (∃ n cuts, 0 < n ∧ n < 29 ∧
        GeneticLock.Installed GeneticLock.smallLock (GeneticLock.recountRun.states n).mem cuts ∧
        2 = (segmentsMeeting 2 cuts 1 2).card) ∧
      ∃ n cuts, 0 < n ∧ n < 78 ∧
        DynamicLock.Installed DynamicLock.threeBlocks (DynamicLock.recountRun.states n).mem cuts ∧
        2 = (segmentsMeeting 2 cuts 1 2).card := by
  constructor
  · obtain ⟨-, -, n, cuts, -, -, hn, hlt, hinstalled, -, -, -, -, -, hcard⟩ :=
      countLocksForRange_installed.1 _ _ _ _ _ _ _ _ _ _ (by decide) countCall_recountRun
    exact ⟨n, cuts, hn, hlt, hinstalled, hcard (by decide) (by decide)⟩
  · obtain ⟨-, -, n, cuts, -, -, hn, hlt, hinstalled, -, -, -, -, -, hcard⟩ :=
      countLocksForRange_installed.2 _ _ _ _ _ _ _ _ (by decide) DynamicLock.countCall_recountRun
    exact ⟨n, cuts, hn, hlt, hinstalled, hcard (by decide)⟩

/-- A client calls `CountLocksForRange(left, right)` and goes on until it returns. -/
def GeneticLock.counting (left right : ℕ) : List (Tid Unit × GeneticLock.Act) :=
  (.client (), .call (.countLocksForRange left right)) :: List.replicate 4 (.client (), .step)

theorem four_lt_limit : 4 + 1 < GeneticPartitioner.vectorLimit := by decide

theorem two_lt_size : 2 < 2 ^ 64 := by decide

/-- Four locks over two blocks: every other segment is empty. -/
def GeneticLock.emptySegments : GeneticLock.Config where
  kLockCnt := 4
  kBlocks := 2
  arraySize := 2
  kLockCnt_pos := Nat.succ_pos 3
  kLockCnt_lt := four_lt_limit
  kBlocks_pos := Nat.two_pos
  kBlocks_lt := two_lt_size

theorem isSome_exec_emptySegments :
    ((GeneticLock.machine GeneticLock.emptySegments GeneticPartitioner.lowestDraws () Unit).exec
      (GeneticLock.counting 0 1) (GeneticLock.machine GeneticLock.emptySegments
        GeneticPartitioner.lowestDraws () Unit).initial).isSome := by
  decide

/-- The call returns three locks. -/
theorem countCall_emptySegments :
    GeneticLock.CountCall
      (.ofSchedule _ (GeneticLock.counting 0 1) (.client ()) isSome_exec_emptySegments)
      (.client ()) 0 1 0 5 3 where
  before := by decide
  length := by decide
  starts := rfl
  enters := rfl
  inside n hn hn5 := by
    interval_cases n <;> exact ⟨_, rfl⟩
  returns := rfl

/-- The call counts the empty segment of lock 2 between those of the locks 1 and 3, so what it
returns is the number of locks of no partition of the run. -/
theorem countLocksForRange_emptySegments :
    ¬ ∀ (r : Program.Run (GeneticLock.machine GeneticLock.emptySegments
        GeneticPartitioner.lowestDraws () Unit)) (t : Tid Unit) (left right a b locks : ℕ),
      GeneticLock.CountCall r t left right a b locks →
        ∃ n cuts, a ≤ n ∧ n ≤ b ∧
          GeneticLock.Installed GeneticLock.emptySegments (r.states n).mem cuts ∧
          locks = (segmentsMeeting GeneticLock.emptySegments.kLockCnt cuts
            (GeneticLock.emptySegments.positionToBlock
              (clampRange GeneticLock.emptySegments.arraySize left right).1)
            (GeneticLock.emptySegments.positionToBlock
              (clampRange GeneticLock.emptySegments.arraySize left right).2)).card := by
  intro h
  obtain ⟨n, cuts, -, hn, hinstalled, hlocks⟩ := h _ _ _ _ _ _ _ countCall_emptySegments
  have hcuts : cuts = [0, 0, 1, 1, 2] := by
    rw [← hinstalled.currentCuts]
    interval_cases n <;> rfl
  rw [hcuts] at hlocks
  exact absurd hlocks (by decide)

end DynLocks
