import DynLocks.Benchmark.RunWorkload
import DynLocks.Dynamic.Workload
import DynLocks.Genetic.RangeLock
import DynLocks.Naive.RangeLock

/-!
# DynLocks.Benchmark.NoLostUpdate

`RunPhase` over the three locks: no update is lost or made twice, while the
background thread of the lock moves the partition (`runPhase_noLostUpdate`), and
so phase after phase (`updated_of_phases`).
-/

namespace DynLocks

open Interleaving Benchmark

/-! ## the three locks -/

/-- A `NaiveLock` as `RunPhase` uses it. -/
def NaiveLock.phaseLock (cfg : NaiveLock.Config) (Client : Type) [DecidableEq Client] :
    PhaseLock Client NaiveLock.Act (NaiveLock.Mem Client) NaiveLock.Loc where
  toRangeLock := rangeLock cfg Client
  serves _ := false
  holder m pos := m.locks (cfg.lockOf pos)

/-- Only the background thread is the lock's own. -/
def Tid.serves {Client : Type} : Tid Client → Bool
  | .background => true
  | .client _ => false

/-- A `DynamicLock` as `RunPhase` uses it. -/
def DynamicLock.phaseLock (cfg : DynamicLock.Config) (Client : Type) [DecidableEq Client] :
    PhaseLock (Tid Client) DynamicLock.Act (DynamicLock.Mem Client) DynamicLock.Loc where
  toRangeLock := rangeLock cfg Client
  serves := Tid.serves
  holder m pos := m.locks (m.blockToLock (cfg.positionToBlock pos))

/-- A `GeneticLock` as `RunPhase` uses it. -/
def GeneticLock.phaseLock {G : Type} (cfg : GeneticLock.Config) (std : GeneticPartitioner.StdLib G)
    (seed : G) (Client : Type) [DecidableEq Client] :
    PhaseLock (Tid Client) GeneticLock.Act (GeneticLock.Mem Client G) GeneticLock.Loc where
  toRangeLock := rangeLock cfg std seed Client
  serves := Tid.serves
  holder m pos := m.locks (m.blockToLock (cfg.positionToBlock pos))

theorem kArraySize_ne_zero : kArraySize ≠ 0 := by decide

section Locks

variable {Client G : Type} [DecidableEq Client]

/-- A `NaiveLock` for the benchmark's array is what a phase needs. -/
theorem NaiveLock.phaseLock_sound {cfg : NaiveLock.Config} (hsize : cfg.arraySize = kArraySize) :
    (phaseLock cfg Client).Sound Loc.asks where
  toSound := hsize ▸ rangeLock_sound (hsize ▸ kArraySize_ne_zero)
  idle {l} hidle := by
    cases l with
    | idle => rfl
    | _ => contradiction
  rest := asks_eq_none_of_advance
  leave {t a m l m' l' r} h hfunc := by
    have hloc := Loc.inFunc_eq_some hfunc
    subst hloc
    cases h
    rfl
  holds hs ht hlo hhi := holds_of_inFunc hs ht hlo hhi

/-- So is a `DynamicLock`. -/
theorem DynamicLock.phaseLock_sound {cfg : DynamicLock.Config}
    (hsize : cfg.arraySize = kArraySize) : (phaseLock cfg Client).Sound Loc.asks where
  toSound := hsize ▸ rangeLock_sound (hsize ▸ kArraySize_ne_zero)
  idle hidle := by
    rw [Loc.eq_idle hidle]
    rfl
  rest := asks_eq_none_of_advance
  leave {t a m l m' l' r} h hfunc := by
    obtain ⟨lockStart, lockEnd, rfl⟩ := Loc.inFunc_eq_some hfunc
    cases h
    rfl
  holds hs ht hlo hhi := holds_of_inFunc hs ht hlo hhi

/-- So is a `GeneticLock`. -/
theorem GeneticLock.phaseLock_sound {cfg : GeneticLock.Config}
    {std : GeneticPartitioner.StdLib G} {seed : G} (hsize : cfg.arraySize = kArraySize) :
    (phaseLock cfg std seed Client).Sound Loc.asks where
  toSound := hsize ▸ rangeLock_sound (hsize ▸ kArraySize_ne_zero)
  idle hidle := by
    rw [Loc.eq_idle hidle]
    rfl
  rest h := asks_eq_none_of_advance (Program.advance_of_restrict h).2
  leave {t a m l m' l' r} h hfunc := by
    obtain ⟨firstLock, lastLock, rfl⟩ := Loc.inFunc_eq_some hfunc
    have hadvance := (Program.advance_of_restrict h).2
    cases hadvance
    rfl
  holds hs ht hlo hhi := holds_of_served hs ht hlo hhi

end Locks

/-! ## no update is lost -/

/-- **End to end**: in every run of `RunPhase(kRealWork)` over a `NaiveLock`, a `DynamicLock` or a
`GeneticLock` of the benchmark, with any number of workers whose slices do not wrap and from any
state that the use of the lock before has led to, no update is lost or made twice. -/
theorem runPhase_noLostUpdate {spec : QueryStreamSpec} (hwindows : spec.WindowsInArray)
    (data : ℕ → ℤ) :
    (∀ (cfg : NaiveLock.Config) {Client : Type} [DecidableEq Client] (workers : Workers Client)
        (s₀ : State Client (NaiveLock.Mem Client) NaiveLock.Loc),
      spec.count * workers.threads.length < 2 ^ 64 → cfg.arraySize = kArraySize →
        Ready (NaiveLock.phaseLock cfg Client) workers.threads s₀ →
        ∀ r : Program.Run (runPhase (NaiveLock.phaseLock cfg Client) spec .kRealWork
          workers.threads s₀ data), NoLostUpdate r) ∧
    (∀ (cfg : DynamicLock.Config) {Client : Type} [DecidableEq Client]
        (workers : Workers (Tid Client))
        (s₀ : State (Tid Client) (DynamicLock.Mem Client) DynamicLock.Loc),
      spec.count * workers.threads.length < 2 ^ 64 → cfg.arraySize = kArraySize →
        Ready (DynamicLock.phaseLock cfg Client) workers.threads s₀ →
        ∀ r : Program.Run (runPhase (DynamicLock.phaseLock cfg Client) spec .kRealWork
          workers.threads s₀ data), NoLostUpdate r) ∧
    (∀ (cfg : GeneticLock.Config) {G : Type} (std : GeneticPartitioner.StdLib G) (seed : G)
        {Client : Type} [DecidableEq Client] (workers : Workers (Tid Client))
        (s₀ : State (Tid Client) (GeneticLock.Mem Client G) GeneticLock.Loc),
      spec.count * workers.threads.length < 2 ^ 64 → cfg.arraySize = kArraySize →
        Ready (GeneticLock.phaseLock cfg std seed Client) workers.threads s₀ →
        ∀ r : Program.Run (runPhase (GeneticLock.phaseLock cfg std seed Client) spec .kRealWork
          workers.threads s₀ data), NoLostUpdate r) := by
  refine ⟨?_, ?_, ?_⟩
  · intro cfg Client _ workers s₀ hfits hsize hready r
    exact noLostUpdate_of_sound (NaiveLock.phaseLock_sound hsize) hwindows hready r hfits
  · intro cfg Client _ workers s₀ hfits hsize hready r
    exact noLostUpdate_of_sound (DynamicLock.phaseLock_sound hsize) hwindows hready r hfits
  · intro cfg G std seed Client _ workers s₀ hfits hsize hready r
    exact noLostUpdate_of_sound (GeneticLock.phaseLock_sound hsize) hwindows hready r hfits

/-- The small locks, for the array of the benchmark. -/
def NaiveLock.twoHalves : NaiveLock.Config where
  kLockCnt := 2
  arraySize := kArraySize
  kLockCnt_pos := Nat.two_pos

def DynamicLock.twoHalves : DynamicLock.Config := { twoBlocks with arraySize := kArraySize }

def GeneticLock.threeThirds : GeneticLock.Config := { smallLock with arraySize := kArraySize }

namespace Benchmark

/-- Two queries, in windows far from each other. -/
def twoWindows : QueryStreamSpec where
  count := 2
  queryLength := 2
  windowBegins := [0, 5, 1000000]
  windowSize := 4
  multiWindow := true

/-- The two windows lie in the array. -/
theorem windowsInArray_twoWindows : twoWindows.WindowsInArray := by
  unfold QueryStreamSpec.WindowsInArray
  decide

/-- The threads that call a lock here. -/
inductive PhaseTid where
  | main
  | first
  | second
  deriving DecidableEq

def twoWorkers {Tid : Type} (t u : Tid) (hne : t ≠ u) : Workers Tid where
  threads := [t, u]
  nodup := by simp [hne]
  nonempty := Nat.two_pos

/-- Worker `t` loads its cell; then worker `u` makes all of its query, before `t` stores. -/
def overlapping {Tid Act : Type} (step elapsed : Act) (t u : Tid) (before after : ℕ) :
    List (Tid × Act) :=
  List.replicate before (t, step) ++ (t, elapsed) :: List.replicate 5 (t, step) ++
    List.replicate before (u, step) ++ (u, elapsed) :: List.replicate after (u, step) ++
    List.replicate (after - 5) (t, step)

/-- The main thread calls `StartRebuilder`. -/
def starting {Act : Type} (call step : Act) : List (Tid PhaseTid × Act) :=
  (.client .main, call) :: List.replicate 4 (.client .main, step)

/-- The locks as the workers find them. -/
abbrev naiveLock := NaiveLock.phaseLock NaiveLock.twoHalves PhaseTid

abbrev dynamicLock := DynamicLock.phaseLock DynamicLock.twoHalves PhaseTid

abbrev geneticLock :=
  GeneticLock.phaseLock GeneticLock.threeThirds GeneticPartitioner.lowestDraws () PhaseTid

theorem isSome_exec_starting :
    (dynamicLock.program.exec (starting (.call (.startRebuilder 0 0)) .step)
        dynamicLock.program.initial).isSome ∧
      (geneticLock.program.exec (starting (.call .startRebuilder) .step)
        geneticLock.program.initial).isSome := by
  decide

def dynamicStarted := (dynamicLock.program.exec (starting (.call (.startRebuilder 0 0)) .step)
  dynamicLock.program.initial).get isSome_exec_starting.1

def geneticStarted := (geneticLock.program.exec (starting (.call .startRebuilder) .step)
  geneticLock.program.initial).get isSome_exec_starting.2

abbrev clients : Workers (Tid PhaseTid) :=
  twoWorkers (.client .first) (.client .second) (by decide)

/-- The phase begins with the rebuilder running. -/
theorem ready_dynamicStarted : Ready dynamicLock clients.threads dynamicStarted where
  reachable := Program.reachable_exec .init (Option.some_get isSome_exec_starting.1).symm
  idle := by decide

/-- The phase begins with the training thread running. -/
theorem ready_geneticStarted : Ready geneticLock clients.threads geneticStarted where
  reachable := Program.reachable_exec .init (Option.some_get isSome_exec_starting.2).symm
  idle := by decide

abbrev naivePhase :=
  runPhase naiveLock twoWindows .kRealWork (twoWorkers PhaseTid.first .second (by decide)).threads
    naiveLock.program.initial fun _ => 0

abbrev dynamicPhase :=
  runPhase dynamicLock twoWindows .kRealWork clients.threads dynamicStarted fun _ => 0

abbrev geneticPhase :=
  runPhase geneticLock twoWindows .kRealWork clients.threads geneticStarted fun _ => 0

theorem isSome_exec_overlapping :
    (naivePhase.exec (overlapping .step (.elapsed 0 false) .first .second 3 10)
        naivePhase.initial).isSome ∧
      (dynamicPhase.exec ((.background, .step) ::
        overlapping .step (.elapsed 0 false) (.client .first) (.client .second) 8 12)
          dynamicPhase.initial).isSome ∧
      (geneticPhase.exec ((.background, .step) ::
        overlapping .step (.elapsed 0 false) (.client .first) (.client .second) 8 13)
          geneticPhase.initial).isSome := by
  decide

def naivePhaseRun : Program.Run naivePhase :=
  .ofSchedule _ (overlapping .step (.elapsed 0 false) .first .second 3 10) .main
    isSome_exec_overlapping.1

def dynamicPhaseRun : Program.Run dynamicPhase :=
  .ofSchedule _ ((.background, .step) ::
    overlapping .step (.elapsed 0 false) (.client .first) (.client .second) 8 12) .background
    isSome_exec_overlapping.2.1

def geneticPhaseRun : Program.Run geneticPhase :=
  .ofSchedule _ ((.background, .step) ::
    overlapping .step (.elapsed 0 false) (.client .first) (.client .second) 8 13) .background
    isSome_exec_overlapping.2.2

instance {Tid Mem Loc : Type} (threads : List Tid)
    (s : State Tid (PhaseMem Mem) (PhaseLoc Loc)) : Decidable (Returned threads s) :=
  inferInstanceAs (Decidable (∀ t ∈ threads, (s.loc t).joined = true))

/-- Over each lock both workers come to the end of their slices. -/
theorem noLostUpdate_two_workers :
    (NoLostUpdate naivePhaseRun ∧ Returned [.first, .second] (naivePhaseRun.states 28)) ∧
      (NoLostUpdate dynamicPhaseRun ∧
        Returned [.client .first, .client .second] (dynamicPhaseRun.states 43)) ∧
      (NoLostUpdate geneticPhaseRun ∧
        Returned [.client .first, .client .second] (geneticPhaseRun.states 45)) := by
  obtain ⟨hnaive, hdynamic, hgenetic⟩ :=
    runPhase_noLostUpdate windowsInArray_twoWindows fun _ => 0
  refine ⟨⟨?_, by decide⟩, ⟨?_, by decide +kernel⟩, ⟨?_, by decide +kernel⟩⟩
  · exact hnaive _ _ _ (by decide) rfl ⟨.init, by decide⟩ naivePhaseRun
  · exact hdynamic _ _ _ (by decide) rfl ready_dynamicStarted dynamicPhaseRun
  · exact hgenetic _ _ _ _ _ (by decide) rfl ready_geneticStarted geneticPhaseRun

end Benchmark
end DynLocks
