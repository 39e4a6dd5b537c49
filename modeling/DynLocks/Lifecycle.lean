import DynLocks.Dynamic.Lifecycle
import DynLocks.Genetic.Lifecycle
import DynLocks.Genetic.Record

/-!
# DynLocks.Lifecycle

The background threads of a `DynamicLock` and of a `GeneticLock` over any calls
of one owner and the destruction of the lock (`lifecycle`).  The destructor of
`DynamicLock` stops the thread; `GeneticLock` has none, so that it is destroyed
with a joinable thread whenever its last such call was `StartRebuilder`
(`destroyed_joinable`).
-/

namespace DynLocks

open Interleaving Lifecycle

/-- **One background thread at most, and when none is left**: whatever sequence of calls the owner
of a lock makes before it destroys it, in every state on the way at most one background thread
exists; none does between the return of `StopRebuilder` and the next `StartRebuilder`; from the
return of `StartRebuilder` to the next `StopRebuilder` exactly one does, created with its stop flag
clear.  A `DynamicLock` is destroyed with its thread joined; a `GeneticLock` is so exactly if the
last of these two calls was not `StartRebuilder`. -/
theorem lifecycle (cfg : DynamicLock.Config) (calls : List DynamicLock.Call)
    (cfg' : GeneticLock.Config) {G : Type} (std : GeneticPartitioner.StdLib G) (seed : G)
    (calls' : List GeneticLock.Call) :
    (∀ {s : State (Tid Unit) (ScriptMem (DynamicLock.Mem Unit) DynamicLock.Call) DynamicLock.Loc},
      (DynamicLock.owned cfg calls).Reachable s →
        (∃ made, calls ++ [.stopRebuilder] = made ++ s.mem.todo ∧
          Sound (lastCall DynamicLock.Call.life made) (DynamicLock.life (Script.object s))) ∧
        (DynamicLock.ownerScript.Over s → s.mem.object.rebuildThread = .none)) ∧
    (∀ {s : State (Tid Unit) (ScriptMem (GeneticLock.Mem Unit G) GeneticLock.Call)
        GeneticLock.Loc},
      (GeneticLock.owned cfg' std seed calls').Reachable s →
        (∃ made, calls' = made ++ s.mem.todo ∧
          Sound (lastCall GeneticLock.Call.life made) (GeneticLock.life (Script.object s))) ∧
        (GeneticLock.ownerScript.Over s →
          (s.mem.object.trainingThread = .none ↔
            lastCall GeneticLock.Call.life calls' ≠ some .start))) := by
  constructor
  · intro s hs
    obtain ⟨made, hcalls, hinv⟩ := DynamicLock.inv_of_reachable hs
    refine ⟨⟨made, hcalls, hinv.sound⟩, fun hover => ?_⟩
    obtain ⟨htodo, hidle⟩ := hover
    rw [htodo, List.append_nil] at hcalls
    have hlast : lastCall DynamicLock.Call.life made = some .stop := by
      rw [← hcalls, lastCall_snoc]
      rfl
    have hout : (DynamicLock.life (Script.object s)).owner = .out := by
      have hloc : s.loc (.client ()) = .idle := DynamicLock.Loc.eq_idle hidle
      simp [DynamicLock.life, Script.object, hloc, DynamicLock.Loc.owner]
    have hnone := (hinv.thread_of_out hout).mpr (by simp [hlast])
    exact DynamicLock.Thread.life_eq_none.mp hnone
  · intro s hs
    obtain ⟨made, hcalls, hinv⟩ := GeneticLock.inv_of_reachable hs
    refine ⟨⟨made, hcalls, hinv.sound⟩, fun hover => ?_⟩
    obtain ⟨htodo, hidle⟩ := hover
    rw [htodo, List.append_nil] at hcalls
    have hout : (GeneticLock.life (Script.object s)).owner = .out := by
      have hloc : s.loc (.client ()) = .idle := GeneticLock.Loc.eq_idle hidle
      simp [GeneticLock.life, Script.object, hloc, GeneticLock.Loc.owner]
    rw [hcalls, ← hinv.thread_of_out hout]
    exact GeneticLock.Thread.life_eq_none.symm

/-- The owner starts the thread, which comes to its loop, and destroys the lock. -/
def startAndDestroy : List (Tid Unit × DynamicLock.Act) :=
  List.replicate 5 (.client (), .step) ++ [(.background, .step), (.client (), .step),
    (.client (), .step), (.background, .step), (.background, .step)] ++
      List.replicate 3 (.client (), .step)

theorem isSome_exec_startAndDestroy :
    ((DynamicLock.owned DynamicLock.twoLocks [.startRebuilder 0 0]).exec startAndDestroy
      (DynamicLock.owned DynamicLock.twoLocks [.startRebuilder 0 0]).initial).isSome :=
  rfl

/-- The owner of a `GeneticLock` starts the thread and has no more calls to make. -/
theorem exists_running {G : Type} (cfg : GeneticLock.Config) (std : GeneticPartitioner.StdLib G)
    (seed : G) : ∃ s, (GeneticLock.owned cfg std seed [.startRebuilder]).Reachable s ∧
      GeneticLock.ownerScript.Over s ∧ s.mem.object.trainingThread = .running := by
  let P := GeneticLock.owned cfg std seed [.startRebuilder]
  let schedule : List (Tid Unit × GeneticLock.Act) :=
    List.replicate 5 (.client (), .step) ++ [(.background, .step)]
  have hsome : (P.exec schedule P.initial).isSome := rfl
  exact ⟨_, Program.reachable_exec .init (Option.some_get hsome).symm, ⟨rfl, rfl⟩, rfl⟩

/-- The destructor of a `DynamicLock` has joined the thread; a `GeneticLock` that is destroyed after
the same call has one. -/
theorem lifecycle_startAndDestroy :
    let P := DynamicLock.owned DynamicLock.twoLocks [.startRebuilder 0 0]
    let s := (P.exec startAndDestroy P.initial).get isSome_exec_startAndDestroy
    (s.mem.todo = [] ∧ s.mem.object.rebuildThread = .none) ∧
      ∃ s', (GeneticLock.owned (GeneticLock.loneLock 1024) GeneticPartitioner.lowestDraws ()
          [.startRebuilder]).Reachable s' ∧
        ¬s'.mem.object.trainingThread = .none := by
  intro P s
  have hreach : P.Reachable s :=
    Program.reachable_exec .init (Option.some_get isSome_exec_startAndDestroy).symm
  obtain ⟨s', hs', hover, -⟩ := exists_running (GeneticLock.loneLock 1024)
    GeneticPartitioner.lowestDraws ()
  obtain ⟨hdynamic, hgenetic⟩ := lifecycle DynamicLock.twoLocks [.startRebuilder 0 0]
    (GeneticLock.loneLock 1024) GeneticPartitioner.lowestDraws () [.startRebuilder]
  refine ⟨⟨rfl, (hdynamic hreach).2 ⟨rfl, rfl⟩⟩, s', hs', fun hnone => ?_⟩
  exact ((hgenetic hs').2 hover).mp hnone rfl

/-- With one call of `StartRebuilder` and no other, a `GeneticLock` is destroyed while its thread
runs, where a `DynamicLock` joins it first. -/
theorem destroyed_joinable : ∃ s,
    (GeneticLock.owned (GeneticLock.loneLock 1024) GeneticPartitioner.lowestDraws ()
      [.startRebuilder]).Reachable s ∧
    GeneticLock.ownerScript.Over s ∧ s.mem.object.trainingThread ≠ .none := by
  obtain ⟨s, hs, hover, hrunning⟩ := exists_running (GeneticLock.loneLock 1024)
    GeneticPartitioner.lowestDraws ()
  exact ⟨s, hs, hover, by simp [hrunning]⟩

end DynLocks
