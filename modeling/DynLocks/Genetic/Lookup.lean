import DynLocks.Genetic.Partitioner

/-!
# DynLocks.Genetic.Lookup

The linear search of `FindLockForBlock` against the running index of
`RefreshBlockToLock`.  Both name the same lock for every block of every cut
vector that begins with zero, increasing or not; and the current partition of a
partitioner begins with zero in every reachable state.
-/

namespace DynLocks
namespace GeneticPartitioner

open Sampler

namespace Config

variable {cfg : Config}

/-- The search finds the lock that the scan stores. -/
theorem findLockForBlock_eq {cuts : List ℕ} (hfirst : cuts.getD 0 0 = 0) (block : ℕ) :
    cfg.findLockForBlock cuts block = lockOfBlock cfg.kLockCnt cuts block := by
  have hlt := lockOfBlock_lt cfg.kLockCnt_pos cuts block
  obtain ⟨hpassed, hstop⟩ := lockOfBlock_spec cfg.kLockCnt_pos cuts block
  generalize lockOfBlock cfg.kLockCnt cuts block = lock at *
  -- no lock before it owns the block
  have hbefore : ∀ i < lock, ¬block < cuts.getD (i + 1) 0 := fun i hi => Nat.not_lt.mpr (hpassed i hi)
  unfold findLockForBlock
  by_cases hend : block < cuts.getD (lock + 1) 0
  · have hstart : cuts.getD lock 0 ≤ block := by
      cases lock with
      | zero => rw [hfirst]; exact Nat.zero_le _
      | succ lock => exact hpassed lock (Nat.lt_succ_self _)
    have hfind : ((List.range cfg.kLockCnt).find? fun i =>
        cuts.getD i 0 ≤ block && block < cuts.getD (i + 1) 0) = some lock := by
      rw [List.find?_range_eq_some]
      refine ⟨by simpa using ⟨hstart, hend⟩, List.mem_range.mpr hlt, fun i hi => ?_⟩
      have hnot := hbefore i hi
      simp only [Bool.not_eq_true', Bool.and_eq_false_iff, decide_eq_false_iff_not]
      exact Or.inr hnot
    rw [hfind, Option.getD_some]
  · have hfind : ((List.range cfg.kLockCnt).find? fun i =>
        cuts.getD i 0 ≤ block && block < cuts.getD (i + 1) 0) = none := by
      rw [List.find?_eq_none]
      intro i hi
      rw [List.mem_range] at hi
      have hlast : lock = cfg.kLockCnt - 1 := hstop.resolve_right hend
      have hnot : ¬block < cuts.getD (i + 1) 0 := by
        by_cases hil : i < lock
        · exact hbefore i hil
        · rw [show i = lock by omega]
          exact hend
      simp only [Bool.and_eq_true, decide_eq_true_eq, not_and]
      exact fun _ => hnot
    rw [hfind, Option.getD_none]
    exact (hstop.resolve_right hend).symm

/-! ## the first cut -/

/-- A move keeps the first cut. -/
theorem first_moveToward {source target moved : Chromosome} (hsource : source.cuts.getD 0 0 = 0)
    (h : cfg.moveToward source target = some moved) : moved.cuts.getD 0 0 = 0 := by
  unfold moveToward at h
  split at h
  · cases h
    exact hsource
  · obtain ⟨repaired, -, hsome⟩ := Option.bind_eq_some_iff.mp h
    cases hsome
    rfl

/-- The uniform partition begins at zero. -/
theorem first_init : cfg.initState.current.cuts.getD 0 0 = 0 := by
  have hpos := cfg.kLockCnt_pos
  have hlen : 0 < cfg.makeUniformChromosome.cuts.length := by simp [makeUniformChromosome]
  show cfg.makeUniformChromosome.cuts.getD 0 0 = 0
  rw [List.getD_eq_getElem _ _ hlen]
  simp [makeUniformChromosome, hpos.ne']

section Search

variable {G : Type} {std : StdLib G}

/-- Remembering a partition does not move to it. -/
theorem current_rememberBest {s t : State} {candidate : Chromosome} {queries : List Query}
    (h : cfg.rememberBest s candidate queries = some t) : t.current = s.current := by
  cases hactive : s.active with
  | none =>
      unfold rememberBest at h
      rw [hactive] at h
      cases h
      rfl
  | some component =>
      obtain ⟨metrics, best, -, rfl, -⟩ := rememberBest_spec hactive h
      rfl

/-- The genetic search moves to a partition that begins at zero. -/
theorem first_train {s : State} (hs : s.current.cuts.getD 0 0 = 0) :
    Sat (cfg.trainOnActiveComponent std s) fun s' => s'.current.cuts.getD 0 0 = 0 := by
  unfold trainOnActiveComponent
  dsimp only
  split
  · exact Sat.pure hs
  · refine Sat.bind (Q := fun _ => True) (fun _ _ _ _ => trivial) fun population _ => ?_
    split
    · exact Sat.never
    · refine Sat.bind (Sat.ofOption fun t ht => ht) fun t ht => ?_
      have hkept : t.current.cuts.getD 0 0 = 0 := by
        rw [current_rememberBest ht]
        exact hs
      split
      · exact Sat.pure hkept
      · split
        · refine Sat.bind (Sat.ofOption fun moved hmoved => hmoved) fun moved hmoved => ?_
          refine Sat.bind (Q := fun _ => True) (Sat.ofOption fun _ _ => trivial)
            fun metrics _ => Sat.pure ?_
          have hfirst := first_moveToward hs hmoved
          exact hfirst
        · exact Sat.pure hkept

/-- The current partition only changes by moves. -/
theorem first_observeBatch {s : State} (hs : s.current.cuts.getD 0 0 = 0) (batch : List Query) :
    Sat (cfg.observeBatch std s batch) fun s' => s'.current.cuts.getD 0 0 = 0 := by
  unfold observeBatch
  split
  · exact Sat.pure hs
  refine Sat.bind (Q := fun p => p.current.cuts.getD 0 0 = 0)
    (Sat.ofOption fun p hprepare => ?_) fun p hp => ?_
  · obtain ⟨profile, -, hactivate⟩ := prepare_eq_some hprepare
    have hassign : (cfg.assignBatchToComponent (cfg.decayComponentMasses s) profile
        batch).1.current = s.current := by
      unfold assignBatchToComponent
      split
      · rfl
      · dsimp only
        split
        · split <;> rfl
        · rfl
    rcases activateComponent_cases hactivate with rfl | ⟨component, moved, -, -, hmoved, rfl⟩
    · dsimp only
      rw [hassign]
      exact hs
    · exact first_moveToward (by dsimp only; rw [hassign]; exact hs) hmoved
  · refine Sat.bind (Q := fun r : State × Bool => r.1.current.cuts.getD 0 0 = 0)
      (Sat.ofOption fun r hr => ?_) fun r hr => ?_
    · obtain ⟨t, applied⟩ := r
      cases applied with
      | false =>
          rcases applyProfileGuided_false hr with rfl | ⟨component, -, rfl⟩
          · exact hp
          · exact hp
      | true =>
          obtain ⟨component, guided, startMetrics, metrics, remembered, moved, movedMetrics, -, -, -,
            -, -, -, -, -, hmoved, -, rfl⟩ := applyProfileGuided_true hr
          have hfirst := first_moveToward hp hmoved
          exact hfirst
    · dsimp only
      split
      · exact Sat.pure hr
      · split
        · exact Sat.pure hr
        · exact first_train hr

/-- **Run lemma**: the current partition always begins at zero. -/
theorem first_of_reachable {seed : G} {s : State} {g : G} (h : cfg.Reachable std seed s g) :
    s.current.cuts.getD 0 0 = 0 := by
  induction h with
  | init => exact first_init
  | observeBatch batch _ hrun ih => exact first_observeBatch ih batch _ _ _ hrun

end Search

end Config

end GeneticPartitioner
end DynLocks
