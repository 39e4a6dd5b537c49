import DynLocks.Benchmark.Scenario
import DynLocks.RuntimeStats

/-!
# DynLocks.Benchmark.Totals

The numbers of queries that `RunWorkload` adds up, beside the operations that the
lock has counted: the workers of a phase make the queries of its stream, each is
one operation of the lock, and nothing else in the run is one
(`RunsPhases.totals`), so for every scenario of `main` over every lock the two
agree (`totals_of_scenarios`).
-/

namespace DynLocks
namespace Benchmark

open Interleaving

variable {Tid Act Mem Loc : Type}

/-! ## the operations of a phase -/

/-- A call of the lock is measured from its beginning on, its function runs behind that, and the
threads that serve the lock make no call. -/
structure PhaseLock.Counts (L : PhaseLock Tid Act Mem Loc) (M : Meter L.program) : Prop where
  start : ∀ t, M.stage (L.program.start t) = .outside
  idle : ∀ {l}, L.isIdle l = true → M.stage l = .outside
  func : ∀ {l r}, L.inFunc l = some r → M.stage l = .counted
  call : ∀ {t left right m l m' l'}, L.isIdle l = true →
    L.program.advance t (L.writeQuery left right) m l = some (m', l') → M.stage l' = .waiting
  rest : ∀ {t a m l m' l'}, L.program.advance t a m l = some (m', l') → L.isIdle l = false →
    M.stage l = .outside → M.stage l' = .outside
  serve : ∀ {t a m l m' l'}, L.program.advance t a m l = some (m', l') → L.serves t = true →
    M.stage l = .outside → M.stage l' = .outside

/-- Has the lock counted the query that the worker is in? -/
def counts : Meter.Stage → UInt64
  | .waiting => 0
  | .timed => 0
  | .counted => 1
  | .outside => 1

/-- The queries of a worker that the lock has counted. -/
def PhaseLoc.charge {L : PhaseLock Tid Act Mem Loc} (M : Meter L.program) (l : PhaseLoc Loc) :
    UInt64 :=
  match l.worker with
  | none => 0
  | some w =>
      match w.pc with
      | .loop => w.stats.queries
      | _ => w.stats.queries + counts (M.stage l.lock)

/-- A step of a call that does not begin another one. -/
theorem counts_move {operations operations' : UInt64} {time time' delta : ℕ} {x y : Meter.Stage}
    (h : Meter.Move operations time delta x operations' time' y)
    (hrest : x = .outside → y = .outside) :
    ∃ d, operations' = operations + d ∧ counts y = counts x + d := by
  cases h with
  | keep => exact ⟨0, (add_zero _).symm, (add_zero _).symm⟩
  | call => cases hrest rfl
  | count => exact ⟨1, rfl, rfl⟩
  | _ => exact ⟨0, (add_zero _).symm, rfl⟩

section Moves

variable {L : PhaseLock Tid Act Mem Loc} {M : Meter L.program} (hcounts : L.Counts M)
  {asks : Loc → Option (ℕ × ℕ)} {spec : QueryStreamSpec} {body : QueryBody} {t : Tid}
  {m m' : PhaseMem Mem} {l l' : PhaseLoc Loc}

include hcounts

/-- **Step lemma**: the lock counts an operation when its worker has one more. -/
theorem charge_move (hplaced : Placed L asks l)
    (hserve : l.worker = none → L.serves t = true ∧ M.stage l.lock = .outside)
    (hmove : Move L spec body t m l m' l') :
    ∃ d, M.operations m'.lock = M.operations m.lock + d ∧ l'.charge M = l.charge M + d := by
  cases hmove with
  | serve hadvance =>
      obtain ⟨hserves, hstage⟩ := hserve rfl
      have hoperations := (M.advance hadvance).operations_eq
      dsimp only at hstage
      rw [hstage] at hoperations
      exact ⟨0, hoperations, rfl⟩
  | @call _ _ _ _ _ _ _ _ _ stats _ _ _ hadvance =>
      have hidle := hcounts.idle hplaced
      have hwaiting := hcounts.call hplaced hadvance
      have hoperations := (M.advance hadvance).operations_eq
      rw [hidle] at hoperations
      refine ⟨0, hoperations, ?_⟩
      simp only [PhaseLoc.charge, hwaiting, counts]
  | wait hfunc hidle hadvance =>
      obtain ⟨d, hoperations, hd⟩ := counts_move (M.advance hadvance) (hcounts.rest hadvance hidle)
      exact ⟨d, hoperations, by simp only [PhaseLoc.charge, hd, add_assoc]⟩
  | returns hidle =>
      refine ⟨0, (add_zero _).symm, ?_⟩
      simp only [PhaseLoc.charge, hcounts.idle hidle, counts, add_zero]
  | enter hfunc => exact ⟨0, (add_zero _).symm, (add_zero _).symm⟩
  | func hstep =>
      refine ⟨0, (add_zero _).symm, ?_⟩
      simp only [PhaseLoc.charge, queries_of_funcStep hstep, add_zero]
  | @leave _ _ _ _ l' _ _ _ _ _ _ hadvance =>
      have hcounted := hcounts.func hplaced.2
      obtain ⟨d, hoperations, hd⟩ := counts_move (M.advance hadvance) fun houtside => by
        rw [hcounted] at houtside
        contradiction
      exact ⟨d, hoperations, by simp only [PhaseLoc.charge, hd, add_assoc]⟩

end Moves

section Runs

variable [DecidableEq Tid] {L : PhaseLock Tid Act Mem Loc} {M : Meter L.program}
  (hcounts : L.Counts M)

include hcounts in
/-- The threads that serve the lock are in no call. -/
theorem stage_of_serves {s : State Tid Mem Loc} (hs : L.program.Reachable s) {t : Tid}
    (ht : L.serves t = true) : M.stage (s.loc t) = .outside :=
  hs.localInvariant (Q := fun t _ l => L.serves t = true → M.stage l = .outside)
    (fun t _ => hcounts.start t)
    (fun _ _ _ _ _ _ hstage hadvance ht => hcounts.serve hadvance ht (hstage ht))
    (fun _ _ _ _ _ _ _ _ hstage _ => hstage) t ht

omit [DecidableEq Tid] in
/-- A sum of which one term grows. -/
theorem sum_map_add {A : Type} [AddCommMonoid A] {threads : List Tid} (hnodup : threads.Nodup)
    {t : Tid} (ht : t ∈ threads) {f f' : Tid → A} {d : A} (hself : f' t = f t + d)
    (hrest : ∀ u, u ≠ t → f' u = f u) : (threads.map f').sum = (threads.map f).sum + d := by
  induction threads with
  | nil => contradiction
  | cons u threads ih =>
      obtain ⟨hu, hnodup⟩ := List.nodup_cons.mp hnodup
      rw [List.map_cons, List.sum_cons, List.map_cons, List.sum_cons]
      by_cases hut : u = t
      · subst hut
        have hsame : threads.map f' = threads.map f :=
          List.map_congr_left fun v hv => hrest v fun heq => hu (heq ▸ hv)
        rw [hself, hsame, add_right_comm]
      · rw [hrest u hut, ih hnodup ((List.mem_cons.mp ht).resolve_left (Ne.symm hut)), add_assoc]

/-- A thread without a worker acts if it serves the lock. -/
theorem serves_of_advance {spec : QueryStreamSpec} {body : QueryBody} {threads : List Tid}
    {s₀ : State Tid Mem Loc} {data : ℕ → ℤ} {t : Tid} {a : Act} {m m' : PhaseMem Mem}
    {l l' : PhaseLoc Loc} (hnone : l.worker = none)
    (h : (runPhase L spec body threads s₀ data).advance t a m l = some (m', l')) :
    L.serves t = true := by
  by_contra hserves
  simp [runPhase, hnone, hserves] at h

variable {asks : Loc → Option (ℕ × ℕ)} (hsound : L.Sound asks) {spec : QueryStreamSpec}
  (hwindows : spec.WindowsInArray) {body : QueryBody} {workers : Workers Tid}
  {s₀ : State Tid Mem Loc} (hready : Ready L workers.threads s₀) {data : ℕ → ℤ}
  {s : State Tid (PhaseMem Mem) (PhaseLoc Loc)}

include hcounts hsound hwindows hready

/-- The lock has counted the queries of the workers, and those they are in. -/
theorem operations_of_reachable
    (hs : (runPhase L spec body workers.threads s₀ data).Reachable s) :
    M.operations s.mem.lock =
      M.operations s₀.mem + (workers.threads.map fun t => (s.loc t).charge M).sum := by
  refine hs.invariant (I := fun s => M.operations s.mem.lock =
    M.operations s₀.mem + (workers.threads.map fun t => (s.loc t).charge M).sum) ?_ ?_
  · have hzero : (workers.threads.map fun t =>
        PhaseLoc.charge M ((runPhase L spec body workers.threads s₀ data).start t)) =
          workers.threads.map fun _ => 0 := by
      refine List.map_congr_left fun t ht => ?_
      simp [PhaseLoc.charge, runPhase, if_pos ht, startWorker]
    change M.operations s₀.mem = M.operations s₀.mem + (workers.threads.map fun t =>
      PhaseLoc.charge M ((runPhase L spec body workers.threads s₀ data).start t)).sum
    rw [hzero]
    simp
  · intro s s' hs hI hstep
    obtain ⟨t, ht⟩ := hstep
    obtain ⟨⟨a, ha⟩, hframe⟩ := ht.elim
    have hserve : (s.loc t).worker = none →
        L.serves t = true ∧ M.stage (s.loc t).lock = .outside := by
      intro hnone
      have hserves := serves_of_advance hnone ha
      exact ⟨hserves,
        stage_of_serves hcounts (lockState_reachable hready.reachable hs) hserves⟩
    obtain ⟨d, hoperations, hcharge⟩ := charge_move hcounts
      (placed_of_reachable hsound hwindows hready hs t) hserve (move_of_advance ha)
    by_cases hmem : t ∈ workers.threads
    · have hsum : (workers.threads.map fun u => (s'.loc u).charge M).sum =
          (workers.threads.map fun u => (s.loc u).charge M).sum + d :=
        sum_map_add workers.nodup hmem hcharge fun u hu => by rw [hframe u hu]
      rw [hoperations, hI, hsum, add_assoc]
    · have hnone := worker_of_reachable hs hmem
      have hnone' := worker_of_reachable (hs.step ⟨t, ht⟩) hmem
      have hd : d = 0 := by
        rw [PhaseLoc.charge, PhaseLoc.charge, hnone, hnone', zero_add] at hcharge
        exact hcharge.symm
      have hsame : workers.threads.map (fun u => (s'.loc u).charge M) =
          workers.threads.map fun u => (s.loc u).charge M :=
        List.map_congr_left fun u hu => by rw [hframe u fun heq => hmem (heq ▸ hu)]
      rw [hoperations, hI, hd, hsame, add_zero]

/-- **A phase**: where it returns, the lock has counted its stream. -/
theorem operations_of_returned (hfits : spec.count * workers.threads.length < 2 ^ 64)
    (hs : (runPhase L spec body workers.threads s₀ data).Reachable s)
    (hreturned : Returned workers.threads s) :
    M.operations s.mem.lock = M.operations s₀.mem + UInt64.ofNat spec.count := by
  have hcharge : workers.threads.map (fun t => (s.loc t).charge M) =
      workers.threads.map fun t => (s.loc t).stats.queries := by
    refine List.map_congr_left fun t ht => ?_
    obtain ⟨w, hworker, hpc, -⟩ := PhaseLoc.eq_of_joined (hreturned t ht)
    simp only [PhaseLoc.charge, PhaseLoc.stats, hworker, hpc, Option.map_some, Option.getD_some]
  rw [operations_of_reachable hcounts hsound hwindows hready hs, hcharge,
    ← queries_of_returned hfits hs hreturned]
  rfl

end Runs

/-! ## whole workloads -/

/-- `WorkloadRunStats`, but for the times and the mutexes. -/
structure WorkloadRunStats where
  totalQueries : UInt64 := 0
  measuredQueries : UInt64 := 0

/-- What `run_phase` adds. -/
def WorkloadRunStats.add (total : WorkloadRunStats) (queries : UInt64) (measured : Bool) :
    WorkloadRunStats where
  totalQueries := total.totalQueries + queries
  measuredQueries := if measured then total.measuredQueries + queries else total.measuredQueries

/-- `RunWorkload` from some state of the lock, of `data` and of `total` on: phases, each with the
argument `measured` of `run_phase`, and between them what is done outside of `WriteQuery`. -/
inductive RunsPhases [DecidableEq Tid] (L : PhaseLock Tid Act Mem Loc) (M : Meter L.program)
    (body : QueryBody) (threadCount : ℕ) :
    State Tid Mem Loc → (ℕ → ℤ) → WorkloadRunStats → List (QueryStreamSpec × Bool) →
      State Tid Mem Loc → WorkloadRunStats → Prop
  | done {s : State Tid Mem Loc} {data : ℕ → ℤ} {total : WorkloadRunStats} :
      RunsPhases L M body threadCount s data total [] s total
  | between {s s₁ s' : State Tid Mem Loc} {data : ℕ → ℤ} {total total' : WorkloadRunStats}
      {specs : List (QueryStreamSpec × Bool)} {t : Tid} :
      L.program.StepBy t s s₁ → M.stage (s.loc t) = .outside → M.stage (s₁.loc t) = .outside →
      RunsPhases L M body threadCount s₁ data total specs s' total' →
      RunsPhases L M body threadCount s data total specs s' total'
  | phase {s s' : State Tid Mem Loc} {data : ℕ → ℤ} {total total' : WorkloadRunStats}
      {spec : QueryStreamSpec} {measured : Bool} {specs : List (QueryStreamSpec × Bool)}
      {workers : Workers Tid} {r : Program.Run (runPhase L spec body workers.threads s data)}
      {n : ℕ} :
      workers.threads.length = threadCount → (∀ t ∈ workers.threads, L.isIdle (s.loc t) = true) →
      n ≤ r.length → Returned workers.threads (r.states n) →
      RunsPhases L M body threadCount (lockState (r.states n)) (r.states n).mem.data
        (total.add (phaseRunStats workers.threads (r.states n)).queries measured) specs s' total' →
      RunsPhases L M body threadCount s data total ((spec, measured) :: specs) s' total'

/-- The number of queries of some phases. -/
def queryCount (specs : List (QueryStreamSpec × Bool)) : ℕ := (specs.map fun p => p.1.count).sum

/-- **Whole workloads**: `RunWorkload` has added up the queries of its phases, and the lock has
counted them and no others, if no product of their slices wraps. -/
theorem RunsPhases.totals [DecidableEq Tid] {L : PhaseLock Tid Act Mem Loc} {M : Meter L.program}
    (hcounts : L.Counts M) {asks : Loc → Option (ℕ × ℕ)} (hsound : L.Sound asks) {body : QueryBody}
    {threadCount : ℕ} {s s' : State Tid Mem Loc} {data : ℕ → ℤ} {total total' : WorkloadRunStats}
    {specs : List (QueryStreamSpec × Bool)}
    (h : RunsPhases L M body threadCount s data total specs s' total')
    (hs : L.program.Reachable s) (hwindows : ∀ p ∈ specs, p.1.WindowsInArray)
    (hfits : ∀ p ∈ specs, p.1.count * threadCount < 2 ^ 64) :
    total'.totalQueries = total.totalQueries + UInt64.ofNat (queryCount specs) ∧
      total'.measuredQueries =
        total.measuredQueries + UInt64.ofNat (queryCount (specs.filter Prod.snd)) ∧
      M.operations s'.mem = M.operations s.mem + UInt64.ofNat (queryCount specs) := by
  induction h with
  | done => simp [queryCount]
  | @between s s₁ s' data total total' specs t hstep hout hout' _ ih =>
      obtain ⟨⟨a, ha⟩, -⟩ := hstep.elim
      have hoperations := (M.advance ha).operations_eq
      rw [hout, hout'] at hoperations
      obtain ⟨htotal, hmeasured, hlock⟩ := ih (hs.step ⟨t, hstep⟩) hwindows hfits
      exact ⟨htotal, hmeasured, by rw [hlock, hoperations]; simp⟩
  | @phase s s' data total total' spec measured specs workers r n hcount hidle hn hreturned _ ih =>
      have hwindow := hwindows (spec, measured) List.mem_cons_self
      have hready : Ready L workers.threads s := ⟨hs, hidle⟩
      have hnext := ready_of_returned hsound hwindow hready (r.reachable hn) hreturned
      obtain ⟨htotal, hmeasured, hlock⟩ := ih hnext.reachable
        (fun p hp => hwindows p (List.mem_cons_of_mem _ hp))
        fun p hp => hfits p (List.mem_cons_of_mem _ hp)
      have hslices : spec.count * workers.threads.length < 2 ^ 64 :=
        hcount ▸ hfits (spec, measured) List.mem_cons_self
      have hqueries := queries_of_returned hslices (r.reachable hn) hreturned
      have hphase := operations_of_returned hcounts hsound hwindow hready hslices (r.reachable hn)
        hreturned
      rw [hqueries] at htotal hmeasured
      have hcons : queryCount ((spec, measured) :: specs) = spec.count + queryCount specs := rfl
      refine ⟨?_, ?_, ?_⟩
      · rw [htotal, hcons, UInt64.ofNat_add, ← add_assoc]
        rfl
      · rw [hmeasured]
        cases measured with
        | false => rfl
        | true =>
            have hcons' : queryCount (((spec, true) :: specs).filter Prod.snd) =
                spec.count + queryCount (specs.filter Prod.snd) := rfl
            rw [hcons', UInt64.ofNat_add, ← add_assoc]
            rfl
      · rw [hlock, hcons, UInt64.ofNat_add, ← add_assoc]
        congr 1

/-- **Phases that return** lead to totals. -/
theorem exists_runsPhases [DecidableEq Tid] {L : PhaseLock Tid Act Mem Loc} (M : Meter L.program)
    {body : QueryBody} {t : Tid} {schedule : List (Tid × Act)} {s : State Tid Mem Loc}
    {data : ℕ → ℤ} (total : WorkloadRunStats) {specs : List (QueryStreamSpec × Bool)}
    (h : returnsAll L body t schedule s data (specs.map Prod.fst) = true) :
    ∃ s' total', RunsPhases L M body 1 s data total specs s' total' := by
  induction specs generalizing s data total with
  | nil => exact ⟨s, total, .done⟩
  | cons p specs ih =>
      obtain ⟨workers, r, hlength, hidle, hreturned, hrest⟩ := returnsAll_cons h
      obtain ⟨s', total', hphases⟩ := ih _ hrest
      exact ⟨s', total', .phase hlength hidle le_rfl hreturned hphases⟩

/-! ## the scenarios -/

/-- The phases that `RunWorkload` runs, each with the argument `measured` of `run_phase`. -/
def ScenarioInput.runs (scenario : ScenarioInput) (rounds : ℕ → ℕ) :
    List (QueryStreamSpec × Bool) :=
  scenario.setupPhases.map (fun p => (p.queries, false)) ++
    (scenario.timedPhases.zipIdx.flatMap fun p =>
      List.replicate (if p.1.adaptSeconds ≤ 0 then 1 else rounds p.2 + 1)
        (p.1.adaptQueries, false) ++ [(p.1.measureQueries, true)]) ++
    if scenario.measuredPhase.queries.count ≠ 0 then [(scenario.measuredPhase.queries, true)] else []

/-- `measured_queries` of `PrintScenario`. -/
def ScenarioInput.measuredQueries (scenario : ScenarioInput) : UInt64 :=
  scenario.timedPhases.foldl (fun queries phase => queries + UInt64.ofNat phase.measureQueries.count)
    (UInt64.ofNat scenario.measuredPhase.queries.count)

/-- They are the phases of the scenario. -/
theorem ScenarioInput.map_fst_runs (scenario : ScenarioInput) (rounds : ℕ → ℕ) :
    (scenario.runs rounds).map Prod.fst = scenario.phases rounds := by
  have hlast : (if scenario.measuredPhase.queries.count ≠ 0 then
      [(scenario.measuredPhase.queries, true)] else []).map Prod.fst =
        if scenario.measuredPhase.queries.count ≠ 0 then [scenario.measuredPhase.queries] else [] := by
    split <;> rfl
  rw [ScenarioInput.runs, ScenarioInput.phases, List.map_append, List.map_append, hlast]
  congr 2
  · rw [List.map_map]
    rfl
  · rw [List.map_flatMap]
    simp

/-- The rounds of a timed phase are not measured. -/
theorem queryCount_timed (timed : List (TimedPhaseInput × ℕ)) (times : TimedPhaseInput × ℕ → ℕ) :
    queryCount ((timed.flatMap fun p => List.replicate (times p) (p.1.adaptQueries, false) ++
      [(p.1.measureQueries, true)]).filter Prod.snd) =
        (timed.map fun p => p.1.measureQueries.count).sum := by
  induction timed with
  | nil => rfl
  | cons p timed ih =>
      have hadapt : (List.replicate (times p) (p.1.adaptQueries, false)).filter Prod.snd = [] := by
        simp
      rw [List.flatMap_cons, List.filter_append, List.filter_append, hadapt, List.nil_append,
        List.map_cons, List.sum_cons, ← ih]
      rfl

/-- The measured phases have the queries that `PrintScenario` prints. -/
theorem ScenarioInput.queryCount_measured (scenario : ScenarioInput) (rounds : ℕ → ℕ) :
    UInt64.ofNat (queryCount ((scenario.runs rounds).filter Prod.snd)) =
      scenario.measuredQueries := by
  have hfold : ∀ (timed : List TimedPhaseInput) (queries : ℕ),
      timed.foldl (fun queries phase => queries + UInt64.ofNat phase.measureQueries.count)
        (UInt64.ofNat queries) =
          UInt64.ofNat (queries + (timed.map fun phase => phase.measureQueries.count).sum) := by
    intro timed
    induction timed with
    | nil => simp
    | cons phase timed ih =>
        intro queries
        rw [List.foldl_cons, ← UInt64.ofNat_add, ih, List.map_cons, List.sum_cons, Nat.add_assoc]
  have happend : ∀ xs ys, queryCount (xs ++ ys) = queryCount xs + queryCount ys := by
    intro xs ys
    rw [queryCount, List.map_append, List.sum_append]
    rfl
  have hsetup : (scenario.setupPhases.map fun p => (p.queries, false)).filter Prod.snd = [] := by
    simp
  have hlast : queryCount ((if scenario.measuredPhase.queries.count ≠ 0 then
      [(scenario.measuredPhase.queries, true)] else []).filter Prod.snd) =
        scenario.measuredPhase.queries.count := by
    split
    · rfl
    · next hzero => exact (not_not.mp hzero).symm
  have hzip : (scenario.timedPhases.zipIdx.map fun p => p.1.measureQueries.count) =
      scenario.timedPhases.map fun phase => phase.measureQueries.count := by
    calc scenario.timedPhases.zipIdx.map (fun p => p.1.measureQueries.count)
        = (scenario.timedPhases.zipIdx.map Prod.fst).map fun phase => phase.measureQueries.count :=
          by rw [List.map_map]; rfl
      _ = _ := by rw [List.zipIdx_map_fst]
  rw [ScenarioInput.measuredQueries, hfold, ScenarioInput.runs, List.filter_append,
    List.filter_append, hsetup, List.nil_append, happend, hlast, queryCount_timed, hzip,
    Nat.add_comm]

/-- What `RunWorkload` reports of a scenario, and what the lock has counted. -/
structure Totals (scenario : ScenarioInput) (rounds : ℕ → ℕ) (total : WorkloadRunStats)
    (operationCount : UInt64) : Prop where
  queries : total.totalQueries = UInt64.ofNat (queryCount (scenario.runs rounds))
  measured : total.measuredQueries = scenario.measuredQueries
  operations : operationCount = total.totalQueries

section Scenarios

variable [DecidableEq Tid] {L : PhaseLock Tid Act Mem Loc} {M : Meter L.program}

/-- A scenario over a lock as it is constructed. -/
theorem totals_of_runs (hcounts : L.Counts M) {asks : Loc → Option (ℕ × ℕ)} (hsound : L.Sound asks)
    {scenario : ScenarioInput} (hplaced : scenario.Placed) {rounds : ℕ → ℕ} {body : QueryBody}
    {threadCount : ℕ} {s : State Tid Mem Loc} {data : ℕ → ℤ} {total : WorkloadRunStats}
    (hfits : ∀ spec ∈ scenario.phases rounds, spec.count * threadCount < 2 ^ 64)
    (hzero : M.operations L.program.init = 0)
    (h : RunsPhases L M body threadCount L.program.initial data {} (scenario.runs rounds) s total) :
    Totals scenario rounds total (M.operations s.mem) := by
  have hmem : ∀ p ∈ scenario.runs rounds, p.1 ∈ scenario.phases rounds := fun p hp =>
    scenario.map_fst_runs rounds ▸ List.mem_map_of_mem hp
  obtain ⟨hqueries, hmeasured, hoperations⟩ := h.totals hcounts hsound .init
    (fun p hp => (hplaced.phases rounds p.1 (hmem p hp)).windows) fun p hp => hfits p.1 (hmem p hp)
  have hqueries : total.totalQueries = UInt64.ofNat (queryCount (scenario.runs rounds)) :=
    hqueries.trans (zero_add _)
  refine ⟨hqueries, ?_, ?_⟩
  · rw [hmeasured, scenario.queryCount_measured rounds]
    exact zero_add _
  · have hinit : M.operations L.program.initial.mem = 0 := hzero
    rw [hoperations, hinit, hqueries, zero_add]

end Scenarios

end Benchmark

/-! ## the three locks -/

section Locks

open Interleaving Benchmark

variable {Client G : Type} [DecidableEq Client]

theorem NaiveLock.phaseLock_counts {cfg : NaiveLock.Config} (hsize : cfg.arraySize ≠ 0) :
    (phaseLock cfg Client).Counts (meter cfg Client) where
  start _ := rfl
  idle {l} hidle := by
    cases l with
    | idle => rfl
    | _ => contradiction
  func hfunc := by
    rw [Loc.inFunc_eq_some hfunc]
    rfl
  call {t left right m l m' l'} hidle h := by
    cases l with
    | idle =>
        change advance cfg t (.call (.writeQuery left right)) m .idle = some (m', l') at h
        simp only [advance, enter, hsize, if_false] at h
        split at h
        · contradiction
        · cases h
          rfl
    | _ => contradiction
  rest {t a m l m' l'} h hidle hstage := by
    cases l with
    | idle => contradiction
    | counted locks => cases h; rfl
    | query left right pc =>
        cases pc with
        | inside pc => cases pc <;> contradiction
        | _ => contradiction
  serve _ ht := by contradiction

theorem DynamicLock.phaseLock_counts {cfg : DynamicLock.Config} (hsize : cfg.arraySize ≠ 0) :
    (phaseLock cfg Client).Counts (meter cfg Client) where
  start _ := rfl
  idle hidle := by
    rw [Loc.eq_idle hidle]
    rfl
  func hfunc := by
    obtain ⟨lockStart, lockEnd, rfl⟩ := Loc.inFunc_eq_some hfunc
    rfl
  call {t left right m l m' l'} hidle h := by
    have hloc := Loc.eq_idle hidle
    subst hloc
    cases t with
    | background => contradiction
    | client c =>
        change advance cfg (.client c) (.call (.writeQuery left right)) m .idle = some (m', l') at h
        simp only [advance, enter, hsize, if_false] at h
        cases h
        rfl
  rest h hidle hstage := stage_advance hstage hidle h
  serve {t a m l m' l'} h ht hstage := by
    cases t with
    | client c => contradiction
    | background =>
        change advance cfg .background a m l = some (m', l') at h
        cases hidle : l.isIdle with
        | false => exact stage_advance hstage hidle h
        | true =>
            rw [Loc.eq_idle hidle] at h
            cases a with
            | step =>
                simp only [advance] at h
                split at h
                · cases h; rfl
                · contradiction
            | _ => contradiction

theorem GeneticLock.phaseLock_counts {cfg : GeneticLock.Config}
    {std : GeneticPartitioner.StdLib G} {seed : G} (hsize : cfg.arraySize ≠ 0) :
    (phaseLock cfg std seed Client).Counts ((meter cfg std seed Client).restrict permits) where
  start _ := rfl
  idle hidle := by
    rw [Loc.eq_idle hidle]
    rfl
  func hfunc := by
    obtain ⟨firstLock, lastLock, rfl⟩ := Loc.inFunc_eq_some hfunc
    rfl
  call {t left right m l m' l'} hidle h := by
    have hloc := Loc.eq_idle hidle
    subst hloc
    obtain ⟨-, hadvance⟩ := Program.advance_of_restrict h
    cases t with
    | background => contradiction
    | client c =>
        change advance cfg std (.client c) (.call (.writeQuery left right)) m .idle =
          some (m', l') at hadvance
        simp only [advance, enter, hsize, if_false] at hadvance
        cases hadvance
        rfl
  rest h hidle hstage := stage_advance hstage hidle (Program.advance_of_restrict h).2
  serve {t a m l m' l'} h ht hstage := by
    cases t with
    | client c => contradiction
    | background =>
        have hadvance : advance cfg std .background a m l = some (m', l') :=
          (Program.advance_of_restrict h).2
        cases hidle : l.isIdle with
        | false => exact stage_advance hstage hidle hadvance
        | true =>
            rw [Loc.eq_idle hidle] at hadvance
            cases a with
            | step =>
                simp only [advance] at hadvance
                split at hadvance
                · cases hadvance; rfl
                · contradiction
            | _ => contradiction

end Locks

namespace Benchmark

/-- **The numbers of a run agree**: `RunWorkload` on a scenario of `main` over each of the three
locks has added up the queries of all its phases, as measured those that `PrintScenario` prints, and
the lock has counted one operation for each query and no others, if in no phase the number of
queries times the number of threads wraps. -/
theorem totals_of_scenarios (env : Env) :
    ∃ all, scenarios env = some all ∧
      ∀ scenario ∈ all, ∀ (rounds : ℕ → ℕ) (threadCount : ℕ),
        (∀ spec ∈ scenario.phases rounds, spec.count * threadCount < 2 ^ 64) →
        ∀ (body : QueryBody) (data : ℕ → ℤ) (total : WorkloadRunStats) (Client : Type)
          [DecidableEq Client],
        (∀ (cfg : NaiveLock.Config) s, cfg.arraySize = kArraySize →
          RunsPhases (NaiveLock.phaseLock cfg Client) (NaiveLock.meter cfg Client) body threadCount
            (NaiveLock.phaseLock cfg Client).program.initial data {} (scenario.runs rounds) s total →
          Totals scenario rounds total s.mem.operationCount) ∧
        (∀ (cfg : DynamicLock.Config) s, cfg.arraySize = kArraySize →
          RunsPhases (DynamicLock.phaseLock cfg Client) (DynamicLock.meter cfg Client) body
            threadCount (DynamicLock.phaseLock cfg Client).program.initial data {}
            (scenario.runs rounds) s total →
          Totals scenario rounds total s.mem.operationCount) ∧
        (∀ (cfg : GeneticLock.Config) {G : Type} (std : GeneticPartitioner.StdLib G) (seed : G) s,
          cfg.arraySize = kArraySize →
            RunsPhases (GeneticLock.phaseLock cfg std seed Client)
              ((GeneticLock.meter cfg std seed Client).restrict GeneticLock.permits) body threadCount
              (GeneticLock.phaseLock cfg std seed Client).program.initial data {}
              (scenario.runs rounds) s total →
            Totals scenario rounds total s.mem.operationCount) := by
  obtain ⟨all, hall, -, hplaced⟩ := placed_scenarios env
  refine ⟨all, hall, fun scenario hscenario rounds threadCount hfits body data total Client _ => ?_⟩
  have hscenario := hplaced scenario hscenario
  refine ⟨?_, ?_, ?_⟩
  · intro cfg s hsize h
    exact totals_of_runs (NaiveLock.phaseLock_counts (hsize ▸ kArraySize_ne_zero))
      (NaiveLock.phaseLock_sound hsize) hscenario hfits rfl h
  · intro cfg s hsize h
    exact totals_of_runs (DynamicLock.phaseLock_counts (hsize ▸ kArraySize_ne_zero))
      (DynamicLock.phaseLock_sound hsize) hscenario hfits rfl h
  · intro cfg G std seed s hsize h
    exact totals_of_runs (GeneticLock.phaseLock_counts (hsize ▸ kArraySize_ne_zero))
      (GeneticLock.phaseLock_sound hsize) hscenario hfits rfl h

/-- Over each lock both phases of one query are counted, the second one as measured. -/
theorem totals_of_scenarios_one_query :
    (∃ s total, RunsPhases naiveLock (NaiveLock.meter _ _) .kRealWork 1
        naiveLock.program.initial (fun _ => 0) {} ((makeRandomScenario oneQuery).runs fun _ => 0) s
        total ∧ Totals (makeRandomScenario oneQuery) (fun _ => 0) total s.mem.operationCount) ∧
      (∃ s total, RunsPhases dynamicLock (DynamicLock.meter _ _) .kRealWork 1
        dynamicLock.program.initial (fun _ => 0) {} ((makeRandomScenario oneQuery).runs fun _ => 0)
        s total ∧ Totals (makeRandomScenario oneQuery) (fun _ => 0) total s.mem.operationCount) ∧
      ∃ s total, RunsPhases geneticLock ((GeneticLock.meter _ _ _ _).restrict GeneticLock.permits)
        .kRealWork 1 geneticLock.program.initial (fun _ => 0) {}
        ((makeRandomScenario oneQuery).runs fun _ => 0) s total ∧
          Totals (makeRandomScenario oneQuery) (fun _ => 0) total s.mem.operationCount := by
  obtain ⟨all, hall, h⟩ := totals_of_scenarios oneQuery
  have htotals := h _ (mem_scenarios_random hall) (fun _ => 0) 1 fits_randomPhases .kRealWork
    fun _ => 0
  have hruns : ((makeRandomScenario oneQuery).runs fun _ => 0).map Prod.fst = randomPhases :=
    (makeRandomScenario oneQuery).map_fst_runs fun _ => 0
  obtain ⟨hnaive, hdynamic, hgenetic⟩ := returnsAll_randomPhases
  rw [← hruns] at hnaive hdynamic hgenetic
  refine ⟨?_, ?_, ?_⟩
  · obtain ⟨s, total, hphases⟩ := exists_runsPhases (NaiveLock.meter _ _) {} hnaive
    have hlock := (htotals total PhaseTid).1
    exact ⟨s, total, hphases, hlock NaiveLock.twoHalves s rfl hphases⟩
  · obtain ⟨s, total, hphases⟩ := exists_runsPhases (DynamicLock.meter _ _) {} hdynamic
    have hlock := (htotals total PhaseTid).2.1
    exact ⟨s, total, hphases, hlock DynamicLock.twoHalves s rfl hphases⟩
  · obtain ⟨s, total, hphases⟩ := exists_runsPhases
      ((GeneticLock.meter _ _ _ _).restrict GeneticLock.permits) {} hgenetic
    have hlock := (htotals total PhaseTid).2.2
    exact ⟨s, total, hphases, hlock GeneticLock.threeThirds _ _ s rfl hphases⟩

end Benchmark
end DynLocks
