import DynLocks.Genetic.Balance
import DynLocks.Genetic.Breeding

/-!
# DynLocks.Genetic.Partitioner

The state of a `GeneticPartitioner` and `ObserveBatch`: the workload
components, the assignment of a batch to one of them, the shortcut through the
load-balanced partition, and the genetic search.

`ObserveBatch` is cut at the point where the active component has been
activated (`prepare`), because the claims about training compare its result
with the partition that is current there.
-/

namespace DynLocks
namespace GeneticPartitioner

open Sampler

/-! ## state -/

/-- `WorkloadComponent`. -/
structure WorkloadComponent where
  centroid : List ℚ := []
  partitionCentroid : List ℚ := []
  queries : List Query := []
  bestPartition : Chromosome := {}
  mass : ℚ := 0
  hasBestPartition : Bool := false
  hasPartitionCentroid : Bool := false
deriving DecidableEq

/-- The members that change, but for the generator. -/
structure State where
  components : List WorkloadComponent
  activeComponent : ℕ
  current : Chromosome
deriving DecidableEq

/-- `kNoComponent`. -/
def kNoComponent : ℕ := 2 ^ 64 - 1

/-- The active component, if there is one. -/
def State.active (s : State) : Option WorkloadComponent := s.components[s.activeComponent]?

/-- Overwrite the active component. -/
def State.setActive (s : State) (component : WorkloadComponent) : State :=
  { s with components := s.components.set s.activeComponent component }

@[simp] theorem State.setActive_setActive (s : State) (component component' : WorkloadComponent) :
    (s.setActive component).setActive component' = s.setActive component' := by
  simp [State.setActive]

/-- `BuildActiveQueries`. -/
def State.buildActiveQueries (s : State) : List Query :=
  match s.active with
  | none => []
  | some component => component.queries

namespace Config

variable (cfg : Config)

/-- The constructor. -/
def initState : State where
  components := []
  activeComponent := kNoComponent
  current := cfg.makeUniformChromosome

/-! ## workload components -/

/-- `DecayComponentMasses`. -/
def decayComponentMasses (s : State) : State :=
  { s with components := s.components.map fun component =>
      { component with mass := component.mass * cfg.decay } }

/-- `AppendQueries`: the oldest queries beyond the limit are dropped. -/
def appendQueries (component : WorkloadComponent) (batch : List Query) : WorkloadComponent :=
  let queries := component.queries ++ batch
  { component with queries := queries.drop (queries.length - cfg.queryLimit) }

/-- `ResetComponent`.  The old `best_partition` stays in place, unmarked. -/
def resetComponent (component : WorkloadComponent) (profile : List ℚ) (batch : List Query) :
    WorkloadComponent :=
  cfg.appendQueries
    { component with
      centroid := profile
      partitionCentroid := []
      queries := []
      mass := 1
      hasBestPartition := false
      hasPartitionCentroid := false } batch

/-- `UpdateComponent`. -/
def updateComponent (component : WorkloadComponent) (profile : List ℚ) (batch : List Query) :
    WorkloadComponent :=
  cfg.appendQueries
    { component with
      centroid := (List.range cfg.kBlocks).map fun block =>
        (1 - cfg.learningRate) * component.centroid.getD block 0 +
          cfg.learningRate * profile.getD block 0
      mass := component.mass + 1 } batch

/-- The loop of `ReplaceWeakestComponent`. -/
def weakestIndex (components : List WorkloadComponent) : ℕ :=
  (List.range' 1 (components.length - 1)).foldl (fun weakest i =>
    if (components.getD i {}).mass < (components.getD weakest {}).mass then i else weakest) 0

/-- `ReplaceWeakestComponent`. -/
def replaceWeakestComponent (s : State) (profile : List ℚ) (batch : List Query) : State × ℕ :=
  let weakest := weakestIndex s.components
  ({ s with components := s.components.modify weakest fun component =>
      cfg.resetComponent component profile batch }, weakest)

/-- The loop of `AssignBatchToComponent`: the nearest component and its distance. -/
def nearestComponent (components : List WorkloadComponent) (profile : List ℚ) : ℕ × ℚ :=
  (List.range' 1 (components.length - 1)).foldl (fun best i =>
    let distance := profileDistance profile (components.getD i {}).centroid
    if distance < best.2 then (i, distance) else best)
    (0, profileDistance profile (components.getD 0 {}).centroid)

/-- `AssignBatchToComponent`. -/
def assignBatchToComponent (s : State) (profile : List ℚ) (batch : List Query) : State × ℕ :=
  if s.components = [] then
    ({ s with components := [cfg.resetComponent {} profile batch] }, 0)
  else
    let best := nearestComponent s.components profile
    if best.2 > cfg.threshold then
      if s.components.length < cfg.componentLimit then
        ({ s with components := s.components ++ [cfg.resetComponent {} profile batch] },
          s.components.length)
      else cfg.replaceWeakestComponent s profile batch
    else
      ({ s with components := s.components.modify best.1 fun component =>
          cfg.updateComponent component profile batch }, best.1)

/-- `ActivateComponent`. -/
def activateComponent (s : State) (componentIndex : ℕ) : Option State :=
  match s.components[componentIndex]? with
  | none => some s
  | some component =>
      if component.hasBestPartition then do
        let current ← cfg.moveToward s.current component.bestPartition
        some { s with current }
      else some s

/-- `ObserveBatch` up to and including `ActivateComponent`. -/
def prepare (s : State) (batch : List Query) : Option State := do
  let profile ← cfg.buildBlockProfile batch
  let (s, activeComponent) := cfg.assignBatchToComponent (cfg.decayComponentMasses s) profile batch
  cfg.activateComponent { s with activeComponent } activeComponent

/-! ## the shortcut -/

/-- `RememberBestForActiveComponent`. -/
def rememberBest (s : State) (candidate : Chromosome) (queries : List Query) : Option State :=
  match s.active with
  | none => some s
  | some component => do
      let metrics ← cfg.evaluate candidate.cuts queries
      let candidate := { candidate with metrics }
      if component.hasBestPartition then
        let bestMetrics ← cfg.evaluate component.bestPartition.cuts queries
        if metrics.fitness ≤ bestMetrics.fitness then
          some (s.setActive { component with bestPartition := candidate })
        else
          some (s.setActive { component with
            bestPartition := { component.bestPartition with metrics := bestMetrics } })
      else
        some (s.setActive { component with bestPartition := candidate, hasBestPartition := true })

/-- The two assignments that record the centroid a partition was computed for. -/
def markCentroid (s : State) (component : WorkloadComponent) : State :=
  s.setActive { component with
    partitionCentroid := component.centroid
    hasPartitionCentroid := true }

/-- `ApplyProfileGuidedPartition`. -/
def applyProfileGuidedPartition (s : State) : Option (State × Bool) :=
  match s.active with
  | none => some (s, false)
  | some component =>
      if component.hasBestPartition ∧ component.hasPartitionCentroid ∧
          s.current.cuts = component.bestPartition.cuts ∧
          profileDistance component.centroid component.partitionCentroid < 8 / 100 then
        some (s, false)
      else
        let queries := s.buildActiveQueries
        if queries = [] then some (s, false)
        else do
          let guided ← cfg.makeLoadBalancedChromosome component.centroid
          if guided.cuts = s.current.cuts then some (markCentroid s component, false)
          else
            let startMetrics ← cfg.evaluate s.current.cuts queries
            let metrics ← cfg.evaluate guided.cuts queries
            let guided := { guided with metrics }
            if metrics.fitness > startMetrics.fitness * (98 / 100) then
              some (markCentroid s component, false)
            else
              let remembered ← cfg.rememberBest s guided queries
              let marked := markCentroid remembered (remembered.active.getD component)
              let current ← cfg.moveToward s.current guided
              let metrics ← cfg.evaluate current.cuts queries
              some ({ marked with current := { current with metrics } }, true)

/-! ## the genetic search -/

/-- `EvaluatePopulation`. -/
def evaluatePopulation (population : List Chromosome) (queries : List Query) :
    Option (List Chromosome) :=
  population.mapM fun chromosome => do
    let metrics ← cfg.evaluate chromosome.cuts queries
    some { chromosome with metrics }

/-- The first two seeds of `SeedPopulation`: the current partition and the remembered best. -/
def seedBest (s : State) : List Chromosome :=
  match s.active with
  | none => [s.current]
  | some active =>
      if active.hasBestPartition ∧ active.bestPartition.cuts ≠ s.current.cuts ∧
          1 < cfg.population then
        [s.current, active.bestPartition]
      else [s.current]

/-- The third seed: the quantile partition, unless it is there already. -/
def seedGuided (s : State) (population : List Chromosome) : Option (List Chromosome) :=
  match s.active with
  | none => some population
  | some active =>
      if population.length < cfg.population then do
        let guided ← cfg.makeProfileGuidedChromosome active.centroid
        if guided.cuts ≠ s.current.cuts ∧
            (¬ active.hasBestPartition ∨ guided.cuts ≠ active.bestPartition.cuts) then
          some (population ++ [guided])
        else some population
      else some population

/-- The fourth seed: the uniform partition, unless it is there already. -/
def seedUniform (population : List Chromosome) : List Chromosome :=
  if population.length < cfg.population then
    let uniform := cfg.makeUniformChromosome
    if population.any fun chromosome => chromosome.cuts = uniform.cuts then population
    else population ++ [uniform]
  else population

section Search

variable {G : Type} (std : StdLib G)

/-- `SeedPopulation`. -/
def seedPopulation (s : State) : Rand G (List Chromosome) := do
  let population ← ofOption (cfg.seedGuided s (cfg.seedBest s))
  let population := cfg.seedUniform population
  let population ← collect (fun _ => mutate cfg std s.current)
    (cfg.elites - population.length) population
  collect (fun population =>
    if population.length % 2 = 0 then mutate cfg std s.current else makeRandomChromosome cfg std)
    (cfg.population - population.length) population

/-- One child of the next generation. -/
def breedChild (population : List Chromosome) (selectable : ℕ) (queries : List Query) :
    Rand G Chromosome := do
  let lhs ← draw (std.uniform 0 (selectable - 1))
  let rhs ← draw (std.uniform 0 (selectable - 1))
  let child ← crossover cfg std (population.getD lhs {}) (population.getD rhs {})
  let mutateChild ← draw (std.bernoulli (85 / 100))
  let child ← (if mutateChild then mutate cfg std child else pure child)
  let metrics ← ofOption (cfg.evaluate child.cuts queries)
  pure { child with metrics }

/-- The body of the loop over generations. -/
def nextGeneration (queries : List Query) (population : List Chromosome) :
    Rand G (List Chromosome) :=
  let population := std.sort population
  let elites := population.take cfg.elites
  let selectable := min cfg.elites population.length
  collect (fun _ => cfg.breedChild std population selectable queries)
    (cfg.population - elites.length) elites

/-- The population of `TrainOnActiveComponent` after some generations. -/
def populationAfter (s : State) (generations : ℕ) : Rand G (List Chromosome) := do
  let seeded ← cfg.seedPopulation std s
  let population ← ofOption (cfg.evaluatePopulation seeded s.buildActiveQueries)
  iterate (cfg.nextGeneration std s.buildActiveQueries) generations population

/-- `TrainOnActiveComponent`. -/
def trainOnActiveComponent (s : State) : Rand G State :=
  let queries := s.buildActiveQueries
  if queries = [] then pure s
  else do
    let population ← cfg.populationAfter std s cfg.generationCount
    match std.sort population with
    | [] => never
    | front :: _ =>
        let s' ← ofOption (cfg.rememberBest s front queries)
        match s'.active with
        | none => pure s'
        | some component =>
            if component.hasBestPartition then do
              let current ← ofOption (cfg.moveToward s.current component.bestPartition)
              let metrics ← ofOption (cfg.evaluate current.cuts queries)
              pure { s' with current := { current with metrics } }
            else pure s'

/-- `ObserveBatch` after `ActivateComponent`. -/
def improve (s : State) : Rand G State := do
  let (s, applied) ← ofOption (cfg.applyProfileGuidedPartition s)
  if applied then pure s
  else if cfg.generationCount = 0 then pure s
  else cfg.trainOnActiveComponent std s

/-- `ObserveBatch`. -/
def observeBatch (s : State) (batch : List Query) : Rand G State :=
  if batch = [] then pure s
  else do
    let s ← ofOption (cfg.prepare s batch)
    cfg.improve std s

/-- The states of a partitioner between two calls, with the state of its generator. -/
inductive Reachable (cfg : Config) (std : StdLib G) (seed : G) : State → G → Prop
  | init : Reachable cfg std seed cfg.initState seed
  | observeBatch {s s' : State} {g g' : G} (batch : List Query) :
      Reachable cfg std seed s g → cfg.observeBatch std s batch g = some (s', g') →
        Reachable cfg std seed s' g'

end Search

/-! ## what the steps do -/

variable {cfg}

/-- A scan that moves on to every strictly smaller value ends at a least one. -/
theorem scan_least (f : ℕ → ℚ) (n : ℕ) :
    let best := (List.range' 1 n).foldl (fun best i => if f i < f best then i else best) 0
    best < n + 1 ∧ ∀ j < n + 1, f best ≤ f j := by
  induction n with
  | zero =>
      refine ⟨Nat.one_pos, fun j hj => ?_⟩
      rw [Nat.lt_one_iff.mp hj]
      exact le_refl _
  | succ n ih =>
      obtain ⟨hlt, hmin⟩ := ih
      rw [List.range'_1_concat, List.foldl_append, List.foldl_cons, List.foldl_nil,
        Nat.add_comm 1 n]
      dsimp only at hlt hmin ⊢
      split
      · next hless =>
          refine ⟨Nat.lt_succ_self _, fun j hj => ?_⟩
          rcases Nat.lt_succ_iff_lt_or_eq.mp hj with hold | rfl
          · exact hless.le.trans (hmin j hold)
          · exact le_refl _
      · next hge =>
          refine ⟨Nat.lt_succ_of_lt hlt, fun j hj => ?_⟩
          rcases Nat.lt_succ_iff_lt_or_eq.mp hj with hold | rfl
          · exact hmin j hold
          · exact not_lt.mp hge

/-- The weakest component is one of least mass. -/
theorem weakestIndex_spec {components : List WorkloadComponent} (hne : components ≠ []) :
    weakestIndex components < components.length ∧
      ∀ j < components.length, (components.getD (weakestIndex components) {}).mass ≤
        (components.getD j {}).mass := by
  have hpos := List.length_pos_iff.mpr hne
  have hscan := scan_least (fun i => (components.getD i {}).mass) (components.length - 1)
  rw [Nat.sub_add_cancel hpos] at hscan
  exact hscan

/-- The nearest component is one of least distance. -/
theorem nearestComponent_spec {components : List WorkloadComponent} (hne : components ≠ [])
    (profile : List ℚ) :
    (nearestComponent components profile).1 < components.length ∧
      (nearestComponent components profile).2 = profileDistance profile
        (components.getD (nearestComponent components profile).1 {}).centroid ∧
      ∀ j < components.length, (nearestComponent components profile).2 ≤
        profileDistance profile (components.getD j {}).centroid := by
  have hpos := List.length_pos_iff.mpr hne
  let distance := fun i => profileDistance profile (components.getD i {}).centroid
  -- the scan carries the distance of the index along
  have hcarry : ∀ (l : List ℕ) (start : ℕ),
      l.foldl (fun (best : ℕ × ℚ) i => if distance i < best.2 then (i, distance i) else best)
        (start, distance start) =
      (l.foldl (fun best i => if distance i < distance best then i else best) start,
        distance (l.foldl (fun best i => if distance i < distance best then i else best) start)) := by
    intro l
    induction l with
    | nil => exact fun _ => rfl
    | cons i l ih =>
        intro start
        rw [List.foldl_cons, List.foldl_cons]
        dsimp only
        split <;> exact ih _
  have hscan := scan_least distance (components.length - 1)
  rw [Nat.sub_add_cancel hpos] at hscan
  have hnearest : nearestComponent components profile = _ :=
    hcarry (List.range' 1 (components.length - 1)) 0
  rw [hnearest]
  exact ⟨hscan.1, rfl, hscan.2⟩

theorem prepare_eq_some {s t : State} {batch : List Query} (h : cfg.prepare s batch = some t) :
    ∃ profile, cfg.buildBlockProfile batch = some profile ∧
      cfg.activateComponent
        { (cfg.assignBatchToComponent (cfg.decayComponentMasses s) profile batch).1 with
          activeComponent :=
            (cfg.assignBatchToComponent (cfg.decayComponentMasses s) profile batch).2 }
        (cfg.assignBatchToComponent (cfg.decayComponentMasses s) profile batch).2 = some t :=
  Option.bind_eq_some_iff.mp h

/-- Activating a component changes the current partition, if anything. -/
theorem activateComponent_cases {s t : State} {i : ℕ} (h : cfg.activateComponent s i = some t) :
    t = s ∨ ∃ component moved, s.components[i]? = some component ∧
      component.hasBestPartition = true ∧
      cfg.moveToward s.current component.bestPartition = some moved ∧
      t = { s with current := moved } := by
  unfold activateComponent at h
  split at h
  · exact Or.inl (Option.some.inj h).symm
  · next component hcomponent =>
      split at h
      · next hbest =>
          obtain ⟨moved, hmoved, hsome⟩ := Option.bind_eq_some_iff.mp h
          exact Or.inr ⟨component, moved, hcomponent, hbest, hmoved, (Option.some.inj hsome).symm⟩
      · exact Or.inl (Option.some.inj h).symm

/-- What is remembered is the candidate or the old best, whichever is fitter on the queries. -/
theorem rememberBest_spec {s t : State} {candidate : Chromosome} {queries : List Query}
    {component : WorkloadComponent} (hactive : s.active = some component)
    (h : cfg.rememberBest s candidate queries = some t) :
    ∃ metrics best, cfg.evaluate candidate.cuts queries = some metrics ∧
      t = s.setActive { component with bestPartition := best, hasBestPartition := true } ∧
      cfg.evaluate best.cuts queries = some best.metrics ∧
      best.metrics.fitness ≤ metrics.fitness ∧
      (best.cuts = candidate.cuts ∨
        component.hasBestPartition = true ∧ best.cuts = component.bestPartition.cuts) ∧
      (component.hasBestPartition = true →
        ∃ old, cfg.evaluate component.bestPartition.cuts queries = some old ∧
          best.metrics.fitness ≤ old.fitness) := by
  unfold rememberBest at h
  rw [hactive] at h
  obtain ⟨metrics, hmetrics, h⟩ := Option.bind_eq_some_iff.mp h
  cases hbest : component.hasBestPartition with
  | false =>
      simp only [hbest, Bool.false_eq_true, if_false] at h
      exact ⟨metrics, { candidate with metrics }, hmetrics, (Option.some.inj h).symm, hmetrics,
        le_refl _, Or.inl rfl, fun hfalse => by cases hfalse⟩
  | true =>
      simp only [hbest, if_true] at h
      obtain ⟨old, hold, h⟩ := Option.bind_eq_some_iff.mp h
      split at h
      · next hle =>
          exact ⟨metrics, { candidate with metrics }, hmetrics, (Option.some.inj h).symm, hmetrics,
            le_refl _, Or.inl rfl, fun _ => ⟨old, hold, hle⟩⟩
      · next hgt =>
          exact ⟨metrics, { component.bestPartition with metrics := old }, hmetrics,
            (Option.some.inj h).symm, hold, (not_le.mp hgt).le, Or.inr ⟨rfl, rfl⟩,
            fun _ => ⟨old, hold, le_refl _⟩⟩

/-- Without a change of partition the shortcut records a centroid, if anything. -/
theorem applyProfileGuided_false {s t : State}
    (h : cfg.applyProfileGuidedPartition s = some (t, false)) :
    t = s ∨ ∃ component, s.active = some component ∧ t = markCentroid s component := by
  unfold applyProfileGuidedPartition at h
  split at h
  · cases h
    exact Or.inl rfl
  · next component hactive =>
      split at h
      · cases h
        exact Or.inl rfl
      · dsimp only at h
        split at h
        · cases h
          exact Or.inl rfl
        · obtain ⟨guided, hguided, h⟩ := Option.bind_eq_some_iff.mp h
          split at h
          · cases h
            exact Or.inr ⟨component, hactive, rfl⟩
          · obtain ⟨startMetrics, hstart, h⟩ := Option.bind_eq_some_iff.mp h
            obtain ⟨metrics, hmetrics, h⟩ := Option.bind_eq_some_iff.mp h
            split at h
            · cases h
              exact Or.inr ⟨component, hactive, rfl⟩
            · obtain ⟨remembered, hremembered, h⟩ := Option.bind_eq_some_iff.mp h
              obtain ⟨moved, hmoved, h⟩ := Option.bind_eq_some_iff.mp h
              obtain ⟨movedMetrics, hmovedMetrics, h⟩ := Option.bind_eq_some_iff.mp h
              cases h

/-- A partition the shortcut moves to is fitter by two percent, and is offered as the best. -/
theorem applyProfileGuided_true {s t : State}
    (h : cfg.applyProfileGuidedPartition s = some (t, true)) :
    ∃ component guided startMetrics metrics remembered moved movedMetrics,
      s.active = some component ∧ s.buildActiveQueries ≠ [] ∧
      cfg.makeLoadBalancedChromosome component.centroid = some guided ∧
      guided.cuts ≠ s.current.cuts ∧
      cfg.evaluate s.current.cuts s.buildActiveQueries = some startMetrics ∧
      cfg.evaluate guided.cuts s.buildActiveQueries = some metrics ∧
      metrics.fitness ≤ startMetrics.fitness * (98 / 100) ∧
      cfg.rememberBest s { guided with metrics } s.buildActiveQueries = some remembered ∧
      cfg.moveToward s.current { guided with metrics } = some moved ∧
      cfg.evaluate moved.cuts s.buildActiveQueries = some movedMetrics ∧
      t = { markCentroid remembered (remembered.active.getD component) with
        current := { moved with metrics := movedMetrics } } := by
  unfold applyProfileGuidedPartition at h
  split at h
  · cases h
  · next component hactive =>
      split at h
      · cases h
      · dsimp only at h
        split at h
        · cases h
        · next hqueries =>
            obtain ⟨guided, hguided, h⟩ := Option.bind_eq_some_iff.mp h
            split at h
            · cases h
            · next hmoves =>
                obtain ⟨startMetrics, hstart, h⟩ := Option.bind_eq_some_iff.mp h
                obtain ⟨metrics, hmetrics, h⟩ := Option.bind_eq_some_iff.mp h
                split at h
                · cases h
                · next hfitter =>
                    obtain ⟨remembered, hremembered, h⟩ := Option.bind_eq_some_iff.mp h
                    obtain ⟨moved, hmoved, h⟩ := Option.bind_eq_some_iff.mp h
                    obtain ⟨movedMetrics, hmovedMetrics, h⟩ := Option.bind_eq_some_iff.mp h
                    cases h
                    exact ⟨component, guided, startMetrics, metrics, remembered, moved,
                      movedMetrics, hactive, hqueries, hguided, hmoves, hstart, hmetrics,
                      not_lt.mp hfitter, hremembered, hmoved, hmovedMetrics, rfl⟩

/-- With the remembered partition in place for this centroid the shortcut does nothing. -/
theorem applyProfileGuided_settled {s : State} {component : WorkloadComponent}
    (hactive : s.active = some component) (hbest : component.hasBestPartition = true)
    (hmarked : component.hasPartitionCentroid = true)
    (hcuts : s.current.cuts = component.bestPartition.cuts)
    (hnear : profileDistance component.centroid component.partitionCentroid < 8 / 100) :
    cfg.applyProfileGuidedPartition s = some (s, false) := by
  unfold applyProfileGuidedPartition
  rw [hactive]
  exact if_pos ⟨hbest, hmarked, hcuts, hnear⟩

end Config

end GeneticPartitioner
end DynLocks
