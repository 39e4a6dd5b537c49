import DynLocks.Genetic.Partitioner

/-!
# DynLocks.Genetic.Validity

Every partition a `GeneticPartitioner` holds gives every lock at least one
block, as long as the uniform partition does.

`PartitionsValid` is the invariant of the members.  Each function of the
partitioner keeps it; the functions that draw random numbers do so for every
outcome.  `partitionsValid_iff` is the statement about whole runs: it holds
exactly when the products `i * kBlocks` of `MakeUniformChromosome` fit into
`size_t`.
-/

namespace DynLocks
namespace GeneticPartitioner

open CutVector Sampler

/-- What holds of every element still holds after one of them is modified. -/
theorem forall_mem_modify {α : Type} {P : α → Prop} {f : α → α} {xs : List α} (i : ℕ)
    (h : ∀ x ∈ xs, P x) (hf : ∀ x, P x → P (f x)) : ∀ x ∈ xs.modify i f, P x := by
  intro x hx
  obtain ⟨j, hj⟩ := List.mem_iff_getElem?.mp hx
  rw [List.getElem?_modify] at hj
  obtain ⟨y, hy, heq⟩ := Option.map_eq_some_iff.mp hj
  have hmem := h y (List.mem_of_getElem? hy)
  split at heq
  · rw [← heq]
    exact hf y hmem
  · rw [← heq]
    exact hmem

namespace Config

/-! ## the invariant -/

/-- The best partition of a component is valid if it is marked as there. -/
def BestValid (cfg : Config) (component : WorkloadComponent) : Prop :=
  component.hasBestPartition = true → cfg.Valid component.bestPartition.cuts

/-- The current partition and every remembered one are valid. -/
structure PartitionsValid (cfg : Config) (s : State) : Prop where
  current : cfg.Valid s.current.cuts
  best : ∀ component ∈ s.components, cfg.BestValid component

variable {cfg : Config}

theorem PartitionsValid.active {s : State} (h : cfg.PartitionsValid s)
    {component : WorkloadComponent} (hactive : s.active = some component) :
    cfg.BestValid component :=
  h.best component (List.mem_of_getElem? hactive)

theorem PartitionsValid.setActive {s : State} (h : cfg.PartitionsValid s)
    {component : WorkloadComponent} (hcomponent : cfg.BestValid component) :
    cfg.PartitionsValid (s.setActive component) where
  current := h.current
  best := by
    intro other hother
    rcases List.mem_or_eq_of_mem_set hother with hmem | rfl
    · exact h.best other hmem
    · exact hcomponent

/-! ## workload components -/

/-- A component that was reset remembers no partition. -/
theorem bestValid_resetComponent (component : WorkloadComponent) (profile : List ℚ)
    (batch : List Query) : cfg.BestValid (cfg.resetComponent component profile batch) := by
  intro hbest
  cases hbest

/-- An update of a component leaves its best partition alone. -/
theorem bestValid_updateComponent {component : WorkloadComponent} (profile : List ℚ)
    (batch : List Query) (h : cfg.BestValid component) :
    cfg.BestValid (cfg.updateComponent component profile batch) := h

/-- `DecayComponentMasses` changes no partition. -/
theorem partitionsValid_decay {s : State} (h : cfg.PartitionsValid s) :
    cfg.PartitionsValid (cfg.decayComponentMasses s) where
  current := h.current
  best := by
    intro component hmem
    obtain ⟨old, hold, rfl⟩ := List.mem_map.mp hmem
    exact h.best old hold

/-- A batch starts a component without a best partition, or joins one that keeps its own. -/
theorem partitionsValid_assign {s : State} (h : cfg.PartitionsValid s) (profile : List ℚ)
    (batch : List Query) :
    cfg.PartitionsValid (cfg.assignBatchToComponent s profile batch).1 := by
  unfold assignBatchToComponent
  split
  · refine ⟨h.current, fun component hmem => ?_⟩
    rw [List.mem_singleton.mp hmem]
    exact bestValid_resetComponent {} profile batch
  · dsimp only
    split
    · split
      · refine ⟨h.current, fun component hmem => ?_⟩
        rcases List.mem_append.mp hmem with hold | hnew
        · exact h.best component hold
        · rw [List.mem_singleton.mp hnew]
          exact bestValid_resetComponent {} profile batch
      · exact ⟨h.current, forall_mem_modify _ h.best fun component _ =>
          bestValid_resetComponent component profile batch⟩
    · exact ⟨h.current, forall_mem_modify _ h.best fun component hbest =>
        bestValid_updateComponent profile batch hbest⟩

section Fits

variable (hle : cfg.kLockCnt ≤ cfg.kBlocks)
include hle

/-- So `ObserveBatch` comes to its search with valid partitions. -/
theorem partitionsValid_prepare {s t : State} {batch : List Query} (h : cfg.PartitionsValid s)
    (hprepare : cfg.prepare s batch = some t) : cfg.PartitionsValid t := by
  obtain ⟨profile, -, hactivate⟩ := prepare_eq_some hprepare
  have hassign := partitionsValid_assign (partitionsValid_decay h) profile batch
  rcases activateComponent_cases hactivate with rfl | ⟨component, moved, -, -, hmoved, rfl⟩
  · exact ⟨hassign.current, hassign.best⟩
  · exact ⟨valid_moveToward hle hassign.current hmoved, hassign.best⟩

omit hle in
/-- What is remembered is the candidate or what was remembered before. -/
theorem partitionsValid_rememberBest {s t : State} {candidate : Chromosome} {queries : List Query}
    (h : cfg.PartitionsValid s) (hcandidate : cfg.Valid candidate.cuts)
    (hrun : cfg.rememberBest s candidate queries = some t) : cfg.PartitionsValid t := by
  cases hactive : s.active with
  | none =>
      unfold rememberBest at hrun
      rw [hactive] at hrun
      cases hrun
      exact h
  | some component =>
      obtain ⟨metrics, best, -, rfl, -, -, hcuts, -⟩ := rememberBest_spec hactive hrun
      refine h.setActive fun _ => ?_
      rcases hcuts with heq | ⟨hbest, heq⟩
      · simp only [heq]
        exact hcandidate
      · simp only [heq]
        exact h.active hactive hbest

omit hle in
theorem partitionsValid_markCentroid {s : State} {component : WorkloadComponent}
    (h : cfg.PartitionsValid s) (hcomponent : cfg.BestValid component) :
    cfg.PartitionsValid (markCentroid s component) :=
  h.setActive hcomponent

variable (hfits : cfg.UniformFits)
include hfits

/-- The shortcut moves toward a valid partition. -/
theorem partitionsValid_applyProfileGuided {s t : State} {applied : Bool}
    (h : cfg.PartitionsValid s) (hrun : cfg.applyProfileGuidedPartition s = some (t, applied)) :
    cfg.PartitionsValid t := by
  cases applied with
  | false =>
      rcases applyProfileGuided_false hrun with rfl | ⟨component, hactive, rfl⟩
      · exact h
      · exact partitionsValid_markCentroid h (h.active hactive)
  | true =>
      obtain ⟨component, guided, startMetrics, metrics, remembered, moved, movedMetrics, hactive, -,
        hguided, -, -, -, -, hremembered, hmoved, -, rfl⟩ := applyProfileGuided_true hrun
      have hr := partitionsValid_rememberBest h (valid_makeLoadBalanced hle hfits hguided) hremembered
      have hmark : cfg.BestValid (remembered.active.getD component) := by
        cases hra : remembered.active with
        | none => exact h.active hactive
        | some c => exact hr.active hra
      have hcurrent := valid_moveToward hle h.current hmoved
      exact ⟨hcurrent, (partitionsValid_markCentroid hr hmark).best⟩

/-! ## populations -/

omit hle hfits in
theorem valid_append {population : List Chromosome} {c : Chromosome}
    (h : ∀ x ∈ population, cfg.Valid x.cuts) (hc : cfg.Valid c.cuts) :
    ∀ x ∈ population ++ [c], cfg.Valid x.cuts := by
  intro x hx
  rcases List.mem_append.mp hx with hold | hnew
  · exact h x hold
  · rw [List.mem_singleton.mp hnew]
    exact hc

omit hle hfits in
/-- The first seeds are partitions that are kept. -/
theorem valid_seedBest {s : State} (h : cfg.PartitionsValid s) :
    ∀ c ∈ cfg.seedBest s, cfg.Valid c.cuts := by
  have hcurrent : ∀ c ∈ [s.current], cfg.Valid c.cuts := by
    intro c hc
    rw [List.mem_singleton.mp hc]
    exact h.current
  unfold seedBest
  split
  · exact hcurrent
  · next active hactive =>
      split
      · next hbest => exact valid_append hcurrent (h.active hactive hbest.1)
      · exact hcurrent

/-- The quantile partition is valid. -/
theorem valid_seedGuided {s : State} {population seeded : List Chromosome}
    (h : ∀ c ∈ population, cfg.Valid c.cuts) (hrun : cfg.seedGuided s population = some seeded) :
    ∀ c ∈ seeded, cfg.Valid c.cuts := by
  unfold seedGuided at hrun
  split at hrun
  · cases hrun
    exact h
  · split at hrun
    · obtain ⟨guided, hguided, hsome⟩ := Option.bind_eq_some_iff.mp hrun
      split at hsome
      · cases hsome
        exact valid_append h (valid_makeProfileGuided hle hfits hguided)
      · cases hsome
        exact h
    · cases hrun
      exact h

/-- So is the uniform one. -/
theorem valid_seedUniform {population : List Chromosome} (h : ∀ c ∈ population, cfg.Valid c.cuts) :
    ∀ c ∈ cfg.seedUniform population, cfg.Valid c.cuts := by
  unfold seedUniform
  split
  · dsimp only
    split
    · exact h
    · exact valid_append h ((valid_makeUniform_iff hle).mpr hfits)
  · exact h

variable {G : Type} {std : StdLib G}

/-- So the search begins with a valid population. -/
theorem valid_seedPopulation {s : State} (h : cfg.PartitionsValid s) :
    Sat (cfg.seedPopulation std s) fun population => ∀ c ∈ population, cfg.Valid c.cuts := by
  refine Sat.bind (Q := fun seeded => ∀ c ∈ seeded, cfg.Valid c.cuts)
    (Sat.ofOption fun seeded hrun => valid_seedGuided hle hfits (valid_seedBest h) hrun)
    fun seeded hseeded => ?_
  refine Sat.bind (Sat.collect (fun _ _ => valid_mutate hle h.current) _
    (valid_seedUniform hle hfits hseeded)) fun elites helites => ?_
  refine Sat.collect (fun population _ => ?_) _ helites
  split
  · exact valid_mutate hle h.current
  · exact valid_makeRandom

omit hle hfits in
/-- Evaluating a population keeps its partitions. -/
theorem evaluatePopulation_spec {population evaluated : List Chromosome} {queries : List Query}
    (hrun : cfg.evaluatePopulation population queries = some evaluated) :
    evaluated.map Chromosome.cuts = population.map Chromosome.cuts ∧
      ∀ c ∈ evaluated, cfg.evaluate c.cuts queries = some c.metrics := by
  induction population generalizing evaluated with
  | nil =>
      cases hrun
      exact ⟨rfl, fun c hc => absurd hc List.not_mem_nil⟩
  | cons chromosome rest ih =>
      rw [evaluatePopulation, List.mapM_cons] at hrun
      obtain ⟨first, hfirst, hrun⟩ := Option.bind_eq_some_iff.mp hrun
      obtain ⟨others, hothers, hsome⟩ := Option.bind_eq_some_iff.mp hrun
      obtain ⟨metrics, hmetrics, hchromosome⟩ := Option.bind_eq_some_iff.mp hfirst
      cases hsome
      cases hchromosome
      obtain ⟨hcuts, hevaluated⟩ := ih hothers
      refine ⟨by rw [List.map_cons, List.map_cons, hcuts], fun c hc => ?_⟩
      rcases List.mem_cons.mp hc with rfl | hmem
      · exact hmetrics
      · exact hevaluated c hmem

omit hle hfits in
/-- An evaluation writes the metrics alone. -/
theorem valid_evaluatePopulation {population evaluated : List Chromosome} {queries : List Query}
    (hrun : cfg.evaluatePopulation population queries = some evaluated)
    (h : ∀ c ∈ population, cfg.Valid c.cuts) : ∀ c ∈ evaluated, cfg.Valid c.cuts := by
  intro c hc
  have hmem : c.cuts ∈ evaluated.map Chromosome.cuts := List.mem_map_of_mem hc
  rw [(evaluatePopulation_spec hrun).1] at hmem
  obtain ⟨source, hsource, heq⟩ := List.mem_map.mp hmem
  rw [← heq]
  exact h source hsource

omit hfits in
/-- Every child is valid, whatever is drawn. -/
theorem valid_breedChild (population : List Chromosome) (selectable : ℕ) (queries : List Query) :
    Sat (cfg.breedChild std population selectable queries) fun child => cfg.Valid child.cuts := by
  refine Sat.bind (Q := fun _ => True) (Sat.draw fun _ => trivial) fun lhs _ => ?_
  refine Sat.bind (Q := fun _ => True) (Sat.draw fun _ => trivial) fun rhs _ => ?_
  refine Sat.bind (valid_crossover hle _ _) fun child hchild => ?_
  refine Sat.bind (Q := fun _ => True) (Sat.draw fun _ => trivial) fun mutateChild _ => ?_
  refine Sat.bind (Q := fun c : Chromosome => cfg.Valid c.cuts) ?_ fun mutated hmutated => ?_
  · split
    · exact valid_mutate hle hchild
    · exact Sat.pure hchild
  · exact Sat.bind (Q := fun _ => True) (Sat.ofOption fun _ _ => trivial)
      fun metrics _ => Sat.pure hmutated

omit hfits in
/-- The elite is copied and the children are bred valid. -/
theorem valid_nextGeneration {population : List Chromosome} (queries : List Query)
    (h : ∀ c ∈ population, cfg.Valid c.cuts) :
    Sat (cfg.nextGeneration std queries population) fun next => ∀ c ∈ next, cfg.Valid c.cuts := by
  refine Sat.collect (fun _ _ => valid_breedChild hle _ _ queries) _ fun c hc => ?_
  exact h c ((std.sort_perm population).mem_iff.mp (List.mem_of_mem_take hc))

/-- Every chromosome of every generation is valid. -/
theorem valid_populationAfter {s : State} (h : cfg.PartitionsValid s) (generations : ℕ) :
    Sat (cfg.populationAfter std s generations) fun population =>
      ∀ c ∈ population, cfg.Valid c.cuts := by
  refine Sat.bind (valid_seedPopulation hle hfits h) fun seeded hseeded => ?_
  refine Sat.bind (Q := fun evaluated => ∀ c ∈ evaluated, cfg.Valid c.cuts)
    (Sat.ofOption fun evaluated hrun => valid_evaluatePopulation hrun hseeded)
    fun evaluated hevaluated => ?_
  exact Sat.iterate (fun population hp => valid_nextGeneration hle _ hp) generations hevaluated

/-! ## runs -/

/-- The genetic search leaves a valid partition. -/
theorem partitionsValid_train {s : State} (h : cfg.PartitionsValid s) :
    Sat (cfg.trainOnActiveComponent std s) cfg.PartitionsValid := by
  unfold trainOnActiveComponent
  dsimp only
  split
  · exact Sat.pure h
  · refine Sat.bind (valid_populationAfter hle hfits h _) fun population hpop => ?_
    split
    · exact Sat.never
    · next front rest hsorted =>
        have hfront : cfg.Valid front.cuts :=
          hpop front ((std.sort_perm population).mem_iff.mp (by rw [hsorted]; exact List.mem_cons_self))
        refine Sat.bind (Sat.ofOption fun t hrun => partitionsValid_rememberBest h hfront hrun)
          fun t ht => ?_
        split
        · exact Sat.pure ht
        · split
          · refine Sat.bind (Sat.ofOption fun moved hmoved => valid_moveToward hle h.current hmoved)
              fun moved hmoved => ?_
            exact Sat.bind (Q := fun _ => True) (Sat.ofOption fun _ _ => trivial)
              fun metrics _ => Sat.pure ⟨hmoved, ht.best⟩
          · exact Sat.pure ht

/-- One call keeps the invariant. -/
theorem partitionsValid_observeBatch {s : State} (h : cfg.PartitionsValid s) (batch : List Query) :
    Sat (cfg.observeBatch std s batch) cfg.PartitionsValid := by
  unfold observeBatch
  split
  · exact Sat.pure h
  · refine Sat.bind (Sat.ofOption fun p hp => partitionsValid_prepare hle h hp) fun p hp => ?_
    refine Sat.bind (Q := fun r : State × Bool => cfg.PartitionsValid r.1)
      (Sat.ofOption fun r hr => partitionsValid_applyProfileGuided hle hfits hp hr) fun r hr => ?_
    dsimp only
    split
    · exact Sat.pure hr
    · split
      · exact Sat.pure hr
      · exact partitionsValid_train hle hfits hr

/-- **Run lemma**: where the uniform partition is valid, every partition of every reachable state
is. -/
theorem partitionsValid_of_reachable {seed : G} {s : State} {g : G}
    (h : cfg.Reachable std seed s g) : cfg.PartitionsValid s := by
  induction h with
  | init =>
      exact ⟨(valid_makeUniform_iff hle).mpr hfits, fun component hmem => absurd hmem List.not_mem_nil⟩
  | observeBatch batch _ hrun ih =>
      exact partitionsValid_observeBatch hle hfits ih batch _ _ _ hrun

end Fits

/-- **Every partition is valid** in every reachable state, and so is every chromosome of every
generation that a call breeds from there, exactly when the products `i * kBlocks` of
`MakeUniformChromosome` fit into `size_t`. -/
theorem partitionsValid_iff (cfg : Config) (hle : cfg.kLockCnt ≤ cfg.kBlocks) {G : Type}
    (std : StdLib G) (seed : G) :
    (∀ s g, cfg.Reachable std seed s g →
      cfg.PartitionsValid s ∧
        ∀ batch p t, cfg.prepare s batch = some p →
          cfg.applyProfileGuidedPartition p = some (t, false) →
          cfg.PartitionsValid p ∧ cfg.PartitionsValid t ∧
            ∀ generation ≤ cfg.generationCount, ∀ population g',
              cfg.populationAfter std t generation g = some (population, g') →
              ∀ c ∈ population, cfg.Valid c.cuts) ↔
    cfg.UniformFits := by
  constructor
  · intro h
    exact (valid_makeUniform_iff hle).mp (h cfg.initState seed .init).1.current
  · intro hfits s g hreach
    have hs := partitionsValid_of_reachable hle hfits hreach
    refine ⟨hs, fun batch p t hprepare hguided => ?_⟩
    have hp := partitionsValid_prepare hle hs hprepare
    have ht := partitionsValid_applyProfileGuided hle hfits hp hguided
    exact ⟨hp, ht, fun generation _ population g' hrun =>
      valid_populationAfter hle hfits ht generation g population g' hrun⟩

end Config

/-! ## instances -/

/-- A library whose distributions return their lower bound and whose sort is stable. -/
def lowestDraws : StdLib Unit where
  uniform lo _ g := (lo, g)
  uniformInt lo _ g := (lo, g)
  bernoulli _ g := (false, g)
  sort population := population.insertionSort fun lhs rhs =>
    lhs.metrics.fitness ≤ rhs.metrics.fitness
  patience := 64
  uniform_mem _ hle := ⟨le_refl _, hle⟩
  uniformInt_mem _ hle := ⟨le_refl _, hle⟩
  sort_perm population := List.perm_insertionSort _ population
  sort_sorted population := by
    have : Std.Total fun lhs rhs : Chromosome => lhs.metrics.fitness ≤ rhs.metrics.fitness :=
      ⟨fun a b => le_total a.metrics.fitness b.metrics.fitness⟩
    have : IsTrans Chromosome fun lhs rhs => lhs.metrics.fitness ≤ rhs.metrics.fitness :=
      ⟨fun _ _ _ => le_trans⟩
    exact List.pairwise_insertionSort _ population

theorem two_lt_limit : 2 + 1 < vectorLimit := by decide

theorem three_lt_limit : 3 + 1 < vectorLimit := by decide

theorem three_blocks_pos : 0 < 3 := three_pos

theorem three_lt_size : 3 < 2 ^ 64 := by decide

theorem pow_lt_size : 2 ^ 63 < 2 ^ 64 := by decide

/-- Two locks over three blocks of one position each. -/
def twoLocks : Config where
  kLockCnt := 2
  kBlocks := 3
  arraySize := 3
  kLockCnt_pos := Nat.two_pos
  kLockCnt_lt := two_lt_limit
  kBlocks_pos := three_pos
  kBlocks_lt := three_lt_size

/-- Three locks over so many blocks that twice their number wraps. -/
def threeLocks : Config :=
  { twoLocks with
    kLockCnt := 3
    kBlocks := 2 ^ 63
    kLockCnt_pos := three_pos
    kLockCnt_lt := three_lt_limit
    kBlocks_pos := Nat.two_pow_pos 63
    kBlocks_lt := pow_lt_size }

/-- The constructor leaves an invalid partition: its third cut is `2 * 2 ^ 63` modulo `2 ^ 64`,
divided by three. -/
theorem partitionsValid_threeLocks :
    1 ≤ threeLocks.kLockCnt ∧ threeLocks.kLockCnt ≤ threeLocks.kBlocks ∧ 2 ≤ threeLocks.kBlocks ∧
      threeLocks.initState.current.cuts =
        [0, 3074457345618258602, 0, 9223372036854775808] ∧
      ¬ ∀ s g, threeLocks.Reachable lowestDraws () s g → threeLocks.PartitionsValid s := by
  refine ⟨by decide, by decide, by decide, by decide, fun h => ?_⟩
  have hvalid := (h _ () .init).current
  exact absurd hvalid.increasing (by decide)

/-- Every partition two locks over three blocks ever have is valid. -/
theorem partitionsValid_iff_two_locks :
    (∀ s g, twoLocks.Reachable lowestDraws () s g →
      twoLocks.PartitionsValid s ∧
        ∀ batch p t, twoLocks.prepare s batch = some p →
          twoLocks.applyProfileGuidedPartition p = some (t, false) →
          twoLocks.PartitionsValid p ∧ twoLocks.PartitionsValid t ∧
            ∀ generation ≤ twoLocks.generationCount, ∀ population g',
              twoLocks.populationAfter lowestDraws t generation g = some (population, g') →
              ∀ c ∈ population, twoLocks.Valid c.cuts) ↔
    twoLocks.UniformFits :=
  Config.partitionsValid_iff twoLocks (by decide) lowestDraws ()

end GeneticPartitioner
end DynLocks
