import DynLocks.Genetic.Validity
import Mathlib.Tactic.Linarith
import Mathlib.Tactic.Positivity

/-!
# DynLocks.Genetic.Progress

Training does not make the current partition worse on the queries it trains on.

* `moveToward_reaches` — with the default `max_cut_shift_per_batch`, a move whose result can be
  evaluated at all has reached its target;
* `Elite` — the invariant of the loop over generations: every chromosome carries its own metrics
  and one of them is at least as fit as the partition training started from;
* `observeBatch_no_regress` — the result of a whole call, from every reachable state.
-/

namespace DynLocks
namespace GeneticPartitioner

open CutVector Sampler

/-! ## fitness -/

/-- The fitness of one partition on the queries is at most that of another, where both have
one. -/
def Config.NoWorse (cfg : Config) (queries : List Query) (cuts' cuts : List ℕ) : Prop :=
  ∀ metrics' metrics, cfg.evaluate cuts' queries = some metrics' →
    cfg.evaluate cuts queries = some metrics → metrics'.fitness ≤ metrics.fitness

namespace Config

variable {cfg : Config} {queries : List Query}

theorem noWorse_of_eq {cuts' cuts : List ℕ} (h : cuts' = cuts) :
    cfg.NoWorse queries cuts' cuts := by
  intro metrics' metrics h' hm
  rw [h, hm] at h'
  rw [Option.some.inj h']

/-- A fitness is the sum of a score and a positive multiple of a mean. -/
theorem fitness_nonneg {cuts : List ℕ} {metrics : PartitionMetrics}
    (h : cfg.evaluate cuts queries = some metrics) : 0 ≤ metrics.fitness := by
  unfold evaluate at h
  split at h
  · cases h
    exact le_refl _
  · split at h
    · cases h
    · cases h
      positivity

/-- Every valid partition has a fitness, as far as its vectors can be allocated. -/
theorem evaluate_isSome {cuts : List ℕ} (hvalid : cfg.Valid cuts)
    (hlimit : cfg.kBlocks < vectorLimit) : (cfg.evaluate cuts queries).isSome := by
  have hrange : cfg.LoadsInRange cuts := fun i hi _ => hvalid.getD_le_last (by omega)
  unfold evaluate
  split
  · rfl
  · rw [if_neg (not_or.mpr ⟨not_le.mpr hlimit, not_not.mpr hrange⟩)]
    rfl

/-- A partition with a fitness is within the allocation limit, and its segments are blocks. -/
theorem inRange_of_evaluate {cuts : List ℕ} {metrics : PartitionMetrics} (hne : queries ≠ [])
    (h : cfg.evaluate cuts queries = some metrics) :
    cfg.kBlocks < vectorLimit ∧ cfg.LoadsInRange cuts := by
  unfold evaluate at h
  rw [if_neg hne] at h
  split at h
  · cases h
  · next hnot =>
      rw [not_or, not_le, not_not] at hnot
      exact hnot

/-! ## moves -/

/-- Raising more cuts than there are blocks left takes one of them past the last block, from
below. -/
theorem exists_raised_past {previous : ℕ} {internal : List ℕ} (hlimit : cfg.kBlocks < vectorLimit)
    (hprevious : previous ≤ cfg.kBlocks) (hmany : cfg.kBlocks < previous + internal.length) :
    ∃ i < internal.length, (previous :: raiseCuts previous internal).getD i 0 ≤ cfg.kBlocks ∧
      cfg.kBlocks < (previous :: raiseCuts previous internal).getD (i + 1) 0 := by
  induction internal generalizing previous with
  | nil => simp at hmany; omega
  | cons cut rest ih =>
      rw [List.length_cons] at hmany
      have hmod : (previous + 1) % 2 ^ 64 = previous + 1 :=
        Nat.mod_eq_of_lt (by unfold vectorLimit at hlimit; omega)
      have hraised : raiseCuts previous (cut :: rest) =
          max cut (previous + 1) :: raiseCuts (max cut (previous + 1)) rest := by
        rw [raiseCuts, hmod]
      rw [hraised]
      by_cases hpast : cfg.kBlocks < max cut (previous + 1)
      · exact ⟨0, Nat.succ_pos _, hprevious, hpast⟩
      · obtain ⟨i, hi, hlo, hhi⟩ := @ih (max cut (previous + 1)) (by omega) (by omega)
        exact ⟨i + 1, Nat.succ_lt_succ hi, hlo, hhi⟩

/-- With more locks than blocks a repaired partition has no fitness. -/
theorem not_inRange_of_repair (hmany : cfg.kBlocks < cfg.kLockCnt) {internal repaired : List ℕ}
    (hlen : internal.length = cfg.kLockCnt - 1)
    (hrepair : repairInternalCuts cfg.kBlocks internal = some repaired)
    (hlimit : cfg.kBlocks < vectorLimit) :
    ¬ cfg.LoadsInRange (0 :: (repaired ++ [cfg.kBlocks])) := by
  have hpos := cfg.kBlocks_pos
  have hlocks := cfg.kLockCnt_lt
  unfold vectorLimit at hlocks hlimit
  cases internal with
  | nil => simp at hlen; omega
  | cons cut rest =>
      rw [List.length_cons] at hlen
      unfold repairInternalCuts at hrepair
      dsimp only at hrepair
      split at hrepair
      · cases hrepair
      · next hupper =>
          -- the bound of the clamp has wrapped, so there are at least two locks too many
          have hwrap : cfg.kBlocks < rest.length + 1 := by
            by_contra hle
            have heq : cfg.kBlocks = rest.length + 1 := by omega
            rw [heq, subSize] at hupper
            omega
          rw [capCuts] at hrepair
          dsimp only at hrepair
          cases hrepair
          rw [length_raiseCuts]
          generalize hfirst : min (max 1 (min cut (subSize cfg.kBlocks (rest.length + 1))))
            (subSize cfg.kBlocks (rest.length + 1)) = first
          have hfirst1 : 1 ≤ first := by omega
          intro hrange
          by_cases hpast : cfg.kBlocks < first
          · have h0 := hrange 0 cfg.kLockCnt_pos
            simp only [List.getD_cons_zero, List.getD_cons_succ, List.cons_append] at h0
            omega
          · have hroom : cfg.kBlocks < first + (capCuts cfg.kBlocks
                (raiseCuts (max 1 (min cut (subSize cfg.kBlocks (rest.length + 1)))) rest)).length := by
              rw [length_capCuts, length_raiseCuts]
              omega
            obtain ⟨i, hi, hlo, hhi⟩ := exists_raised_past (by unfold vectorLimit; omega)
              (Nat.le_of_not_lt hpast) hroom
            rw [length_capCuts, length_raiseCuts] at hi
            have hi1 := hrange (i + 1) (by omega)
            rw [List.getD_cons_succ, List.getD_cons_succ, List.getD_append _ _ _ _ (by simp; omega),
              List.getD_append _ _ _ _ (by simp; omega)] at hi1
            omega

/-- A profile is within the allocation limit. -/
theorem inLimit_of_profile {profile : List ℚ} (h : cfg.buildBlockProfile queries = some profile) :
    cfg.kBlocks < vectorLimit := by
  unfold buildBlockProfile at h
  split at h
  · cases h
  · next hlt => exact not_le.mp hlt

/-- With the default shift, a move between valid partitions ends at its target. -/
theorem moveToward_default (hshift : cfg.maxCutShiftPerBatch = cfg.kBlocks)
    (hlimit : cfg.kBlocks < vectorLimit) {source target : Chromosome}
    (hsource : cfg.Valid source.cuts) (htarget : cfg.Valid target.cuts) :
    ∃ moved, cfg.moveToward source target = some moved ∧ moved.cuts = target.cuts := by
  have hcut : cfg.cutShift = cfg.kBlocks := by
    have := cfg.kBlocks_pos
    rw [cutShift, hshift]
    omega
  unfold vectorLimit at hlimit
  exact moveToward_eq (le_of_eq hcut.symm) (by omega) hsource htarget

/-- A move to another partition has a fitness only when there is a block for every lock. -/
theorem room_of_move (hne : queries ≠ []) {source target moved : Chromosome}
    {metrics : PartitionMetrics} (hother : source.cuts ≠ target.cuts)
    (hmove : cfg.moveToward source target = some moved)
    (heval : cfg.evaluate moved.cuts queries = some metrics) : cfg.kLockCnt ≤ cfg.kBlocks := by
  obtain ⟨hlimit, hrange⟩ := inRange_of_evaluate hne heval
  by_contra hroom
  unfold moveToward at hmove
  rw [if_neg hother] at hmove
  obtain ⟨repaired, hrepair, hsome⟩ := Option.bind_eq_some_iff.mp hmove
  cases hsome
  exact absurd hrange (not_inRange_of_repair (by omega) (by simp) hrepair hlimit)

/-- With the default shift, a move whose result has a fitness has reached its target. -/
theorem moveToward_reaches (hshift : cfg.maxCutShiftPerBatch = cfg.kBlocks) (hne : queries ≠ [])
    {source target moved : Chromosome} {metrics : PartitionMetrics}
    (hvalid : cfg.kLockCnt ≤ cfg.kBlocks → cfg.Valid source.cuts ∧ cfg.Valid target.cuts)
    (hmove : cfg.moveToward source target = some moved)
    (heval : cfg.evaluate moved.cuts queries = some metrics) : moved.cuts = target.cuts := by
  by_cases hother : source.cuts = target.cuts
  · rw [moveToward, if_pos hother] at hmove
    cases hmove
    exact hother
  · have hroom := room_of_move hne hother hmove heval
    obtain ⟨reached, hreached, hcuts⟩ := moveToward_default hshift (inRange_of_evaluate hne heval).1
      (hvalid hroom).1 (hvalid hroom).2
    rw [hmove] at hreached
    rw [Option.some.inj hreached]
    exact hcuts

/-! ## the loop over generations -/

/-- Every chromosome carries its own metrics, and one of them is at or below the bound. -/
structure Elite (cfg : Config) (queries : List Query) (bound : ℚ) (population : List Chromosome) :
    Prop where
  evaluated : ∀ c ∈ population, cfg.evaluate c.cuts queries = some c.metrics
  reached : ∃ c ∈ population, c.metrics.fitness ≤ bound

section Search

variable {G : Type} {std : StdLib G} {bound : ℚ}

/-- The fittest chromosome comes first in the sorted population. -/
theorem Elite.front {population rest : List Chromosome} {front : Chromosome}
    (h : cfg.Elite queries bound population) (hsorted : std.sort population = front :: rest) :
    front ∈ population ∧ cfg.evaluate front.cuts queries = some front.metrics ∧
      front.metrics.fitness ≤ bound := by
  have hperm := std.sort_perm population
  have hmem : front ∈ population :=
    hperm.mem_iff.mp (by rw [hsorted]; exact List.mem_cons_self)
  obtain ⟨c, hc, hle⟩ := h.reached
  have hfront : front.metrics.fitness ≤ c.metrics.fitness := by
    have horder := std.sort_sorted population
    have hc' := hperm.mem_iff.mpr hc
    rw [hsorted] at horder hc'
    rcases List.mem_cons.mp hc' with rfl | hrest
    · exact le_refl _
    · exact (List.pairwise_cons.mp horder).1 c hrest
  exact ⟨hmem, h.evaluated front hmem, hfront.trans hle⟩

theorem breedChild_evaluated (population : List Chromosome) (selectable : ℕ) :
    Sat (cfg.breedChild std population selectable queries) fun child =>
      cfg.evaluate child.cuts queries = some child.metrics := by
  refine Sat.bind (Q := fun _ => True) (Sat.draw fun _ => trivial) fun lhs _ => ?_
  refine Sat.bind (Q := fun _ => True) (Sat.draw fun _ => trivial) fun rhs _ => ?_
  refine Sat.bind (Q := fun _ => True) (fun _ _ _ _ => trivial) fun child _ => ?_
  refine Sat.bind (Q := fun _ => True) (Sat.draw fun _ => trivial) fun mutateChild _ => ?_
  refine Sat.bind (Q := fun _ => True) (fun _ _ _ _ => trivial) fun mutated _ => ?_
  exact Sat.bind (Sat.ofOption fun metrics h => h) fun metrics h => Sat.pure h

/-- One generation keeps the elite: it copies the front of the sorted population. -/
theorem elite_nextGeneration {population : List Chromosome}
    (h : cfg.Elite queries bound population) :
    Sat (cfg.nextGeneration std queries population) (cfg.Elite queries bound) := by
  have helites : ∀ c ∈ (std.sort population).take cfg.elites,
      cfg.evaluate c.cuts queries = some c.metrics := fun c hc =>
    h.evaluated c ((std.sort_perm population).mem_iff.mp (List.mem_of_mem_take hc))
  refine ((Sat.collect (fun _ _ => breedChild_evaluated _ _) _ helites).and
    (Sat.collect_prefix _ _ _)).mono fun next hnext => ⟨hnext.1, ?_⟩
  cases hsorted : std.sort population with
  | nil =>
      -- the population is not empty
      obtain ⟨c, hc, -⟩ := h.reached
      have := (std.sort_perm population).mem_iff.mpr hc
      rw [hsorted] at this
      exact absurd this List.not_mem_nil
  | cons front rest =>
      have hpos : 0 < cfg.elites := Nat.lt_of_lt_of_le Nat.one_pos (Nat.le_max_left _ _)
      obtain ⟨n, hn⟩ := Nat.exists_eq_add_of_le' hpos
      have hcopied := hnext.2.subset
      rw [hsorted, hn, List.take_succ_cons] at hcopied
      exact ⟨front, hcopied List.mem_cons_self, (h.front hsorted).2.2⟩

/-- The seeds start with the current partition. -/
theorem current_mem_seeds {s : State} {seeded : List Chromosome}
    (h : cfg.seedGuided s (cfg.seedBest s) = some seeded) :
    s.current ∈ cfg.seedUniform seeded := by
  have hbest : s.current ∈ cfg.seedBest s := by
    unfold seedBest
    split
    · exact List.mem_cons_self
    · split <;> exact List.mem_cons_self
  have hguided : s.current ∈ seeded := by
    unfold seedGuided at h
    split at h
    · cases h
      exact hbest
    · split at h
      · obtain ⟨guided, -, hsome⟩ := Option.bind_eq_some_iff.mp h
        split at hsome
        · cases hsome
          exact List.mem_append_left _ hbest
        · cases hsome
          exact hbest
      · cases h
        exact hbest
  unfold seedUniform
  split
  · dsimp only
    split
    · exact hguided
    · exact List.mem_append_left _ hguided
  · exact hguided

/-- The population starts with the metrics of the current partition in it. -/
theorem elite_populationAfter {s : State} {metrics : PartitionMetrics}
    (hstart : cfg.evaluate s.current.cuts s.buildActiveQueries = some metrics) (generations : ℕ) :
    Sat (cfg.populationAfter std s generations)
      (cfg.Elite s.buildActiveQueries metrics.fitness) := by
  have hseed : Sat (cfg.seedPopulation std s) fun population => s.current ∈ population := by
    refine Sat.bind (Sat.ofOption fun seeded h => current_mem_seeds h) fun seeded hseeded => ?_
    refine Sat.bind (Sat.collect_prefix _ _ _) fun elites helites => ?_
    refine (Sat.collect_prefix _ _ _).mono fun population hbegins => ?_
    exact hbegins.subset (helites.subset hseeded)
  refine Sat.bind hseed fun seeded hseeded => ?_
  refine Sat.bind (Sat.ofOption fun population hrun => ?_) fun population hpop =>
    Sat.iterate (fun p hp => elite_nextGeneration hp) generations hpop
  obtain ⟨hcuts, hevaluated⟩ := evaluatePopulation_spec hrun
  have hmem : s.current.cuts ∈ population.map Chromosome.cuts := by
    rw [hcuts]
    exact List.mem_map_of_mem hseeded
  obtain ⟨c, hc, heq⟩ := List.mem_map.mp hmem
  refine ⟨hevaluated, c, hc, ?_⟩
  have hown := hevaluated c hc
  rw [heq, hstart] at hown
  rw [Option.some.inj hown]

/-! ## one call -/

theorem active_setActive {s : State} {component component' : WorkloadComponent}
    (h : s.active = some component) : (s.setActive component').active = some component' := by
  have hlt := (List.getElem?_eq_some_iff.mp h).1
  exact List.getElem?_set_self hlt

/-- What training does to the current partition and to the best one of the active component. -/
structure Improves (cfg : Config) (queries : List Query) (s s' : State) : Prop where
  current : cfg.NoWorse queries s'.current.cuts s.current.cuts
  index : s'.activeComponent = s.activeComponent
  best : ∀ component, s.active = some component → component.hasBestPartition = true →
    ∃ after, s'.active = some after ∧ after.hasBestPartition = true ∧
      cfg.NoWorse queries after.bestPartition.cuts component.bestPartition.cuts

theorem Improves.refl (s : State) : cfg.Improves queries s s :=
  ⟨noWorse_of_eq rfl, rfl, fun component hactive hbest =>
    ⟨component, hactive, hbest, noWorse_of_eq rfl⟩⟩

/-- Recording a centroid touches neither of the two partitions. -/
theorem Improves.of_mark {s s' : State} {component : WorkloadComponent}
    (hactive : s.active = some component)
    (h : cfg.Improves queries (markCentroid s component) s') : cfg.Improves queries s s' := by
  refine ⟨h.current, h.index, fun c hc hbest => ?_⟩
  cases hactive.symm.trans hc
  have hmarked := h.best _ (active_setActive hactive) hbest
  exact hmarked

theorem buildActiveQueries_mark {s : State} {component : WorkloadComponent}
    (hactive : s.active = some component) :
    (markCentroid s component).buildActiveQueries = s.buildActiveQueries := by
  have hmark : (markCentroid s component).active = some _ := active_setActive hactive
  rw [State.buildActiveQueries, State.buildActiveQueries, hmark, hactive]

/-- The partition a call ends with: it remembers a candidate and moves to a target at most as fit
as the current partition. -/
theorem improves_of_remember (hshift : cfg.maxCutShiftPerBatch = cfg.kBlocks)
    (hne : queries ≠ []) {s t : State} {component : WorkloadComponent}
    {candidate target moved : Chromosome} {metrics : PartitionMetrics}
    (hactive : s.active = some component)
    (hremember : cfg.rememberBest s candidate queries = some t)
    (hvalid : cfg.kLockCnt ≤ cfg.kBlocks → cfg.Valid s.current.cuts ∧ cfg.Valid target.cuts)
    (htarget : cfg.NoWorse queries target.cuts s.current.cuts)
    (hmove : cfg.moveToward s.current target = some moved)
    (heval : cfg.evaluate moved.cuts queries = some metrics) :
    cfg.Improves queries s { t with current := { moved with metrics } } := by
  obtain ⟨candidateMetrics, best, -, rfl, hbest, -, -, hold⟩ := rememberBest_spec hactive hremember
  have hcuts := moveToward_reaches hshift hne hvalid hmove heval
  refine ⟨?_, rfl, fun c hc hflag => ?_⟩
  · show cfg.NoWorse queries moved.cuts s.current.cuts
    rw [hcuts]
    exact htarget
  · cases hactive.symm.trans hc
    obtain ⟨old, holdEval, hle⟩ := hold hflag
    refine ⟨_, active_setActive hactive, rfl, fun m' m hm' hm => ?_⟩
    rw [show cfg.evaluate best.cuts queries = some m' from hm'] at hbest
    rw [hm] at holdEval
    rw [Option.some.inj hbest, Option.some.inj holdEval]
    exact hle

variable (hshift : cfg.maxCutShiftPerBatch = cfg.kBlocks) (hfits : cfg.UniformFits)
include hshift hfits

/-- The genetic search ends with a partition at least as fit as the one it started from. -/
theorem improves_train {s : State} (hs : cfg.kLockCnt ≤ cfg.kBlocks → cfg.PartitionsValid s) :
    Sat (cfg.trainOnActiveComponent std s) (cfg.Improves s.buildActiveQueries s) := by
  unfold trainOnActiveComponent
  dsimp only
  split
  · exact Sat.pure (.refl s)
  · next hne =>
      obtain ⟨component, hactive⟩ : ∃ component, s.active = some component := by
        cases hactive : s.active with
        | none =>
            rw [State.buildActiveQueries, hactive] at hne
            exact absurd rfl hne
        | some component => exact ⟨component, rfl⟩
      have hpop : Sat (cfg.populationAfter std s cfg.generationCount) fun population =>
          (cfg.kLockCnt ≤ cfg.kBlocks → ∀ c ∈ population, cfg.Valid c.cuts) ∧
            ∀ metrics, cfg.evaluate s.current.cuts s.buildActiveQueries = some metrics →
              cfg.Elite s.buildActiveQueries metrics.fitness population :=
        fun g population g' hrun =>
          ⟨fun hle => valid_populationAfter hle hfits (hs hle) _ g population g' hrun,
            fun metrics hm => elite_populationAfter hm _ g population g' hrun⟩
      refine Sat.bind hpop fun population hpopulation => ?_
      split
      · exact Sat.never
      · next front rest hsorted =>
          refine Sat.bind (Sat.ofOption fun t ht => ht) fun t hremember => ?_
          obtain ⟨frontMetrics, best, hfront, rfl, hbest, hle, hfrom, -⟩ :=
            rememberBest_spec hactive hremember
          rw [active_setActive hactive]
          dsimp only
          rw [if_pos rfl]
          refine Sat.bind (Sat.ofOption fun moved hmove => hmove) fun moved hmove => ?_
          refine Sat.bind (Sat.ofOption fun metrics heval => heval) fun metrics heval => Sat.pure ?_
          have hmem : front ∈ population :=
            (std.sort_perm population).mem_iff.mp (by rw [hsorted]; exact List.mem_cons_self)
          refine improves_of_remember hshift hne hactive hremember (fun hroom => ?_) ?_ hmove heval
          · refine ⟨(hs hroom).current, ?_⟩
            rcases hfrom with heq | ⟨hflag, heq⟩
            · rw [heq]
              exact hpopulation.1 hroom front hmem
            · rw [heq]
              exact (hs hroom).active hactive hflag
          · -- the best is at most the front of the last population, which elitism bounds
            intro m' m hm' hm
            obtain ⟨-, hown, hbound⟩ := (hpopulation.2 m hm).front hsorted
            rw [hbest] at hm'
            rw [hfront] at hown
            rw [← Option.some.inj hm']
            rw [Option.some.inj hown] at hle
            exact hle.trans hbound

/-- The part of a call after `ActivateComponent`. -/
theorem improves_improve {p : State} (hp : cfg.kLockCnt ≤ cfg.kBlocks → cfg.PartitionsValid p) :
    Sat (cfg.improve std p) (cfg.Improves p.buildActiveQueries p) := by
  refine Sat.bind (Sat.ofOption fun r hr => hr) fun r hguided => ?_
  obtain ⟨t, applied⟩ := r
  dsimp only
  cases applied with
  | true =>
      rw [if_pos rfl]
      refine Sat.pure ?_
      obtain ⟨component, guided, startMetrics, metrics, remembered, moved, movedMetrics, hactive, hne,
        hmake, -, hstart, hmetrics, hfitter, hremembered, hmoved, hmovedMetrics, rfl⟩ :=
        applyProfileGuided_true hguided
      have himproves := improves_of_remember hshift hne hactive hremembered
        (fun hroom => ⟨(hp hroom).current, valid_makeLoadBalanced hroom hfits hmake⟩)
        (fun m' m hm' hm => by
          rw [show cfg.evaluate guided.cuts _ = some m' from hm'] at hmetrics
          rw [hm] at hstart
          have hnonneg := fitness_nonneg hm
          rw [Option.some.inj hmetrics, Option.some.inj hstart] at *
          linarith) hmoved hmovedMetrics
      refine ⟨himproves.current, himproves.index, fun c hc hflag => ?_⟩
      obtain ⟨after, hafter, hflag', hbest⟩ := himproves.best c hc hflag
      have hremActive : remembered.active = some after := hafter
      rw [hremActive, Option.getD_some]
      exact ⟨_, active_setActive hremActive, hflag', hbest⟩
  | false =>
      rw [if_neg Bool.false_ne_true]
      rcases applyProfileGuided_false hguided with rfl | ⟨component, hactive, rfl⟩
      · split
        · exact Sat.pure (.refl _)
        · exact improves_train hshift hfits hp
      · split
        · exact Sat.pure (.of_mark hactive (.refl _))
        · have hvalid : cfg.kLockCnt ≤ cfg.kBlocks →
              cfg.PartitionsValid (markCentroid p component) := fun hroom =>
            partitionsValid_markCentroid (hp hroom) ((hp hroom).active hactive)
          have htrain : Sat (cfg.trainOnActiveComponent std (markCentroid p component)) _ :=
            improves_train hshift hfits hvalid
          rw [buildActiveQueries_mark hactive] at htrain
          exact htrain.mono fun s' hs' => .of_mark hactive hs'

end Search

/-! ## the component before the call -/

/-- Unless the batch replaced the component, it is activated with the best partition it had. -/
theorem best_of_prepare {s p : State} {batch : List Query} (hprepare : cfg.prepare s batch = some p)
    {before activated : WorkloadComponent} (hbefore : s.components[p.activeComponent]? = some before)
    (hactivated : p.active = some activated) (hflag : activated.hasBestPartition = true) :
    activated.bestPartition = before.bestPartition := by
  obtain ⟨profile, -, hactivate⟩ := prepare_eq_some hprepare
  have hmembers : p.components =
        (cfg.assignBatchToComponent (cfg.decayComponentMasses s) profile batch).1.components ∧
      p.activeComponent =
        (cfg.assignBatchToComponent (cfg.decayComponentMasses s) profile batch).2 := by
    rcases activateComponent_cases hactivate with rfl | ⟨component, moved, -, -, -, rfl⟩
    · exact ⟨rfl, rfl⟩
    · exact ⟨rfl, rfl⟩
  rw [State.active, hmembers.1, hmembers.2] at hactivated
  rw [hmembers.2] at hbefore
  have hdecayed : (cfg.decayComponentMasses s).components[
      (cfg.assignBatchToComponent (cfg.decayComponentMasses s) profile batch).2]? =
        some { before with mass := before.mass * cfg.decay } := by
    have hmap := List.getElem?_map (l := s.components) (f := fun component : WorkloadComponent =>
      { component with mass := component.mass * cfg.decay })
      (i := (cfg.assignBatchToComponent (cfg.decayComponentMasses s) profile batch).2)
    rw [hbefore] at hmap
    exact hmap
  revert hactivated hdecayed
  generalize cfg.decayComponentMasses s = d
  unfold assignBatchToComponent
  intro hactivated hdecayed
  split at hactivated
  · next hempty =>
      rw [if_pos hempty, hempty] at hdecayed
      cases hdecayed
  · next hsome =>
      rw [if_neg hsome] at hdecayed
      dsimp only at hactivated hdecayed
      split at hactivated
      · next hfar =>
          rw [if_pos hfar] at hdecayed
          split at hactivated
          · next hfew =>
              rw [if_pos hfew] at hdecayed
              rw [List.getElem?_eq_none (le_refl _)] at hdecayed
              cases hdecayed
          · next hmany =>
              rw [if_neg hmany] at hdecayed
              simp only [replaceWeakestComponent] at hactivated hdecayed
              rw [List.getElem?_modify_eq, hdecayed] at hactivated
              cases hactivated
              cases hflag
      · next hnear =>
          rw [if_neg hnear] at hdecayed
          dsimp only at hactivated hdecayed
          rw [List.getElem?_modify_eq, hdecayed] at hactivated
          cases hactivated
          rfl

/-- **Training never makes a partition worse.**  With the default `max_cut_shift_per_batch` and a
uniform partition that does not wrap, whatever the random numbers are: when a call returns, the
current partition is at most as fit on the queries of the active component as the one current
right after the component was activated, and so is the component's best partition compared with
the one it had before the call, unless the call has replaced the component. -/
theorem observeBatch_no_regress (cfg : Config) (hshift : cfg.maxCutShiftPerBatch = cfg.kBlocks)
    (hfits : cfg.UniformFits) {G : Type} (std : StdLib G) (seed : G) {s s' : State} {g g' : G}
    (hreach : cfg.Reachable std seed s g) {batch : List Query} (hbatch : batch ≠ [])
    (hrun : cfg.observeBatch std s batch g = some (s', g')) :
    ∃ p, cfg.prepare s batch = some p ∧
      cfg.NoWorse p.buildActiveQueries s'.current.cuts p.current.cuts ∧
      (cfg.kLockCnt ≤ cfg.kBlocks →
        (cfg.evaluate s'.current.cuts p.buildActiveQueries).isSome ∧
          (cfg.evaluate p.current.cuts p.buildActiveQueries).isSome) ∧
      ∀ before activated, s.components[p.activeComponent]? = some before →
        before.hasBestPartition = true →
        p.active = some activated → activated.hasBestPartition = true →
        ∃ after, s'.components[p.activeComponent]? = some after ∧ after.hasBestPartition = true ∧
          cfg.NoWorse p.buildActiveQueries after.bestPartition.cuts before.bestPartition.cuts := by
  have hs : cfg.kLockCnt ≤ cfg.kBlocks → cfg.PartitionsValid s :=
    fun hle => partitionsValid_of_reachable hle hfits hreach
  have hs' : cfg.kLockCnt ≤ cfg.kBlocks → cfg.PartitionsValid s' :=
    fun hle => partitionsValid_observeBatch hle hfits (hs hle) batch g s' g' hrun
  unfold observeBatch at hrun
  rw [if_neg hbatch] at hrun
  obtain ⟨⟨p, g₁⟩, hprepare, himprove⟩ := Option.bind_eq_some_iff.mp hrun
  obtain ⟨q, hq, heq⟩ := Option.map_eq_some_iff.mp hprepare
  cases heq
  have hp : cfg.kLockCnt ≤ cfg.kBlocks → cfg.PartitionsValid p :=
    fun hle => partitionsValid_prepare hle (hs hle) hq
  have himproves := improves_improve hshift hfits hp g s' g' himprove
  refine ⟨p, hq, himproves.current, fun hle => ?_, fun before activated hbefore _ hactive hflag => ?_⟩
  · obtain ⟨profile, hprofile, -⟩ := prepare_eq_some hq
    have hlimit := inLimit_of_profile hprofile
    exact ⟨evaluate_isSome (hs' hle).current hlimit, evaluate_isSome (hp hle).current hlimit⟩
  · obtain ⟨after, hafter, hflag', hbest⟩ := himproves.best activated hactive hflag
    rw [best_of_prepare hq hbefore hactive hflag] at hbest
    rw [State.active, himproves.index] at hafter
    exact ⟨after, hafter, hflag', hbest⟩

end Config

/-! ## a replaced component -/

/-- Two locks, two components, and no room in the population but for the current partition. -/
def twoComponents : Config :=
  { twoLocks with
    populationSize := 1
    eliteCount := 1
    generationCount := 1
    maxComponents := 2
    newComponentThreshold := 0 }

/-- Queries of one block. -/
def onBlock (block : UInt32) (count : ℕ) : List Query :=
  List.replicate count { left := block, right := block }

/-- The component of the first batch, eight queries on each of the blocks 1 and 2. -/
def rightComponent : WorkloadComponent where
  centroid := [0, 1 / 2, 1 / 2]
  partitionCentroid := [0, 1 / 2, 1 / 2]
  queries := onBlock 1 8 ++ onBlock 2 8
  bestPartition := ⟨[0, 2, 3], ⟨128, 1, 5128⟩⟩
  mass := 1
  hasBestPartition := true
  hasPartitionCentroid := true

/-- The component of the second batch, sixteen queries on block 0 and eight on block 1. -/
def leftComponent : WorkloadComponent where
  centroid := [2 / 3, 1 / 3, 0]
  partitionCentroid := [2 / 3, 1 / 3, 0]
  queries := onBlock 0 16 ++ onBlock 1 8
  bestPartition := ⟨[0, 1, 3], ⟨320, 1, 5320⟩⟩
  mass := 1
  hasBestPartition := true
  hasPartitionCentroid := true

/-- The component of the third batch, one query over the blocks 0 and 1. -/
def acrossComponent : WorkloadComponent where
  centroid := [1 / 2, 1 / 2, 0]
  partitionCentroid := [1 / 2, 1 / 2, 0]
  queries := [{ left := 0, right := 1 }]
  bestPartition := ⟨[0, 1, 3], ⟨2, 2, 10002⟩⟩
  mass := 1
  hasBestPartition := true
  hasPartitionCentroid := true

/-- The partitioner after the first batch. -/
def afterRight : State := ⟨[rightComponent], 0, rightComponent.bestPartition⟩

/-- The partitioner after the second batch. -/
def afterLeft : State :=
  ⟨[{ rightComponent with mass := 9 / 10 }, leftComponent], 1, leftComponent.bestPartition⟩

/-- The partitioner after the third batch, which has replaced the first component. -/
def afterAcross : State :=
  ⟨[acrossComponent, { leftComponent with mass := 9 / 10 }], 0, acrossComponent.bestPartition⟩

theorem observed_right :
    twoComponents.observeBatch lowestDraws twoComponents.initState rightComponent.queries () =
      some (afterRight, ()) := by
  decide +kernel

theorem observed_left :
    twoComponents.observeBatch lowestDraws afterRight leftComponent.queries () =
      some (afterLeft, ()) := by
  decide +kernel

theorem observed_across :
    twoComponents.observeBatch lowestDraws afterLeft acrossComponent.queries () =
      some (afterAcross, ()) := by
  decide +kernel

theorem reachable_afterRight : twoComponents.Reachable lowestDraws () afterRight () :=
  .observeBatch _ .init observed_right

theorem reachable_afterLeft : twoComponents.Reachable lowestDraws () afterLeft () :=
  .observeBatch _ reachable_afterRight observed_left

/-- The queries of the first batch once more, when another component is active: the first one has
both batches in its history, and its best partition is the current one. -/
def backRight : State where
  components :=
    [{ rightComponent with
        queries := rightComponent.queries ++ rightComponent.queries
        mass := 181 / 100 },
      { leftComponent with mass := 9 / 10 }]
  activeComponent := 0
  current := ⟨[0, 2, 3], {}⟩

/-- A call for a component that remembers a partition keeps one that is no worse. -/
theorem observeBatch_no_regress_right :
    twoComponents.prepare afterLeft rightComponent.queries = some backRight ∧
      ∃ s' after,
        twoComponents.observeBatch lowestDraws afterLeft rightComponent.queries () =
          some (s', ()) ∧
        twoComponents.NoWorse backRight.buildActiveQueries s'.current.cuts [0, 2, 3] ∧
        s'.components[0]? = some after ∧ after.hasBestPartition = true ∧
        twoComponents.NoWorse backRight.buildActiveQueries after.bestPartition.cuts
          rightComponent.bestPartition.cuts := by
  have hprepare :
      twoComponents.prepare afterLeft rightComponent.queries = some backRight := by
    decide +kernel
  obtain ⟨⟨s', g'⟩, hrun⟩ := Option.isSome_iff_exists.mp
    (by decide +kernel :
      (twoComponents.observeBatch lowestDraws afterLeft rightComponent.queries ()).isSome = true)
  obtain ⟨p, hp, hcurrent, -, hbest⟩ := Config.observeBatch_no_regress twoComponents rfl
    (by decide) lowestDraws () reachable_afterLeft (by decide) hrun
  cases hprepare.symm.trans hp
  obtain ⟨after, hafter, hflag, hnoWorse⟩ := hbest _ _ rfl rfl rfl rfl
  exact ⟨hprepare, s', after, hrun, hcurrent, hafter, hflag, hnoWorse⟩

/-- The third batch replaces the component of the first one. That component's partition `[0, 2, 3]`
needs one mutex for the query and has fitness 5004; the best partition of the component that takes
its place is `[0, 1, 3]`, with fitness 10002. -/
theorem observeBatch_no_regress_replaced :
    ¬ ∀ s s' batch p before, twoComponents.Reachable lowestDraws () s () → batch ≠ [] →
      twoComponents.observeBatch lowestDraws s batch () = some (s', ()) →
      twoComponents.prepare s batch = some p →
      s.components[p.activeComponent]? = some before → before.hasBestPartition = true →
      ∃ after, s'.components[p.activeComponent]? = some after ∧ after.hasBestPartition = true ∧
        twoComponents.NoWorse p.buildActiveQueries after.bestPartition.cuts
          before.bestPartition.cuts := by
  intro h
  let reset : WorkloadComponent :=
    { acrossComponent with
      partitionCentroid := []
      bestPartition := rightComponent.bestPartition
      hasBestPartition := false
      hasPartitionCentroid := false }
  obtain ⟨after, hafter, -, hnoWorse⟩ := h afterLeft afterAcross acrossComponent.queries
    ⟨[reset, { leftComponent with mass := 9 / 10 }], 0, leftComponent.bestPartition⟩
    { rightComponent with mass := 9 / 10 } reachable_afterLeft (by decide) observed_across
    (by decide +kernel) rfl rfl
  cases hafter
  have hle := hnoWorse ⟨2, 2, 10002⟩ ⟨4, 1, 5004⟩ (by decide +kernel) (by decide +kernel)
  norm_num at hle

end GeneticPartitioner
end DynLocks
