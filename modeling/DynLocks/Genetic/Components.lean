import DynLocks.Genetic.Hits
import DynLocks.Genetic.Progress
import Mathlib.Algebra.BigOperators.Ring.Finset
import Mathlib.Algebra.BigOperators.Ring.List
import Mathlib.Data.List.DropRight
import Mathlib.Tactic.Ring

/-!
# DynLocks.Genetic.Components

The bookkeeping of the workload modes, along every run of nonempty batches.

`Traced` runs a partitioner and keeps, for each component, the batches assigned to it since it was
last reset; `Assignment` names the branch that `AssignBatchToComponent` takes.  `ComponentOk` says
what a component holds given its batches, and every reachable state is `Kept`:

* `isProfile_of_build`, `isProfile_update` — profiles and averages of profiles are distributions;
* `kept_prepare`, `kept_improve` — the two halves of `ObserveBatch`;
* `kept_of_traced` — the run, with what a replacement does.
-/

namespace DynLocks
namespace GeneticPartitioner

open Sampler

/-! ## what is kept -/

namespace Config

variable (cfg : Config)

/-- A distribution over the blocks. -/
structure IsProfile (profile : List ℚ) : Prop where
  length : profile.length = cfg.kBlocks
  nonneg : ∀ x ∈ profile, 0 ≤ x
  sum : profile.sum = 1

/-- A component that has got `batches` since its last reset: it holds the last of their queries,
and a best partition is one that was evaluated on them. -/
structure ComponentOk (batches : List (List Query)) (component : WorkloadComponent) : Prop where
  nonempty : batches ≠ []
  queries : component.queries = batches.flatten.rtake cfg.queryLimit
  centroid : cfg.IsProfile component.centroid
  partitionCentroid : component.hasPartitionCentroid = true →
    component.partitionCentroid.length = cfg.kBlocks
  best : component.hasBestPartition = true → ∃ n, 0 < n ∧ n ≤ batches.length ∧
    cfg.evaluate component.bestPartition.cuts ((batches.take n).flatten.rtake cfg.queryLimit) =
      some component.bestPartition.metrics

/-- The components against the batches they got. -/
structure Kept (log : List (List (List Query))) (s : State) : Prop where
  few : s.components.length ≤ cfg.componentLimit
  active : log ≠ [] → s.activeComponent < s.components.length
  ok : List.Forall₂ cfg.ComponentOk log s.components

end Config

/-- The branches of `AssignBatchToComponent`: a new component, the reset of one, the update of
one. -/
inductive Assignment
  | fresh
  | replaced (i : ℕ)
  | updated (i : ℕ)
  deriving DecidableEq

/-- The batches of each component, with one more. -/
def Assignment.record (log : List (List (List Query))) (batch : List Query) :
    Assignment → List (List (List Query))
  | .fresh => log ++ [[batch]]
  | .replaced i => log.modify i fun _ => [batch]
  | .updated i => log.modify i fun batches => batches ++ [batch]

namespace Config

variable (cfg : Config)

/-- The branch that is taken. -/
def assignmentOf (s : State) (profile : List ℚ) : Assignment :=
  if s.components = [] then .fresh
  else if (nearestComponent s.components profile).2 > cfg.threshold then
    if s.components.length < cfg.componentLimit then .fresh
    else .replaced (weakestIndex s.components)
  else .updated (nearestComponent s.components profile).1

/-- What `AssignBatchToComponent` does on a branch. -/
def perform (s : State) (profile : List ℚ) (batch : List Query) : Assignment → State × ℕ
  | .fresh => (⟨s.components ++ [cfg.resetComponent {} profile batch], s.activeComponent,
      s.current⟩, s.components.length)
  | .replaced i => (⟨s.components.modify i fun component =>
      cfg.resetComponent component profile batch, s.activeComponent, s.current⟩, i)
  | .updated i => (⟨s.components.modify i fun component =>
      cfg.updateComponent component profile batch, s.activeComponent, s.current⟩, i)

/-- A run of `ObserveBatch` over nonempty batches of queries with ordered ends, with the batches
that each component has got since its last reset. -/
inductive Traced {G : Type} (std : StdLib G) (seed : G) :
    List (List (List Query)) → State → G → Prop
  | init : Traced std seed [] cfg.initState seed
  | observeBatch {log : List (List (List Query))} {s s' : State} {g g' : G} {batch : List Query}
      {profile : List ℚ} : Traced std seed log s g → batch ≠ [] →
      (∀ query ∈ batch, query.left ≤ query.right) → cfg.buildBlockProfile batch = some profile →
      cfg.observeBatch std s batch g = some (s', g') →
      Traced std seed
        ((cfg.assignmentOf (cfg.decayComponentMasses s) profile).record log batch) s' g'

variable {cfg}

/-- The code takes that branch. -/
theorem assignBatchToComponent_eq (s : State) (profile : List ℚ) (batch : List Query) :
    cfg.assignBatchToComponent s profile batch =
      cfg.perform s profile batch (cfg.assignmentOf s profile) := by
  unfold assignBatchToComponent assignmentOf
  by_cases hempty : s.components = []
  · rw [if_pos hempty, if_pos hempty, perform, hempty]
    rfl
  · rw [if_neg hempty, if_neg hempty]
    dsimp only
    split
    · split <;> rfl
    · rfl

/-! ## profiles -/

/-- The profile of a nonempty batch of ordered queries. -/
theorem isProfile_of_build {batch : List Query} {profile : List ℚ} (hne : batch ≠ [])
    (hordered : ∀ query ∈ batch, query.left ≤ query.right)
    (h : cfg.buildBlockProfile batch = some profile) : cfg.IsProfile profile := by
  have hhits : (cfg.blockHits batch : ℕ → ℚ) = Nat.cast ∘ cfg.blockHits batch :=
    blockHits_hom Nat.cast_zero Nat.cast_succ batch
  have htotal : (cfg.totalHits batch : ℚ) =
      ((batch.map fun query => (cfg.blocksOf query).length).sum : ℕ) :=
    totalHits_hom Nat.cast_zero Nat.cast_succ batch
  have hsum := @sum_blockHits cfg batch
  have hpos : 0 < (batch.map fun query => (cfg.blocksOf query).length).sum := by
    obtain ⟨query, rest, rfl⟩ := List.exists_cons_of_ne_nil hne
    have hblocks := cfg.positionToBlock_mono
      (UInt32.le_iff_toNat_le.mp (hordered query List.mem_cons_self))
    rw [List.map_cons, List.sum_cons]
    have hlen : (cfg.blocksOf query).length = _ := List.length_range'
    omega
  generalize (batch.map fun query => (cfg.blocksOf query).length).sum = total at *
  have hne' : (total : ℚ) ≠ 0 := by
    rw [Nat.cast_ne_zero]
    omega
  unfold buildBlockProfile at h
  split at h
  · cases h
  · rw [htotal, hhits] at h
    simp only [if_neg hne', Option.some.injEq] at h
    subst h
    refine ⟨by simp, ?_, ?_⟩
    · intro x hx
      simp only [List.mem_map, Function.comp_apply, exists_exists_and_eq_and] at hx
      obtain ⟨b, -, rfl⟩ := hx
      positivity
    · have hcast : ((List.range cfg.kBlocks).map (Nat.cast ∘ cfg.blockHits batch : ℕ → ℚ)).sum =
          total := by
        rw [← hsum, Nat.cast_sum]
        rfl
      simp only [div_eq_mul_inv]
      rw [List.sum_map_mul_right, List.map_id', hcast, mul_inv_cancel₀ hne']

/-- The learning rate is clamped to the unit interval. -/
theorem learningRate_mem : 0 ≤ cfg.learningRate ∧ cfg.learningRate ≤ 1 :=
  ⟨le_max_left _ _, max_le zero_le_one (min_le_right _ _)⟩

/-- The entries of a list that is as long as the line, read one by one. -/
theorem map_getD_range {n : ℕ} {l : List ℚ} (h : l.length = n) :
    ((List.range n).map fun b => l.getD b 0) = l := by
  apply List.ext_getElem (by simp [h])
  intro b hb hb'
  simp [List.getElem?_eq_getElem hb']

theorem getD_nonneg {l : List ℚ} (h : ∀ x ∈ l, 0 ≤ x) (b : ℕ) : 0 ≤ l.getD b 0 := by
  rw [List.getD_eq_getElem?_getD]
  cases hget : l[b]? with
  | none => exact le_rfl
  | some x => exact h x (List.mem_of_getElem? hget)

/-- The average of two distributions is one. -/
theorem isProfile_update {component : WorkloadComponent} {profile : List ℚ}
    (hcentroid : cfg.IsProfile component.centroid) (hprofile : cfg.IsProfile profile)
    (batch : List Query) :
    cfg.IsProfile (cfg.updateComponent component profile batch).centroid := by
  obtain ⟨hlow, hhigh⟩ := @learningRate_mem cfg
  show cfg.IsProfile ((List.range cfg.kBlocks).map fun block =>
    (1 - cfg.learningRate) * component.centroid.getD block 0 +
      cfg.learningRate * profile.getD block 0)
  refine ⟨by simp, fun x hx => ?_, ?_⟩
  · obtain ⟨b, -, rfl⟩ := List.mem_map.mp hx
    have hold := getD_nonneg hcentroid.nonneg b
    have hnew := getD_nonneg hprofile.nonneg b
    have hrest : 0 ≤ 1 - cfg.learningRate := sub_nonneg.mpr hhigh
    positivity
  · rw [List.sum_map_add, List.sum_map_mul_left, List.sum_map_mul_left,
      map_getD_range hcentroid.length, map_getD_range hprofile.length, hcentroid.sum,
      hprofile.sum]
    ring

/-! ## one component -/

/-- The deque keeps the last queries, so it does not matter that it forgot some before. -/
theorem rtake_append_rtake (n : ℕ) (kept batch : List Query) :
    (kept.rtake n ++ batch).rtake n = (kept ++ batch).rtake n := by
  simp only [List.rtake_eq_reverse_take_reverse, List.reverse_append, List.reverse_reverse,
    List.take_append, List.take_take]
  rw [show min (n - batch.reverse.length) n = n - batch.reverse.length by omega]

/-- `ResetComponent` leaves a component with one batch. -/
theorem componentOk_reset {profile : List ℚ} (hprofile : cfg.IsProfile profile)
    (component : WorkloadComponent) (batch : List Query) :
    cfg.ComponentOk [batch] (cfg.resetComponent component profile batch) where
  nonempty := List.cons_ne_nil _ _
  queries := by
    rw [List.flatten_singleton]
    rfl
  centroid := hprofile
  partitionCentroid h := by cases h
  best h := by cases h

/-- `UpdateComponent` adds a batch: the centroid is a mean of two distributions. -/
theorem ComponentOk.update {batches : List (List Query)} {component : WorkloadComponent}
    (h : cfg.ComponentOk batches component) {profile : List ℚ} (hprofile : cfg.IsProfile profile)
    (batch : List Query) :
    cfg.ComponentOk (batches ++ [batch]) (cfg.updateComponent component profile batch) where
  nonempty := by simp
  queries := by
    have hqueries : (cfg.updateComponent component profile batch).queries =
        (component.queries ++ batch).rtake cfg.queryLimit := rfl
    rw [hqueries, h.queries, rtake_append_rtake, List.flatten_append, List.flatten_singleton]
  centroid := isProfile_update h.centroid hprofile batch
  partitionCentroid := h.partitionCentroid
  best hbest := by
    obtain ⟨n, hpos, hle, heval⟩ := h.best hbest
    refine ⟨n, hpos, by simp; omega, ?_⟩
    rw [List.take_append_of_le_length hle]
    exact heval

/-- The mass says nothing about the batches. -/
theorem ComponentOk.decay {batches : List (List Query)} {component : WorkloadComponent}
    (h : cfg.ComponentOk batches component) (mass : ℚ) :
    cfg.ComponentOk batches { component with mass } :=
  ⟨h.nonempty, h.queries, h.centroid, h.partitionCentroid, h.best⟩

/-- The centroid of a component has an entry for each block. -/
theorem ComponentOk.mark {batches : List (List Query)} {component : WorkloadComponent}
    (h : cfg.ComponentOk batches component) :
    cfg.ComponentOk batches { component with
      partitionCentroid := component.centroid
      hasPartitionCentroid := true } :=
  ⟨h.nonempty, h.queries, h.centroid, fun _ => h.centroid.length, h.best⟩

/-- A partition that was evaluated on the queries of the component may be remembered. -/
theorem ComponentOk.remember {batches : List (List Query)} {component : WorkloadComponent}
    (h : cfg.ComponentOk batches component) {best : Chromosome}
    (heval : cfg.evaluate best.cuts component.queries = some best.metrics) :
    cfg.ComponentOk batches { component with bestPartition := best, hasBestPartition := true } :=
  ⟨h.nonempty, h.queries, h.centroid, h.partitionCentroid, fun _ =>
    ⟨batches.length, List.length_pos_iff.mpr h.nonempty, le_rfl, by
      rw [List.take_length, ← h.queries]
      exact heval⟩⟩

/-! ## assigning a batch -/

/-- Two lists that match still match after matching changes at one index. -/
theorem forall₂_modify {α β : Type} {R : α → β → Prop} {xs : List α} {ys : List β} {f : α → α}
    {g : β → β} (h : List.Forall₂ R xs ys) (hfg : ∀ x y, R x y → R (f x) (g y)) (i : ℕ) :
    List.Forall₂ R (xs.modify i f) (ys.modify i g) := by
  induction h generalizing i with
  | nil => simp
  | cons hxy hrest ih =>
      cases i with
      | zero => exact .cons (hfg _ _ hxy) hrest
      | succ i => exact .cons hxy (ih i)

/-- The element at an index may change if it goes on matching. -/
theorem forall₂_set {α β : Type} {R : α → β → Prop} {xs : List α} {ys : List β} {y y' : β} {i : ℕ}
    (h : List.Forall₂ R xs ys) (hi : ys[i]? = some y) (hy : ∀ x, R x y → R x y') :
    List.Forall₂ R xs (ys.set i y') := by
  induction h generalizing i with
  | nil => cases hi
  | @cons a b as bs hab hrest ih =>
      cases i with
      | zero =>
          cases hi
          exact .cons (hy a hab) hrest
      | succ i => exact .cons hab (ih hi)

/-- `DecayComponentMasses` changes the masses alone. -/
theorem kept_decay {log : List (List (List Query))} {s : State} (h : cfg.Kept log s) :
    cfg.Kept log (cfg.decayComponentMasses s) where
  few := by simpa [decayComponentMasses] using h.few
  active hne := by simpa [decayComponentMasses] using h.active hne
  ok := by
    unfold decayComponentMasses
    rw [List.forall₂_map_right_iff]
    exact h.ok.imp fun _ component hok => hok.decay (component.mass * cfg.decay)

/-- There is room for one component at least. -/
theorem componentLimit_pos : 0 < cfg.componentLimit := by
  unfold componentLimit
  omega

/-- The chosen index is one of a component, and its log is that of the branch. -/
theorem kept_perform {log : List (List (List Query))} {s : State} (h : cfg.Kept log s)
    {profile : List ℚ} (hprofile : cfg.IsProfile profile) (batch : List Query) (current : Chromosome) :
    let a := cfg.assignmentOf s profile
    let r := cfg.perform s profile batch a
    cfg.Kept (a.record log batch) ⟨r.1.components, r.2, current⟩ := by
  intro a r
  have hlimit := @componentLimit_pos cfg
  simp only [a, r, assignmentOf]
  by_cases hempty : s.components = []
  · rw [if_pos hempty]
    refine ⟨?_, fun _ => ?_, List.rel_append h.ok (.cons (componentOk_reset hprofile _ _) .nil)⟩
    · simp [perform, hempty]
      omega
    · simp [perform]
  · rw [if_neg hempty]
    have hweakest := (weakestIndex_spec hempty).1
    have hnearest := (nearestComponent_spec hempty profile).1
    have hfew := h.few
    split
    · split
      · refine ⟨?_, fun _ => ?_, List.rel_append h.ok (.cons (componentOk_reset hprofile _ _) .nil)⟩
        · simp [perform]
          omega
        · simp [perform]
      · refine ⟨?_, fun _ => ?_, forall₂_modify h.ok (fun _ _ _ => componentOk_reset hprofile _ _) _⟩
        · simpa [perform] using hfew
        · simpa [perform] using hweakest
    · refine ⟨?_, fun _ => ?_, forall₂_modify h.ok (fun _ _ hok => hok.update hprofile batch) _⟩
      · simpa [perform] using hfew
      · simpa [perform] using hnearest

/-- `ObserveBatch` up to `ActivateComponent`. -/
theorem kept_prepare {log : List (List (List Query))} {s t : State} {batch : List Query}
    {profile : List ℚ} (h : cfg.Kept log s) (hprofile : cfg.IsProfile profile)
    (hbuild : cfg.buildBlockProfile batch = some profile) (hprepare : cfg.prepare s batch = some t) :
    cfg.Kept ((cfg.assignmentOf (cfg.decayComponentMasses s) profile).record log batch) t := by
  obtain ⟨profile', hbuild', hactivate⟩ := prepare_eq_some hprepare
  cases hbuild.symm.trans hbuild'
  rw [assignBatchToComponent_eq] at hactivate
  have hperform := kept_perform (kept_decay h) hprofile batch
  rcases activateComponent_cases hactivate with rfl | ⟨component, moved, -, -, -, rfl⟩
  · exact hperform _
  · exact hperform moved

/-! ## improving the partition -/

section Improve

variable {log : List (List (List Query))} {s t : State}

/-- The current partition is not a component's. -/
theorem Kept.current (h : cfg.Kept log s) (current : Chromosome) :
    cfg.Kept log { s with current } := ⟨h.few, h.active, h.ok⟩

/-- The active component may be changed as long as it fits its batches. -/
theorem Kept.setActive (h : cfg.Kept log s) {component component' : WorkloadComponent}
    (hactive : s.active = some component)
    (hok : ∀ batches, cfg.ComponentOk batches component → cfg.ComponentOk batches component') :
    cfg.Kept log (s.setActive component') where
  few := by simpa [State.setActive] using h.few
  active hne := by simpa [State.setActive] using h.active hne
  ok := forall₂_set h.ok hactive hok

/-- The partition centroid is taken from the centroid. -/
theorem kept_mark (h : cfg.Kept log s) {component : WorkloadComponent}
    (hactive : s.active = some component) : cfg.Kept log (markCentroid s component) :=
  h.setActive hactive fun _ hok => hok.mark

/-- A best partition is remembered with its metrics on all batches of its component. -/
theorem kept_remember (h : cfg.Kept log s) {candidate : Chromosome}
    (hremember : cfg.rememberBest s candidate s.buildActiveQueries = some t) : cfg.Kept log t := by
  cases hactive : s.active with
  | none =>
      unfold rememberBest at hremember
      rw [hactive] at hremember
      cases hremember
      exact h
  | some component =>
      obtain ⟨metrics, best, -, rfl, heval, -⟩ := rememberBest_spec hactive hremember
      rw [State.buildActiveQueries, hactive] at heval
      exact h.setActive hactive fun _ hok => hok.remember heval

/-- The shortcut remembers the partition that it moves to. -/
theorem kept_applyProfileGuided (h : cfg.Kept log s) {applied : Bool}
    (happly : cfg.applyProfileGuidedPartition s = some (t, applied)) : cfg.Kept log t := by
  cases applied with
  | false =>
      rcases applyProfileGuided_false happly with rfl | ⟨component, hactive, rfl⟩
      · exact h
      · exact kept_mark h hactive
  | true =>
      obtain ⟨component, guided, startMetrics, metrics, remembered, moved, movedMetrics, hactive, -, -,
        -, -, -, -, hremembered, -, -, rfl⟩ := applyProfileGuided_true happly
      obtain ⟨_, best, -, hset, -⟩ := rememberBest_spec hactive hremembered
      have hkept := kept_remember h hremembered
      obtain ⟨after, hactive'⟩ : ∃ after, remembered.active = some after :=
        ⟨_, hset ▸ active_setActive hactive⟩
      rw [hactive', Option.getD_some]
      exact (kept_mark hkept hactive').current _

variable {G : Type} {std : StdLib G}

/-- The genetic search remembers the best partition it has found. -/
theorem kept_train (h : cfg.Kept log s) :
    Sat (cfg.trainOnActiveComponent std s) fun s' => cfg.Kept log s' := by
  unfold trainOnActiveComponent
  dsimp only
  split
  · exact Sat.pure h
  · refine Sat.bind (Q := fun _ => True) (fun _ _ _ _ => trivial) fun population _ => ?_
    split
    · exact Sat.never
    · refine Sat.bind (Sat.ofOption fun t ht => ht) fun t ht => ?_
      have hkept := kept_remember h ht
      split
      · exact Sat.pure hkept
      · split
        · refine Sat.bind (Q := fun _ => True) (Sat.ofOption fun _ _ => trivial) fun moved _ => ?_
          exact Sat.bind (Q := fun _ => True) (Sat.ofOption fun _ _ => trivial) fun metrics _ =>
            Sat.pure (hkept.current _)
        · exact Sat.pure hkept

/-- So `ObserveBatch` keeps the books after the assignment. -/
theorem kept_improve (h : cfg.Kept log s) : Sat (cfg.improve std s) fun s' => cfg.Kept log s' := by
  unfold improve
  refine Sat.bind (Q := fun r : State × Bool => cfg.Kept log r.1)
    (Sat.ofOption fun r hr => kept_applyProfileGuided h hr) fun r hr => ?_
  dsimp only
  split
  · exact Sat.pure hr
  · split
    · exact Sat.pure hr
    · exact kept_train hr

end Improve

/-! ## runs -/

section Runs

variable {G : Type} {std : StdLib G} {seed : G}

/-- In the beginning there is no component. -/
theorem kept_init : cfg.Kept [] cfg.initState where
  few := Nat.zero_le _
  active h := absurd rfl h
  ok := .nil

/-- **Run lemma**: the books agree with the batches after every call. -/
theorem kept_of_traced {log : List (List (List Query))} {s : State} {g : G}
    (h : cfg.Traced std seed log s g) : cfg.Kept log s := by
  induction h with
  | init => exact kept_init
  | observeBatch _ hne hordered hbuild hrun ih =>
      have hprofile := isProfile_of_build hne hordered hbuild
      unfold observeBatch at hrun
      rw [if_neg hne] at hrun
      exact Sat.bind (Sat.ofOption fun t ht => kept_prepare ih hprofile hbuild ht)
        (fun t ht => kept_improve ht) _ _ _ hrun

/-- Component `i` has no more mass than any other, and starts again with the batch alone. -/
structure Replaces (cfg : Config) (s : State) (profile : List ℚ) (batch : List Query) (i : ℕ) :
    Prop where
  weakest : ∀ j < s.components.length,
    (s.components.getD i {}).mass ≤ (s.components.getD j {}).mass
  forgets : ∃ component, (cfg.assignBatchToComponent s profile batch).1.components[i]? =
      some component ∧ component.hasBestPartition = false ∧
      component.hasPartitionCentroid = false ∧ component.queries = batch.rtake cfg.queryLimit

/-- `ReplaceWeakestComponent` picks the first of the lightest components. -/
theorem replaces_of_assignment {s : State} {profile : List ℚ} {batch : List Query} {i : ℕ}
    (h : cfg.assignmentOf s profile = .replaced i) : cfg.Replaces s profile batch i := by
  have hassign : cfg.assignBatchToComponent s profile batch =
      cfg.perform s profile batch (.replaced i) := by
    rw [assignBatchToComponent_eq, h]
  unfold assignmentOf at h
  split at h
  · cases h
  · next hne =>
      obtain ⟨hlt, hleast⟩ := weakestIndex_spec hne
      split at h
      · split at h
        · cases h
        · cases h
          refine ⟨hleast, ?_⟩
          rw [hassign]
          refine ⟨cfg.resetComponent s.components[weakestIndex s.components] profile batch, ?_, rfl,
            rfl, rfl⟩
          simp [perform, hlt]
      · cases h

/-- **The bookkeeping of the workload modes.**  In every state of every run of nonempty batches:
there are at most `max_components` components, and after the first batch one of them is active;
each holds exactly the last queries of the batches it got since its last reset, a distribution as
its centroid and, if marked, a partition centroid with an entry for each block, and its best
partition was evaluated on these batches.  When the next batch replaces a component, it is one of
least mass, and is left without a best partition. -/
theorem components_kept (cfg : Config) {G : Type} (std : StdLib G) (seed : G)
    {log : List (List (List Query))} {s : State} {g : G} (h : cfg.Traced std seed log s g) :
    cfg.Kept log s ∧
      ∀ batch profile i, cfg.buildBlockProfile batch = some profile →
        cfg.assignmentOf (cfg.decayComponentMasses s) profile = .replaced i →
        cfg.Replaces (cfg.decayComponentMasses s) profile batch i :=
  ⟨kept_of_traced h, fun _ _ _ _ hreplaced => replaces_of_assignment hreplaced⟩

end Runs

end Config

/-- The profiles of the three batches, and what becomes of their components. -/
theorem assigned_batches :
    twoComponents.buildBlockProfile rightComponent.queries = some rightComponent.centroid ∧
      twoComponents.buildBlockProfile leftComponent.queries = some leftComponent.centroid ∧
      twoComponents.buildBlockProfile acrossComponent.queries = some acrossComponent.centroid ∧
      twoComponents.assignmentOf (twoComponents.decayComponentMasses twoComponents.initState)
        rightComponent.centroid = .fresh ∧
      twoComponents.assignmentOf (twoComponents.decayComponentMasses afterRight)
        leftComponent.centroid = .fresh ∧
      twoComponents.assignmentOf (twoComponents.decayComponentMasses afterLeft)
        acrossComponent.centroid = .replaced 0 := by
  decide +kernel

/-- The second batch is far from the first and gets a component of its own. -/
theorem traced_afterLeft : twoComponents.Traced lowestDraws ()
    [[rightComponent.queries], [leftComponent.queries]] afterLeft () := by
  obtain ⟨hright, hleft, -, hfirst, hsecond, -⟩ := assigned_batches
  have htraced : twoComponents.Traced lowestDraws () _ afterLeft () :=
    .observeBatch (.observeBatch .init (by decide) (by decide) hright observed_right) (by decide)
      (by decide) hleft observed_left
  rw [hfirst, hsecond] at htraced
  exact htraced

/-- The third batch has a component of its own again, in the place of the first one. -/
theorem traced_afterAcross : twoComponents.Traced lowestDraws ()
    [[acrossComponent.queries], [leftComponent.queries]] afterAcross () := by
  obtain ⟨-, -, hacross, -, -, hthird⟩ := assigned_batches
  have htraced := traced_afterLeft.observeBatch (by decide) (by decide) hacross observed_across
  rw [hthird] at htraced
  exact htraced

/-- Three batches of two modes. -/
theorem components_kept_afterAcross :
    twoComponents.Kept [[acrossComponent.queries], [leftComponent.queries]] afterAcross ∧
      twoComponents.Replaces (twoComponents.decayComponentMasses afterLeft) acrossComponent.centroid
        acrossComponent.queries 0 := by
  obtain ⟨-, -, hacross, -, -, hthird⟩ := assigned_batches
  exact ⟨(Config.components_kept twoComponents lowestDraws () traced_afterAcross).1,
    (Config.components_kept twoComponents lowestDraws () traced_afterLeft).2 _ _ _ hacross hthird⟩

end GeneticPartitioner
end DynLocks
