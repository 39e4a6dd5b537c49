import DynLocks.Genetic.Progress
import Mathlib.Data.Fintype.Card
import Mathlib.Tactic.Ring

/-!
# DynLocks.Genetic.Recall

Workloads that alternate between a few modes.  A partitioner without a genetic
search (`generation_count` zero) that observes batches of at most
`max_components` modes, further apart than `new_component_threshold`, keeps one
component for each mode: the centroid of a component is the profile of its
mode for good, because averaging a profile with itself changes nothing
(`Tracks`).  The best partition of a component, once it is there, is the
load-balanced partition of the profile, and every later observation of the mode
goes back to it (`observeAll_recalls`).
-/

namespace DynLocks
namespace GeneticPartitioner

open Sampler

/-! ## distances and the nearest component -/

theorem profileDistance_self (profile : List ℚ) : profileDistance profile profile = 0 := by
  simp [profileDistance]

namespace Config

variable {cfg : Config}

theorem threshold_nonneg : 0 ≤ cfg.threshold := le_max_left _ _

/-- The profile of a batch. -/
def profileOf (cfg : Config) (batch : List Query) : List ℚ := (cfg.buildBlockProfile batch).getD []

/-- Averaging a profile with itself changes nothing. -/
theorem centroid_updateComponent {component : WorkloadComponent} {profile : List ℚ}
    {batch : List Query} (hbuild : cfg.buildBlockProfile batch = some profile)
    (hcentroid : component.centroid = profile) :
    (cfg.updateComponent component profile batch).centroid = profile := by
  have hlen : profile.length = cfg.kBlocks := by
    unfold buildBlockProfile at hbuild
    split at hbuild
    · cases hbuild
    · cases hbuild
      split <;> simp
  show (List.range cfg.kBlocks).map _ = profile
  rw [hcentroid]
  apply List.ext_getElem
  · simp [hlen]
  · intro b hb hb'
    rw [List.getElem_map, List.getElem_range, List.getD_eq_getElem _ _ hb']
    ring

/-! ## the modes and their components -/

/-- A family of batches that are far apart, no more than there may be components. -/
structure Modes (cfg : Config) {n : ℕ} (batch : Fin n → List Query) : Prop where
  few : n ≤ cfg.componentLimit
  nonempty : ∀ k, batch k ≠ []
  apart : ∀ j k, j ≠ k →
    cfg.threshold < profileDistance (cfg.profileOf (batch j)) (cfg.profileOf (batch k))

/-- The component of a mode: a best partition is the load-balanced one of the profile, and is
recorded as made for this profile. -/
structure ModeOk (cfg : Config) (profile : List ℚ) (component : WorkloadComponent) : Prop where
  centroid : component.centroid = profile
  best : component.hasBestPartition = true →
    component.hasPartitionCentroid = true ∧ component.partitionCentroid = profile ∧
      (cfg.kLockCnt ≤ cfg.kBlocks ∧ cfg.UniformFits) ∧
      ∃ guided, cfg.makeLoadBalancedChromosome profile = some guided ∧
        component.bestPartition.cuts = guided.cuts

/-- The components are those of the modes seen so far, in the order they were first seen. -/
structure Tracks (cfg : Config) {n : ℕ} (batch : Fin n → List Query) (seen : List (Fin n))
    (s : State) : Prop where
  nodup : seen.Nodup
  length : s.components.length = seen.length
  mode : ∀ (i : ℕ) (k : Fin n) (component : WorkloadComponent), seen[i]? = some k →
    s.components[i]? = some component → cfg.ModeOk (cfg.profileOf (batch k)) component

/-- The mode with this profile has a best partition. -/
def Remembers (s : State) (profile : List ℚ) : Prop :=
  ∃ component ∈ s.components, component.centroid = profile ∧ component.hasBestPartition = true

variable {n : ℕ} {batch : Fin n → List Query} {seen : List (Fin n)} {s t : State} {k : Fin n}

/-- Distinct modes have distinct profiles. -/
theorem Modes.profile_inj (h : cfg.Modes batch) {j k : Fin n}
    (heq : cfg.profileOf (batch j) = cfg.profileOf (batch k)) : j = k := by
  by_contra hne
  have hfar := h.apart j k hne
  rw [heq, profileDistance_self] at hfar
  exact absurd hfar (not_lt.mpr threshold_nonneg)

theorem Tracks.index_lt (h : cfg.Tracks batch seen s) {i : ℕ} (hi : i < seen.length) :
    ∃ component, s.components[i]? = some component ∧
      cfg.ModeOk (cfg.profileOf (batch seen[i])) component := by
  have hlt : i < s.components.length := by rw [h.length]; exact hi
  exact ⟨s.components[i], List.getElem?_eq_getElem hlt,
    h.mode i _ _ (List.getElem?_eq_getElem hi) (List.getElem?_eq_getElem hlt)⟩

/-- A component that changes but stays one of its mode. -/
theorem Tracks.set (h : cfg.Tracks batch seen s) {i : ℕ} {component : WorkloadComponent}
    (hseen : seen[i]? = some k) (hok : cfg.ModeOk (cfg.profileOf (batch k)) component)
    (current : Chromosome) (active : ℕ) :
    cfg.Tracks batch seen ⟨s.components.set i component, active, current⟩ where
  nodup := h.nodup
  length := by rw [List.length_set, h.length]
  mode := by
    intro j k' component' hj hget
    by_cases hij : i = j
    · subst hij
      have hlt : i < s.components.length := by
        rw [h.length]
        exact (List.getElem?_eq_some_iff.mp hseen).1
      rw [List.getElem?_set_self hlt] at hget
      cases hget
      cases hseen.symm.trans hj
      exact hok
    · rw [List.getElem?_set_ne hij] at hget
      exact h.mode j k' component' hj hget

/-- A mode that was not seen before gets the next component. -/
theorem Tracks.append (h : cfg.Tracks batch seen s) {component : WorkloadComponent}
    (hnew : k ∉ seen) (hok : cfg.ModeOk (cfg.profileOf (batch k)) component)
    (current : Chromosome) (active : ℕ) :
    cfg.Tracks batch (seen ++ [k]) ⟨s.components ++ [component], active, current⟩ where
  nodup := by
    rw [List.nodup_append]
    exact ⟨h.nodup, List.nodup_singleton k, fun a ha b hb => by
      rw [List.mem_singleton.mp hb]
      exact fun heq => hnew (heq ▸ ha)⟩
  length := by simp [h.length]
  mode := by
    intro j k' component' hj hget
    have hlen := h.length
    by_cases hlt : j < seen.length
    · rw [List.getElem?_append_left hlt] at hj
      rw [List.getElem?_append_left (by omega)] at hget
      exact h.mode j k' component' hj hget
    · rw [List.getElem?_append_right (by omega)] at hj
      rw [List.getElem?_append_right (by omega), hlen] at hget
      have hj' : j - seen.length = 0 := by
        have := (List.getElem?_eq_some_iff.mp hj).1
        rw [List.length_singleton] at this
        omega
      rw [hj'] at hj hget
      cases hj
      cases hget
      exact hok

/-- A best partition is not lost when its component changes but keeps it. -/
theorem remembers_set {s : State} {profile : List ℚ} (h : Remembers s profile) {i : ℕ}
    {old new : WorkloadComponent} (hget : s.components[i]? = some old)
    (hcentroid : old.centroid = profile → new.centroid = profile)
    (hbest : old.hasBestPartition = true → new.hasBestPartition = true) {active : ℕ}
    {current : Chromosome} : Remembers ⟨s.components.set i new, active, current⟩ profile := by
  obtain ⟨component, hmem, hc, hb⟩ := h
  obtain ⟨j, hj⟩ := List.mem_iff_getElem?.mp hmem
  by_cases hij : i = j
  · subst hij
    cases hget.symm.trans hj
    exact ⟨new, List.mem_of_getElem? (List.getElem?_set_self (List.getElem?_eq_some_iff.mp hj).1),
      hcentroid hc, hbest hb⟩
  · exact ⟨component, List.mem_of_getElem? (by rw [List.getElem?_set_ne hij]; exact hj), hc, hb⟩

theorem Remembers.setActive {s : State} {profile : List ℚ} (h : Remembers s profile)
    {old new : WorkloadComponent} (hactive : s.active = some old)
    (hcentroid : old.centroid = profile → new.centroid = profile)
    (hbest : old.hasBestPartition = true → new.hasBestPartition = true) :
    Remembers (s.setActive new) profile := remembers_set h hactive hcentroid hbest

/-! ## what one observation does -/

/-- What an update of the component of a mode keeps. -/
theorem ModeOk.update {profile : List ℚ} {batch : List Query} {component : WorkloadComponent}
    (h : cfg.ModeOk profile component) (hbuild : cfg.buildBlockProfile batch = some profile) :
    cfg.ModeOk profile (cfg.updateComponent component profile batch) where
  centroid := centroid_updateComponent hbuild h.centroid
  best := h.best

/-- A new component has no best partition yet. -/
theorem modeOk_reset (component : WorkloadComponent) (profile : List ℚ) (batch : List Query) :
    cfg.ModeOk profile (cfg.resetComponent component profile batch) where
  centroid := rfl
  best := by
    intro hbest
    cases hbest

theorem tracks_decay (h : cfg.Tracks batch seen s) :
    cfg.Tracks batch seen (cfg.decayComponentMasses s) where
  nodup := h.nodup
  length := by
    rw [← h.length]
    exact List.length_map _
  mode := by
    intro i k component hi hget
    have hmap : (s.components[i]?).map (fun component : WorkloadComponent =>
        { component with mass := component.mass * cfg.decay }) = some component := by
      rw [← List.getElem?_map]
      exact hget
    obtain ⟨old, hold, rfl⟩ := Option.map_eq_some_iff.mp hmap
    obtain ⟨hcentroid, hbest⟩ := h.mode i k old hi hold
    exact ⟨hcentroid, hbest⟩

/-- The batch of a mode is assigned to the component of the mode, which is new the first time, and
no best partition is lost. -/
theorem assign_mode (hm : cfg.Modes batch) (hs : cfg.Tracks batch seen s)
    (hbuild : cfg.buildBlockProfile (batch k) = some (cfg.profileOf (batch k))) :
    let r := cfg.assignBatchToComponent s (cfg.profileOf (batch k)) (batch k)
    r.1.current = s.current ∧
      (∀ profile, Remembers s profile → Remembers r.1 profile) ∧
      ∃ seen', cfg.Tracks batch seen' r.1 ∧ seen'[r.2]? = some k := by
  unfold assignBatchToComponent
  by_cases hempty : s.components = []
  · rw [if_pos hempty]
    have hnil : seen = [] := List.eq_nil_of_length_eq_zero (by rw [← hs.length, hempty]; rfl)
    refine ⟨rfl, fun profile hrem => ?_, [k], ?_, rfl⟩
    · obtain ⟨component, hmem, -⟩ := hrem
      rw [hempty] at hmem
      exact absurd hmem List.not_mem_nil
    · have happend := hs.append (k := k) (by rw [hnil]; exact List.not_mem_nil)
        (modeOk_reset {} (cfg.profileOf (batch k)) (batch k)) s.current s.activeComponent
      rw [hempty, hnil] at happend
      exact happend
  · rw [if_neg hempty]
    obtain ⟨hlt, hdist, hmin⟩ := nearestComponent_spec hempty (cfg.profileOf (batch k))
    generalize nearestComponent s.components (cfg.profileOf (batch k)) = best at *
    have hseen : best.1 < seen.length := by rw [← hs.length]; exact hlt
    obtain ⟨component, hget, hok⟩ := hs.index_lt hseen
    -- the distance to the component of a mode is the distance to the mode
    have hmode : ∀ i (hi : i < seen.length), profileDistance (cfg.profileOf (batch k))
        (s.components.getD i {}).centroid =
          profileDistance (cfg.profileOf (batch k)) (cfg.profileOf (batch seen[i])) := by
      intro i hi
      obtain ⟨component, hget, hok⟩ := hs.index_lt hi
      rw [List.getD_eq_getElem?_getD, hget, Option.getD_some, hok.centroid]
    dsimp only
    by_cases hfar : best.2 > cfg.threshold
    · rw [if_pos hfar]
      -- a mode that was seen has a component at distance zero
      have hnew : k ∉ seen := by
        intro hmem
        obtain ⟨i, hi, heq⟩ := List.getElem_of_mem hmem
        have hle := hmin i (by rw [hs.length]; exact hi)
        rw [hmode i hi, heq, profileDistance_self] at hle
        exact absurd (lt_of_lt_of_le hfar hle) (not_lt.mpr threshold_nonneg)
      have hfew : s.components.length < cfg.componentLimit := by
        have hcard := (List.nodup_append.mpr ⟨hs.nodup, List.nodup_singleton k, fun a ha b hb => by
          rw [List.mem_singleton.mp hb]
          exact fun heq => hnew (heq ▸ ha)⟩).length_le_card
        rw [Fintype.card_fin, List.length_append, List.length_singleton] at hcard
        rw [hs.length]
        exact Nat.lt_of_lt_of_le hcard hm.few
      rw [if_pos hfew]
      refine ⟨rfl, fun profile hrem => ?_, seen ++ [k], hs.append hnew (modeOk_reset _ _ _) _ _, ?_⟩
      · obtain ⟨component, hmem, hrest⟩ := hrem
        exact ⟨component, List.mem_append_left _ hmem, hrest⟩
      · rw [hs.length]
        exact List.getElem?_concat_length
    · rw [if_neg hfar]
      -- the nearest mode is the batch's own: every other one is too far away
      have hown : seen[best.1] = k := by
        by_contra hne
        rw [hdist, hmode best.1 hseen] at hfar
        exact hfar (hm.apart _ _ (Ne.symm hne))
      rw [hown] at hok
      have hmodify : s.components.modify best.1 (fun component =>
          cfg.updateComponent component (cfg.profileOf (batch k)) (batch k)) =
            s.components.set best.1
              (cfg.updateComponent component (cfg.profileOf (batch k)) (batch k)) := by
        rw [List.modify_eq_set_getElem? , hget]
        rfl
      have hat : seen[best.1]? = some k := by rw [List.getElem?_eq_getElem hseen, hown]
      refine ⟨rfl, fun profile hrem => ?_, seen, ?_, hat⟩
      · dsimp only
        rw [hmodify]
        exact remembers_set hrem hget
          (fun hc => (hok.update hbuild).centroid.trans (hok.centroid.symm.trans hc)) id
      · dsimp only
        rw [hmodify]
        exact hs.set hat (hok.update hbuild) _ _

/-- The mode of a component has a best partition exactly if the component does. -/
theorem remembers_iff (hm : cfg.Modes batch) (hs : cfg.Tracks batch seen s) {i : ℕ}
    {component : WorkloadComponent} (hseen : seen[i]? = some k)
    (hget : s.components[i]? = some component) :
    Remembers s (cfg.profileOf (batch k)) ↔ component.hasBestPartition = true := by
  constructor
  · rintro ⟨other, hmem, hcentroid, hbest⟩
    obtain ⟨j, hj⟩ := List.mem_iff_getElem?.mp hmem
    have hlt : j < seen.length := by
      rw [← hs.length]
      exact (List.getElem?_eq_some_iff.mp hj).1
    have hother := List.getElem?_eq_getElem hlt
    have hk : seen[j] = k :=
      hm.profile_inj ((hs.mode j _ other hother hj).centroid.symm.trans hcentroid)
    -- a mode has one component
    have hij : i = j := hs.nodup.getElem_inj_iff.mp
      ((List.getElem?_eq_some_iff.mp hseen).2.trans hk.symm)
    subst hij
    cases hget.symm.trans hj
    exact hbest
  · intro hbest
    exact ⟨component, List.mem_of_getElem? hget, (hs.mode i k component hseen hget).centroid, hbest⟩

/-- What holds between two observations. -/
structure Recalls (cfg : Config) {n : ℕ} (batch : Fin n → List Query) (s : State) : Prop where
  tracks : ∃ seen, cfg.Tracks batch seen s
  valid : cfg.kLockCnt ≤ cfg.kBlocks → cfg.UniformFits → cfg.PartitionsValid s
  uniform : ¬ cfg.UniformFits → s.current.cuts = cfg.makeUniformChromosome.cuts

/-- What holds of the state in which the component of mode `k` has been activated. -/
structure Activated (cfg : Config) {n : ℕ} (batch : Fin n → List Query) (k : Fin n) (s p : State)
    (seen : List (Fin n)) (component : WorkloadComponent) : Prop where
  tracks : cfg.Tracks batch seen p
  mode : seen[p.activeComponent]? = some k
  active : p.active = some component
  valid : cfg.kLockCnt ≤ cfg.kBlocks → cfg.UniformFits → cfg.PartitionsValid p
  keeps : ∀ profile, Remembers s profile → Remembers p profile
  recalled : component.hasBestPartition = true → p.current.cuts = component.bestPartition.cuts
  unchanged : component.hasBestPartition = false → p.current = s.current

theorem Activated.ok {p : State} {component : WorkloadComponent}
    (h : cfg.Activated batch k s p seen component) :
    cfg.ModeOk (cfg.profileOf (batch k)) component := h.tracks.mode _ _ _ h.mode h.active

/-- The component of the batch's mode is activated, and a best partition it has is reached. -/
theorem activated_prepare (hshift : cfg.maxCutShiftPerBatch = cfg.kBlocks) (hm : cfg.Modes batch)
    (hs : cfg.Recalls batch s) {p : State} (hprepare : cfg.prepare s (batch k) = some p) :
    ∃ seen component, cfg.Activated batch k s p seen component := by
  obtain ⟨seen, htracks⟩ := hs.tracks
  have hvalid : cfg.kLockCnt ≤ cfg.kBlocks → cfg.UniformFits → cfg.PartitionsValid p :=
    fun hle hfits => partitionsValid_prepare hle (hs.valid hle hfits) hprepare
  obtain ⟨profile, hbuild, hactivate⟩ := prepare_eq_some hprepare
  have hprofile : cfg.profileOf (batch k) = profile := by rw [profileOf, hbuild, Option.getD_some]
  rw [← hprofile] at hbuild hactivate
  obtain ⟨hcurrent, hkeeps, seen', htracks', hseen⟩ := assign_mode hm (tracks_decay htracks) hbuild
  have hdecay : ∀ profile, Remembers s profile → Remembers (cfg.decayComponentMasses s) profile := by
    rintro profile ⟨component, hmem, hrest⟩
    exact ⟨_, List.mem_map_of_mem hmem, hrest⟩
  generalize cfg.assignBatchToComponent (cfg.decayComponentMasses s) (cfg.profileOf (batch k))
    (batch k) = r at *
  obtain ⟨component, hget, hok⟩ :=
    htracks'.index_lt (List.getElem?_eq_some_iff.mp hseen).1
  rw [(List.getElem?_eq_some_iff.mp hseen).2] at hok
  unfold activateComponent at hactivate
  rw [hget] at hactivate
  dsimp only at hactivate
  refine ⟨seen', component, ?_⟩
  cases hbest : component.hasBestPartition with
  | false =>
      rw [hbest, if_neg Bool.false_ne_true] at hactivate
      cases hactivate
      exact ⟨⟨htracks'.nodup, htracks'.length, htracks'.mode⟩, hseen, hget, hvalid,
        fun profile hrem => hkeeps profile (hdecay profile hrem),
        fun htrue => absurd (hbest.symm.trans htrue) Bool.false_ne_true, fun _ => hcurrent⟩
  | true =>
      rw [hbest, if_pos rfl] at hactivate
      obtain ⟨moved, hmoved, hsome⟩ := Option.bind_eq_some_iff.mp hactivate
      cases hsome
      refine ⟨⟨htracks'.nodup, htracks'.length, htracks'.mode⟩, hseen, hget, hvalid,
        fun profile hrem => hkeeps profile (hdecay profile hrem), fun _ => ?_,
        fun hfalse => absurd (hbest.symm.trans hfalse) (Ne.symm Bool.false_ne_true)⟩
      obtain ⟨-, -, ⟨hle, hfits⟩, guided, hguided, hcuts⟩ := hok.best hbest
      have htarget : cfg.Valid component.bestPartition.cuts := by
        rw [hcuts]
        exact valid_makeLoadBalanced hle hfits hguided
      obtain ⟨reached, hreached, hreachedCuts⟩ := moveToward_default hshift
        (inLimit_of_profile hbuild) (hs.valid hle hfits).current htarget
      have hmoved' : cfg.moveToward s.current component.bestPartition = some moved := by
        rw [← hmoved]
        exact congrArg (cfg.moveToward · _) hcurrent.symm
      cases hreached.symm.trans hmoved'
      exact hreachedCuts

/-- What an observation of mode `k` does: a best partition is there for good and is the current
one afterwards, and before the mode has one, nothing changes. -/
structure Observed (cfg : Config) {n : ℕ} (batch : Fin n → List Query) (k : Fin n) (s s' : State) :
    Prop where
  recalls : cfg.Recalls batch s'
  keeps : ∀ profile, Remembers s profile → Remembers s' profile
  recalled : Remembers s' (cfg.profileOf (batch k)) →
    ∃ guided, cfg.makeLoadBalancedChromosome (cfg.profileOf (batch k)) = some guided ∧
      s'.current.cuts = guided.cuts
  unchanged : ¬ Remembers s' (cfg.profileOf (batch k)) → s'.current = s.current

/-- Tables that fit into memory leave no product of `MakeUniformChromosome` to wrap. -/
theorem uniformFits_of_room (hroom : (cfg.kBlocks + 1) * (cfg.kLockCnt + 1) < vectorLimit) :
    cfg.UniformFits := by
  have hmul : (cfg.kLockCnt - 1) * cfg.kBlocks ≤ (cfg.kBlocks + 1) * (cfg.kLockCnt + 1) := by
    rw [Nat.mul_comm]
    exact Nat.mul_le_mul (Nat.le_succ _) (by omega)
  unfold vectorLimit at hroom
  unfold UniformFits
  omega

/-- A result of the dynamic program is the uniform partition unless the tables fit into memory. -/
theorem uniformFits_or_eq {profile : List ℚ} {guided : Chromosome}
    (h : cfg.makeLoadBalancedChromosome profile = some guided) :
    cfg.UniformFits ∨ guided = cfg.makeUniformChromosome := by
  unfold makeLoadBalancedChromosome at h
  dsimp only at h
  split at h
  · exact Or.inr (Option.some.inj h).symm
  · split at h
    · cases h
    · next hlimit => exact Or.inl (uniformFits_of_room (not_le.mp hlimit))

/-- Without a change by the shortcut the component's partition stays current. -/
theorem observed_of_false {p t : State} {component : WorkloadComponent}
    (hm : cfg.Modes batch) (hs : cfg.Recalls batch s)
    (hp : cfg.Activated batch k s p seen component)
    (ht : t = p ∨ ∃ component, p.active = some component ∧ t = markCentroid p component) :
    cfg.Observed batch k s t := by
  have hremembers := remembers_iff hm hp.tracks hp.mode hp.active
  -- neither the partitions nor the flags change
  obtain ⟨htracks, hcurrent, hkeeps, hback, hvalid⟩ : cfg.Tracks batch seen t ∧
      t.current = p.current ∧ (∀ profile, Remembers p profile → Remembers t profile) ∧
      (Remembers t (cfg.profileOf (batch k)) → component.hasBestPartition = true) ∧
      (cfg.kLockCnt ≤ cfg.kBlocks → cfg.UniformFits → cfg.PartitionsValid t) := by
    rcases ht with rfl | ⟨component', hactive, rfl⟩
    · exact ⟨hp.tracks, rfl, fun _ h => h, hremembers.mp, hp.valid⟩
    · cases hp.active.symm.trans hactive
      have hok : cfg.ModeOk (cfg.profileOf (batch k)) { component with
          partitionCentroid := component.centroid, hasPartitionCentroid := true } :=
        ⟨hp.ok.centroid, fun hbest => ⟨rfl, hp.ok.centroid, (hp.ok.best hbest).2.2⟩⟩
      have htracks := hp.tracks.set hp.mode hok p.current p.activeComponent
      exact ⟨htracks, rfl,
        fun profile hrem => hrem.setActive hp.active id id,
        (remembers_iff hm htracks hp.mode (active_setActive hp.active)).mp,
        fun hle hfits => partitionsValid_markCentroid (hp.valid hle hfits)
          ((hp.valid hle hfits).active hp.active)⟩
  refine ⟨⟨⟨seen, htracks⟩, hvalid, fun hwrap => ?_⟩,
    fun profile hrem => hkeeps profile (hp.keeps profile hrem), fun hrem => ?_, fun hrem => ?_⟩
  · cases hbest : component.hasBestPartition with
    | false => rw [hcurrent, hp.unchanged hbest, hs.uniform hwrap]
    | true => exact absurd (hp.ok.best hbest).2.2.1.2 hwrap
  · obtain ⟨-, -, -, guided, hguided, hcuts⟩ := hp.ok.best (hback hrem)
    exact ⟨guided, hguided, by rw [hcurrent, hp.recalled (hback hrem), hcuts]⟩
  · rw [hcurrent]
    refine hp.unchanged (Bool.eq_false_iff.mpr fun hbest => hrem ?_)
    exact hkeeps _ (hremembers.mpr hbest)

/-- A partition the shortcut moves to becomes the best of a component that had none. -/
theorem observed_of_true (hshift : cfg.maxCutShiftPerBatch = cfg.kBlocks) {p t : State}
    {component : WorkloadComponent} (hm : cfg.Modes batch) (hs : cfg.Recalls batch s)
    (hp : cfg.Activated batch k s p seen component)
    (hrun : cfg.applyProfileGuidedPartition p = some (t, true)) : cfg.Observed batch k s t := by
  have hnone : component.hasBestPartition = false := by
    refine Bool.eq_false_iff.mpr fun hbest => ?_
    obtain ⟨hmarked, hcentroid, -⟩ := hp.ok.best hbest
    rw [applyProfileGuided_settled hp.active hbest hmarked (hp.recalled hbest) (by
      rw [hcentroid, hp.ok.centroid, profileDistance_self]
      norm_num)] at hrun
    cases hrun
  obtain ⟨component', guided, startMetrics, metrics, remembered, moved, movedMetrics, hactive,
    hqueries, hguided, hother, -, -, -, hremembered, hmoved, heval, rfl⟩ :=
    applyProfileGuided_true hrun
  cases hp.active.symm.trans hactive
  rw [hp.ok.centroid] at hguided
  have hle : cfg.kLockCnt ≤ cfg.kBlocks := room_of_move hqueries (Ne.symm hother) hmoved heval
  have hfits : cfg.UniformFits := by
    by_contra hwrap
    rcases uniformFits_or_eq hguided with hfits | rfl
    · exact hwrap hfits
    · exact hother (by rw [hp.unchanged hnone, hs.uniform hwrap])
  have hvalid := hp.valid hle hfits
  have hcuts : moved.cuts = guided.cuts := moveToward_reaches hshift hqueries
    (fun _ => ⟨hvalid.current, valid_makeLoadBalanced hle hfits hguided⟩) hmoved heval
  obtain ⟨-, best, -, rfl, -, -, hfrom, -⟩ := rememberBest_spec hactive hremembered
  have hbestCuts : best.cuts = guided.cuts := by
    rcases hfrom with heq | ⟨hbest, -⟩
    · exact heq
    · exact absurd (hnone.symm.trans hbest) Bool.false_ne_true
  rw [active_setActive hactive, Option.getD_some, markCentroid, State.setActive_setActive]
  have hok : cfg.ModeOk (cfg.profileOf (batch k)) { component with
      bestPartition := best, hasBestPartition := true,
      partitionCentroid := component.centroid, hasPartitionCentroid := true } :=
    ⟨hp.ok.centroid, fun _ => ⟨rfl, hp.ok.centroid, ⟨hle, hfits⟩, guided, hguided, hbestCuts⟩⟩
  have htracks := hp.tracks.set hp.mode hok { moved with metrics := movedMetrics } p.activeComponent
  have hrem := (remembers_iff hm htracks hp.mode (active_setActive hp.active)).mpr rfl
  refine ⟨⟨⟨seen, htracks⟩, fun _ _ => ?_, fun hwrap => absurd hfits hwrap⟩,
    fun profile hold => (hp.keeps profile hold).setActive hp.active id fun _ => rfl,
    fun _ => ⟨guided, hguided, hcuts⟩, fun hnot => absurd hrem hnot⟩
  have hbestValid : cfg.BestValid { component with
      bestPartition := best, hasBestPartition := true,
      partitionCentroid := component.centroid, hasPartitionCentroid := true } := fun _ => by
    show cfg.Valid best.cuts
    rw [hbestCuts]
    exact valid_makeLoadBalanced hle hfits hguided
  have hset := hvalid.setActive hbestValid
  have hreached := valid_moveToward hle hvalid.current hmoved
  exact ⟨hreached, hset.best⟩

section Runs

variable {G : Type} {std : StdLib G}

/-- **One observation** of a mode. -/
theorem observed_observeBatch (hshift : cfg.maxCutShiftPerBatch = cfg.kBlocks)
    (hgen : cfg.generationCount = 0) (hm : cfg.Modes batch) (hs : cfg.Recalls batch s)
    (k : Fin n) : Sat (cfg.observeBatch std s (batch k)) (cfg.Observed batch k s) := by
  unfold observeBatch
  rw [if_neg (hm.nonempty k)]
  refine Sat.bind (Sat.ofOption fun p hprepare => activated_prepare hshift hm hs hprepare)
    fun p ⟨seen, component, hp⟩ => ?_
  refine Sat.bind (Sat.ofOption fun r hr => hr) fun r hguided => ?_
  obtain ⟨t, applied⟩ := r
  dsimp only
  cases applied with
  | true =>
      rw [if_pos rfl]
      exact Sat.pure (observed_of_true hshift hm hs hp hguided)
  | false =>
      rw [if_neg Bool.false_ne_true, if_pos hgen]
      exact Sat.pure (observed_of_false hm hs hp (applyProfileGuided_false hguided))

/-- A sequence of calls of `ObserveBatch`, each with a batch of the family. -/
def observeAll (cfg : Config) (std : StdLib G) (batch : Fin n → List Query) :
    List (Fin n) → State → Rand G State
  | [], s => pure s
  | k :: ks, s => do
      let s ← cfg.observeBatch std s (batch k)
      observeAll cfg std batch ks s

/-- A run keeps what holds between two observations, and every best partition. -/
theorem recalls_observeAll (hshift : cfg.maxCutShiftPerBatch = cfg.kBlocks)
    (hgen : cfg.generationCount = 0) (hm : cfg.Modes batch) (hs : cfg.Recalls batch s)
    (ks : List (Fin n)) :
    Sat (cfg.observeAll std batch ks s) fun s' =>
      cfg.Recalls batch s' ∧ ∀ profile, Remembers s profile → Remembers s' profile := by
  induction ks generalizing s with
  | nil => exact Sat.pure ⟨hs, fun _ h => h⟩
  | cons k ks ih =>
      refine Sat.bind (observed_observeBatch hshift hgen hm hs k) fun t ht => ?_
      exact (ih ht.recalls).mono fun s' ⟨hs', hkeeps⟩ =>
        ⟨hs', fun profile hrem => hkeeps profile (ht.keeps profile hrem)⟩

end Runs

/-! ## calls that return -/

section Room

variable (hshift : cfg.maxCutShiftPerBatch = cfg.kBlocks) (hle : cfg.kLockCnt ≤ cfg.kBlocks)
  (hroom : (cfg.kBlocks + 1) * (cfg.kLockCnt + 1) < vectorLimit)
include hroom

/-- The tables of the dynamic program are the largest allocation. -/
theorem inLimit_of_room : cfg.kBlocks < vectorLimit := by
  have hmul := Nat.le_mul_of_pos_right (cfg.kBlocks + 1) (show 0 < cfg.kLockCnt + 1 by omega)
  omega

include hle

theorem isSome_makeLoadBalanced (profile : List ℚ) :
    (cfg.makeLoadBalancedChromosome profile).isSome := by
  by_cases hmass : 0 < profile.foldl (· + ·) 0
  · rw [makeLoadBalanced_eq hle hmass, if_neg (not_le.mpr hroom)]
    rfl
  · unfold makeLoadBalancedChromosome
    dsimp only
    rw [if_pos (not_lt.mp hmass)]
    rfl

omit hle in
theorem isSome_rememberBest (hs : cfg.PartitionsValid s) (candidate : Chromosome)
    (hcandidate : cfg.Valid candidate.cuts) (queries : List Query) :
    (cfg.rememberBest s candidate queries).isSome := by
  have hlimit := inLimit_of_room hroom
  unfold rememberBest
  split
  · rfl
  · next component hactive =>
      obtain ⟨metrics, hmetrics⟩ :=
        Option.isSome_iff_exists.mp (@evaluate_isSome _ queries _ hcandidate hlimit)
      rw [hmetrics, Option.bind_eq_bind, Option.bind_some]
      dsimp only
      split
      · next hbest =>
          obtain ⟨bestMetrics, hbestMetrics⟩ := Option.isSome_iff_exists.mp
            (@evaluate_isSome _ queries _ (hs.active hactive hbest) hlimit)
          rw [hbestMetrics, Option.bind_some]
          split <;> rfl
      · rfl

include hshift

omit hle in
theorem isSome_prepare (hs : cfg.PartitionsValid s) (batch : List Query) :
    (cfg.prepare s batch).isSome := by
  have hlimit := inLimit_of_room hroom
  have hassign := partitionsValid_assign (partitionsValid_decay hs)
  unfold prepare buildBlockProfile
  rw [if_neg (not_le.mpr hlimit), Option.bind_eq_bind, Option.bind_some]
  dsimp only
  unfold activateComponent
  split
  · rfl
  · next component hcomponent =>
      split
      · next hbest =>
          obtain ⟨moved, hmoved, -⟩ := moveToward_default hshift hlimit (hassign _ batch).current
            ((hassign _ batch).best component (List.mem_of_getElem? hcomponent) hbest)
          rw [hmoved]
          rfl
      · rfl

theorem isSome_applyProfileGuided (hs : cfg.PartitionsValid s) :
    (cfg.applyProfileGuidedPartition s).isSome := by
  have hlimit := inLimit_of_room hroom
  have hfits := uniformFits_of_room hroom
  unfold applyProfileGuidedPartition
  split
  · rfl
  · next component hactive =>
      dsimp only
      split
      · rfl
      split
      · rfl
      obtain ⟨guided, hguided⟩ :=
        Option.isSome_iff_exists.mp (isSome_makeLoadBalanced hle hroom component.centroid)
      have hvalid := valid_makeLoadBalanced hle hfits hguided
      rw [hguided, Option.bind_eq_bind, Option.bind_some]
      split
      · rfl
      obtain ⟨startMetrics, hstart⟩ := Option.isSome_iff_exists.mp
        (@evaluate_isSome _ s.buildActiveQueries _ hs.current hlimit)
      obtain ⟨metrics, hmetrics⟩ := Option.isSome_iff_exists.mp
        (@evaluate_isSome _ s.buildActiveQueries _ hvalid hlimit)
      rw [hstart, Option.bind_eq_bind, Option.bind_some, hmetrics, Option.bind_some]
      split
      · rfl
      obtain ⟨remembered, hremembered⟩ := Option.isSome_iff_exists.mp
        (isSome_rememberBest hroom hs { guided with metrics } hvalid s.buildActiveQueries)
      obtain ⟨moved, hmoved, hcuts⟩ := moveToward_default hshift hlimit hs.current
        (show cfg.Valid ({ guided with metrics } : Chromosome).cuts from hvalid)
      obtain ⟨movedMetrics, hmovedMetrics⟩ := Option.isSome_iff_exists.mp
        (@evaluate_isSome _ s.buildActiveQueries _ (hcuts.symm ▸ hvalid) hlimit)
      rw [hremembered, Option.bind_eq_bind, Option.bind_some, hmoved, Option.bind_some, hmovedMetrics]
      rfl

/-- An observation returns. -/
theorem isSome_observeBatch (hgen : cfg.generationCount = 0) {G : Type} (std : StdLib G)
    (hs : cfg.PartitionsValid s) (batch : List Query) (g : G) :
    (cfg.observeBatch std s batch g).isSome := by
  unfold observeBatch
  split
  · rfl
  · obtain ⟨p, hp⟩ := Option.isSome_iff_exists.mp (isSome_prepare hshift hroom hs batch)
    obtain ⟨⟨t, applied⟩, ht⟩ := Option.isSome_iff_exists.mp
      (isSome_applyProfileGuided hshift hle hroom (partitionsValid_prepare hle hs hp))
    have hfirst : ofOption (cfg.prepare s batch) g = some (p, g) := by rw [ofOption, hp]; rfl
    have hsecond : ofOption (cfg.applyProfileGuidedPartition p) g = some ((t, applied), g) := by
      rw [ofOption, ht]
      rfl
    show ((ofOption (cfg.prepare s batch) g).bind _).isSome
    rw [hfirst, Option.bind_some]
    show ((ofOption (cfg.applyProfileGuidedPartition p) g).bind _).isSome
    rw [hsecond, Option.bind_some]
    dsimp only
    split
    · rfl
    · rfl

end Room

section Runs

variable {G : Type} {std : StdLib G}

/-- Nothing has been observed yet. -/
theorem recalls_init : cfg.Recalls batch cfg.initState where
  tracks := ⟨[], List.nodup_nil, rfl, fun i k component hseen => by cases hseen⟩
  valid := fun hle hfits =>
    ⟨(valid_makeUniform_iff hle).mpr hfits, fun component hmem => absurd hmem List.not_mem_nil⟩
  uniform := fun _ => rfl

/-- Every run returns when there is a block for every lock and the tables fit into memory. -/
theorem isSome_observeAll (hshift : cfg.maxCutShiftPerBatch = cfg.kBlocks)
    (hgen : cfg.generationCount = 0) (hle : cfg.kLockCnt ≤ cfg.kBlocks)
    (hroom : (cfg.kBlocks + 1) * (cfg.kLockCnt + 1) < vectorLimit) (hs : cfg.PartitionsValid s)
    (ks : List (Fin n)) (g : G) : (cfg.observeAll std batch ks s g).isSome := by
  induction ks generalizing s g with
  | nil => rfl
  | cons k ks ih =>
      obtain ⟨⟨t, g'⟩, ht⟩ := Option.isSome_iff_exists.mp
        (isSome_observeBatch hshift hle hroom hgen std hs (batch k) g)
      have htvalid := partitionsValid_observeBatch hle (uniformFits_of_room hroom) hs (batch k) _ _ _ ht
      show ((cfg.observeBatch std s (batch k) g).bind _).isSome
      rw [ht, Option.bind_some]
      exact ih htvalid g'

/-- **Recall of workload modes.**  A fresh partitioner without a genetic search and with the
default shift observes batches of modes that are far apart, in any order.  An observation of a
mode without a best partition leaves the current partition alone or installs the load-balanced
one, which is then the best one of the mode.  From there on every observation of the mode makes
that partition the current one, whatever was observed in between.  All of these calls return as
long as there is a block for every lock and the tables of the dynamic program fit into memory. -/
theorem observeAll_recalls (cfg : Config) (hgen : cfg.generationCount = 0)
    (hshift : cfg.maxCutShiftPerBatch = cfg.kBlocks) {n : ℕ} {batch : Fin n → List Query}
    (hm : cfg.Modes batch) {G : Type} (std : StdLib G) (seed : G) :
    (∀ before k s g t g', cfg.observeAll std batch before cfg.initState seed = some (s, g) →
      cfg.observeBatch std s (batch k) g = some (t, g') →
      (¬ Remembers s (cfg.profileOf (batch k)) →
        (∃ guided, cfg.makeLoadBalancedChromosome (cfg.profileOf (batch k)) = some guided ∧
          t.current.cuts = guided.cuts ∧ Remembers t (cfg.profileOf (batch k))) ∨
          t.current = s.current) ∧
      (Remembers t (cfg.profileOf (batch k)) →
        (∃ guided, cfg.makeLoadBalancedChromosome (cfg.profileOf (batch k)) = some guided ∧
          t.current.cuts = guided.cuts) ∧
        ∀ between u g₁ v g₂, cfg.observeAll std batch between t g' = some (u, g₁) →
          cfg.observeBatch std u (batch k) g₁ = some (v, g₂) →
          ∃ guided, cfg.makeLoadBalancedChromosome (cfg.profileOf (batch k)) = some guided ∧
            v.current.cuts = guided.cuts)) ∧
    (cfg.kLockCnt ≤ cfg.kBlocks → (cfg.kBlocks + 1) * (cfg.kLockCnt + 1) < vectorLimit →
      ∀ ks, (cfg.observeAll std batch ks cfg.initState seed).isSome) := by
  refine ⟨fun before k s g t g' hbefore ht => ?_, fun hle hroom ks => ?_⟩
  · obtain ⟨hs, -⟩ := recalls_observeAll hshift hgen hm recalls_init before seed s g hbefore
    have hobserved := observed_observeBatch hshift hgen hm hs k g t g' ht
    refine ⟨fun _ => ?_, fun hrem => ⟨hobserved.recalled hrem, ?_⟩⟩
    · by_cases hrem : Remembers t (cfg.profileOf (batch k))
      · obtain ⟨guided, hguided, hcuts⟩ := hobserved.recalled hrem
        exact Or.inl ⟨guided, hguided, hcuts, hrem⟩
      · exact Or.inr (hobserved.unchanged hrem)
    · intro between u g₁ v g₂ hbetween hv
      obtain ⟨hu, hkeeps⟩ := recalls_observeAll hshift hgen hm hobserved.recalls between _ _ _ hbetween
      have hagain := observed_observeBatch hshift hgen hm hu k g₁ v g₂ hv
      exact hagain.recalled (hagain.keeps _ (hkeeps _ hrem))
  · have hinit : cfg.Recalls batch cfg.initState := recalls_init
    exact isSome_observeAll hshift hgen hle hroom (hinit.valid hle (uniformFits_of_room hroom)) ks
      seed

end Runs

end Config

/-! ## two modes -/

/-- Two components without a genetic search. -/
def twoModes : Config := { twoComponents with generationCount := 0 }

/-- A mode on the right of the array and one on the left. -/
def modeBatch (mode : Fin 2) : List Query :=
  if mode = 0 then onBlock 1 8 ++ onBlock 2 8 else onBlock 0 16 ++ onBlock 1 8

/-- The first mode is observed, then the other, then the first again. -/
theorem observeAll_recalls_two_modes :
    ∃ s, twoModes.observeBatch lowestDraws afterLeft (modeBatch 0) () = some (s, ()) ∧
      ∃ guided,
        twoModes.makeLoadBalancedChromosome (twoModes.profileOf (modeBatch 0)) = some guided ∧
        s.current.cuts = guided.cuts := by
  have hm : twoModes.Modes modeBatch := ⟨by decide, by decide, by decide +kernel⟩
  obtain ⟨⟨s, g⟩, hs⟩ := Option.isSome_iff_exists.mp (by decide +kernel :
    (twoModes.observeBatch lowestDraws afterLeft (modeBatch 0) ()).isSome = true)
  have hfirst : twoModes.observeBatch lowestDraws twoModes.initState (modeBatch 0) () =
      some (afterRight, ()) := by decide +kernel
  have hsecond : twoModes.observeAll lowestDraws modeBatch [1] afterRight () =
      some (afterLeft, ()) := by decide +kernel
  have hrem : Config.Remembers afterRight (twoModes.profileOf (modeBatch 0)) :=
    ⟨rightComponent, List.mem_singleton_self _, by decide +kernel, rfl⟩
  exact ⟨s, hs, ((twoModes.observeAll_recalls rfl rfl hm lowestDraws ()).1 [] 0 _ _ _ _ rfl
    hfirst).2 hrem |>.2 [1] _ _ _ _ hsecond hs⟩

end GeneticPartitioner
end DynLocks
