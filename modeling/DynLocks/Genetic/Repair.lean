import DynLocks.Lib.BoundedStep
import DynLocks.Genetic.Chromosome

/-!
# DynLocks.Genetic.Repair

What the producers of single partitions establish.

* `repairInternalCuts_spec` — with room for one block per lock, the repair turns any list of
  internal cuts into one that increases strictly between `0` and `kBlocks`;
* `repairInternalCuts_eq_self` — and it leaves such a list alone;
* `repairInternalCuts_normalises` — together: a total, idempotent normaliser;
* `valid_makeUniform_iff` — the uniform partition is valid exactly while `i * kBlocks` does not
  wrap;
* `quantileCuts_spec`, `valid_moveToward` — the quantile partition and the moves;
* `moveToward_eq_moveCuts` — without wrap-around a move is one bounded step of every cut.
-/

namespace DynLocks
namespace GeneticPartitioner

open CutVector BoundedStep

/-! ## the passes of the repair -/

/-- Every cut leaves a block to itself and to each cut after it. -/
def Capped (kBlocks : ℕ) : List ℕ → Prop
  | [] => True
  | cut :: rest => cut + (rest.length + 1) ≤ kBlocks ∧ Capped kBlocks rest

@[simp] theorem length_raiseCuts (previous : ℕ) (internal : List ℕ) :
    (raiseCuts previous internal).length = internal.length := by
  induction internal generalizing previous with
  | nil => rfl
  | cons cut rest ih => simp [raiseCuts, ih]

@[simp] theorem length_capCuts (kBlocks : ℕ) (internal : List ℕ) :
    (capCuts kBlocks internal).length = internal.length := by
  induction internal with
  | nil => rfl
  | cons cut rest ih => simp [capCuts, ih]

/-- The second pass does what it is for. -/
theorem capped_capCuts {kBlocks : ℕ} (hlt : kBlocks < 2 ^ 64) {internal : List ℕ}
    (hlen : internal.length ≤ kBlocks) : Capped kBlocks (capCuts kBlocks internal) := by
  induction internal with
  | nil => trivial
  | cons cut rest ih =>
      rw [List.length_cons] at hlen
      refine ⟨?_, ih (by omega)⟩
      rw [length_capCuts, subSize_eq hlen hlt]
      omega

/-- On a capped list the third pass reaches no further than the last block. -/
theorem raiseCuts_spec {kBlocks previous : ℕ} (hlt : kBlocks < 2 ^ 64) {internal : List ℕ}
    (hcap : Capped kBlocks internal) (hroom : previous + internal.length < kBlocks) :
    (previous :: raiseCuts previous internal).Pairwise (· < ·) ∧
      ∀ c ∈ raiseCuts previous internal, c < kBlocks := by
  induction internal generalizing previous with
  | nil => simp [raiseCuts]
  | cons cut rest ih =>
      obtain ⟨hcut, hrest⟩ := hcap
      rw [List.length_cons] at hroom
      have hmod : (previous + 1) % 2 ^ 64 = previous + 1 := Nat.mod_eq_of_lt (by omega)
      have hraised : raiseCuts previous (cut :: rest) =
          max cut (previous + 1) :: raiseCuts (max cut (previous + 1)) rest := by
        rw [raiseCuts, hmod]
      obtain ⟨hinc, hbound⟩ := @ih (max cut (previous + 1)) hrest (by omega)
      rw [hraised]
      constructor
      · refine List.pairwise_cons.mpr ⟨fun c hc => ?_, hinc⟩
        rcases List.mem_cons.mp hc with rfl | hmem
        · omega
        · have := (List.pairwise_cons.mp hinc).1 c hmem
          omega
      · intro c hc
        rcases List.mem_cons.mp hc with rfl | hmem
        · omega
        · exact hbound c hmem

/-- Raising leaves an increasing list alone. -/
theorem raiseCuts_eq_self {previous : ℕ} {internal : List ℕ}
    (hinc : (previous :: internal).Pairwise (· < ·)) (hlt : ∀ c ∈ internal, c < 2 ^ 64) :
    raiseCuts previous internal = internal := by
  induction internal generalizing previous with
  | nil => rfl
  | cons cut rest ih =>
      obtain ⟨hfirst, hrest⟩ := List.pairwise_cons.mp hinc
      have hprev := hfirst cut List.mem_cons_self
      have hcut := hlt cut List.mem_cons_self
      have hmax : max cut ((previous + 1) % 2 ^ 64) = cut := by omega
      rw [raiseCuts, hmax, ih hrest fun c hc => hlt c (List.mem_cons_of_mem _ hc)]

/-- Strictly increasing cuts below `kBlocks` leave room for each other. -/
theorem capped_of_pairwise {kBlocks : ℕ} {internal : List ℕ}
    (hinc : internal.Pairwise (· < ·)) (hlt : ∀ c ∈ internal, c < kBlocks) :
    Capped kBlocks internal := by
  induction internal with
  | nil => trivial
  | cons cut rest ih =>
      obtain ⟨hfirst, hrest⟩ := List.pairwise_cons.mp hinc
      have hcap := ih hrest fun c hc => hlt c (List.mem_cons_of_mem _ hc)
      refine ⟨?_, hcap⟩
      cases rest with
      | nil =>
          have := hlt cut List.mem_cons_self
          simp
          omega
      | cons next rest =>
          have := hfirst next List.mem_cons_self
          have := hcap.1
          rw [List.length_cons]
          omega

theorem Capped.length_le {kBlocks : ℕ} {internal : List ℕ} (h : Capped kBlocks internal) :
    internal.length ≤ kBlocks := by
  cases internal with
  | nil => exact Nat.zero_le _
  | cons cut rest =>
      have := h.1
      rw [List.length_cons]
      omega

theorem capCuts_eq_self {kBlocks : ℕ} (hlt : kBlocks < 2 ^ 64) {internal : List ℕ}
    (h : Capped kBlocks internal) : capCuts kBlocks internal = internal := by
  induction internal with
  | nil => rfl
  | cons cut rest ih =>
      obtain ⟨hcut, hrest⟩ := h
      have hmin : min cut (subSize kBlocks (rest.length + 1)) = cut := by
        rw [subSize_eq (by omega) hlt]
        omega
      rw [capCuts, hmin, ih hrest]

/-! ## the repair -/

/-- With a block for every lock, whatever the internal cuts were, the repaired ones increase
strictly between the two ends. -/
theorem repairInternalCuts_spec {kBlocks : ℕ} (hlt : kBlocks < 2 ^ 64) {internal : List ℕ}
    (hroom : internal.length + 1 ≤ kBlocks) :
    ∃ repaired, repairInternalCuts kBlocks internal = some repaired ∧
      repaired.length = internal.length ∧ (0 :: repaired).Pairwise (· < ·) ∧
        ∀ c ∈ repaired, c < kBlocks := by
  cases internal with
  | nil => exact ⟨[], rfl, rfl, by simp, by simp⟩
  | cons cut rest =>
      rw [List.length_cons] at hroom
      have hupper : subSize kBlocks (rest.length + 1) = kBlocks - (rest.length + 1) :=
        subSize_eq (by omega) hlt
      have hnot : ¬ kBlocks - (rest.length + 1) < 1 := by omega
      have hcap : Capped kBlocks (capCuts kBlocks
          (raiseCuts (max 1 (min cut (kBlocks - (rest.length + 1)))) rest)) :=
        capped_capCuts hlt (by rw [length_raiseCuts]; omega)
      -- the second pass does not move the first cut, which was clamped
      have hfirst : min (max 1 (min cut (kBlocks - (rest.length + 1))))
          (kBlocks - (rest.length + 1)) = max 1 (min cut (kBlocks - (rest.length + 1))) := by
        omega
      have hspec := raiseCuts_spec hlt hcap
        (show max 1 (min cut (kBlocks - (rest.length + 1))) + _ < kBlocks by
          rw [length_capCuts, length_raiseCuts]
          omega)
      rw [repairInternalCuts]
      simp only [hupper, if_neg hnot, capCuts, length_raiseCuts, hfirst]
      refine ⟨_, rfl, by simp, ?_, ?_⟩
      · refine List.pairwise_cons.mpr ⟨fun c hc => ?_, hspec.1⟩
        rcases List.mem_cons.mp hc with rfl | hmem
        · omega
        · have := (List.pairwise_cons.mp hspec.1).1 c hmem
          omega
      · intro c hc
        rcases List.mem_cons.mp hc with rfl | hmem
        · omega
        · exact hspec.2 c hmem

/-- Internal cuts that need no repair get none. -/
theorem repairInternalCuts_eq_self {kBlocks : ℕ} (hlt : kBlocks < 2 ^ 64) {internal : List ℕ}
    (hinc : (0 :: internal).Pairwise (· < ·)) (hbound : ∀ c ∈ internal, c < kBlocks) :
    repairInternalCuts kBlocks internal = some internal := by
  cases internal with
  | nil => rfl
  | cons cut rest =>
      obtain ⟨hpos, htail⟩ := List.pairwise_cons.mp hinc
      have hcap := capped_of_pairwise htail hbound
      have hcut := hpos cut List.mem_cons_self
      have hupper : subSize kBlocks (rest.length + 1) = kBlocks - (rest.length + 1) :=
        subSize_eq hcap.length_le hlt
      have hroom := hcap.1
      have hfirst : max 1 (min cut (kBlocks - (rest.length + 1))) = cut := by omega
      have hraise : raiseCuts cut rest = rest :=
        raiseCuts_eq_self htail fun c hc => (hbound c (List.mem_cons_of_mem _ hc)).trans hlt
      rw [repairInternalCuts]
      simp only [hupper, if_neg (show ¬ kBlocks - (rest.length + 1) < 1 by omega), hfirst, hraise,
        capCuts_eq_self hlt hcap]

/-- The lists of internal cuts that the repair aims at: strictly increasing, with every entry in
`[1, kBlocks - 1]`. -/
def Normal (kBlocks : ℕ) (internal : List ℕ) : Prop :=
  internal.Pairwise (· < ·) ∧ ∀ c ∈ internal, 1 ≤ c ∧ c ≤ kBlocks - 1

instance (kBlocks : ℕ) (internal : List ℕ) : Decidable (Normal kBlocks internal) :=
  inferInstanceAs (Decidable (_ ∧ _))

/-- The cuts are normal when they increase strictly between the two ends. -/
theorem normal_iff {kBlocks : ℕ} (hpos : 0 < kBlocks) {internal : List ℕ} :
    Normal kBlocks internal ↔
      (0 :: internal).Pairwise (· < ·) ∧ ∀ c ∈ internal, c < kBlocks := by
  rw [Normal, List.pairwise_cons]
  constructor
  · rintro ⟨hinc, hbound⟩
    exact ⟨⟨fun c hc => (hbound c hc).1, hinc⟩, fun c hc => by have := hbound c hc; omega⟩
  · rintro ⟨⟨hlow, hinc⟩, hhigh⟩
    exact ⟨hinc, fun c hc => ⟨hlow c hc, by have := hhigh c hc; omega⟩⟩

/-- **The repair is a total normaliser**: it has a result for every list of cuts, whatever their
values, and the result is normal and as long as the list; the lists it returns unchanged are exactly
the normal ones; and a second repair changes nothing. -/
theorem repairInternalCuts_normalises {kBlocks : ℕ} (htwo : 2 ≤ kBlocks) (hlt : kBlocks < 2 ^ 64)
    (internal : List ℕ) (hlen : internal.length ≤ kBlocks - 1) :
    (∃ repaired, repairInternalCuts kBlocks internal = some repaired ∧
      repaired.length = internal.length ∧ Normal kBlocks repaired) ∧
    (repairInternalCuts kBlocks internal = some internal ↔ Normal kBlocks internal) ∧
    (repairInternalCuts kBlocks internal).bind (repairInternalCuts kBlocks) =
      repairInternalCuts kBlocks internal := by
  have hpos : 0 < kBlocks := by omega
  have hself : ∀ cuts, Normal kBlocks cuts → repairInternalCuts kBlocks cuts = some cuts := by
    intro cuts hnormal
    rw [normal_iff hpos] at hnormal
    exact repairInternalCuts_eq_self hlt hnormal.1 hnormal.2
  obtain ⟨repaired, hrepair, hlength, hspec⟩ :=
    repairInternalCuts_spec hlt (show internal.length + 1 ≤ kBlocks by omega)
  have hnormal : Normal kBlocks repaired := (normal_iff hpos).mpr hspec
  refine ⟨⟨repaired, hrepair, hlength, hnormal⟩, ⟨fun hfixed => ?_, hself internal⟩, ?_⟩
  · cases hfixed.symm.trans hrepair
    exact hnormal
  · rw [hrepair, Option.bind_some, hself repaired hnormal]

/-- Three cuts that are out of order, out of range and at the end of the word. -/
theorem repairInternalCuts_normalises_extreme :
    repairInternalCuts 4 [7, 2 ^ 64 - 1, 0] = some [1, 2, 3] ∧
      (repairInternalCuts 4 [7, 2 ^ 64 - 1, 0]).bind (repairInternalCuts 4) =
        repairInternalCuts 4 [7, 2 ^ 64 - 1, 0] :=
  ⟨by decide, (repairInternalCuts_normalises (by decide) (by decide) [7, 2 ^ 64 - 1, 0]
    (by decide)).2.2⟩

namespace Config

variable {cfg : Config}

/-- Every lock owns at least one block. -/
abbrev Valid (cfg : Config) (cuts : List ℕ) : Prop := IsCuts cfg.kLockCnt cfg.kBlocks cuts

/-- The products of `MakeUniformChromosome` fit into `size_t`. -/
def UniformFits (cfg : Config) : Prop := (cfg.kLockCnt - 1) * cfg.kBlocks < 2 ^ 64

instance : Decidable cfg.UniformFits := inferInstanceAs (Decidable (_ < _))

/-- The internal cuts of a valid partition lie inside the line, between its ends. -/
theorem valid_of_internal {internal : List ℕ} (hlen : internal.length = cfg.kLockCnt - 1)
    (hinc : (0 :: internal).Pairwise (· < ·)) (hlt : ∀ c ∈ internal, c < cfg.kBlocks) :
    cfg.Valid (0 :: (internal ++ [cfg.kBlocks])) := by
  have hpos := cfg.kLockCnt_pos
  exact isCuts_of_inner (by omega) hinc hlt cfg.kBlocks_pos

/-- A repaired partition is valid, whatever went into the repair. -/
theorem valid_of_repair (hle : cfg.kLockCnt ≤ cfg.kBlocks) {internal repaired : List ℕ}
    (hlen : internal.length = cfg.kLockCnt - 1)
    (h : repairInternalCuts cfg.kBlocks internal = some repaired) :
    cfg.Valid (0 :: (repaired ++ [cfg.kBlocks])) := by
  have hpos := cfg.kLockCnt_pos
  obtain ⟨cuts, hcuts, hlen', hinc, hlt⟩ :=
    repairInternalCuts_spec cfg.kBlocks_lt (show internal.length + 1 ≤ cfg.kBlocks by omega)
  cases hcuts.symm.trans h
  exact valid_of_internal (by omega) hinc hlt

/-! ## the uniform partition -/

/-- Without wrap-around the uniform partition is the abstract one. -/
theorem makeUniform_eq (h : cfg.UniformFits) :
    cfg.makeUniformChromosome.cuts = uniformCuts cfg.kLockCnt cfg.kBlocks := by
  have hlen : cfg.makeUniformChromosome.cuts.length = cfg.kLockCnt + 1 := by
    simp [makeUniformChromosome]
  apply List.ext_getElem (by rw [hlen]; simp [uniformCuts])
  intro i hi hi'
  have hik : i ≤ cfg.kLockCnt := by omega
  rw [← List.getD_eq_getElem _ 0 hi', getD_uniformCuts cfg.kBlocks hik]
  by_cases heq : i = cfg.kLockCnt
  · simp only [makeUniformChromosome, heq, List.getElem_set_self]
    rw [Nat.mul_div_cancel_left _ cfg.kLockCnt_pos]
  · have hmul : i * cfg.kBlocks ≤ (cfg.kLockCnt - 1) * cfg.kBlocks :=
      Nat.mul_le_mul_right _ (by omega)
    have hmod : i * cfg.kBlocks % 2 ^ 64 = i * cfg.kBlocks :=
      Nat.mod_eq_of_lt (hmul.trans_lt h)
    simp only [makeUniformChromosome, List.getElem_set_ne (Ne.symm heq), List.getElem_map,
      List.getElem_range, hmod]

/-- An inner entry of the uniform partition. -/
theorem getD_makeUniform {i : ℕ} (hi : i < cfg.kLockCnt) :
    cfg.makeUniformChromosome.cuts.getD i 0 = i * cfg.kBlocks % 2 ^ 64 / cfg.kLockCnt := by
  have hlen : i < cfg.makeUniformChromosome.cuts.length := by
    simp [makeUniformChromosome]
    omega
  rw [List.getD_eq_getElem _ _ hlen]
  simp only [makeUniformChromosome, List.getElem_set_ne (show cfg.kLockCnt ≠ i by omega),
    List.getElem_map, List.getElem_range]

/-- The uniform partition is valid exactly while none of its products wraps. -/
theorem valid_makeUniform_iff (hle : cfg.kLockCnt ≤ cfg.kBlocks) :
    cfg.Valid cfg.makeUniformChromosome.cuts ↔ cfg.UniformFits := by
  constructor
  · intro hvalid
    by_contra hwrap
    -- the first product that wraps gives a cut at or below the one before it
    have hex : ∃ i, 2 ^ 64 ≤ i * cfg.kBlocks := ⟨cfg.kLockCnt - 1, Nat.le_of_not_lt hwrap⟩
    classical
    obtain ⟨i, hi, hmin⟩ : ∃ i, 2 ^ 64 ≤ i * cfg.kBlocks ∧ ∀ j < i, ¬ 2 ^ 64 ≤ j * cfg.kBlocks :=
      ⟨Nat.find hex, Nat.find_spec hex, fun j hj => Nat.find_min hex hj⟩
    have hik : i ≤ cfg.kLockCnt - 1 := by
      by_contra hlt
      exact hmin (cfg.kLockCnt - 1) (by omega) (Nat.le_of_not_lt hwrap)
    have hB := cfg.kBlocks_lt
    cases i with
    | zero => simp at hi
    | succ i =>
        have hprev := hmin i (Nat.lt_succ_self i)
        rw [Nat.add_mul, Nat.one_mul] at hi
        have hcut := hvalid.getD_lt (Nat.lt_succ_self i) (by omega)
        rw [Nat.succ_eq_add_one, getD_makeUniform (by omega), getD_makeUniform (by omega),
          Nat.add_mul, Nat.one_mul] at hcut
        have hmod : i * cfg.kBlocks % 2 ^ 64 = i * cfg.kBlocks := Nat.mod_eq_of_lt (by omega)
        have hmod' : (i * cfg.kBlocks + cfg.kBlocks) % 2 ^ 64 ≤ i * cfg.kBlocks := by omega
        rw [hmod] at hcut
        exact absurd (Nat.div_le_div_right (c := cfg.kLockCnt) hmod') (Nat.not_le.mpr hcut)
  · intro h
    rw [Valid, makeUniform_eq h]
    exact isCuts_uniformCuts cfg.kLockCnt_pos hle

/-! ## the quantile partition -/

/-- The inner loop stops between where it starts and where it must. -/
theorem nextQuantile_spec {weightBefore : ℕ → ℚ} {target : ℚ} {room cut stop : ℕ}
    (h : cfg.nextQuantile weightBefore target room cut = some stop) :
    cut ≤ stop ∧ stop ≤ cut + room := by
  induction room generalizing cut with
  | zero =>
      cases h
      omega
  | succ room ih =>
      unfold nextQuantile at h
      split at h
      · cases h
      · split at h
        · have := ih h
          omega
        · cases h
          omega

/-- The outer loop leaves a block to every lock that is still to come. -/
theorem quantileCuts_spec {totalMass : ℚ} {weightBefore : ℕ → ℚ} {n lockIndex previousCut : ℕ}
    {internal : List ℕ} (hn : lockIndex + n = cfg.kLockCnt)
    (hroom : previousCut + n < cfg.kBlocks)
    (h : cfg.quantileCuts totalMass weightBefore n lockIndex previousCut = some internal) :
    internal.length = n ∧ (previousCut :: internal).Pairwise (· < ·) ∧
      ∀ c ∈ internal, c < cfg.kBlocks := by
  induction n generalizing lockIndex previousCut internal with
  | zero =>
      cases h
      simp
  | succ n ih =>
      have hmax : subSize cfg.kBlocks (cfg.kLockCnt - lockIndex) = cfg.kBlocks - (n + 1) := by
        rw [show cfg.kLockCnt - lockIndex = n + 1 by omega]
        exact subSize_eq (by omega) cfg.kBlocks_lt
      obtain ⟨cut, hcut, hbind⟩ := Option.bind_eq_some_iff.mp h
      obtain ⟨rest, hrest, hsome⟩ := Option.bind_eq_some_iff.mp hbind
      cases hsome
      obtain ⟨hlo, hhi⟩ := nextQuantile_spec hcut
      rw [hmax] at hhi
      obtain ⟨hlen, hinc, hlt⟩ := ih (by omega) (by omega) hrest
      refine ⟨by rw [List.length_cons, hlen], List.pairwise_cons.mpr ⟨fun c hc => ?_, hinc⟩,
        fun c hc => ?_⟩
      · rcases List.mem_cons.mp hc with rfl | hmem
        · omega
        · have := (List.pairwise_cons.mp hinc).1 c hmem
          omega
      · rcases List.mem_cons.mp hc with rfl | hmem
        · omega
        · exact hlt c hmem

theorem valid_makeProfileGuided (hle : cfg.kLockCnt ≤ cfg.kBlocks) (hfits : cfg.UniformFits)
    {profile : List ℚ} {guided : Chromosome}
    (h : cfg.makeProfileGuidedChromosome profile = some guided) : cfg.Valid guided.cuts := by
  have hpos := cfg.kLockCnt_pos
  unfold makeProfileGuidedChromosome at h
  dsimp only at h
  split at h
  · cases h
    exact (valid_makeUniform_iff hle).mpr hfits
  · split at h
    · cases h
    · obtain ⟨internal, hcuts, hsome⟩ := Option.bind_eq_some_iff.mp h
      cases hsome
      obtain ⟨hlen, hinc, hlt⟩ := quantileCuts_spec (by omega) (by omega) hcuts
      exact valid_of_internal hlen hinc hlt

/-! ## moving -/

theorem valid_moveToward (hle : cfg.kLockCnt ≤ cfg.kBlocks) {source target moved : Chromosome}
    (hsource : cfg.Valid source.cuts) (h : cfg.moveToward source target = some moved) :
    cfg.Valid moved.cuts := by
  unfold moveToward at h
  split at h
  · cases h
    exact hsource
  · obtain ⟨repaired, hrepair, hsome⟩ := Option.bind_eq_some_iff.mp h
    cases hsome
    exact valid_of_repair hle (by simp) hrepair

/-- Where no addition leaves the word, every cut takes a step of its own and the repair has nothing
to do. -/
theorem moveToward_eq_moveCuts {source target : Chromosome} (hsource : cfg.Valid source.cuts)
    (htarget : cfg.Valid target.cuts)
    (hfit : ∀ i < cfg.kLockCnt, source.cuts.getD i 0 < target.cuts.getD i 0 →
      source.cuts.getD i 0 + cfg.cutShift < 2 ^ 64) :
    ∃ moved, cfg.moveToward source target = some moved ∧
      moved.cuts = moveCuts cfg.cutShift cfg.kLockCnt source.cuts target.cuts := by
  have hpos := cfg.kLockCnt_pos
  have hmoved := isCuts_moveCuts (S := cfg.cutShift) hsource htarget
  by_cases heq : source.cuts = target.cuts
  · refine ⟨source, if_pos heq, ?_⟩
    rw [heq, (moveCuts_eq_iff htarget htarget).mpr]
    rw [maxDist_le_iff]
    simp [Nat.dist_self]
  · have hinternal : ((List.range' 1 (cfg.kLockCnt - 1)).map fun i =>
        if source.cuts.getD i 0 < target.cuts.getD i 0 then
          min ((source.cuts.getD i 0 + cfg.cutShift) % 2 ^ 64) (target.cuts.getD i 0)
        else max (if source.cuts.getD i 0 > cfg.cutShift then source.cuts.getD i 0 - cfg.cutShift
          else 1) (target.cuts.getD i 0)) =
        innerCuts cfg.kLockCnt (moveCuts cfg.cutShift cfg.kLockCnt source.cuts target.cuts) := by
      apply List.map_congr_left
      intro i hi
      rw [List.mem_range'_1] at hi
      have ht0 := htarget.getD_pos (i := i) (by omega) (by omega)
      rw [getD_moveCuts (by omega), stepToward]
      split
      · rw [Nat.mod_eq_of_lt (hfit i (by omega) ‹_›)]
      · split <;> omega
    obtain ⟨hinc, hlt⟩ := hmoved.inner_spec hpos
    have hrepair := repairInternalCuts_eq_self cfg.kBlocks_lt hinc hlt
    refine ⟨cfg.makeChromosomeFromInternalCuts (innerCuts cfg.kLockCnt
      (moveCuts cfg.cutShift cfg.kLockCnt source.cuts target.cuts)), ?_,
      (hmoved.eq_inner hpos).symm⟩
    rw [moveToward, if_neg heq]
    simp only [hinternal, hrepair]
    rfl

/-- When a cut may move past all blocks, a move ends at its target. -/
theorem moveToward_eq (hshift : cfg.kBlocks ≤ cfg.cutShift) (hfit : cfg.kBlocks + cfg.cutShift < 2 ^ 64)
    {source target : Chromosome} (hsource : cfg.Valid source.cuts)
    (htarget : cfg.Valid target.cuts) :
    ∃ moved, cfg.moveToward source target = some moved ∧ moved.cuts = target.cuts := by
  have hpos := cfg.kLockCnt_pos
  obtain ⟨moved, hmove, hcuts⟩ := moveToward_eq_moveCuts hsource htarget fun i hi _ => by
    have := hsource.getD_le_last (i := i) (by omega)
    omega
  refine ⟨moved, hmove, hcuts.trans ?_⟩
  rw [moveCuts_eq_iff hsource htarget, maxDist_le_iff]
  intro i hi
  have hs := hsource.getD_le_last (i := i) (by omega)
  have ht := htarget.getD_le_last (i := i) (by omega)
  unfold Nat.dist
  omega

end Config

end GeneticPartitioner
end DynLocks
