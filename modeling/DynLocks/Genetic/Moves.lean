import DynLocks.Genetic.Validity

/-!
# DynLocks.Genetic.Moves

`MoveToward` as a step of bounded length, over every shift the constructor accepts.

* `movedTimes_eq_moveCuts` — without wrap-around `n` moves are one move by `n` times the shift;
* `getD_le_of_moveToward` — a cut whose addition wraps does not advance;
* `exactMove_iff` — so the moves between all valid partitions are exact and arrive on time
  exactly when `current_cut + max_cut_shift_per_batch_` stays inside the word.
-/

namespace DynLocks
namespace GeneticPartitioner

open CutVector BoundedStep

/-! ## the repair does not raise a cut above an increasing bound -/

/-- The passes that raise cuts stay below every increasing list that the cuts are below. -/
theorem raiseCuts_le {low high : ℕ} {internal bound : List ℕ}
    (h : List.Forall₂ (· ≤ ·) internal bound) (hle : low ≤ high)
    (hinc : (high :: bound).Pairwise (· < ·)) :
    List.Forall₂ (· ≤ ·) (raiseCuts low internal) bound := by
  induction h generalizing low high with
  | nil => exact List.Forall₂.nil
  | @cons cut b rest bounds hcut _ ih =>
      obtain ⟨hfirst, htail⟩ := List.pairwise_cons.mp hinc
      have hhigh := hfirst b List.mem_cons_self
      have hraised : max cut ((low + 1) % 2 ^ 64) ≤ b := by
        have := Nat.mod_le (low + 1) (2 ^ 64)
        omega
      rw [raiseCuts]
      exact List.Forall₂.cons hraised (ih hraised htail)

/-- The pass that caps cuts raises none. -/
theorem capCuts_le {kBlocks : ℕ} {internal bound : List ℕ}
    (h : List.Forall₂ (· ≤ ·) internal bound) :
    List.Forall₂ (· ≤ ·) (capCuts kBlocks internal) bound := by
  induction h with
  | nil => exact List.Forall₂.nil
  | cons hcut _ ih =>
      rw [capCuts]
      exact List.Forall₂.cons ((Nat.min_le_left _ _).trans hcut) ih

/-- Nor does the repair as a whole. -/
theorem repairInternalCuts_le {kBlocks : ℕ} {internal bound repaired : List ℕ}
    (h : List.Forall₂ (· ≤ ·) internal bound) (hinc : (0 :: bound).Pairwise (· < ·))
    (hrepair : repairInternalCuts kBlocks internal = some repaired) :
    List.Forall₂ (· ≤ ·) repaired bound := by
  cases h with
  | nil =>
      cases hrepair
      exact List.Forall₂.nil
  | @cons cut b rest bounds hcut hrest =>
      obtain ⟨hpos, htail⟩ := List.pairwise_cons.mp hinc
      have hb := hpos b List.mem_cons_self
      rw [repairInternalCuts] at hrepair
      dsimp only at hrepair
      split at hrepair
      · cases hrepair
      · have hfirst : max 1 (min cut (subSize kBlocks (rest.length + 1))) ≤ b := by omega
        have hcapped := @capCuts_le kBlocks _ _
          (List.Forall₂.cons hfirst (raiseCuts_le hrest hfirst htail))
        rw [capCuts] at hcapped hrepair
        cases hrepair
        cases hcapped with
        | cons hcap hrest => exact List.Forall₂.cons hcap (raiseCuts_le hrest hcap htail)

namespace Config

variable (cfg : Config)

/-! ## moves without wrap-around -/

/-- `MoveToward`, called `n` times with the same target. -/
def movedTimes (target : Chromosome) : ℕ → Chromosome → Option Chromosome
  | 0, source => some source
  | n + 1, source => (movedTimes target n source).bind fun moved => cfg.moveToward moved target

/-- The largest sum `current_cut + max_cut_shift_per_batch_` of a cut that has somewhere to go fits
into `size_t`.  With one lock or one block per lock no cut has. -/
def ShiftFits : Prop :=
  cfg.kLockCnt ≤ 1 ∨ cfg.kBlocks ≤ cfg.kLockCnt ∨ cfg.cutShift + (cfg.kBlocks - 2) < 2 ^ 64

instance : Decidable cfg.ShiftFits := inferInstanceAs (Decidable (_ ∨ _ ∨ _))

/-- Every interior cut moves by the shift or all the way, and repeated moves are at the target from
the first moment on that the shift allows. -/
structure ExactMove (source target : Chromosome) : Prop where
  step : ∃ moved, cfg.moveToward source target = some moved ∧ ∀ i, 0 < i → i < cfg.kLockCnt →
    min (source.cuts.getD i 0) (target.cuts.getD i 0) ≤ moved.cuts.getD i 0 ∧
      moved.cuts.getD i 0 ≤ max (source.cuts.getD i 0) (target.cuts.getD i 0) ∧
        Nat.dist (source.cuts.getD i 0) (moved.cuts.getD i 0) =
          min cfg.cutShift (Nat.dist (source.cuts.getD i 0) (target.cuts.getD i 0))
  arrives : ∀ n, ∃ moved, cfg.movedTimes target n source = some moved ∧
    (moved.cuts = target.cuts ↔
      maxDist cfg.kLockCnt source.cuts target.cuts ⌈/⌉ cfg.cutShift ≤ n)

variable {cfg}

theorem cutShift_pos : 0 < cfg.cutShift := by
  unfold cutShift
  omega

/-- A cut with somewhere to go has a block of its own and at least one after it. -/
theorem ShiftFits.add_lt (h : cfg.ShiftFits) {source target : List ℕ} (hsource : cfg.Valid source)
    (htarget : cfg.Valid target) {i : ℕ} (hi : i < cfg.kLockCnt)
    (hlt : source.getD i 0 < target.getD i 0) : source.getD i 0 + cfg.cutShift < 2 ^ 64 := by
  have hspan := htarget.getD_add_le hi.le
  have hlow := hsource.le_getD hi.le
  have hfirst := htarget.first
  unfold ShiftFits at h
  by_cases hi0 : i = 0
  · rw [hi0, hfirst] at hlt
    omega
  · omega

/-- Without wrap-around, `n` moves make one move of `n` times the length. -/
theorem movedTimes_eq_moveCuts (hfits : cfg.ShiftFits) {source target : Chromosome}
    (hsource : cfg.Valid source.cuts) (htarget : cfg.Valid target.cuts) (n : ℕ) :
    ∃ moved, cfg.movedTimes target n source = some moved ∧
      moved.cuts = moveCuts (n * cfg.cutShift) cfg.kLockCnt source.cuts target.cuts := by
  induction n with
  | zero => exact ⟨source, rfl, by rw [Nat.zero_mul, moveCuts_zero hsource]⟩
  | succ n ih =>
      obtain ⟨moved, hmoved, hcuts⟩ := ih
      have hvalid : cfg.Valid moved.cuts := hcuts ▸ isCuts_moveCuts hsource htarget
      obtain ⟨next, hnext, hnextCuts⟩ := moveToward_eq_moveCuts hvalid htarget fun i hi hlt =>
        hfits.add_lt hvalid htarget hi hlt
      refine ⟨next, ?_, ?_⟩
      · rw [movedTimes, hmoved]
        exact hnext
      · rw [hnextCuts, hcuts, moveCuts_moveCuts, Nat.succ_mul]

theorem exactMove_of_fits (hfits : cfg.ShiftFits) {source target : Chromosome}
    (hsource : cfg.Valid source.cuts) (htarget : cfg.Valid target.cuts) :
    cfg.ExactMove source target where
  step := by
    obtain ⟨moved, hmoved, hcuts⟩ := moveToward_eq_moveCuts hsource htarget fun i hi hlt =>
      hfits.add_lt hsource htarget hi hlt
    refine ⟨moved, hmoved, fun i _ hi => ?_⟩
    rw [hcuts, getD_moveCuts hi.le]
    have hmem := stepToward_mem cfg.cutShift (source.cuts.getD i 0) (target.cuts.getD i 0)
    exact ⟨hmem.1, hmem.2, dist_stepToward _ _ _⟩
  arrives := by
    intro n
    obtain ⟨moved, hmoved, hcuts⟩ := movedTimes_eq_moveCuts hfits hsource htarget n
    refine ⟨moved, hmoved, ?_⟩
    rw [hcuts, moveCuts_eq_iff hsource htarget, ceilDiv_le_iff_le_smul cutShift_pos, smul_eq_mul,
      Nat.mul_comm]

/-! ## moves that wrap -/

/-- Where every cut that has to advance wraps, none of them advances. -/
theorem getD_le_of_moveToward (hsize : cfg.cutShift < 2 ^ 64) {source target moved : Chromosome}
    (hsource : cfg.Valid source.cuts) (h : cfg.moveToward source target = some moved)
    (hwrap : ∀ i < cfg.kLockCnt, source.cuts.getD i 0 < target.cuts.getD i 0 →
      2 ^ 64 ≤ source.cuts.getD i 0 + cfg.cutShift)
    {i : ℕ} (hi0 : 0 < i) (hi : i < cfg.kLockCnt) :
    moved.cuts.getD i 0 ≤ source.cuts.getD i 0 := by
  have hpos := cfg.kLockCnt_pos
  unfold moveToward at h
  split at h
  · cases h
    exact le_rfl
  · obtain ⟨repaired, hrepair, hsome⟩ := Option.bind_eq_some_iff.mp h
    cases hsome
    have hbelow : List.Forall₂ (· ≤ ·) repaired (innerCuts cfg.kLockCnt source.cuts) := by
      refine repairInternalCuts_le ?_ (hsource.inner_spec hpos).1 hrepair
      rw [innerCuts, List.forall₂_map_left_iff, List.forall₂_map_right_iff, List.forall₂_same]
      intro j hj
      rw [List.mem_range'_1] at hj
      have hj0 := hsource.getD_pos (i := j) (by omega) (by omega)
      have hbound := hsource.getD_le_last (i := j) (by omega)
      have hB := cfg.kBlocks_lt
      dsimp only
      split
      · have := hwrap j (by omega) ‹_›
        omega
      · split <;> omega
    have hlen := hbelow.length_eq
    rw [length_innerCuts] at hlen
    have hentry := hbelow.get (i := i - 1) (by omega) (by rw [length_innerCuts]; omega)
    have hi1 : 1 + (i - 1) = i := by omega
    simp only [List.get_eq_getElem, innerCuts, List.getElem_map, List.getElem_range', Nat.one_mul,
      hi1] at hentry
    obtain ⟨j, rfl⟩ := Nat.exists_eq_add_of_lt hi0
    simp only [makeChromosomeFromInternalCuts, Nat.zero_add, List.getD_cons_succ] at hentry ⊢
    rwa [List.getD_append _ _ _ _ (by omega), List.getD_eq_getElem _ _ (by omega)]

/-- The last inner cut at `cut`, the cuts before it as far left as they can be. -/
def lastCutAt (cfg : Config) (cut : ℕ) : Chromosome :=
  cfg.makeChromosomeFromInternalCuts (List.range' 1 (cfg.kLockCnt - 2) ++ [cut])

theorem getD_lastCutAt (hk : 1 < cfg.kLockCnt) (cut : ℕ) {i : ℕ} (hi : i < cfg.kLockCnt) :
    (cfg.lastCutAt cut).cuts.getD i 0 = if i + 1 = cfg.kLockCnt then cut else i := by
  cases i with
  | zero => simp [lastCutAt, makeChromosomeFromInternalCuts, hk.ne]
  | succ i =>
      simp only [lastCutAt, makeChromosomeFromInternalCuts, List.getD_cons_succ]
      rw [List.getD_append _ _ _ _ (by simp; omega)]
      by_cases hlast : i + 1 + 1 = cfg.kLockCnt
      · rw [if_pos hlast, List.getD_append_right _ _ _ _ (by simp; omega)]
        simp [show i - (cfg.kLockCnt - 2) = 0 by omega]
      · rw [if_neg hlast, List.getD_append _ _ _ _ (by simp; omega),
          List.getD_eq_getElem _ _ (by simp; omega)]
        simp [Nat.add_comm]

theorem valid_lastCutAt (hk : 1 < cfg.kLockCnt) {cut : ℕ} (hlow : cfg.kLockCnt - 1 ≤ cut)
    (hhigh : cut < cfg.kBlocks) : cfg.Valid (cfg.lastCutAt cut).cuts := by
  apply valid_of_internal
  · simp
    omega
  · rw [← List.cons_append, List.pairwise_append]
    refine ⟨?_, by simp, ?_⟩
    · rw [List.pairwise_cons]
      refine ⟨fun c hc => ?_, List.pairwise_lt_range'⟩
      rw [List.mem_range'_1] at hc
      omega
    · intro a ha b hb
      rw [List.mem_cons, List.mem_range'_1] at ha
      rw [List.mem_singleton] at hb
      omega
  · intro c hc
    rw [List.mem_append, List.mem_range'_1, List.mem_singleton] at hc
    omega

/-- Otherwise the last inner cut, one block before the end of its way, stays where it is. -/
theorem fits_of_exactMove (hsize : cfg.cutShift < 2 ^ 64)
    (h : ∀ source target : Chromosome, cfg.Valid source.cuts → cfg.Valid target.cuts →
      cfg.ExactMove source target) : cfg.ShiftFits := by
  by_contra hwrap
  unfold ShiftFits at hwrap
  have hk : 1 < cfg.kLockCnt := by omega
  have hsource : cfg.Valid (cfg.lastCutAt (cfg.kBlocks - 2)).cuts :=
    valid_lastCutAt hk (by omega) (by omega)
  have htarget : cfg.Valid (cfg.lastCutAt (cfg.kBlocks - 1)).cuts :=
    valid_lastCutAt hk (by omega) (by omega)
  obtain ⟨moved, hmoved, hexact⟩ := (h _ _ hsource htarget).step
  have hlast : cfg.kLockCnt - 1 + 1 = cfg.kLockCnt := by omega
  have hdist := (hexact (cfg.kLockCnt - 1) (by omega) (by omega)).2.2
  have hstays := getD_le_of_moveToward hsize hsource hmoved (i := cfg.kLockCnt - 1)
    (fun i hi hlt => by
      rw [getD_lastCutAt hk _ hi, getD_lastCutAt hk _ hi] at hlt
      rw [getD_lastCutAt hk _ hi]
      split at hlt
      · rw [if_pos ‹_›]
        omega
      · exact absurd hlt (lt_irrefl i)) (by omega) (by omega)
  have hbetween := (hexact (cfg.kLockCnt - 1) (by omega) (by omega)).1
  have hpos := cfg.cutShift_pos
  rw [getD_lastCutAt hk _ (by omega), getD_lastCutAt hk _ (by omega), if_pos hlast, if_pos hlast]
    at hdist hbetween
  rw [getD_lastCutAt hk _ (by omega), if_pos hlast] at hstays
  unfold Nat.dist at hdist
  omega

/-- **`MoveToward` is an exact bounded step exactly for the shifts that fit.**  For every bound on
the shift of a cut and all valid partitions: an interior cut ends between where it was and where it
should go, as far from where it was as the bound allows, and calling again and again is at the
target from the `⌈maxDist / shift⌉`-th call on and not before; if and only if no sum
`current_cut + max_cut_shift_per_batch_` can wrap. -/
theorem exactMove_iff (cfg : Config) (hsize : cfg.maxCutShiftPerBatch < 2 ^ 64) :
    (∀ source target : Chromosome, cfg.Valid source.cuts → cfg.Valid target.cuts →
      cfg.ExactMove source target) ↔ cfg.ShiftFits := by
  constructor
  · intro h
    exact fits_of_exactMove (by unfold cutShift; omega) h
  · intro hfits source target hsource htarget
    exact exactMove_of_fits hfits hsource htarget

end Config

/-! ## at and beyond the bound -/

/-- The largest shift that fits over three blocks. -/
theorem exactMove_twoLocks :
    (∀ source target : Chromosome, twoLocks.Valid source.cuts → twoLocks.Valid target.cuts →
      Config.ExactMove { twoLocks with maxCutShiftPerBatch := 2 ^ 64 - 2 } source target) ↔
    Config.ShiftFits { twoLocks with maxCutShiftPerBatch := 2 ^ 64 - 2 } :=
  Config.exactMove_iff { twoLocks with maxCutShiftPerBatch := 2 ^ 64 - 2 } (by decide)

/-- With the largest `size_t` as the bound the cut at block one, which is to go to block two, is
moved to `(1 + (2 ^ 64 - 1)) mod 2 ^ 64 = 0` and put back to one: no number of calls moves it. -/
theorem moveToward_twoLocks_stuck :
    ∃ source target : Chromosome, twoLocks.Valid source.cuts ∧ twoLocks.Valid target.cuts ∧
      source.cuts = [0, 1, 3] ∧ target.cuts = [0, 2, 3] ∧
      (∃ moved, Config.moveToward { twoLocks with maxCutShiftPerBatch := 2 ^ 64 - 1 } source target =
        some moved ∧ moved.cuts = source.cuts) ∧
      ¬ Config.ExactMove { twoLocks with maxCutShiftPerBatch := 2 ^ 64 - 1 } source target := by
  have hmove : Config.moveToward { twoLocks with maxCutShiftPerBatch := 2 ^ 64 - 1 }
      { cuts := [0, 1, 3] } { cuts := [0, 2, 3] } = some { cuts := [0, 1, 3] } := by decide +kernel
  refine ⟨{ cuts := [0, 1, 3] }, { cuts := [0, 2, 3] }, by decide, by decide, rfl, rfl,
    ⟨_, hmove, rfl⟩, fun h => ?_⟩
  obtain ⟨moved, hmoved, hexact⟩ := h.step
  cases hmove.symm.trans hmoved
  exact absurd (hexact 1 (by decide) (by decide)).2.2 (by decide)

end GeneticPartitioner
end DynLocks
