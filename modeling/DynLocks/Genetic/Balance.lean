import DynLocks.Genetic.Repair
import DynLocks.Lib.SegmentDp

/-!
# DynLocks.Genetic.Balance

`MakeLoadBalancedChromosome`: the dynamic program over (block, locks) that
splits a profile into segments of least total squared weight.

The two tables of the source are flat arrays.  `cell_fillTables` reads them as
the table of `SegmentDp`, cell by cell; the partition read back is therefore
valid, and no partition has a smaller sum of squared weights
(`makeLoadBalanced_spec`).
-/

namespace DynLocks
namespace GeneticPartitioner

open CutVector SegmentDp

/-! ## the tables -/

/-- The vectors `dp` and `split`; a `dp` of `none` is infinite. -/
structure Tables where
  dp : ℕ → Option ℚ
  split : ℕ → ℕ

namespace Config

variable (cfg : Config)

/-- The place of a cell in the two vectors. -/
def index (block locks : ℕ) : ℕ := block * (cfg.kLockCnt + 1) + locks

/-- Every cell is infinite but that of the empty prefix without locks. -/
def initTables : Tables where
  dp := Function.update (fun _ => none) (cfg.index 0 0) (some 0)
  split _ := 0

/-- The body of the innermost loop: try `left` as the start of the last segment. -/
def relax (weightBefore : ℕ → ℚ) (right locks : ℕ) (t : Tables) (left : ℕ) : Tables :=
  match t.dp (cfg.index left (locks - 1)) with
  | none => t
  | some previous =>
      let weight := weightBefore right - weightBefore left
      let candidate := previous + weight * weight
      if (t.dp (cfg.index right locks)).all (candidate < ·) then
        { dp := Function.update t.dp (cfg.index right locks) (some candidate)
          split := Function.update t.split (cfg.index right locks) left }
      else t

/-- The loop over `left`. -/
def fillCell (weightBefore : ℕ → ℚ) (right : ℕ) (t : Tables) (locks : ℕ) : Tables :=
  let minLeft := locks - 1
  (List.range' minLeft (right - minLeft)).foldl (cfg.relax weightBefore right locks) t

/-- The loop over `locks`. -/
def fillRow (weightBefore : ℕ → ℚ) (t : Tables) (right : ℕ) : Tables :=
  let maxLocks := min right cfg.kLockCnt
  (List.range' 1 maxLocks).foldl (cfg.fillCell weightBefore right) t

/-- The loop over `right`. -/
def fillTables (weightBefore : ℕ → ℚ) : Tables :=
  (List.range' 1 cfg.kBlocks).foldl (cfg.fillRow weightBefore) cfg.initTables

/-- `MakeLoadBalancedChromosome`.  Where the tables have `vectorLimit` cells or more, the
constructor of `dp` throws, or the size of `dp` wraps and the loops run beyond its end. -/
def makeLoadBalancedChromosome (profile : List ℚ) : Option Chromosome :=
  let totalMass := profile.foldl (· + ·) 0
  if totalMass ≤ 0 then some cfg.makeUniformChromosome
  else if vectorLimit ≤ (cfg.kBlocks + 1) * (cfg.kLockCnt + 1) then none
  else
    let t := cfg.fillTables (prefixSum fun block => profile.getD block 0)
    let cuts := (List.replicate (cfg.kLockCnt + 1) 0).set cfg.kLockCnt cfg.kBlocks
    some { cuts := backtrack (fun block locks => t.split (cfg.index block locks)) cfg.kLockCnt
            cfg.kBlocks cuts }

end Config

/-! ## one cell -/

/-- Squared weight of the segment `[left, right)`. -/
def squaredWeight (weightBefore : ℕ → ℚ) (left right : ℕ) : ℚ :=
  (weightBefore right - weightBefore left) * (weightBefore right - weightBefore left)

namespace Config

variable {cfg : Config} {weightBefore : ℕ → ℚ}

/-- A cell of the tables: its cost and left end, or nothing where `dp` is infinite. -/
def cell (cfg : Config) (t : Tables) (right locks : ℕ) : Option (ℚ × ℕ) :=
  (t.dp (cfg.index right locks)).map fun c => (c, t.split (cfg.index right locks))

/-- Distinct cells have distinct places. -/
theorem index_inj {right locks right' locks' : ℕ} (hl : locks ≤ cfg.kLockCnt)
    (hl' : locks' ≤ cfg.kLockCnt) (h : cfg.index right locks = cfg.index right' locks') :
    right = right' ∧ locks = locks' := by
  have hdiv : ∀ r l, l ≤ cfg.kLockCnt → cfg.index r l / (cfg.kLockCnt + 1) = r := by
    intro r l hle
    rw [index, Nat.mul_comm, Nat.mul_add_div (Nat.succ_pos _), Nat.div_eq_of_lt (by omega),
      Nat.add_zero]
  have hright : right = right' := by rw [← hdiv right locks hl, h, hdiv right' locks' hl']
  subst hright
  exact ⟨rfl, Nat.add_left_cancel h⟩

/-- Trying a left end touches no other cell. -/
theorem cell_relax_ne (t : Tables) {right locks right' locks' : ℕ} (left : ℕ)
    (hl : locks ≤ cfg.kLockCnt) (hl' : locks' ≤ cfg.kLockCnt)
    (hne : right' ≠ right ∨ locks' ≠ locks) :
    cfg.cell (cfg.relax weightBefore right locks t left) right' locks' =
      cfg.cell t right' locks' := by
  have hindex : cfg.index right' locks' ≠ cfg.index right locks := by
    intro heq
    obtain ⟨h1, h2⟩ := index_inj hl' hl heq
    exact hne.elim (fun h => h h1) fun h => h h2
  unfold relax
  split
  · rfl
  · dsimp only
    split
    · simp [cell, Function.update_of_ne hindex]
    · rfl

/-- Trying a left end is one step of the scan for the first minimum. -/
theorem cell_relax (t : Tables) (right locks left : ℕ) :
    cfg.cell (cfg.relax weightBefore right locks t left) right locks =
      match (cfg.cell t left (locks - 1)).map fun cell =>
        cell.1 + squaredWeight weightBefore left right with
      | none => cfg.cell t right locks
      | some c => keepLess (cfg.cell t right locks) c left := by
  unfold relax
  cases hprev : t.dp (cfg.index left (locks - 1)) with
  | none => simp [cell, hprev]
  | some previous =>
      cases hcell : t.dp (cfg.index right locks) with
      | none => simp [cell, hprev, hcell, keepLess, squaredWeight]
      | some c =>
          simp only [cell, hprev, hcell, Option.map_some, keepLess, squaredWeight, Option.all_some,
            decide_eq_true_eq]
          split
          · simp
          · simp [hcell]

/-- The loop over `left` touches no other cell. -/
theorem cell_foldl_relax_ne (t : Tables) {right locks right' locks' : ℕ} (lefts : List ℕ)
    (hl : locks ≤ cfg.kLockCnt) (hl' : locks' ≤ cfg.kLockCnt)
    (hne : right' ≠ right ∨ locks' ≠ locks) :
    cfg.cell (lefts.foldl (cfg.relax weightBefore right locks) t) right' locks' =
      cfg.cell t right' locks' := by
  induction lefts generalizing t with
  | nil => rfl
  | cons left lefts ih => rw [List.foldl_cons, ih, cell_relax_ne t left hl hl' hne]

/-- The loop over `left` is the scan of all left ends: those it skips have no split. -/
theorem cell_fillCell (t : Tables) {right locks : ℕ} (hpos : 0 < locks)
    (hl : locks ≤ cfg.kLockCnt) (hempty : cfg.cell t right locks = none)
    (hskip : ∀ left < locks - 1, cfg.cell t left (locks - 1) = none) (hle : locks ≤ right) :
    cfg.cell (cfg.fillCell weightBefore right t locks) right locks =
      scan (fun left => (cfg.cell t left (locks - 1)).map fun cell =>
        cell.1 + squaredWeight weightBefore left right) right := by
  have hloop : ∀ n, locks - 1 + n ≤ right →
      cfg.cell ((List.range' (locks - 1) n).foldl (cfg.relax weightBefore right locks) t) right
          locks =
        scan (fun left => (cfg.cell t left (locks - 1)).map fun cell =>
          cell.1 + squaredWeight weightBefore left right) (locks - 1 + n) := by
    intro n hn
    induction n with
    | zero =>
        rw [Nat.add_zero, scan_eq_none_iff.mpr fun left hlt => by rw [hskip left hlt]; rfl]
        exact hempty
    | succ n ih =>
        rw [List.range'_1_concat, List.foldl_append, List.foldl_cons, List.foldl_nil, cell_relax,
          cell_foldl_relax_ne t _ hl (by omega) (Or.inl (by omega)), ih (by omega),
          ← Nat.add_assoc, scan]
        cases (cfg.cell t (locks - 1 + n) (locks - 1)).map fun cell =>
            cell.1 + squaredWeight weightBefore (locks - 1 + n) right with
        | none => rfl
        | some c => rfl
  have hall := hloop (right - (locks - 1)) (by omega)
  rw [Nat.add_sub_cancel' (by omega)] at hall
  exact hall

/-! ## the whole table -/

/-- What the tables hold once the rows up to `right` are filled. -/
structure FilledUpTo (cfg : Config) (weightBefore : ℕ → ℚ) (t : Tables) (right : ℕ) : Prop where
  rows : ∀ r ≤ right, ∀ locks ≤ cfg.kLockCnt,
    cfg.cell t r locks = best (squaredWeight weightBefore) locks r
  empty : ∀ r, right < r → ∀ locks ≤ cfg.kLockCnt, cfg.cell t r locks = none

/-- There is no split into more segments than blocks. -/
theorem best_eq_none {locks right : ℕ} (h : right < locks) :
    best (squaredWeight weightBefore) locks right = none := by
  rw [← Option.not_isSome_iff_eq_none, best_isSome_iff]
  omega

/-- The loop over `locks` fills the next row up to the column it got to. -/
theorem cell_foldl_fillCell {t : Tables} {right : ℕ} (h : cfg.FilledUpTo weightBefore t right)
    {locks : ℕ} (hlocks : locks ≤ cfg.kLockCnt) (hle : locks ≤ right + 1) :
    let t' := (List.range' 1 locks).foldl (cfg.fillCell weightBefore (right + 1)) t
    (∀ l ≤ locks, cfg.cell t' (right + 1) l = best (squaredWeight weightBefore) l (right + 1)) ∧
      (∀ r l, l ≤ cfg.kLockCnt → r ≠ right + 1 → cfg.cell t' r l = cfg.cell t r l) ∧
      ∀ l ≤ cfg.kLockCnt, locks < l → cfg.cell t' (right + 1) l = none := by
  induction locks with
  | zero =>
      refine ⟨fun l hl => ?_, fun r l _ _ => rfl, fun l hl _ => h.empty _ (Nat.lt_succ_self _) l hl⟩
      rw [Nat.le_zero.mp hl]
      exact h.empty _ (Nat.lt_succ_self _) 0 (Nat.zero_le _)
  | succ locks ih =>
      obtain ⟨hrow, hother, hrest⟩ := ih (by omega) (by omega)
      rw [List.range'_1_concat, List.foldl_append, List.foldl_cons, List.foldl_nil,
        Nat.add_comm 1 locks]
      refine ⟨fun l hl => ?_, fun r l hl hr => ?_, fun l hl hlt => ?_⟩
      · rcases Nat.le_succ_iff.mp hl with hle' | rfl
        · rw [fillCell, cell_foldl_relax_ne _ _ hlocks (by omega) (Or.inr (by omega))]
          exact hrow l hle'
        · -- the rows the scan reads are complete
          have hread : ∀ left < right + 1,
              cfg.cell ((List.range' 1 locks).foldl (cfg.fillCell weightBefore (right + 1)) t) left
                locks = best (squaredWeight weightBefore) locks left := by
            intro left hleft
            rw [hother left locks (by omega) (by omega), h.rows left (by omega) locks (by omega)]
          rw [cell_fillCell _ (Nat.succ_pos locks) hlocks (hrest _ hlocks (by omega))
            (fun left hlt => by
              rw [Nat.succ_sub_one] at hlt ⊢
              rw [hread left (by omega), best_eq_none hlt]) hle, best]
          apply scan_congr
          intro left hleft
          rw [Nat.succ_sub_one, hread left hleft]
      · rw [fillCell, cell_foldl_relax_ne _ _ hlocks hl (Or.inl hr)]
        exact hother r l hl hr
      · rw [fillCell, cell_foldl_relax_ne _ _ hlocks hl (Or.inr (by omega))]
        exact hrest l hl (by omega)

theorem filledUpTo_fillRow {t : Tables} {right : ℕ} (h : cfg.FilledUpTo weightBefore t right) :
    cfg.FilledUpTo weightBefore (cfg.fillRow weightBefore t (right + 1)) (right + 1) := by
  obtain ⟨hrow, hother, hrest⟩ := cell_foldl_fillCell h
    (Nat.min_le_right (right + 1) cfg.kLockCnt) (Nat.min_le_left _ _)
  refine ⟨fun r hr locks hlocks => ?_, fun r hr locks hlocks => ?_⟩
  · rcases Nat.le_succ_iff.mp hr with hle | rfl
    · rw [fillRow, hother r locks hlocks (by omega)]
      exact h.rows r hle locks hlocks
    · by_cases hcol : locks ≤ min (right + 1) cfg.kLockCnt
      · exact hrow locks hcol
      · rw [fillRow, hrest locks hlocks (by omega), best_eq_none (by omega)]
  · rw [fillRow, hother r locks hlocks (by omega)]
    exact h.empty r (by omega) locks hlocks

/-- At the start only the empty prefix has a split. -/
theorem filledUpTo_init : cfg.FilledUpTo weightBefore cfg.initTables 0 where
  rows := by
    intro r hr locks hlocks
    rw [Nat.le_zero.mp hr]
    cases locks with
    | zero => simp [cell, initTables, best]
    | succ locks =>
        have hne : cfg.index 0 (locks + 1) ≠ cfg.index 0 0 := by simp [index]
        rw [best_eq_none (Nat.succ_pos locks)]
        simp [cell, initTables, Function.update_of_ne hne]
  empty := by
    intro r hr locks hlocks
    have hne : cfg.index r locks ≠ cfg.index 0 0 := by
      intro heq
      have := (index_inj hlocks (Nat.zero_le _) heq).1
      omega
    simp [cell, initTables, Function.update_of_ne hne]

/-- Every cell of the filled tables is the cell of the abstract table. -/
theorem cell_fillTables {right locks : ℕ} (hright : right ≤ cfg.kBlocks)
    (hlocks : locks ≤ cfg.kLockCnt) :
    cfg.cell (cfg.fillTables weightBefore) right locks =
      best (squaredWeight weightBefore) locks right := by
  have hall : ∀ n, cfg.FilledUpTo weightBefore
      ((List.range' 1 n).foldl (cfg.fillRow weightBefore) cfg.initTables) n := by
    intro n
    induction n with
    | zero => exact filledUpTo_init
    | succ n ih =>
        rw [List.range'_1_concat, List.foldl_append, List.foldl_cons, List.foldl_nil,
          Nat.add_comm 1 n]
        exact filledUpTo_fillRow ih
  exact (hall cfg.kBlocks).rows right hright locks hlocks

/-! ## the result -/

/-- There is a split as long as there are blocks enough. -/
theorem isSome_best (hle : cfg.kLockCnt ≤ cfg.kBlocks) :
    (best (squaredWeight weightBefore) cfg.kLockCnt cfg.kBlocks).isSome := by
  rw [best_isSome_iff]
  have := cfg.kLockCnt_pos
  omega

/-- For a profile of positive mass the result is read back from the abstract table. -/
theorem makeLoadBalanced_eq (hle : cfg.kLockCnt ≤ cfg.kBlocks) {profile : List ℚ}
    (hmass : 0 < profile.foldl (· + ·) 0) :
    cfg.makeLoadBalancedChromosome profile =
      if vectorLimit ≤ (cfg.kBlocks + 1) * (cfg.kLockCnt + 1) then none
      else some { cuts := walk (splitOf (squaredWeight (prefixSum fun block =>
        profile.getD block 0))) cfg.kLockCnt cfg.kBlocks } := by
  have hlen : cfg.kLockCnt <
      ((List.replicate (cfg.kLockCnt + 1) 0).set cfg.kLockCnt cfg.kBlocks).length := by simp
  unfold makeLoadBalancedChromosome
  dsimp only
  rw [if_neg (not_le.mpr hmass)]
  generalize prefixSum (fun block => profile.getD block 0) = weightBefore
  have hsplit : ∀ l ≤ cfg.kLockCnt, ∀ m ≤ cfg.kBlocks, ∀ c,
      best (squaredWeight weightBefore) l m = some c →
        (cfg.fillTables weightBefore).split (cfg.index m l) = c.2 := by
    intro l hl m hm c hc
    rw [← cell_fillTables hm hl] at hc
    obtain ⟨d, -, hd⟩ := Option.map_eq_some_iff.mp hc
    rw [← hd]
  rw [backtrack_eq _ hlen (by rw [List.getD_eq_getElem _ _ hlen, List.getElem_set_self]),
    List.drop_eq_nil_of_le (by simp), List.append_nil, walk_congr (isSome_best hle) hsplit]

/-- For a profile of positive mass the result is a partition, and none has a smaller sum of
squared weights. -/
theorem makeLoadBalanced_spec (hle : cfg.kLockCnt ≤ cfg.kBlocks) {profile : List ℚ}
    (hmass : 0 < profile.foldl (· + ·) 0) {guided : Chromosome}
    (h : cfg.makeLoadBalancedChromosome profile = some guided) :
    cfg.Valid guided.cuts ∧ ∀ cuts, cfg.Valid cuts →
      cost (squaredWeight (prefixSum fun block => profile.getD block 0)) cfg.kLockCnt guided.cuts ≤
        cost (squaredWeight (prefixSum fun block => profile.getD block 0)) cfg.kLockCnt cuts := by
  rw [makeLoadBalanced_eq hle hmass] at h
  split at h
  · cases h
  · cases h
    generalize prefixSum (fun block => profile.getD block 0) = weightBefore
    obtain ⟨⟨c, left⟩, hbest⟩ := Option.isSome_iff_exists.mp (isSome_best hle)
    obtain ⟨hcuts, hcost⟩ := walk_best hbest
    refine ⟨hcuts, fun cuts hc => ?_⟩
    rw [hcost]
    exact best_le_cost hbest hc

/-- The partition of the dynamic program is valid, the fallback while it does not wrap. -/
theorem valid_makeLoadBalanced (hle : cfg.kLockCnt ≤ cfg.kBlocks) (hfits : cfg.UniformFits)
    {profile : List ℚ} {guided : Chromosome}
    (h : cfg.makeLoadBalancedChromosome profile = some guided) : cfg.Valid guided.cuts := by
  by_cases hmass : 0 < profile.foldl (· + ·) 0
  · exact (makeLoadBalanced_spec hle hmass h).1
  · unfold makeLoadBalancedChromosome at h
    dsimp only at h
    rw [if_pos (not_lt.mp hmass)] at h
    cases h
    exact (valid_makeUniform_iff hle).mpr hfits

end Config

end GeneticPartitioner
end DynLocks
