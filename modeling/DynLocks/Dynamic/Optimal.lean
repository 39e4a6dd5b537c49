import DynLocks.Dynamic.Cost
import Mathlib.Tactic.Linarith

/-!
# DynLocks.Dynamic.Optimal

`OptimizePartitions` returns a partition of least cost.

The filled tables are first described exactly as they are, wrap-around
included: `wrapped` is the table of `SegmentDp` with every candidate stored in
a machine word (`cell_fillTables`, no hypothesis).  It is then compared with
the exact table `best` on the cells that some full partition passes through
(`Extends`): they agree as long as no candidate formed there reaches `inf`
(`CandidatesFit`).  Cells that no full partition passes through may hold
wrapped costs; nothing on the way to the result reads them.
-/

namespace DynLocks
namespace DynamicLock

open CutVector SegmentDp

/-! ## the table in machine words -/

/-- A cost as the table keeps it: modulo `2 ^ 64`, and lost when that is `inf`. -/
def store (c : ℕ) : Option ℕ :=
  if c % 2 ^ 64 = 2 ^ 64 - 1 then none else some (c % 2 ^ 64)

/-- The abstract table, every candidate stored in a machine word. -/
def wrapped (seg : ℕ → ℕ → ℕ) : ℕ → ℕ → Option (ℕ × ℕ)
  | 0, n => if n = 0 then some (0, 0) else none
  | k + 1, n => scan (fun left => (wrapped seg k left).bind fun cell => store (cell.1 + seg left n)) n

theorem store_of_lt {c : ℕ} (h : c < 2 ^ 64 - 1) : store c = some c := by
  rw [store, Nat.mod_eq_of_lt (by omega), if_neg (by omega)]

/-- More locks than blocks have no split, in whatever arithmetic. -/
theorem wrapped_eq_none (seg : ℕ → ℕ → ℕ) {k n : ℕ} (h : n < k) : wrapped seg k n = none := by
  induction k generalizing n with
  | zero => omega
  | succ k ih =>
      rw [wrapped, scan_eq_none_iff]
      intro left hleft
      rw [ih (by omega), Option.bind_none]

/-- A cell of the tables: its cost and left end, or nothing where `dp` is `inf`. -/
def Tables.cell (t : Tables) (right locks : ℕ) : Option (ℕ × ℕ) :=
  if t.dp right locks = inf then none else some ((t.dp right locks).toNat, t.split right locks)

theorem Tables.cell_write (t : Tables) (right locks left : ℕ) (c : UInt64) (hc : c ≠ inf) :
    (t.write right locks c left).cell right locks = some (c.toNat, left) := by
  simp [Tables.cell, Tables.write, hc]

theorem Tables.cell_write_ne (t : Tables) {right locks right' locks' : ℕ} (left : ℕ) (c : UInt64)
    (hne : right' ≠ right ∨ locks' ≠ locks) :
    (t.write right locks c left).cell right' locks' = t.cell right' locks' := by
  by_cases hr : right' = right
  · subst hr
    have hl : locks' ≠ locks := by simpa using hne
    simp [Tables.cell, Tables.write, Function.update_of_ne hl]
  · simp [Tables.cell, Tables.write, Function.update_of_ne hr]

theorem toNat_inf : inf.toNat = 2 ^ 64 - 1 := by decide

theorem ne_inf_of_lt {c d : UInt64} (h : c < d) : c ≠ inf := by
  intro heq
  have hlt := UInt64.lt_iff_toNat_lt.mp h
  have hd := d.toNat_lt
  rw [heq, toNat_inf] at hlt
  omega

section Fill

variable {kLockCnt kBlocks : ℕ} {stats crossings : ℕ → UInt64}

/-- The exact cost of segments on a snapshot. -/
abbrev seg (stats crossings : ℕ → UInt64) : ℕ → ℕ → ℕ :=
  segmentCost (natOf stats) (natOf crossings)

/-! ## one cell -/

/-- Trying a left end touches no other cell. -/
theorem cell_relax_ne (t : Tables) {right locks right' locks' : ℕ} (left : ℕ)
    (hne : right' ≠ right ∨ locks' ≠ locks) :
    (relax (prefixSum stats) crossings right locks t left).cell right' locks' =
      t.cell right' locks' := by
  unfold relax
  split
  · rfl
  · dsimp only
    split
    · exact t.cell_write_ne left _ hne
    · rfl

/-- Trying a left end is one step of the scan for the first minimum. -/
theorem cell_relax (t : Tables) {right locks left : ℕ} (hlt : left < right) :
    (relax (prefixSum stats) crossings right locks t left).cell right locks =
      match (t.cell left (locks - 1)).bind fun cell =>
        store (cell.1 + seg stats crossings left right) with
      | none => t.cell right locks
      | some c => keepLess (t.cell right locks) c left := by
  unfold relax
  by_cases hinf : t.dp left (locks - 1) = inf
  · rw [if_pos hinf, show t.cell left (locks - 1) = none from if_pos hinf]
    rfl
  · rw [if_neg hinf, show t.cell left (locks - 1) = some _ from if_neg hinf, Option.bind_some]
    have hcand : t.dp left (locks - 1) + (prefixSum stats right - prefixSum stats left) *
          (prefixSum stats right - prefixSum stats left) + cutPenalty crossings left =
        UInt64.ofNat ((t.dp left (locks - 1)).toNat + seg stats crossings left right) := by
      rw [← add_segment_eq_ofNat stats crossings hlt.le, UInt64.ofNat_toNat]
    dsimp only
    rw [hcand]
    generalize (t.dp left (locks - 1)).toNat + seg stats crossings left right = c
    have htoNat : (UInt64.ofNat c).toNat = c % 2 ^ 64 := UInt64.toNat_ofNat'
    unfold store
    by_cases hmax : c % 2 ^ 64 = 2 ^ 64 - 1
    · -- a candidate that equals the sentinel improves nothing
      have hle : (t.dp right locks).toNat < 2 ^ 64 := (t.dp right locks).toNat_lt
      rw [if_pos hmax, if_neg]
      rw [UInt64.lt_iff_toNat_lt, htoNat]
      omega
    · have hne : UInt64.ofNat c ≠ inf := by
        intro heq
        rw [← htoNat, heq, toNat_inf] at hmax
        exact hmax rfl
      rw [if_neg hmax]
      dsimp only
      by_cases hcell : t.dp right locks = inf
      · rw [show t.cell right locks = none from if_pos hcell, if_pos,
          t.cell_write right locks left _ hne, htoNat]
        · rfl
        · have hlt := Nat.mod_lt c (show 0 < 2 ^ 64 by omega)
          rw [hcell, UInt64.lt_iff_toNat_lt, htoNat, toNat_inf]
          omega
      · have hold : t.cell right locks = some ((t.dp right locks).toNat, t.split right locks) :=
          if_neg hcell
        have hiff : UInt64.ofNat c < t.dp right locks ↔
            c % 2 ^ 64 < (t.dp right locks).toNat := by
          rw [UInt64.lt_iff_toNat_lt, htoNat]
        rw [hold, keepLess]
        by_cases hless : c % 2 ^ 64 < (t.dp right locks).toNat
        · rw [if_pos (hiff.mpr hless), if_pos hless, t.cell_write right locks left _ hne, htoNat]
        · rw [if_neg (mt hiff.mp hless), if_neg hless, hold]

/-- The loop over `left` touches no other cell, however far it got. -/
theorem cell_foldl_relax_ne (t : Tables) {right locks right' locks' : ℕ} (lefts : List ℕ)
    (hne : right' ≠ right ∨ locks' ≠ locks) :
    (lefts.foldl (relax (prefixSum stats) crossings right locks) t).cell right' locks' =
      t.cell right' locks' := by
  induction lefts generalizing t with
  | nil => rfl
  | cons left lefts ih => rw [List.foldl_cons, ih, cell_relax_ne t left hne]

theorem cell_fillCell_ne (t : Tables) {right locks right' locks' : ℕ}
    (hne : right' ≠ right ∨ locks' ≠ locks) :
    (fillCell (prefixSum stats) crossings right t locks).cell right' locks' =
      t.cell right' locks' :=
  cell_foldl_relax_ne t _ hne

/-- The loop over `left` is the scan over the left ends tried so far. -/
theorem cell_foldl_relax (t : Tables) {right locks n : ℕ} (hn : n ≤ right)
    (hempty : t.cell right locks = none) :
    ((List.range n).foldl (relax (prefixSum stats) crossings right locks) t).cell right locks =
      scan (fun left => (t.cell left (locks - 1)).bind fun cell =>
        store (cell.1 + seg stats crossings left right)) n := by
  induction n with
  | zero => exact hempty
  | succ n ih =>
      rw [List.range_succ, List.foldl_append, List.foldl_cons, List.foldl_nil,
        cell_relax _ (show n < right by omega),
        cell_foldl_relax_ne t (List.range n) (Or.inl (show n ≠ right by omega)), ih (by omega)]
      rw [scan]
      cases (t.cell n (locks - 1)).bind fun cell =>
          store (cell.1 + seg stats crossings n right) with
      | none => rfl
      | some c => rfl

/-! ## the whole table -/

/-- What the tables hold once the rows up to `right` are filled. -/
structure FilledUpTo (kLockCnt : ℕ) (stats crossings : ℕ → UInt64) (t : Tables) (right : ℕ) :
    Prop where
  rows : ∀ r ≤ right, ∀ locks ≤ kLockCnt, t.cell r locks = wrapped (seg stats crossings) locks r
  empty : ∀ r, right < r → ∀ locks, t.cell r locks = none

/-- The loop over `locks` fills the next row up to the column it got to. -/
theorem cell_foldl_fillCell {t : Tables} {right : ℕ}
    (h : FilledUpTo kLockCnt stats crossings t right) {locks : ℕ} (hlocks : locks ≤ kLockCnt) :
    let t' := (List.range' 1 locks).foldl (fillCell (prefixSum stats) crossings (right + 1)) t
    (∀ l ≤ locks, t'.cell (right + 1) l = wrapped (seg stats crossings) l (right + 1)) ∧
      (∀ r l, r ≠ right + 1 → t'.cell r l = t.cell r l) ∧
      ∀ l, locks < l → t'.cell (right + 1) l = none := by
  induction locks with
  | zero =>
      refine ⟨fun l hl => ?_, fun r l _ => rfl, fun l _ => h.empty _ (Nat.lt_succ_self _) l⟩
      rw [Nat.le_zero.mp hl]
      exact h.empty _ (Nat.lt_succ_self _) 0
  | succ locks ih =>
      obtain ⟨hrow, hother, hrest⟩ := ih (by omega)
      rw [List.range'_1_concat, List.foldl_append, List.foldl_cons, List.foldl_nil,
        Nat.add_comm 1 locks]
      refine ⟨fun l hl => ?_, fun r l hr => ?_, fun l hl => ?_⟩
      · rcases Nat.le_succ_iff.mp hl with hle | rfl
        · rw [cell_fillCell_ne _ (Or.inr (by omega))]
          exact hrow l hle
        · rw [fillCell, cell_foldl_relax _ le_rfl (hrest _ (by omega)), wrapped]
          -- the rows the scan reads are complete
          apply scan_congr
          intro left hleft
          rw [hother left _ (by omega), Nat.add_sub_cancel,
            h.rows left (by omega) locks (by omega)]
      · rw [cell_fillCell_ne _ (Or.inl hr)]
        exact hother r l hr
      · rw [cell_fillCell_ne _ (Or.inr (by omega))]
        exact hrest l (by omega)

theorem filledUpTo_fillRow {t : Tables} {right : ℕ}
    (h : FilledUpTo kLockCnt stats crossings t right) :
    FilledUpTo kLockCnt stats crossings
      (fillRow kLockCnt (prefixSum stats) crossings t (right + 1)) (right + 1) := by
  obtain ⟨hrow, hother, -⟩ := cell_foldl_fillCell h le_rfl
  refine ⟨fun r hr locks hlocks => ?_, fun r hr locks => ?_⟩
  · rcases Nat.le_succ_iff.mp hr with hle | rfl
    · rw [fillRow, hother r locks (by omega)]
      exact h.rows r hle locks hlocks
    · exact hrow locks hlocks
  · rw [fillRow, hother r locks (by omega)]
    exact h.empty r (by omega) locks

/-- At the start only the empty prefix has a split. -/
theorem filledUpTo_init : FilledUpTo kLockCnt stats crossings Tables.init 0 where
  rows := by
    intro r hr locks _
    rw [Nat.le_zero.mp hr]
    cases locks with
    | zero => rfl
    | succ locks => rfl
  empty := by
    intro r hr locks
    simp [Tables.cell, Tables.init, show r ≠ 0 by omega]

/-- Every cell of the filled tables is the cell of the table in machine words. -/
theorem cell_fillTables {right locks : ℕ} (hright : right ≤ kBlocks) (hlocks : locks ≤ kLockCnt) :
    (fillTables kLockCnt kBlocks (prefixSum stats) crossings).cell right locks =
      wrapped (seg stats crossings) locks right := by
  have hall : ∀ n, FilledUpTo kLockCnt stats crossings
      ((List.range' 1 n).foldl (fillRow kLockCnt (prefixSum stats) crossings) Tables.init) n := by
    intro n
    induction n with
    | zero => exact filledUpTo_init
    | succ n ih =>
        rw [List.range'_1_concat, List.foldl_append, List.foldl_cons, List.foldl_nil,
          Nat.add_comm 1 n]
        exact filledUpTo_fillRow ih
  exact (hall kBlocks).rows right hright locks hlocks

/-! ## the backtrack -/

/-- `OptimizePartitions` walks its own table of left ends. -/
theorem optimizePartitions_eq_walk (kLockCnt kBlocks : ℕ) (prefixSum crossings : ℕ → UInt64) :
    optimizePartitions kLockCnt kBlocks prefixSum crossings =
      walk (fun l n => (fillTables kLockCnt kBlocks prefixSum crossings).split n l)
        kLockCnt kBlocks := by
  have hlen : kLockCnt < ((List.replicate (kLockCnt + 1) 0).set kLockCnt kBlocks).length := by
    simp
  rw [optimizePartitions, backtrack_eq _ hlen
    (by rw [List.getD_eq_getElem _ _ hlen, List.getElem_set_self])]
  simp

/-- A filled cell records the left end that the table in machine words names. -/
theorem split_fillTables {right locks left c : ℕ} (hright : right ≤ kBlocks)
    (hlocks : locks ≤ kLockCnt) (hcell : wrapped (seg stats crossings) locks right = some (c, left)) :
    (fillTables kLockCnt kBlocks (prefixSum stats) crossings).dp right locks = UInt64.ofNat c ∧
      (fillTables kLockCnt kBlocks (prefixSum stats) crossings).split right locks = left := by
  have h : (fillTables kLockCnt kBlocks (prefixSum stats) crossings).cell right locks =
      wrapped (seg stats crossings) locks right := cell_fillTables hright hlocks
  rw [hcell, Tables.cell] at h
  split at h
  · contradiction
  · simp only [Option.some.injEq, Prod.mk.injEq] at h
    rw [← h.1, UInt64.ofNat_toNat]
    exact ⟨rfl, h.2⟩

/-- Whatever the arithmetic does, a recorded left end is not beyond its right end, and a cell
that stayed `inf` records none. -/
def Tables.Sane (t : Tables) : Prop :=
  ∀ right locks, t.split right locks ≤ right ∧ (t.dp right locks = inf → t.split right locks = 0)

theorem Tables.Sane.write {t : Tables} (h : t.Sane) {right left : ℕ} (hle : left ≤ right)
    (locks : ℕ) {c : UInt64} (hc : c ≠ inf) : (t.write right locks c left).Sane := by
  intro r l
  by_cases hr : r = right
  · subst hr
    by_cases hl : l = locks
    · subst hl
      simp [Tables.write, hle, hc]
    · simpa [Tables.write, Function.update_of_ne hl] using h r l
  · simpa [Tables.write, Function.update_of_ne hr] using h r l

theorem Tables.Sane.relax {t : Tables} (h : t.Sane) {right left : ℕ} (hle : left ≤ right)
    (prefixSum crossings : ℕ → UInt64) (locks : ℕ) :
    (relax prefixSum crossings right locks t left).Sane := by
  unfold DynamicLock.relax
  split
  · exact h
  · dsimp only
    split
    · next hless => exact h.write hle locks (ne_inf_of_lt hless)
    · exact h

/-- A loop keeps what each of its iterations keeps. -/
theorem sane_foldl {ι : Type} {f : Tables → ι → Tables} {is : List ι}
    (hf : ∀ t, t.Sane → ∀ i ∈ is, (f t i).Sane) {t : Tables} (h : t.Sane) :
    (is.foldl f t).Sane := by
  induction is generalizing t with
  | nil => exact h
  | cons i is ih =>
      exact ih (fun t ht j hj => hf t ht j (List.mem_cons_of_mem _ hj))
        (hf t h i List.mem_cons_self)

theorem sane_fillTables (kLockCnt kBlocks : ℕ) (prefixSum crossings : ℕ → UInt64) :
    (fillTables kLockCnt kBlocks prefixSum crossings).Sane := by
  refine sane_foldl (fun t ht right _ => ?_) (fun right locks => ⟨Nat.zero_le _, fun _ => rfl⟩)
  refine sane_foldl (fun t ht locks _ => ?_) ht
  refine sane_foldl (fun t ht left hleft => ?_) ht
  exact ht.relax (List.mem_range.mp hleft).le _ _ _

/-- The result never decreases, even where the costs wrap. -/
theorem optimizePartitions_ascending (kLockCnt kBlocks : ℕ) (prefixSum crossings : ℕ → UInt64) :
    Ascending kLockCnt (optimizePartitions kLockCnt kBlocks prefixSum crossings) := by
  rw [optimizePartitions_eq_walk]
  have hsane := sane_fillTables kLockCnt kBlocks prefixSum crossings
  exact walk_ascending (fun l n => (hsane n l).1) kLockCnt kBlocks

/-- A recorded left end is zero or before its right end, and a single segment starts at zero. -/
theorem split_fillTables_lt {right locks : ℕ} (hright : right ≤ kBlocks) (hlocks : locks < kLockCnt) :
    let left := (fillTables kLockCnt kBlocks (prefixSum stats) crossings).split right (locks + 1)
    (left = 0 ∨ left < right) ∧ (locks = 0 → left = 0) := by
  intro left
  cases hcell : wrapped (seg stats crossings) (locks + 1) right with
  | none =>
      have hsane := sane_fillTables kLockCnt kBlocks (prefixSum stats) crossings right (locks + 1)
      have hempty : (fillTables kLockCnt kBlocks (prefixSum stats) crossings).cell right (locks + 1) =
          none := (cell_fillTables hright hlocks).trans hcell
      have hinf : (fillTables kLockCnt kBlocks (prefixSum stats) crossings).dp right (locks + 1) =
          inf := by
        by_contra hne
        rw [Tables.cell, if_neg hne] at hempty
        contradiction
      have hzero : left = 0 := hsane.2 hinf
      exact ⟨Or.inl hzero, fun _ => hzero⟩
  | some cell =>
      obtain ⟨c, l⟩ := cell
      have hleft : left = l := (split_fillTables hright hlocks hcell).2
      obtain ⟨hlt, hcandidate, -⟩ := scan_spec hcell
      obtain ⟨start, hstart, -⟩ := Option.bind_eq_some_iff.mp hcandidate
      refine ⟨Or.inr (hleft ▸ hlt), fun hzero => ?_⟩
      subst hzero
      by_cases hl : l = 0
      · exact hleft.trans hl
      · simp [wrapped, hl] at hstart

/-- Even where the costs wrap, the result covers the blocks, and only segments at the front are
empty. -/
theorem optimizePartitions_covers (hpos : 0 < kLockCnt) :
    let result := optimizePartitions kLockCnt kBlocks (prefixSum stats) crossings
    Covers kLockCnt kBlocks result ∧ Packed kLockCnt result := by
  intro result
  have hsane := sane_fillTables kLockCnt kBlocks (prefixSum stats) crossings
  have hwalk := optimizePartitions_eq_walk kLockCnt kBlocks (prefixSum stats) crossings
  refine ⟨⟨?_, ?_, optimizePartitions_ascending _ _ _ _⟩, ?_⟩
  · obtain ⟨locks, rfl⟩ := Nat.exists_eq_succ_of_ne_zero hpos.ne'
    show result.getD 0 0 = 0
    rw [show result = _ from hwalk]
    exact getD_walk_first (fun l n => (hsane n l).1) le_rfl fun m hm =>
      (split_fillTables_lt hm (Nat.succ_pos locks)).2 rfl
  · rw [show result = _ from hwalk, getD_walk_last]
  · rw [show result = _ from hwalk]
    exact walk_packed (fun l n => (hsane n l).1) le_rfl fun l hl m hm =>
      (split_fillTables_lt hm hl).1

/-! ## the exact table -/

/-- A split of the first `right` blocks among `locks` locks is a beginning of
some partition of `kBlocks` blocks among `kLockCnt` locks. -/
def Extends (kLockCnt kBlocks locks right : ℕ) : Prop :=
  locks ≤ kLockCnt ∧ right + (kLockCnt - locks) ≤ kBlocks ∧ (locks = kLockCnt → right = kBlocks)

theorem Extends.pred {locks right left : ℕ} (h : Extends kLockCnt kBlocks (locks + 1) right)
    (hlt : left < right) : Extends kLockCnt kBlocks locks left := by
  obtain ⟨h1, h2, h3⟩ := h
  refine ⟨by omega, ?_, by omega⟩
  by_cases hk : locks + 1 = kLockCnt
  · have := h3 hk
    omega
  · omega

/-- The whole partition is the cell the result is read from. -/
theorem extends_full (kLockCnt kBlocks : ℕ) : Extends kLockCnt kBlocks kLockCnt kBlocks :=
  ⟨le_rfl, by omega, fun _ => rfl⟩

/-- No candidate on the way to the result reaches `inf`: the least cost of a beginning, plus
the exact cost of the segment after it. -/
def CandidatesFit (kLockCnt kBlocks : ℕ) (stats crossings : ℕ → UInt64) : Prop :=
  ∀ locks right left, Extends kLockCnt kBlocks (locks + 1) right → left < right →
    ∀ cell, best (seg stats crossings) locks left = some cell →
      cell.1 + seg stats crossings left right < 2 ^ 64 - 1

/-- No partition costs `inf` or more on the snapshot. -/
def CostsFit (kLockCnt kBlocks : ℕ) (stats crossings : ℕ → UInt64) : Prop :=
  ∀ cuts, IsCuts kLockCnt kBlocks cuts → exactCost kLockCnt stats crossings cuts < 2 ^ 64 - 1

/-- A candidate is the cost of a beginning, and a beginning costs no more than the whole. -/
theorem CostsFit.candidatesFit (hfit : CostsFit kLockCnt kBlocks stats crossings) :
    CandidatesFit kLockCnt kBlocks stats crossings := by
  intro locks right left hext hlt cell hcell
  obtain ⟨hcuts, hcost⟩ := walk_best (c := cell.1) (l := cell.2) hcell
  have hsnoc := hcuts.snoc hlt
  obtain ⟨hlocks, hroom, hend⟩ := hext
  obtain ⟨tail, htail⟩ := hsnoc.exists_extend (kLockCnt - (locks + 1)) kBlocks hroom
    (fun h0 => hend (by omega))
  rw [Nat.add_sub_cancel' hlocks] at htail
  calc cell.1 + seg stats crossings left right
      = cost (seg stats crossings) (locks + 1) (walk _ locks left ++ [right]) := by
        rw [cost_snoc _ hcuts, hcost]
    _ = cost (seg stats crossings) (locks + 1) (walk _ locks left ++ [right] ++ tail) :=
        (cost_append _ hsnoc tail).symm
    _ ≤ cost (seg stats crossings) kLockCnt (walk _ locks left ++ [right] ++ tail) :=
        Finset.sum_le_sum_of_subset (Finset.range_subset_range.mpr hlocks)
    _ = exactCost kLockCnt stats crossings _ := (exactCost_eq_cost _ _ _ _).symm
    _ < 2 ^ 64 - 1 := hfit _ htail

/-- On the way to the result the words hold the exact costs. -/
theorem wrapped_eq_best (hfit : CandidatesFit kLockCnt kBlocks stats crossings) {locks right : ℕ}
    (hext : Extends kLockCnt kBlocks locks right) :
    wrapped (seg stats crossings) locks right = best (seg stats crossings) locks right := by
  induction locks generalizing right with
  | zero => rfl
  | succ locks ih =>
      rw [wrapped, best]
      apply scan_congr
      intro left hlt
      rw [ih (hext.pred hlt)]
      cases hcell : best (seg stats crossings) locks left with
      | none => rfl
      | some cell =>
          rw [Option.bind_some, Option.map_some]
          exact store_of_lt (hfit locks right left hext hlt cell hcell)

/-- The left ends on the way to the result are those of the exact table. -/
theorem walk_split (hfit : CandidatesFit kLockCnt kBlocks stats crossings) {locks right : ℕ}
    (hext : Extends kLockCnt kBlocks locks right)
    (hsome : (best (seg stats crossings) locks right).isSome) :
    walk (fun l n => (fillTables kLockCnt kBlocks (prefixSum stats) crossings).split n l)
      locks right = walk (splitOf (seg stats crossings)) locks right := by
  induction locks generalizing right with
  | zero => rfl
  | succ locks ih =>
      obtain ⟨⟨c, left⟩, hbest⟩ := Option.isSome_iff_exists.mp hsome
      obtain ⟨hlt, ⟨cell, hcell, -⟩, -⟩ := best_succ_spec hbest
      have hright : right ≤ kBlocks := by have := hext.2.1; omega
      obtain ⟨-, hsplit⟩ := split_fillTables hright hext.1
        ((wrapped_eq_best hfit hext).trans hbest)
      have hsplitOf : splitOf (seg stats crossings) (locks + 1) right = left := by
        simp [splitOf, hbest]
      rw [walk, walk, hsplit, hsplitOf, ih (hext.pred hlt) (by rw [hcell]; rfl)]

/-! ## optimality -/

/-- The result is a partition, its cost is the last cell, it fits in a word, and no partition
is cheaper. -/
theorem optimizePartitions_spec (hpos : 1 ≤ kLockCnt) (hle : kLockCnt ≤ kBlocks)
    (hfit : CandidatesFit kLockCnt kBlocks stats crossings) :
    let result := optimizePartitions kLockCnt kBlocks (prefixSum stats) crossings
    IsCuts kLockCnt kBlocks result ∧
      (fillTables kLockCnt kBlocks (prefixSum stats) crossings).dp kBlocks kLockCnt =
        UInt64.ofNat (exactCost kLockCnt stats crossings result) ∧
      exactCost kLockCnt stats crossings result < 2 ^ 64 - 1 ∧
      ∀ cuts, IsCuts kLockCnt kBlocks cuts →
        exactCost kLockCnt stats crossings result ≤ exactCost kLockCnt stats crossings cuts := by
  have hsome : (best (seg stats crossings) kLockCnt kBlocks).isSome := by
    rw [best_isSome_iff]
    omega
  obtain ⟨⟨c, left⟩, hbest⟩ := Option.isSome_iff_exists.mp hsome
  obtain ⟨hcuts, hcost⟩ := walk_best hbest
  have hext := extends_full kLockCnt kBlocks
  obtain ⟨hdp, -⟩ := split_fillTables le_rfl le_rfl ((wrapped_eq_best hfit hext).trans hbest)
  have hlt : c < 2 ^ 64 - 1 := by
    obtain ⟨locks, rfl⟩ := Nat.exists_eq_add_of_le' hpos
    obtain ⟨hlt, ⟨cell, hcell, rfl⟩, -⟩ := best_succ_spec hbest
    exact hfit locks kBlocks left hext hlt cell hcell
  dsimp only
  rw [optimizePartitions_eq_walk, walk_split hfit hext hsome, exactCost_eq_cost, hcost]
  refine ⟨hcuts, hdp, hlt, fun cuts hc => ?_⟩
  rw [exactCost_eq_cost]
  exact best_le_cost hbest hc

/-- A crude bound on every split of the first `n` blocks: all hits in one segment, and every
crossing paid for. -/
theorem cost_le_total (stats crossings : ℕ → UInt64) {locks n : ℕ} {cuts : List ℕ}
    (h : IsCuts locks n cuts) : cost (seg stats crossings) locks cuts ≤
      prefixSum (natOf stats) n * prefixSum (natOf stats) n +
        10000000 * prefixSum (natOf crossings) n := by
  induction locks generalizing n cuts with
  | zero => simp [cost]
  | succ locks ih =>
      obtain ⟨m, front, rfl, hfront, hm⟩ := h.exists_snoc
      rw [cost_snoc _ hfront]
      have hW := prefixSum_mono (natOf stats) hm.le
      have hC : prefixSum (natOf crossings) m + natOf crossings m ≤
          prefixSum (natOf crossings) n := prefixSum_mono (natOf crossings) hm
      have hpen : cutPenalty (natOf crossings) m ≤ 10000000 * natOf crossings m := by
        unfold cutPenalty kBoundaryCrossingPenalty
        split <;> omega
      obtain ⟨w, hw⟩ := Nat.exists_eq_add_of_le hW
      have hsq : prefixSum (natOf stats) m * prefixSum (natOf stats) m + w * w ≤
          prefixSum (natOf stats) n * prefixSum (natOf stats) n := by
        rw [hw]
        nlinarith [Nat.zero_le (prefixSum (natOf stats) m * w)]
      have hseg : seg stats crossings m n = w * w + cutPenalty (natOf crossings) m := by
        rw [seg, segmentCost, hw, Nat.add_sub_cancel_left]
      have := ih hfront
      rw [hseg]
      linarith

end Fill

/-- **Optimality of `OptimizePartitions`**: as long as every split of every prefix of the blocks
costs less than `inf`, the result is a partition, its cost is the last cell of the table, the
wrapped cost is the exact one, and it is the least cost of any partition. -/
theorem optimizePartitions_optimal (kLockCnt kBlocks : ℕ) (stats crossings : ℕ → UInt64)
    (hpos : 1 ≤ kLockCnt) (hle : kLockCnt ≤ kBlocks)
    (hfit : ∀ right ≤ kBlocks, ∀ locks, 1 ≤ locks → locks ≤ kLockCnt → ∀ cuts,
      IsCuts locks right cuts → exactCost locks stats crossings cuts < 2 ^ 64 - 1) :
    let result := optimizePartitions kLockCnt kBlocks (prefixSum stats) crossings
    let dp := (fillTables kLockCnt kBlocks (prefixSum stats) crossings).dp
    IsCuts kLockCnt kBlocks result ∧
      partitionCost kLockCnt result (prefixSum stats) crossings = dp kBlocks kLockCnt ∧
      (dp kBlocks kLockCnt).toNat = exactCost kLockCnt stats crossings result ∧
      IsLeast {c | ∃ cuts, IsCuts kLockCnt kBlocks cuts ∧
          (partitionCost kLockCnt cuts (prefixSum stats) crossings).toNat = c}
        (dp kBlocks kLockCnt).toNat := by
  have hcosts : CostsFit kLockCnt kBlocks stats crossings :=
    fun cuts hcuts => hfit kBlocks le_rfl kLockCnt hpos le_rfl cuts hcuts
  obtain ⟨hcuts, hdp, hlt, hleast⟩ := optimizePartitions_spec hpos hle hcosts.candidatesFit
  intro result dp
  have hexact : ∀ cuts, IsCuts kLockCnt kBlocks cuts →
      (partitionCost kLockCnt cuts (prefixSum stats) crossings).toNat =
        exactCost kLockCnt stats crossings cuts :=
    fun cuts hc => toNat_partitionCost hc.ascending ((hcosts cuts hc).trans (by omega))
  have hdpNat : (dp kBlocks kLockCnt).toNat = exactCost kLockCnt stats crossings result := by
    simp only [dp, hdp]
    exact UInt64.toNat_ofNat_of_lt' (hlt.trans (by rw [UInt64.size]; omega))
  refine ⟨hcuts, ?_, hdpNat, ⟨_, hcuts, (hexact _ hcuts).trans hdpNat.symm⟩, ?_⟩
  · rw [← UInt64.toNat_inj, hexact _ hcuts, hdpNat]
  · rintro c ⟨cuts, hc, rfl⟩
    rw [hdpNat, hexact cuts hc]
    exact hleast cuts hc

/-- Two locks over four blocks, most hits on the first one. -/
theorem optimizePartitions_optimal_hot_block :
    let stats : ℕ → UInt64 := fun b => if b = 0 then 9 else 1
    let crossings : ℕ → UInt64 := fun _ => 2
    let result := optimizePartitions 2 4 (prefixSum stats) crossings
    let dp := (fillTables 2 4 (prefixSum stats) crossings).dp
    IsCuts 2 4 result ∧
      partitionCost 2 result (prefixSum stats) crossings = dp 4 2 ∧
      (dp 4 2).toNat = exactCost 2 stats crossings result ∧
      IsLeast {c | ∃ cuts, IsCuts 2 4 cuts ∧
          (partitionCost 2 cuts (prefixSum stats) crossings).toNat = c} (dp 4 2).toNat := by
  refine optimizePartitions_optimal 2 4 _ _ (by decide) (by decide) ?_
  intro right hright locks _ _ cuts hcuts
  have hbound := cost_le_total (fun b => if b = 0 then 9 else 1) (fun _ => 2) hcuts
  have hstats := prefixSum_mono (natOf fun b => if b = 0 then 9 else 1) hright
  have hcross := prefixSum_mono (natOf fun _ => 2) hright
  rw [show prefixSum (natOf fun b => if b = 0 then 9 else 1) 4 = 12 from by decide] at hstats
  rw [show prefixSum (natOf fun _ => 2) 4 = 8 from by decide] at hcross
  have hsq := Nat.mul_le_mul hstats hstats
  rw [exactCost_eq_cost]
  exact lt_of_le_of_lt hbound (by omega)

end DynamicLock
end DynLocks
