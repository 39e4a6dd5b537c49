import DynLocks.Lib.CutVector

/-!
# DynLocks.Layout

The index arithmetic the locks share: clamping a query to the array, mapping a
position to its block, summing what the blocks weigh, and expanding a cut vector
into the table that maps a block to its lock; and the order in which a
`RangeLockGuard` unlocks.  `DynamicLock` and `GeneticLock` each have their own copy of
these members; the copies differ in the names of the fields only.
-/

namespace DynLocks

open CutVector

/-- A query of the workload; `delta` is an `int`. -/
structure Query where
  left : UInt32 := 0
  right : UInt32 := 0
  target : UInt32 := 0
  delta : ℤ := 0
deriving DecidableEq, Repr

/-! ## positions and blocks -/

/-- The prologue of every query: clamp both ends to the array and order them. -/
def clampRange (arraySize left right : ℕ) : ℕ × ℕ :=
  let left := min left (arraySize - 1)
  let right := min right (arraySize - 1)
  if left > right then (right, left) else (left, right)

/-- `block_size_`. -/
def blockSizeOf (arraySize kBlocks : ℕ) : ℕ :=
  if arraySize = 0 then 1 else 1 + (arraySize - 1) / kBlocks

/-- `PositionToBlock`. -/
def positionToBlockOf (arraySize kBlocks pos : ℕ) : ℕ :=
  min (pos / blockSizeOf arraySize kBlocks) (kBlocks - 1)

/-- A clamped range is ordered. -/
theorem clampRange_le (arraySize left right : ℕ) :
    (clampRange arraySize left right).1 ≤ (clampRange arraySize left right).2 := by
  unfold clampRange
  dsimp only
  split <;> omega

/-- A clamped range lies inside a nonempty array. -/
theorem clampRange_lt {arraySize : ℕ} (h : 0 < arraySize) (left right : ℕ) :
    (clampRange arraySize left right).2 < arraySize := by
  unfold clampRange
  dsimp only
  split <;> simp only <;> omega

/-- A range inside the array is not changed. -/
theorem clampRange_eq_self {arraySize left right : ℕ} (hle : left ≤ right)
    (hlt : right < arraySize) : clampRange arraySize left right = (left, right) := by
  have hl : min left (arraySize - 1) = left := by omega
  have hr : min right (arraySize - 1) = right := by omega
  rw [clampRange, hl, hr]
  exact if_neg (by omega)

/-- A block has one position at least. -/
theorem blockSizeOf_pos (arraySize kBlocks : ℕ) : 0 < blockSizeOf arraySize kBlocks := by
  unfold blockSizeOf
  split
  · exact Nat.one_pos
  · exact Nat.add_pos_left Nat.one_pos _

/-- Every position has a block. -/
theorem positionToBlockOf_lt (arraySize : ℕ) {kBlocks : ℕ} (h : 0 < kBlocks) (pos : ℕ) :
    positionToBlockOf arraySize kBlocks pos < kBlocks := by
  unfold positionToBlockOf
  omega

/-- The blocks follow the positions. -/
theorem positionToBlockOf_mono (arraySize kBlocks : ℕ) {pos pos' : ℕ} (h : pos ≤ pos') :
    positionToBlockOf arraySize kBlocks pos ≤ positionToBlockOf arraySize kBlocks pos' := by
  have := Nat.div_le_div_right (c := blockSizeOf arraySize kBlocks) h
  unfold positionToBlockOf
  omega

/-- Subtraction in `size_t`. -/
def subSize (a b : ℕ) : ℕ := (a + 2 ^ 64 - b) % 2 ^ 64

/-- A difference of sizes that does not wrap. -/
theorem subSize_eq {a b : ℕ} (hle : b ≤ a) (hlt : a < 2 ^ 64) : subSize a b = a - b := by
  unfold subSize
  omega

/-- The size of the segment of mutexes `[lockStart, lockEnd]`, in `size_t` arithmetic. -/
def lockSpan (lockStart lockEnd : ℕ) : ℕ :=
  ((lockEnd + 2 ^ 64 - lockStart) % 2 ^ 64 + 1) % 2 ^ 64

/-- The number of locks, where it does not wrap. -/
theorem lockSpan_eq {lockStart lockEnd : ℕ} (hle : lockStart ≤ lockEnd)
    (hlt : lockEnd + 1 < 2 ^ 64) : lockSpan lockStart lockEnd = lockEnd - lockStart + 1 := by
  unfold lockSpan
  omega

/-! ## prefix sums -/

/-- `prefix_sum[i]`, or `prefix[i]`: what the blocks before `i` weigh. -/
def prefixSum {α : Type} [Add α] [OfNat α 0] (stats : ℕ → α) : ℕ → α
  | 0 => 0
  | i + 1 => prefixSum stats i + stats i

/-! ## the block table -/

/-- The inner loop of `RefreshBlockToLock`, entered with `room` locks left after `lockIndex`. -/
def nextLock (cuts : List ℕ) (block : ℕ) : ℕ → ℕ → ℕ
  | 0, lockIndex => lockIndex
  | room + 1, lockIndex =>
      if block ≥ cuts.getD (lockIndex + 1) 0 then nextLock cuts block room (lockIndex + 1)
      else lockIndex

/-- One iteration of the outer loop: the lock of `block`, given that of the block before. -/
def advanceLock (kLockCnt : ℕ) (cuts : List ℕ) (block lockIndex : ℕ) : ℕ :=
  nextLock cuts block (kLockCnt - 1 - lockIndex) lockIndex

/-- The value of `lock_index` that `RefreshBlockToLock` stores for `block`. -/
def lockOfBlock (kLockCnt : ℕ) (cuts : List ℕ) : ℕ → ℕ
  | 0 => advanceLock kLockCnt cuts 0 0
  | block + 1 => advanceLock kLockCnt cuts (block + 1) (lockOfBlock kLockCnt cuts block)

/-- `lock_index` as the outer loop enters the iteration of `block`. -/
def lockBefore (kLockCnt : ℕ) (cuts : List ℕ) : ℕ → ℕ
  | 0 => 0
  | block + 1 => lockOfBlock kLockCnt cuts block

/-- `RefreshBlockToLock` as one function on the table. -/
def refreshTable (kLockCnt kBlocks : ℕ) (cuts : List ℕ) (table : ℕ → ℕ) : ℕ → ℕ :=
  ((List.range kBlocks).foldl (fun (s : ℕ × (ℕ → ℕ)) block =>
    let lockIndex := advanceLock kLockCnt cuts block s.1
    (lockIndex, Function.update s.2 block lockIndex)) (0, table)).2

/-- The lock of a block is found from that of the block before it. -/
theorem lockOfBlock_eq_advance (kLockCnt : ℕ) (cuts : List ℕ) (block : ℕ) :
    lockOfBlock kLockCnt cuts block =
      advanceLock kLockCnt cuts block (lockBefore kLockCnt cuts block) := by
  cases block <;> rfl

/-- An iteration writes one more cell. -/
theorem table_refresh {kLockCnt : ℕ} {table : ℕ → ℕ} {cuts : List ℕ} {block lockIndex : ℕ}
    (hindex : lockIndex = lockBefore kLockCnt cuts block)
    (htable : ∀ b < block, table b = lockOfBlock kLockCnt cuts b) :
    ∀ b < block + 1, Function.update table block (advanceLock kLockCnt cuts block lockIndex) b =
      lockOfBlock kLockCnt cuts b := by
  intro b hb
  by_cases heq : b = block
  · rw [heq, Function.update_self, hindex, lockOfBlock_eq_advance]
  · rw [Function.update_of_ne heq]
    exact htable b (by omega)

/-- After `n` iterations the first `n` cells are written and `lock_index` is the last of them. -/
theorem foldl_refreshTable (kLockCnt : ℕ) (cuts : List ℕ) (table : ℕ → ℕ) (n : ℕ) :
    (List.range n).foldl (fun (s : ℕ × (ℕ → ℕ)) block =>
        let lockIndex := advanceLock kLockCnt cuts block s.1
        (lockIndex, Function.update s.2 block lockIndex)) (0, table) =
      (lockBefore kLockCnt cuts n,
        fun b => if b < n then lockOfBlock kLockCnt cuts b else table b) := by
  induction n with
  | zero => simp [lockBefore]
  | succ n ih =>
      rw [List.range_succ, List.foldl_append, ih, List.foldl_cons, List.foldl_nil]
      dsimp only
      rw [← lockOfBlock_eq_advance]
      congr 1
      funext b
      by_cases hb : b = n
      · rw [hb, Function.update_self, if_pos (Nat.lt_add_one n)]
      · rw [Function.update_of_ne hb]
        exact if_congr (by omega) rfl rfl

/-- Every block is written with its lock. -/
theorem refreshTable_apply (kLockCnt : ℕ) {kBlocks : ℕ} (cuts : List ℕ) (table : ℕ → ℕ)
    {b : ℕ} (hb : b < kBlocks) :
    refreshTable kLockCnt kBlocks cuts table b = lockOfBlock kLockCnt cuts b := by
  rw [refreshTable, foldl_refreshTable]
  exact if_pos hb

/-- The search for the next lock goes upward. -/
theorem le_nextLock (cuts : List ℕ) (block room lockIndex : ℕ) :
    lockIndex ≤ nextLock cuts block room lockIndex := by
  induction room generalizing lockIndex with
  | zero => exact le_rfl
  | succ room ih =>
      unfold nextLock
      split
      · exact (Nat.le_succ lockIndex).trans (ih (lockIndex + 1))
      · exact le_rfl

/-- It passes `room` locks at most. -/
theorem nextLock_le (cuts : List ℕ) (block room lockIndex : ℕ) :
    nextLock cuts block room lockIndex ≤ lockIndex + room := by
  induction room generalizing lockIndex with
  | zero => exact le_rfl
  | succ room ih =>
      unfold nextLock
      split
      · have := ih (lockIndex + 1)
        omega
      · omega

/-- Whatever the cuts, the lock index stays inside the lock array. -/
theorem lockOfBlock_lt {kLockCnt : ℕ} (h : 0 < kLockCnt) (cuts : List ℕ) (block : ℕ) :
    lockOfBlock kLockCnt cuts block < kLockCnt := by
  induction block with
  | zero =>
      have := nextLock_le cuts 0 (kLockCnt - 1 - 0) 0
      rw [lockOfBlock, advanceLock]
      omega
  | succ block ih =>
      have := nextLock_le cuts (block + 1)
        (kLockCnt - 1 - lockOfBlock kLockCnt cuts block) (lockOfBlock kLockCnt cuts block)
      rw [lockOfBlock, advanceLock]
      omega

/-- Whatever the cuts, the lock index never decreases. -/
theorem lockOfBlock_mono (kLockCnt : ℕ) (cuts : List ℕ) {b b' : ℕ} (h : b ≤ b') :
    lockOfBlock kLockCnt cuts b ≤ lockOfBlock kLockCnt cuts b' := by
  induction b', h using Nat.le_induction with
  | base => exact le_rfl
  | succ b' _ ih => exact ih.trans (le_nextLock _ _ _ _)

/-- Where the inner loop stops: at the last lock or before a cut beyond the block. -/
theorem nextLock_stops (cuts : List ℕ) (block room lockIndex : ℕ)
    (h : cuts.getD lockIndex 0 ≤ block) :
    cuts.getD (nextLock cuts block room lockIndex) 0 ≤ block ∧
      (nextLock cuts block room lockIndex = lockIndex + room ∨
        block < cuts.getD (nextLock cuts block room lockIndex + 1) 0) := by
  induction room generalizing lockIndex with
  | zero => exact ⟨h, Or.inl rfl⟩
  | succ room ih =>
      unfold nextLock
      split
      · next hge =>
          obtain ⟨hlo, hstop⟩ := ih (lockIndex + 1) hge
          refine ⟨hlo, hstop.imp_left fun heq => ?_⟩
          omega
      · next hlt => exact ⟨h, Or.inr (by omega)⟩

/-- The inner loop passes the cuts that are not beyond the block, and stops at the last lock or at
a cut that is. -/
theorem nextLock_spec (cuts : List ℕ) (block room lockIndex : ℕ) :
    (∀ i, lockIndex ≤ i → i < nextLock cuts block room lockIndex → cuts.getD (i + 1) 0 ≤ block) ∧
      (nextLock cuts block room lockIndex = lockIndex + room ∨
        block < cuts.getD (nextLock cuts block room lockIndex + 1) 0) := by
  induction room generalizing lockIndex with
  | zero => exact ⟨fun i hlo hhi => absurd hhi (Nat.not_lt.mpr hlo), Or.inl rfl⟩
  | succ room ih =>
      unfold nextLock
      split
      · next hge =>
          obtain ⟨hpassed, hstop⟩ := ih (lockIndex + 1)
          refine ⟨fun i hlo hhi => ?_, hstop.imp_left fun heq => by omega⟩
          rcases Nat.lt_or_eq_of_le hlo with hlt | rfl
          · exact hpassed i hlt hhi
          · exact hge
      · next hlt =>
          exact ⟨fun i hlo hhi => absurd hhi (Nat.not_lt.mpr hlo), Or.inr (Nat.lt_of_not_le hlt)⟩

/-- Whatever the cuts, the table names the first lock whose segment ends beyond the block, or the
last lock. -/
theorem lockOfBlock_spec {kLockCnt : ℕ} (hpos : 0 < kLockCnt) (cuts : List ℕ) (block : ℕ) :
    (∀ i < lockOfBlock kLockCnt cuts block, cuts.getD (i + 1) 0 ≤ block) ∧
      (lockOfBlock kLockCnt cuts block = kLockCnt - 1 ∨
        block < cuts.getD (lockOfBlock kLockCnt cuts block + 1) 0) := by
  have hstep : ∀ block lockIndex, lockIndex < kLockCnt →
      (∀ i < lockIndex, cuts.getD (i + 1) 0 ≤ block) →
      (∀ i < advanceLock kLockCnt cuts block lockIndex, cuts.getD (i + 1) 0 ≤ block) ∧
        (advanceLock kLockCnt cuts block lockIndex = kLockCnt - 1 ∨
          block < cuts.getD (advanceLock kLockCnt cuts block lockIndex + 1) 0) := by
    intro block lockIndex hlt hbefore
    obtain ⟨hpassed, hstop⟩ := nextLock_spec cuts block (kLockCnt - 1 - lockIndex) lockIndex
    refine ⟨fun i hi => ?_, hstop.imp_left fun heq => by unfold advanceLock; omega⟩
    by_cases hold : i < lockIndex
    · exact hbefore i hold
    · exact hpassed i (Nat.le_of_not_lt hold) hi
  induction block with
  | zero => exact hstep 0 0 hpos fun i hi => absurd hi (Nat.not_lt_zero i)
  | succ block ih =>
      exact hstep (block + 1) _ (lockOfBlock_lt hpos cuts block) fun i hi =>
        Nat.le_succ_of_le (ih.1 i hi)

/-- If the cuts cover the blocks, the table names the one segment that owns the block. -/
theorem owns_lockOfBlock {kLockCnt kBlocks : ℕ} {cuts : List ℕ} (h : Covers kLockCnt kBlocks cuts)
    (hpos : 0 < kLockCnt) {b : ℕ} (hb : b < kBlocks) :
    Owns cuts (lockOfBlock kLockCnt cuts b) b := by
  obtain ⟨hpassed, hstop⟩ := lockOfBlock_spec hpos cuts b
  constructor
  · cases hlock : lockOfBlock kLockCnt cuts b with
    | zero => rw [h.first]; exact Nat.zero_le b
    | succ lock => exact hpassed lock (by omega)
  · rcases hstop with hlast | hlt
    · rw [hlast, Nat.sub_add_cancel hpos, h.last]
      exact hb
    · exact hlt

/-- The locks from that of block `lo` to that of block `hi` are at least one and at most all. -/
theorem lockSpan_lockOfBlock {kLockCnt : ℕ} (hpos : 0 < kLockCnt) (hlt : kLockCnt < 2 ^ 64)
    (cuts : List ℕ) {lo hi : ℕ} (hle : lo ≤ hi) :
    let span := lockSpan (lockOfBlock kLockCnt cuts lo) (lockOfBlock kLockCnt cuts hi)
    span = lockOfBlock kLockCnt cuts hi - lockOfBlock kLockCnt cuts lo + 1 ∧
      1 ≤ span ∧ span ≤ kLockCnt := by
  have hmono := lockOfBlock_mono kLockCnt cuts hle
  have hlast := lockOfBlock_lt hpos cuts hi
  intro span
  have hspan : span = _ := lockSpan_eq hmono (by omega)
  omega

/-- If no segment between the two is empty, these are the locks whose segments the blocks
`lo … hi` meet. -/
theorem lockSpan_eq_card {kLockCnt kBlocks : ℕ} (hpos : 0 < kLockCnt) (hlt : kLockCnt < 2 ^ 64)
    {cuts : List ℕ} (h : Covers kLockCnt kBlocks cuts) (hpacked : Packed kLockCnt cuts) {lo hi : ℕ}
    (hle : lo ≤ hi) (hhi : hi < kBlocks) :
    lockSpan (lockOfBlock kLockCnt cuts lo) (lockOfBlock kLockCnt cuts hi) =
      (segmentsMeeting kLockCnt cuts lo hi).card := by
  have hmono := lockOfBlock_mono kLockCnt cuts hle
  rw [(lockSpan_lockOfBlock hpos hlt cuts hle).1, h.ascending.segmentsMeeting_eq hpacked
    (lockOfBlock_lt hpos cuts lo) (lockOfBlock_lt hpos cuts hi)
    (owns_lockOfBlock h hpos (Nat.lt_of_le_of_lt hle hhi)) (owns_lockOfBlock h hpos hhi) hle,
    Nat.card_Icc]
  omega

/-- For a cut vector the table names the segment of each block. -/
theorem lockOfBlock_eq_segmentOf {kLockCnt kBlocks : ℕ} {cuts : List ℕ}
    (h : IsCuts kLockCnt kBlocks cuts) (hpos : 0 < kLockCnt) {b : ℕ} (hb : b < kBlocks) :
    lockOfBlock kLockCnt cuts b = segmentOf kLockCnt cuts b := by
  -- the loop enters every iteration with a lock whose segment starts at or before the block
  have hstep : ∀ b i, b < kBlocks → i < kLockCnt → cuts.getD i 0 ≤ b →
      cuts.getD (advanceLock kLockCnt cuts b i) 0 ≤ b ∧
        segmentOf kLockCnt cuts b = advanceLock kLockCnt cuts b i := by
    intro b i hb hi hlo
    have hle := nextLock_le cuts b (kLockCnt - 1 - i) i
    obtain ⟨hlo', hstop⟩ := nextLock_stops cuts b (kLockCnt - 1 - i) i hlo
    refine ⟨hlo', h.segmentOf_eq (by unfold advanceLock; omega) hlo' ?_⟩
    rcases hstop with heq | hlt
    · rw [advanceLock, heq, show i + (kLockCnt - 1 - i) + 1 = kLockCnt by omega, h.last]
      exact hb
    · exact hlt
  have hall : cuts.getD (lockOfBlock kLockCnt cuts b) 0 ≤ b ∧
      segmentOf kLockCnt cuts b = lockOfBlock kLockCnt cuts b := by
    induction b with
    | zero => exact hstep 0 0 hb hpos (by rw [h.first])
    | succ b ih =>
        obtain ⟨hlo, -⟩ := ih (by omega)
        exact hstep (b + 1) _ hb (lockOfBlock_lt hpos cuts b) (by omega)
  exact hall.2.symm

/-! ## template arguments -/

theorem kBlocks_default_pos : 0 < 1024 := by decide

theorem kBlocks_default_lt : 1024 < 2 ^ 64 := by decide

theorem one_lt_size : 1 < 2 ^ 64 := by decide

/-! ## guards -/

/-- `UnlockAll` of a `RangeLockGuard` that has locked `lockedCount` mutexes from `first` on: the
mutexes it unlocks, in this order.  For a single mutex a `std::lock_guard` does the same. -/
def unlockAll (first : ℕ) : ℕ → List ℕ
  | 0 => []
  | lockedCount + 1 => (first + lockedCount) :: unlockAll first lockedCount

theorem unlockAll_eq (first lockedCount : ℕ) :
    unlockAll first lockedCount = (List.range' first lockedCount).reverse := by
  induction lockedCount with
  | zero => rfl
  | succ lockedCount ih =>
      rw [unlockAll, ih, List.range'_1_concat, List.reverse_append, List.reverse_singleton,
        List.singleton_append]

/-- `unlockAll` unlocks the locks of the attempt. -/
theorem mem_unlockAll {first lockedCount i : ℕ} :
    i ∈ unlockAll first lockedCount ↔ first ≤ i ∧ i < first + lockedCount := by
  rw [unlockAll_eq, List.mem_reverse, List.mem_range'_1]

/-- It unlocks none of them twice. -/
theorem nodup_unlockAll (first lockedCount : ℕ) : (unlockAll first lockedCount).Nodup := by
  rw [unlockAll_eq]
  exact List.nodup_reverse.mpr List.nodup_range'

end DynLocks
