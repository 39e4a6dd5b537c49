import DynLocks.Dynamic.Machine
import DynLocks.Genetic.Machine
import DynLocks.Genetic.Validity
import DynLocks.Naive.Machine

/-!
# DynLocks.Arithmetic

From a position to its mutex in `size_t`, in the three classes.

* `SafeIndex` — the block size is not zero, every position of the array has a mutex, the mutexes
  are in the order of the positions, and so overlapping ranges share one;
* `NaiveLock.safeIndex_iff_sum_fits` — the sum that `NaiveLock` divides must not wrap;
* `safeIndex_table` — the block tables of the other two are safe for every size and every partition;
* `safeIndex_iff` — the three side by side.
-/

namespace DynLocks

/-! ## what is asked of the arithmetic -/

/-- The way from a position to its mutex is defined and stays in bounds and in order. -/
structure SafeIndex (arraySize kLockCnt blockSize : ℕ) (lockOf : ℕ → ℕ) : Prop where
  blockSize_ne : blockSize ≠ 0
  lt : ∀ pos < arraySize, lockOf pos < kLockCnt
  mono : ∀ pos pos', pos ≤ pos' → pos' < arraySize → lockOf pos ≤ lockOf pos'
  shared : ∀ left right left' right' pos,
    (clampRange arraySize left right).1 ≤ pos → pos ≤ (clampRange arraySize left right).2 →
    (clampRange arraySize left' right').1 ≤ pos → pos ≤ (clampRange arraySize left' right').2 →
      ∃ lock < kLockCnt,
        (lockOf (clampRange arraySize left right).1 ≤ lock ∧
          lock ≤ lockOf (clampRange arraySize left right).2) ∧
        (lockOf (clampRange arraySize left' right').1 ≤ lock ∧
          lock ≤ lockOf (clampRange arraySize left' right').2)

/-- Ranges that overlap share the mutex of a position in both. -/
theorem safeIndex_of_mono {arraySize kLockCnt blockSize : ℕ} {lockOf : ℕ → ℕ}
    (hblock : blockSize ≠ 0) (hlt : ∀ pos, lockOf pos < kLockCnt)
    (hmono : ∀ pos pos', pos ≤ pos' → lockOf pos ≤ lockOf pos') :
    SafeIndex arraySize kLockCnt blockSize lockOf where
  blockSize_ne := hblock
  lt pos _ := hlt pos
  mono pos pos' h _ := hmono pos pos' h
  shared _ _ _ _ pos h₁ h₂ h₃ h₄ :=
    ⟨lockOf pos, hlt pos, ⟨hmono _ _ h₁, hmono _ _ h₂⟩, hmono _ _ h₃, hmono _ _ h₄⟩

/-! ## the block tables -/

/-- `block_size_` of `DynamicLock` and `GeneticLock`, with every operation in `size_t`. -/
def sizeBlockSize (arraySize kBlocks : ℕ) : ℕ :=
  if arraySize = 0 then 1 else (1 + subSize arraySize 1 / kBlocks) % 2 ^ 64

/-- `PositionToBlock`, with every operation in `size_t`. -/
def sizePositionToBlock (arraySize kBlocks pos : ℕ) : ℕ :=
  min (pos / sizeBlockSize arraySize kBlocks) (subSize kBlocks 1)

/-- The partition that the constructor of `DynamicLock` installs, with the products in `size_t`. -/
def sizePartitions (kLockCnt kBlocks : ℕ) : List ℕ :=
  ((List.range (kLockCnt + 1)).map fun i => i * kBlocks % 2 ^ 64 / kLockCnt).set kLockCnt kBlocks

/-- No operation on the way to the block size leaves the word. -/
theorem sizeBlockSize_eq {arraySize : ℕ} (hn : arraySize < 2 ^ 64) (kBlocks : ℕ) :
    sizeBlockSize arraySize kBlocks = blockSizeOf arraySize kBlocks := by
  unfold sizeBlockSize blockSizeOf
  split
  · rfl
  · have hdiv := Nat.div_le_self (arraySize - 1) kBlocks
    rw [subSize_eq (by omega) hn, Nat.mod_eq_of_lt (by omega)]

theorem sizePositionToBlock_eq {arraySize kBlocks : ℕ} (hn : arraySize < 2 ^ 64)
    (hB : 0 < kBlocks) (hB' : kBlocks < 2 ^ 64) (pos : ℕ) :
    sizePositionToBlock arraySize kBlocks pos = positionToBlockOf arraySize kBlocks pos := by
  rw [sizePositionToBlock, sizeBlockSize_eq hn, subSize_eq hB hB', positionToBlockOf]

/-- With 1024 blocks and no more locks than blocks, no product leaves the word. -/
theorem sizePartitions_eq (cfg : DynamicLock.Config) (hB : cfg.kBlocks = 1024)
    (hle : cfg.kLockCnt ≤ cfg.kBlocks) :
    sizePartitions cfg.kLockCnt cfg.kBlocks = cfg.initialPartitions := by
  unfold sizePartitions DynamicLock.Config.initialPartitions
  congr 1
  apply List.map_congr_left
  intro i hi
  rw [List.mem_range] at hi
  rw [Nat.mod_eq_of_lt]
  rw [hB] at hle ⊢
  omega

/-- The mutex of a position, from the table that the constructor fills. -/
def sizeLockOf (arraySize kLockCnt kBlocks : ℕ) (cuts : List ℕ) (pos : ℕ) : ℕ :=
  refreshTable kLockCnt kBlocks cuts (fun _ => 0) (sizePositionToBlock arraySize kBlocks pos)

/-- The table is safe for every size of the array, whatever the partition is. -/
theorem safeIndex_table {arraySize kLockCnt kBlocks : ℕ} (hn : arraySize < 2 ^ 64)
    (hk : 0 < kLockCnt) (hB : 0 < kBlocks) (hB' : kBlocks < 2 ^ 64)
    (cuts : List ℕ) :
    SafeIndex arraySize kLockCnt (sizeBlockSize arraySize kBlocks)
      (sizeLockOf arraySize kLockCnt kBlocks cuts) := by
  have hlock : ∀ pos, sizeLockOf arraySize kLockCnt kBlocks cuts pos =
      lockOfBlock kLockCnt cuts (positionToBlockOf arraySize kBlocks pos) := by
    intro pos
    rw [sizeLockOf, sizePositionToBlock_eq hn hB hB',
      refreshTable_apply kLockCnt cuts _ (positionToBlockOf_lt arraySize hB pos)]
  apply safeIndex_of_mono
  · rw [sizeBlockSize_eq hn]
    exact (blockSizeOf_pos arraySize kBlocks).ne'
  · intro pos
    rw [hlock]
    exact lockOfBlock_lt hk cuts _
  · intro pos pos' h
    rw [hlock, hlock]
    exact lockOfBlock_mono kLockCnt cuts (positionToBlockOf_mono arraySize kBlocks h)

/-- The index that `DynamicLock` computes on its initial partition. -/
theorem sizeLockOf_dynamic (cfg : DynamicLock.Config) {Client : Type} (hB : cfg.kBlocks = 1024)
    (hle : cfg.kLockCnt ≤ cfg.kBlocks) (hn : cfg.arraySize < 2 ^ 64) (pos : ℕ) :
    sizeLockOf cfg.arraySize cfg.kLockCnt cfg.kBlocks
        (sizePartitions cfg.kLockCnt cfg.kBlocks) pos =
      (DynamicLock.initMem cfg : DynamicLock.Mem Client).blockToLock (cfg.positionToBlock pos) := by
  rw [sizeLockOf, sizePartitions_eq cfg hB hle,
    sizePositionToBlock_eq hn cfg.kBlocks_pos (by rw [hB]; norm_num)]
  rfl

/-- The index that `GeneticLock` computes on its initial partition. -/
theorem sizeLockOf_genetic (cfg : GeneticLock.Config) {Client G : Type} (seed : G)
    (hn : cfg.arraySize < 2 ^ 64) (pos : ℕ) :
    sizeLockOf cfg.arraySize cfg.kLockCnt cfg.kBlocks cfg.makeUniformChromosome.cuts pos =
      (GeneticLock.initMem cfg seed : GeneticLock.Mem Client G).blockToLock
        (cfg.positionToBlock pos) := by
  rw [sizeLockOf, sizePositionToBlock_eq hn cfg.kBlocks_pos cfg.kBlocks_lt]
  rfl

/-! ## the sum of `NaiveLock` -/

/-- `NaiveLock` adds before it divides: within `kLockCnt - 1` of the largest size the sum wraps, to
less than one block. -/
theorem NaiveLock.safeIndex_iff_sum_fits (cfg : NaiveLock.Config) (hk : cfg.kLockCnt < 2 ^ 64)
    (hn : 1 ≤ cfg.arraySize) (hn' : cfg.arraySize < 2 ^ 64) :
    SafeIndex cfg.arraySize cfg.kLockCnt cfg.blockSize cfg.lockOf ↔
      cfg.arraySize + (cfg.kLockCnt - 1) < 2 ^ 64 := by
  have hpos := cfg.kLockCnt_pos
  have hblock : cfg.blockSize = (cfg.arraySize + cfg.kLockCnt - 1) % 2 ^ 64 / cfg.kLockCnt :=
    if_neg (by omega)
  constructor
  · intro h
    by_contra hwrap
    apply h.blockSize_ne
    rw [hblock]
    exact Nat.div_eq_of_lt (by omega)
  · intro hfits
    apply safeIndex_of_mono
    · rw [hblock, Nat.mod_eq_of_lt (by omega)]
      exact (Nat.div_pos (by omega) hpos).ne'
    · exact cfg.lockOf_lt
    · exact fun pos pos' h => cfg.lockOf_mono h

/-! ## the three classes -/

/-- **Position-to-mutex arithmetic is safe in `DynamicLock` and `GeneticLock` for every size of the
array, and in `NaiveLock` exactly for the sizes that `kLockCnt - 1` can be added to.** -/
theorem safeIndex_iff (naive : NaiveLock.Config) (dynamic : DynamicLock.Config)
    (genetic : GeneticLock.Config) (hnaive : naive.kLockCnt < 2 ^ 64)
    (hsize : 1 ≤ naive.arraySize ∧ naive.arraySize < 2 ^ 64)
    (hdynamic : dynamic.kBlocks = 1024 ∧ dynamic.kLockCnt ≤ dynamic.kBlocks)
    (hdynamicSize : dynamic.arraySize < 2 ^ 64)
    (hgeneticSize : genetic.arraySize < 2 ^ 64) :
    (SafeIndex naive.arraySize naive.kLockCnt naive.blockSize naive.lockOf ↔
      naive.arraySize + (naive.kLockCnt - 1) < 2 ^ 64) ∧
    SafeIndex dynamic.arraySize dynamic.kLockCnt
      (sizeBlockSize dynamic.arraySize dynamic.kBlocks)
      (sizeLockOf dynamic.arraySize dynamic.kLockCnt dynamic.kBlocks
        (sizePartitions dynamic.kLockCnt dynamic.kBlocks)) ∧
    SafeIndex genetic.arraySize genetic.kLockCnt
      (sizeBlockSize genetic.arraySize genetic.kBlocks)
      (sizeLockOf genetic.arraySize genetic.kLockCnt genetic.kBlocks
        genetic.makeUniformChromosome.cuts) := by
  refine ⟨NaiveLock.safeIndex_iff_sum_fits naive hnaive hsize.1 hsize.2, ?_, ?_⟩
  · exact safeIndex_table hdynamicSize dynamic.kLockCnt_pos dynamic.kBlocks_pos
      (by rw [hdynamic.1]; norm_num) _
  · exact safeIndex_table hgeneticSize genetic.kLockCnt_pos genetic.kBlocks_pos
      genetic.kBlocks_lt _

/-- Arrays whose last block is not full. -/
theorem safeIndex_uneven :
    SafeIndex 10 3 (NaiveLock.Config.blockSize { kLockCnt := 3, arraySize := 10 })
        (NaiveLock.Config.lockOf { kLockCnt := 3, arraySize := 10 }) ∧
      SafeIndex 1501 2 (sizeBlockSize 1501 1024)
        (sizeLockOf 1501 2 1024 (sizePartitions 2 1024)) ∧
      SafeIndex 8 2 (sizeBlockSize 8 3)
        (sizeLockOf 8 2 3 GeneticPartitioner.twoLocks.makeUniformChromosome.cuts) := by
  obtain ⟨hnaive, hdynamic, hgenetic⟩ := safeIndex_iff { kLockCnt := 3, arraySize := 10 }
    { kLockCnt := 2, arraySize := 1501 }
    { GeneticPartitioner.twoLocks with arraySize := 8 } (by decide) (by decide) (by decide)
    (by decide) (by decide)
  exact ⟨hnaive.mpr (by decide), hdynamic, hgenetic⟩

/-- Two locks for the largest array: the sum wraps to zero, and every query divides by it. -/
theorem naive_blockSize_wraps :
    NaiveLock.Config.blockSize { kLockCnt := 2, arraySize := 2 ^ 64 - 1 } = 0 ∧
      ¬ SafeIndex (2 ^ 64 - 1) 2
        (NaiveLock.Config.blockSize { kLockCnt := 2, arraySize := 2 ^ 64 - 1 })
        (NaiveLock.Config.lockOf { kLockCnt := 2, arraySize := 2 ^ 64 - 1 }) :=
  ⟨by decide, fun h => h.blockSize_ne (by decide)⟩

end DynLocks
