import DynLocks.Genetic.Hits
import DynLocks.Genetic.Lookup
import DynLocks.Genetic.Progress

/-!
# DynLocks.Genetic.Evaluate

The two figures of `Evaluate` against what they are called.

* `contentionScore_eq` — the score is the sum of the squares of the (query, block) incidences of
  the locks; `contentionScore_iff` compares it with the squared numbers of queries, which is the
  documented score;
* `totalLocks_eq` — the average counts the locks between those of the two ends;
  `evaluateCurrent_iff` compares it with `CountLocksForRange`, which clamps and orders the ends
  first.
-/

namespace DynLocks
namespace GeneticPartitioner

open CutVector

/-- `EvaluateCurrent`. -/
def Config.evaluateCurrent (cfg : Config) (s : State) (queries : List Query) :
    Option PartitionMetrics :=
  cfg.evaluate s.current.cuts queries

namespace Config

variable (cfg : Config)

/-! ## definitions -/

/-- The first and the last lock of a query as `CountLocksForRange` delimits them. -/
def lockSegment (cuts : List ℕ) (query : Query) : ℕ × ℕ :=
  let range := clampRange cfg.arraySize query.left.toNat query.right.toNat
  (cfg.findLockForBlock cuts (cfg.positionToBlock range.1),
    cfg.findLockForBlock cuts (cfg.positionToBlock range.2))

/-- `load_i`, as documented: the queries on mutex `i`. -/
def documentedLoad (cuts : List ℕ) (queries : List Query) (i : ℕ) : ℕ :=
  queries.countP fun query =>
    (cfg.lockSegment cuts query).1 ≤ i && i ≤ (cfg.lockSegment cuts query).2

/-- `sum(load_i^2)`, as documented. -/
def documentedScore (cuts : List ℕ) (queries : List Query) : ℕ :=
  ∑ i ∈ Finset.range cfg.kLockCnt, cfg.documentedLoad cuts queries i ^ 2

/-- The hits of all blocks of lock `i`, without a bound on the sum. -/
def hitLoad (cuts : List ℕ) (queries : List Query) (i : ℕ) : ℕ :=
  ∑ b ∈ Finset.Ico (cuts.getD i 0) (cuts.getD (i + 1) 0), cfg.blockHits queries b

/-- The sum of the squared loads, without a bound on the sums. -/
def hitScore (cuts : List ℕ) (queries : List Query) : ℕ :=
  ∑ i ∈ Finset.range cfg.kLockCnt, cfg.hitLoad cuts queries i ^ 2

/-- No two blocks of the query belong to one lock. -/
def OneBlockPerLock (cuts : List ℕ) (query : Query) : Prop :=
  ∀ b ∈ cfg.blocksOf query, ∀ b' ∈ cfg.blocksOf query,
    cfg.findLockForBlock cuts b = cfg.findLockForBlock cuts b' → b = b'

/-- The lock that `Evaluate` looks up for an end of a query. -/
def lockOfPosition (cuts : List ℕ) (position : ℕ) : ℕ :=
  cfg.findLockForBlock cuts (cfg.positionToBlock position)

/-- The ends are in the order of their locks, and an end behind the array has no lock that the last
position has not, unless the other end has it too. -/
def EndsAgree (cuts : List ℕ) (query : Query) : Prop :=
  cfg.lockOfPosition cuts query.left.toNat ≤ cfg.lockOfPosition cuts query.right.toNat ∧
    (cfg.lockOfPosition cuts query.left.toNat = cfg.lockOfPosition cuts query.right.toNat ∨
      cfg.lockOfPosition cuts query.right.toNat ≤ cfg.lockOfPosition cuts (cfg.arraySize - 1))

variable {cfg} {cuts : List ℕ} {queries : List Query} {metrics : PartitionMetrics}

/-! ## what the loops compute -/

theorem toNat_ofNat_of_lt {n : ℕ} (h : n < 2 ^ 64) : (UInt64.ofNat n).toNat = n :=
  UInt64.toNat_ofNat_of_lt' h

/-- The number of locks is computed in 64 bits. -/
theorem lockSpan_lt (firstLock lastLock : ℕ) : lockSpan firstLock lastLock < 2 ^ 64 := by
  unfold lockSpan
  omega

/-- A sum in 64 bits is the sum modulo 2 ^ 64. -/
theorem foldl_add_ofNat (f : ℕ → ℕ) (l : List ℕ) (a : ℕ) :
    l.foldl (fun acc x => acc + UInt64.ofNat (f x)) (UInt64.ofNat a) =
      UInt64.ofNat (a + (l.map f).sum) := by
  induction l generalizing a with
  | nil => rfl
  | cons x l ih =>
      rw [List.foldl_cons, ← UInt64.ofNat_add, ih, List.map_cons, List.sum_cons, Nat.add_assoc]

/-- `contention_score`, modulo the size of its type. -/
theorem contentionScore_eq :
    cfg.contentionScore cuts (cfg.blockHits queries) =
      UInt64.ofNat (cfg.hitScore cuts queries) := by
  have hhits : (cfg.blockHits queries : ℕ → UInt64) = UInt64.ofNat ∘ cfg.blockHits queries :=
    blockHits_hom rfl (fun n => UInt64.ofNat_add n 1) queries
  have hload : ∀ i, (List.range' (cuts.getD i 0) (cuts.getD (i + 1) 0 - cuts.getD i 0)).foldl
      (fun load block => load + (cfg.blockHits queries block : UInt64)) 0 =
      UInt64.ofNat (cfg.hitLoad cuts queries i) := by
    intro i
    have hsum := foldl_add_ofNat (cfg.blockHits queries)
      (List.range' (cuts.getD i 0) (cuts.getD (i + 1) 0 - cuts.getD i 0)) 0
    rw [hhits]
    rw [Nat.zero_add] at hsum
    exact hsum
  unfold contentionScore
  simp only [hload, ← UInt64.ofNat_mul]
  have hsum := foldl_add_ofNat (fun i => cfg.hitLoad cuts queries i * cfg.hitLoad cuts queries i)
    (List.range cfg.kLockCnt) 0
  rw [Nat.zero_add] at hsum
  simp only [hitScore, sq]
  exact hsum

/-- `total_locks`, modulo the size of its type. -/
theorem totalLocks_eq :
    cfg.totalLocks cuts queries = UInt64.ofNat (queries.map fun query =>
      lockSpan (cfg.lockOfPosition cuts query.left.toNat)
        (cfg.lockOfPosition cuts query.right.toNat)).sum := by
  have hfold : ∀ total : ℕ, queries.foldl (fun total query =>
      let firstLock := cfg.findLockForBlock cuts (cfg.positionToBlock query.left.toNat)
      let lastLock := cfg.findLockForBlock cuts (cfg.positionToBlock query.right.toNat)
      total + UInt64.ofNat (lockSpan firstLock lastLock)) (UInt64.ofNat total) =
      UInt64.ofNat (total + (queries.map fun query =>
        lockSpan (cfg.lockOfPosition cuts query.left.toNat)
          (cfg.lockOfPosition cuts query.right.toNat)).sum) := by
    induction queries with
    | nil => exact fun _ => rfl
    | cons query queries ih =>
        intro total
        dsimp only at ih
        rw [List.foldl_cons, List.map_cons, List.sum_cons, ← Nat.add_assoc, ← ih,
          UInt64.ofNat_add]
        rfl
  have htotal := hfold 0
  rw [Nat.zero_add] at htotal
  exact htotal

/-- What `Evaluate` computes for queries that are there. -/
theorem metrics_of_evaluate (hne : queries ≠ []) (h : cfg.evaluate cuts queries = some metrics) :
    metrics.contentionScore = cfg.contentionScore cuts (cfg.blockHits queries) ∧
      metrics.avgMutexesPerQuery =
        (cfg.totalLocks cuts queries).toNat / (queries.length : ℚ) := by
  unfold evaluate at h
  rw [if_neg hne] at h
  split at h
  · cases h
  · cases h
    exact ⟨rfl, rfl⟩

/-! ## the contention score -/

/-- A query is on a mutex when it is on one of its blocks, so the hits count every query on the
mutex at least once; they count none twice exactly when no query is on two blocks of it. -/
theorem countP_le_sum {α : Type} {p : α → Bool} {f : α → ℕ} {l : List α}
    (hp : ∀ x ∈ l, p x = true ↔ 0 < f x) :
    l.countP p ≤ (l.map f).sum ∧ (l.countP p = (l.map f).sum ↔ ∀ x ∈ l, f x ≤ 1) := by
  induction l with
  | nil => simp
  | cons x l ih =>
      obtain ⟨hle, heq⟩ := ih fun y hy => hp y (List.mem_cons_of_mem x hy)
      have hx := hp x List.mem_cons_self
      rw [List.countP_cons, List.map_cons, List.sum_cons, List.forall_mem_cons, ← heq]
      by_cases hpx : p x = true
      · rw [if_pos hpx]
        have := hx.mp hpx
        omega
      · rw [if_neg hpx]
        have : ¬ 0 < f x := fun h => hpx (hx.mpr h)
        omega

/-- The linear search finds the lock whose segment has the block. -/
theorem owns_findLockForBlock (hvalid : cfg.Valid cuts) {b : ℕ} (hb : b < cfg.kBlocks) :
    Owns cuts (cfg.findLockForBlock cuts b) b := by
  rw [findLockForBlock_eq hvalid.first]
  exact owns_lockOfBlock hvalid.covers cfg.kLockCnt_pos hb

/-- It always finds a lock. -/
theorem findLockForBlock_lt (hfirst : cuts.getD 0 0 = 0) (b : ℕ) :
    cfg.findLockForBlock cuts b < cfg.kLockCnt := by
  rw [findLockForBlock_eq hfirst]
  exact lockOfBlock_lt cfg.kLockCnt_pos cuts b

/-- The locks follow the blocks. -/
theorem findLockForBlock_mono (hfirst : cuts.getD 0 0 = 0) {b b' : ℕ} (h : b ≤ b') :
    cfg.findLockForBlock cuts b ≤ cfg.findLockForBlock cuts b' := by
  rw [findLockForBlock_eq hfirst, findLockForBlock_eq hfirst]
  exact lockOfBlock_mono cfg.kLockCnt cuts h

/-- In a valid partition it finds no other. -/
theorem findLockForBlock_eq_iff (hvalid : cfg.Valid cuts) {i b : ℕ} (hi : i < cfg.kLockCnt)
    (hb : b < cfg.kBlocks) : cfg.findLockForBlock cuts b = i ↔ Owns cuts i b := by
  have howns := owns_findLockForBlock hvalid hb
  constructor
  · rintro rfl
    exact howns
  · intro h
    exact hvalid.ascending.owns_unique (findLockForBlock_lt hvalid.first b) hi howns h

/-- The blocks of lock `i` that the query is on. -/
def sharedBlocks (cfg : Config) (cuts : List ℕ) (query : Query) (i : ℕ) : Finset ℕ :=
  (Finset.Ico (cuts.getD i 0) (cuts.getD (i + 1) 0)).filter (· ∈ cfg.blocksOf query)

theorem mem_sharedBlocks {query : Query} {i b : ℕ} :
    b ∈ cfg.sharedBlocks cuts query i ↔ Owns cuts i b ∧ b ∈ cfg.blocksOf query := by
  rw [sharedBlocks, Finset.mem_filter, Finset.mem_Ico]
  rfl

/-- The locks of a query are those of its blocks. -/
theorem sharedBlocks_nonempty_iff (hvalid : cfg.Valid cuts) {query : Query}
    (hle : query.left ≤ query.right) (hlt : query.right.toNat < cfg.arraySize) {i : ℕ}
    (hi : i < cfg.kLockCnt) :
    (cfg.sharedBlocks cuts query i).Nonempty ↔
      (cfg.lockSegment cuts query).1 ≤ i ∧ i ≤ (cfg.lockSegment cuts query).2 := by
  have hle' : query.left.toNat ≤ query.right.toNat := UInt32.le_iff_toNat_le.mp hle
  have hblocks := cfg.positionToBlock_mono hle'
  have hmeet := hvalid.ascending.segmentsMeeting_eq hvalid.packed
    (findLockForBlock_lt hvalid.first _) (findLockForBlock_lt hvalid.first _)
    (owns_findLockForBlock hvalid (cfg.positionToBlock_lt query.left.toNat))
    (owns_findLockForBlock hvalid (cfg.positionToBlock_lt query.right.toNat)) hblocks
  have hmem := Finset.ext_iff.mp hmeet i
  rw [segmentsMeeting, Finset.mem_filter, Finset.mem_range, Finset.mem_Icc] at hmem
  rw [lockSegment, clampRange_eq_self hle' hlt]
  dsimp only
  rw [← hmem]
  constructor
  · rintro ⟨b, hb⟩
    obtain ⟨howns, hblock⟩ := mem_sharedBlocks.mp hb
    exact ⟨hi, b, Finset.mem_Icc.mpr (mem_blocksOf.mp hblock), howns⟩
  · rintro ⟨-, b, hb, howns⟩
    exact ⟨b, mem_sharedBlocks.mpr ⟨howns, mem_blocksOf.mpr (Finset.mem_Icc.mp hb)⟩⟩

/-- The load of a lock is the number of hits on its blocks. -/
theorem hitLoad_eq (i : ℕ) :
    cfg.hitLoad cuts queries i =
      (queries.map fun query => (cfg.sharedBlocks cuts query i).card).sum :=
  sum_blockHits_finset _ queries

/-- No query counts twice for a lock. -/
theorem oneBlockPerLock_iff (hvalid : cfg.Valid cuts) {query : Query} :
    cfg.OneBlockPerLock cuts query ↔
      ∀ i < cfg.kLockCnt, (cfg.sharedBlocks cuts query i).card ≤ 1 := by
  constructor
  · intro h i hi
    rw [Finset.card_le_one]
    intro b hb b' hb'
    obtain ⟨howns, hblock⟩ := mem_sharedBlocks.mp hb
    obtain ⟨howns', hblock'⟩ := mem_sharedBlocks.mp hb'
    apply h b hblock b' hblock'
    rw [(findLockForBlock_eq_iff hvalid hi (lt_of_mem_blocksOf hblock)).mpr howns,
      (findLockForBlock_eq_iff hvalid hi (lt_of_mem_blocksOf hblock')).mpr howns']
  · intro h b hblock b' hblock' heq
    have hlock : cfg.findLockForBlock cuts b < cfg.kLockCnt := findLockForBlock_lt hvalid.first b
    have howns := owns_findLockForBlock hvalid (lt_of_mem_blocksOf hblock)
    have howns' := owns_findLockForBlock hvalid (lt_of_mem_blocksOf hblock')
    rw [← heq] at howns'
    exact Finset.card_le_one.mp (h _ hlock) b (mem_sharedBlocks.mpr ⟨howns, hblock⟩) b'
      (mem_sharedBlocks.mpr ⟨howns', hblock'⟩)

/-- The two sums of squares are the same exactly when all loads are. -/
theorem hitScore_eq_documented_iff (hvalid : cfg.Valid cuts)
    (hin : ∀ query ∈ queries, query.left ≤ query.right ∧ query.right.toNat < cfg.arraySize) :
    cfg.hitScore cuts queries = cfg.documentedScore cuts queries ↔
      ∀ query ∈ queries, cfg.OneBlockPerLock cuts query := by
  have hload : ∀ i ∈ Finset.range cfg.kLockCnt,
      cfg.documentedLoad cuts queries i ≤ cfg.hitLoad cuts queries i ∧
        (cfg.documentedLoad cuts queries i = cfg.hitLoad cuts queries i ↔
          ∀ query ∈ queries, (cfg.sharedBlocks cuts query i).card ≤ 1) := by
    intro i hi
    rw [hitLoad_eq, documentedLoad]
    apply countP_le_sum
    intro query hquery
    obtain ⟨hle, hlt⟩ := hin query hquery
    rw [Finset.card_pos, sharedBlocks_nonempty_iff hvalid hle hlt (Finset.mem_range.mp hi)]
    simp
  have hsquares := Finset.sum_eq_sum_iff_of_le fun i hi => Nat.pow_le_pow_left (hload i hi).1 2
  rw [eq_comm, documentedScore, hitScore, hsquares]
  constructor
  · intro h query hquery
    rw [oneBlockPerLock_iff hvalid]
    intro i hi
    have hi' := Finset.mem_range.mpr hi
    exact (hload i hi').2.mp (Nat.pow_left_injective two_ne_zero (h i hi')) query hquery
  · intro h i hi
    rw [(hload i hi).2.mpr fun query hquery =>
      (oneBlockPerLock_iff hvalid).mp (h query hquery) i (Finset.mem_range.mp hi)]

/-- **The contention score is the documented one exactly when no query is on two blocks of one
lock.**  For every valid partition and every nonempty list of queries with ordered ends inside the
array whose sums fit. -/
theorem contentionScore_iff (cfg : Config) {cuts : List ℕ} {queries : List Query}
    {metrics : PartitionMetrics} (hvalid : cfg.Valid cuts) (hne : queries ≠ [])
    (hin : ∀ query ∈ queries, query.left ≤ query.right ∧ query.right.toNat < cfg.arraySize)
    (hexact : cfg.hitScore cuts queries < 2 ^ 64)
    (heval : cfg.evaluate cuts queries = some metrics) :
    metrics.contentionScore.toNat = cfg.documentedScore cuts queries ↔
      ∀ query ∈ queries, cfg.OneBlockPerLock cuts query := by
  rw [(metrics_of_evaluate hne heval).1, contentionScore_eq, toNat_ofNat_of_lt hexact]
  exact hitScore_eq_documented_iff hvalid hin

/-! ## the average number of mutexes -/

/-- Every position has a lock. -/
theorem lockOfPosition_lt (hfirst : cuts.getD 0 0 = 0) (position : ℕ) :
    cfg.lockOfPosition cuts position < cfg.kLockCnt :=
  findLockForBlock_lt hfirst _

/-- The locks follow the positions. -/
theorem lockOfPosition_mono (hfirst : cuts.getD 0 0 = 0) {p p' : ℕ} (h : p ≤ p') :
    cfg.lockOfPosition cuts p ≤ cfg.lockOfPosition cuts p' :=
  findLockForBlock_mono hfirst (cfg.positionToBlock_mono h)

/-- `CountLocksForRange` never wraps: it takes the smaller end, and both inside the array. -/
theorem countLocksForRange_eq {current : Chromosome} (hfirst : current.cuts.getD 0 0 = 0)
    (hn : 1 ≤ cfg.arraySize) (left right : ℕ) :
    cfg.countLocksForRange current left right =
        cfg.lockOfPosition current.cuts (min (max left right) (cfg.arraySize - 1)) -
          cfg.lockOfPosition current.cuts (min (min left right) (cfg.arraySize - 1)) + 1 ∧
      1 ≤ cfg.countLocksForRange current left right ∧
        cfg.countLocksForRange current left right ≤ cfg.kLockCnt := by
  have hclamp : clampRange cfg.arraySize left right =
      (min (min left right) (cfg.arraySize - 1), min (max left right) (cfg.arraySize - 1)) := by
    unfold clampRange
    dsimp only
    split <;> congr 1 <;> omega
  have hmono : cfg.lockOfPosition current.cuts (min (min left right) (cfg.arraySize - 1)) ≤
      cfg.lockOfPosition current.cuts (min (max left right) (cfg.arraySize - 1)) :=
    lockOfPosition_mono hfirst (by omega)
  have hlt : cfg.lockOfPosition current.cuts (min (max left right) (cfg.arraySize - 1)) <
      cfg.kLockCnt := lockOfPosition_lt hfirst _
  have hk := cfg.kLockCnt_lt
  unfold vectorLimit at hk
  have hspan := lockSpan_eq hmono (by omega)
  unfold countLocksForRange
  rw [if_neg (by omega), hclamp]
  unfold lockOfPosition at *
  dsimp only
  omega

/-- For one query the two counts agree exactly when its ends do. -/
theorem lockSpan_eq_count_iff {current : Chromosome} (hfirst : current.cuts.getD 0 0 = 0)
    (hn : 1 ≤ cfg.arraySize) (query : Query) :
    lockSpan (cfg.lockOfPosition current.cuts query.left.toNat)
        (cfg.lockOfPosition current.cuts query.right.toNat) =
      cfg.countLocksForRange current query.left.toNat query.right.toNat ↔
        cfg.EndsAgree current.cuts query := by
  obtain ⟨hcount, hpos, hle⟩ :=
    @countLocksForRange_eq cfg current hfirst hn query.left.toNat query.right.toNat
  have hk := cfg.kLockCnt_lt
  unfold vectorLimit at hk
  have hmono : ∀ p p', p ≤ p' → cfg.lockOfPosition current.cuts p ≤
      cfg.lockOfPosition current.cuts p' := fun _ _ => lockOfPosition_mono hfirst
  have hleft : cfg.lockOfPosition current.cuts query.left.toNat < cfg.kLockCnt :=
    lockOfPosition_lt hfirst _
  have hright : cfg.lockOfPosition current.cuts query.right.toNat < cfg.kLockCnt :=
    lockOfPosition_lt hfirst _
  unfold EndsAgree lockSpan
  generalize query.left.toNat = left at *
  generalize query.right.toNat = right at *
  generalize cfg.arraySize - 1 = last at *
  -- a position and the last one are in the order of their locks, whichever way that is
  have hleftLast := hmono left last
  have hlastLeft := hmono last left
  have hrightLast := hmono right last
  have hlastRight := hmono last right
  rcases le_total left right with hle | hle
  · have hends := hmono left right hle
    rw [max_eq_right hle, min_eq_left hle] at hcount
    rcases le_total left last with hl | hl <;> rcases le_total right last with hr | hr <;>
      simp only [min_eq_left, min_eq_right, hl, hr] at hcount <;> omega
  · have hends := hmono right left hle
    rw [max_eq_left hle, min_eq_right hle] at hcount
    rcases le_total left last with hl | hl <;> rcases le_total right last with hr | hr <;>
      simp only [min_eq_left, min_eq_right, hl, hr] at hcount <;> omega

/-- The sum that the average is to be the mean of. -/
def lockCountSum (cfg : Config) (current : Chromosome) (queries : List Query) : ℕ :=
  (queries.map fun query =>
    cfg.countLocksForRange current query.left.toNat query.right.toNat).sum

/-- The locks of the queries are summed without a wrap. -/
theorem totalLocks_of_endsAgree {current : Chromosome} (hfirst : current.cuts.getD 0 0 = 0)
    (hn : 1 ≤ cfg.arraySize) (hends : ∀ query ∈ queries, cfg.EndsAgree current.cuts query)
    (hsum : cfg.lockCountSum current queries < 2 ^ 64) :
    (cfg.totalLocks current.cuts queries).toNat = cfg.lockCountSum current queries := by
  have hcounts : (queries.map fun query =>
      lockSpan (cfg.lockOfPosition current.cuts query.left.toNat)
        (cfg.lockOfPosition current.cuts query.right.toNat)).sum =
      cfg.lockCountSum current queries := by
    unfold lockCountSum
    congr 1
    apply List.map_congr_left
    intro query hquery
    exact (lockSpan_eq_count_iff hfirst hn query).mpr (hends query hquery)
  rw [totalLocks_eq, hcounts, toNat_ofNat_of_lt hsum]

/-- The mean of numbers between one and `kLockCnt` is one of these. -/
theorem lockCountSum_bounds {current : Chromosome} (hfirst : current.cuts.getD 0 0 = 0)
    (hn : 1 ≤ cfg.arraySize) :
    queries.length ≤ cfg.lockCountSum current queries ∧
      cfg.lockCountSum current queries ≤ cfg.kLockCnt * queries.length := by
  induction queries with
  | nil => simp [lockCountSum]
  | cons query queries ih =>
      obtain ⟨-, hpos, hle⟩ :=
        @countLocksForRange_eq cfg current hfirst hn query.left.toNat query.right.toNat
      unfold lockCountSum at ih ⊢
      rw [List.map_cons, List.sum_cons, List.length_cons, Nat.mul_succ]
      omega

/-- `EvaluateCurrent` reports the mean of what `CountLocksForRange` counts. -/
def AverageAgrees (cfg : Config) (current : Chromosome) (queries : List Query)
    (metrics : PartitionMetrics) : Prop :=
  metrics.avgMutexesPerQuery = (cfg.lockCountSum current queries : ℚ) / queries.length ∧
    1 ≤ metrics.avgMutexesPerQuery ∧ metrics.avgMutexesPerQuery ≤ cfg.kLockCnt

/-- **`EvaluateCurrent` agrees with `CountLocksForRange` exactly on the queries whose ends
agree.**  In every reachable state over a nonempty array, and for every set of queries the caller
may pass: the average of every nonempty list of them (with a sum that fits) is the mean of the
counts, and between one and `kLockCnt`, if and only if the two ends of each are looked up in the
order of their locks and within those of the array. -/
theorem evaluateCurrent_iff (cfg : Config) {G : Type} (std : StdLib G) (seed : G) {s : State}
    {g : G} (hreach : cfg.Reachable std seed s g) (hn : 1 ≤ cfg.arraySize) (passed : Query → Prop) :
    (∀ queries metrics, queries ≠ [] → (∀ query ∈ queries, passed query) →
      cfg.lockCountSum s.current queries < 2 ^ 64 →
      cfg.evaluateCurrent s queries = some metrics →
      cfg.AverageAgrees s.current queries metrics) ↔
    ∀ query, passed query → (cfg.evaluateCurrent s [query]).isSome →
      cfg.EndsAgree s.current.cuts query := by
  have hfirst := first_of_reachable hreach
  constructor
  · intro h query hpassed hsome
    obtain ⟨metrics, heval⟩ := Option.isSome_iff_exists.mp hsome
    have hk := cfg.kLockCnt_lt
    unfold vectorLimit at hk
    have hcount :=
      @countLocksForRange_eq cfg s.current hfirst hn query.left.toNat query.right.toNat
    have hsum : cfg.lockCountSum s.current [query] =
        cfg.countLocksForRange s.current query.left.toNat query.right.toNat := by
      simp [lockCountSum]
    have hagrees := (h [query] metrics (List.cons_ne_nil _ _)
      (by simpa using hpassed) (by omega) heval).1
    rw [(metrics_of_evaluate (List.cons_ne_nil _ _) heval).2, totalLocks_eq, hsum] at hagrees
    rw [List.map_singleton, List.sum_singleton, toNat_ofNat_of_lt (lockSpan_lt _ _),
      List.length_singleton, Nat.cast_one, div_one, div_one, Nat.cast_inj] at hagrees
    exact (lockSpan_eq_count_iff hfirst hn query).mp hagrees
  · intro h queries metrics hne hpassed hsum heval
    have hends : ∀ query ∈ queries, cfg.EndsAgree s.current.cuts query := by
      intro query hquery
      apply h query (hpassed query hquery)
      obtain ⟨hlimit, hrange⟩ := inRange_of_evaluate hne heval
      unfold evaluateCurrent evaluate
      rw [if_neg (List.cons_ne_nil _ _), if_neg (not_or.mpr ⟨not_le.mpr hlimit, not_not.mpr hrange⟩)]
      rfl
    have htotal := totalLocks_of_endsAgree hfirst hn hends hsum
    have havg := (metrics_of_evaluate hne heval).2
    rw [htotal] at havg
    obtain ⟨hlow, hhigh⟩ := @lockCountSum_bounds cfg queries s.current hfirst hn
    have hlen : (0 : ℚ) < queries.length := by
      exact_mod_cast List.length_pos_of_ne_nil hne
    refine ⟨havg, ?_, ?_⟩
    · rw [havg, le_div_iff₀ hlen, one_mul]
      exact_mod_cast hlow
    · rw [havg, div_le_iff₀ hlen]
      exact_mod_cast hhigh

end Config

/-! ## where the figures are wrong -/

/-- A query on both blocks of the first lock and one on the block of the second. -/
theorem contentionScore_twoLocks :
    (⟨5, 1, 5005⟩ : PartitionMetrics).contentionScore.toNat =
        twoLocks.documentedScore [0, 2, 3] [{ left := 0, right := 1 }, { left := 2, right := 2 }] ↔
      ∀ query ∈ [({ left := 0, right := 1 } : Query), { left := 2, right := 2 }],
        twoLocks.OneBlockPerLock [0, 2, 3] query :=
  Config.contentionScore_iff twoLocks (by decide) (by decide) (by decide) (by decide)
    (by decide +kernel)

/-- One query on the two blocks of one lock: a load of two, where one query is on the mutex. -/
theorem contentionScore_counts_blocks :
    twoLocks.Valid [0, 2, 3] ∧
      ∃ metrics, twoLocks.evaluate [0, 2, 3] [{ left := 0, right := 1 }] = some metrics ∧
        metrics.contentionScore.toNat = 4 ∧
        twoLocks.hitScore [0, 2, 3] [{ left := 0, right := 1 }] = 4 ∧
        twoLocks.documentedScore [0, 2, 3] [{ left := 0, right := 1 }] = 1 ∧
        metrics.contentionScore.toNat ≠
          twoLocks.documentedScore [0, 2, 3] [{ left := 0, right := 1 }] :=
  ⟨by decide, ⟨4, 1, 5004⟩, by decide +kernel, rfl, by decide +kernel, by decide +kernel,
    by decide⟩

/-- Four positions on three blocks of two: no position is on the third block. -/
def shortLine : Config := { twoLocks with arraySize := 4 }

theorem evaluateCurrent_shortLine :
    (∀ queries metrics, queries ≠ [] → (∀ query ∈ queries, query.left ≤ query.right) →
      shortLine.lockCountSum shortLine.initState.current queries < 2 ^ 64 →
      shortLine.evaluateCurrent shortLine.initState queries = some metrics →
      shortLine.AverageAgrees shortLine.initState.current queries metrics) ↔
    ∀ query : Query, query.left ≤ query.right →
      (shortLine.evaluateCurrent shortLine.initState [query]).isSome →
        shortLine.EndsAgree shortLine.initState.current.cuts query :=
  Config.evaluateCurrent_iff shortLine lowestDraws () .init (by decide) _

/-- Reversed ends on two locks: `0 - 1 + 1` locks, where `CountLocksForRange` counts two. -/
theorem evaluateCurrent_reversed :
    shortLine.Reachable lowestDraws () shortLine.initState () ∧
      ∃ metrics, shortLine.evaluateCurrent shortLine.initState [{ left := 3, right := 0 }] =
          some metrics ∧
        metrics.avgMutexesPerQuery = 0 ∧
        shortLine.countLocksForRange shortLine.initState.current 3 0 = 2 ∧
        ¬ shortLine.AverageAgrees shortLine.initState.current [{ left := 3, right := 0 }] metrics :=
  ⟨.init, ⟨0, 0, 0⟩, by decide +kernel, rfl, by decide +kernel, fun h => absurd h.2.1 (by decide)⟩

end GeneticPartitioner
end DynLocks
