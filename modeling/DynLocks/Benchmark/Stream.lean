import DynLocks.Layout
import DynLocks.Lib.Sampler
import Mathlib.Data.List.Range

/-!
# DynLocks.Benchmark.Stream

The query streams of the adaptive benchmark.  Every worker makes the queries of
its slice of the stream itself, one after the other, with a generator of its own.

* `sat_makeStreamQuery` — the target of a query lies in its range, and the range
  in the array, if the windows of the stream do;
* `index_of_streamJobs` — the slices of the workers make up the stream.
-/

namespace DynLocks
namespace Benchmark

open Sampler

/-! ## streams -/

def kLockCount : ℕ := 64

def kBlocks : ℕ := 1024

def kBlockSize : ℕ := 1024

def kArraySize : ℕ := kBlocks * kBlockSize

def kHotWindowSize : ℕ := kArraySize / kLockCount

inductive QueryPattern
  | kHotWindow
  | kUniform
  | kHotWindowRandomRange
  | kUniformRandomRange
  deriving DecidableEq

inductive TrafficSide
  | kLeft
  | kRight
  deriving DecidableEq

/-- What a phase asks of its workers. -/
structure QueryStreamSpec where
  count : ℕ := 0
  pattern : QueryPattern := .kUniform
  side : TrafficSide := .kLeft
  queryLength : ℕ := 1
  seed : UInt64 := 0
  windowBegins : List ℕ := []
  windowSize : ℕ := 0
  multiWindow : Bool := false

/-- The windows of the stream lie in the array. -/
def QueryStreamSpec.WindowsInArray (spec : QueryStreamSpec) : Prop :=
  ∀ windowBegin ∈ spec.windowBegins, windowBegin + max 1 spec.windowSize ≤ kArraySize

/-- The target of a query lies in its range, and the range in the array. -/
def InArray (query : Query) : Prop :=
  query.left.toNat ≤ query.target.toNat ∧ query.target.toNat ≤ query.right.toNat ∧
    query.right.toNat < kArraySize

/-! ## random numbers -/

structure FastRng where
  state : UInt64
  deriving DecidableEq

/-- `Next`. -/
def FastRng.next (rng : FastRng) : UInt64 × FastRng :=
  let state := rng.state + 0x9E3779B97F4A7C15
  let value := (state ^^^ (state >>> 30)) * 0xBF58476D1CE4E5B9
  let value := (value ^^^ (value >>> 27)) * 0x94D049BB133111EB
  (value ^^^ (value >>> 31), ⟨state⟩)

/-- `Uniform`; a bound of zero draws nothing. -/
def uniform (bound : ℕ) : Rand FastRng ℕ :=
  if bound = 0 then pure 0
  else do
    let value ← draw FastRng.next
    pure (value.toNat % bound)

/-- `ThreadSeed`. -/
def threadSeed (seed : UInt64) (threadIndex : ℕ) : UInt64 :=
  seed ^^^ (0xD1B54A32D192ED03 * UInt64.ofNat (threadIndex + 1))

/-- `DeterministicOffset`; the sum is one of `size_t`. -/
def deterministicOffset (sequenceIndex threadIndex bound : ℕ) : ℕ :=
  if bound = 0 then 0 else (sequenceIndex + threadIndex * 131) % 2 ^ 64 % bound

/-- The offset lies below its bound. -/
theorem deterministicOffset_lt (sequenceIndex threadIndex : ℕ) {bound : ℕ} (h : 0 < bound) :
    deterministicOffset sequenceIndex threadIndex bound < bound := by
  rw [deterministicOffset, if_neg h.ne']
  exact Nat.mod_lt _ h

/-- So does what the generator draws. -/
theorem sat_uniform {bound : ℕ} (h : 0 < bound) : Sat (uniform bound) (· < bound) := by
  rw [uniform, if_neg h.ne']
  exact Sat.bind (Q := fun _ => True) (Sat.draw fun _ => trivial)
    fun value _ => Sat.pure (Nat.mod_lt _ h)

/-! ## queries -/

/-- A query of `length` positions from `left` on. -/
def queryOf (left length target : ℕ) (delta : ℤ) : Query where
  left := UInt32.ofNat left
  right := UInt32.ofNat (left + length - 1)
  target := UInt32.ofNat target
  delta := delta

/-- Where the branches end that place a range in a window of `size` positions from `first` on: a
single position by its index in the stream, a longer range at random. -/
def placeQuery (threadIndex sequenceIndex first size length : ℕ) (delta : ℤ) :
    Rand FastRng Query := do
  let offset ←
    (if length = 1 then pure (deterministicOffset sequenceIndex threadIndex size)
    else uniform (size - length + 1))
  let left := first + offset
  let targetOffset ← (if length = 1 then pure 0 else uniform length)
  pure (queryOf left length (left + targetOffset) delta)

/-- `MakeStreamQuery`; the sums of the two indices are of `size_t`.  Without a window a stream of
many windows has no next query. -/
def makeStreamQuery (spec : QueryStreamSpec) (threadIndex sequenceIndex : ℕ) :
    Rand FastRng Query := do
  let lengthCap := max 1 spec.queryLength
  let delta : ℤ := (1 + (sequenceIndex + threadIndex) % 2 ^ 64 % 7 : ℕ)
  if spec.multiWindow then
    let windowIndex := (sequenceIndex + threadIndex) % 2 ^ 64 % spec.windowBegins.length
    let windowBegin ← ofOption spec.windowBegins[windowIndex]?
    let windowSize := max 1 spec.windowSize
    let length := 1 + (← uniform (min lengthCap windowSize))
    placeQuery threadIndex sequenceIndex windowBegin windowSize length delta
  else
    let hotBegin := match spec.side with
      | .kLeft => 0
      | .kRight => kArraySize - kHotWindowSize
    match spec.pattern with
    | .kUniform =>
        placeQuery threadIndex sequenceIndex 0 kArraySize (min lengthCap kArraySize) delta
    | .kUniformRandomRange =>
        let length := 1 + (← uniform (min lengthCap kArraySize))
        let left ← uniform (kArraySize - length + 1)
        let target := left + (← uniform length)
        pure (queryOf left length target delta)
    | .kHotWindow =>
        placeQuery threadIndex sequenceIndex hotBegin kHotWindowSize
          (min lengthCap kHotWindowSize) delta
    | .kHotWindowRandomRange =>
        let length := 1 + (← uniform (min lengthCap kHotWindowSize))
        placeQuery threadIndex sequenceIndex hotBegin kHotWindowSize length delta

/-- A query that begins in a window of the array lies in the array. -/
theorem inArray_queryOf {left length offset : ℕ} (hlength : left + length ≤ kArraySize)
    (hoffset : offset < length) (delta : ℤ) :
    InArray (queryOf left length (left + offset) delta) := by
  have hsize : kArraySize < 2 ^ 32 := by decide
  simp only [InArray, queryOf, UInt32.toNat_ofNat']
  omega

/-- Wherever it is placed in its window, a query lies in the array. -/
theorem sat_placeQuery (threadIndex sequenceIndex : ℕ) {first size length : ℕ}
    (hwindow : first + size ≤ kArraySize) (hpos : 0 < length) (hle : length ≤ size) (delta : ℤ) :
    Sat (placeQuery threadIndex sequenceIndex first size length delta) InArray := by
  refine Sat.bind (Q := fun offset => offset + length ≤ size) ?_ fun offset hoffset => ?_
  · split
    · next hone =>
        have := deterministicOffset_lt sequenceIndex threadIndex (show 0 < size by omega)
        exact Sat.pure (by omega)
    · exact (sat_uniform (Nat.succ_pos _)).mono fun offset hlt => by omega
  · refine Sat.bind (Q := fun targetOffset => targetOffset < length) ?_ fun targetOffset hlt => ?_
    · split
      · exact Sat.pure hpos
      · exact sat_uniform hpos
    · exact Sat.pure (inArray_queryOf (by omega) hlt delta)

/-- A random length of at least one position and at most `bound`. -/
theorem sat_length {bound : ℕ} (h : 0 < bound) :
    Sat (uniform bound) fun n => 0 < 1 + n ∧ 1 + n ≤ bound :=
  (sat_uniform h).mono fun n hlt => by omega

/-- **Queries stay in the array**, in all five branches. -/
theorem sat_makeStreamQuery {spec : QueryStreamSpec} (hwindows : spec.WindowsInArray)
    (threadIndex sequenceIndex : ℕ) :
    Sat (makeStreamQuery spec threadIndex sequenceIndex) InArray := by
  have harray : 0 < kArraySize := by decide
  have hhot : 0 < kHotWindowSize := by decide
  have hside : (match spec.side with
      | .kLeft => 0
      | .kRight => kArraySize - kHotWindowSize) + kHotWindowSize ≤ kArraySize := by
    cases spec.side <;> decide
  unfold makeStreamQuery
  dsimp only
  split
  · refine Sat.bind (Q := fun first => first + max 1 spec.windowSize ≤ kArraySize) ?_ ?_
    · exact Sat.ofOption fun first hfirst => hwindows first (List.mem_of_getElem? hfirst)
    · intro first hfirst
      refine Sat.bind (sat_length (by omega)) fun n hn => ?_
      exact sat_placeQuery _ _ hfirst hn.1 (by omega) _
  · split
    · exact sat_placeQuery _ _ (by omega) (by omega) (by omega) _
    · refine Sat.bind (sat_length (by omega)) fun n hn => ?_
      refine Sat.bind (sat_uniform (Nat.succ_pos _)) fun left hleft => ?_
      refine Sat.bind (sat_uniform hn.1) fun offset hoffset => ?_
      exact Sat.pure (inArray_queryOf (by omega) hoffset _)
    · exact sat_placeQuery _ _ hside (by omega) (by omega) _
    · refine Sat.bind (sat_length (by omega)) fun n hn => ?_
      exact sat_placeQuery _ _ hside hn.1 (by omega) _

/-! ## slices -/

/-- A query and its index in the stream. -/
structure Job where
  index : ℕ
  query : Query
  deriving DecidableEq

/-- Where the slice of worker `k` begins and that of the worker before it ends; the product is one
of `size_t`. -/
def sliceBegin (count threadCount k : ℕ) : ℕ := count * k % 2 ^ 64 / threadCount

/-- The queries that worker `threadIndex` makes, `room` of them from index `i` on; none where
`MakeStreamQuery` has no result. -/
def jobsFrom (spec : QueryStreamSpec) (threadIndex : ℕ) : ℕ → ℕ → FastRng → Option (List Job)
  | 0, _, _ => some []
  | room + 1, i, rng =>
      (makeStreamQuery spec threadIndex i rng).bind fun r =>
        (jobsFrom spec threadIndex room (i + 1) r.2).map (⟨i, r.1⟩ :: ·)

/-- The queries of worker `k`. -/
def workerJobs (spec : QueryStreamSpec) (threadCount k : ℕ) : Option (List Job) :=
  jobsFrom spec k (sliceBegin spec.count threadCount (k + 1) - sliceBegin spec.count threadCount k)
    (sliceBegin spec.count threadCount k) ⟨threadSeed spec.seed k⟩

/-- The queries of the first `n` workers. -/
def jobsBelow (spec : QueryStreamSpec) (threadCount : ℕ) : ℕ → Option (List Job)
  | 0 => some []
  | n + 1 =>
      (jobsBelow spec threadCount n).bind fun jobs =>
        (workerJobs spec threadCount n).map (jobs ++ ·)

/-- The queries of the stream, as `threadCount` workers make them. -/
def streamJobs (spec : QueryStreamSpec) (threadCount : ℕ) : Option (List Job) :=
  jobsBelow spec threadCount threadCount

/-- The jobs of a slice are numbered as its queries are. -/
theorem index_of_jobsFrom {spec : QueryStreamSpec} {threadIndex room i : ℕ} {rng : FastRng}
    {jobs : List Job} (h : jobsFrom spec threadIndex room i rng = some jobs) :
    jobs.map Job.index = List.range' i room := by
  induction room generalizing i rng jobs with
  | zero =>
      cases h
      rfl
  | succ room ih =>
      obtain ⟨r, -, hjobs⟩ := Option.bind_eq_some_iff.mp h
      obtain ⟨rest, hrest, rfl⟩ := Option.map_eq_some_iff.mp hjobs
      rw [List.map_cons, ih hrest, List.range'_succ]

section Slices

variable {count threadCount : ℕ} (hfits : count * threadCount < 2 ^ 64)

include hfits

/-- No product of the slices wraps. -/
theorem sliceBegin_eq {k : ℕ} (hk : k ≤ threadCount) :
    sliceBegin count threadCount k = count * k / threadCount := by
  have hle : count * k ≤ count * threadCount := Nat.mul_le_mul_left count hk
  rw [sliceBegin, Nat.mod_eq_of_lt (by omega)]

/-- A slice ends where it begins or behind. -/
theorem sliceBegin_le_succ {k : ℕ} (hk : k < threadCount) :
    sliceBegin count threadCount k ≤ sliceBegin count threadCount (k + 1) := by
  rw [sliceBegin_eq hfits hk.le, sliceBegin_eq hfits hk]
  exact Nat.div_le_div_right (Nat.mul_le_mul_left count k.le_succ)

/-- The last slice ends where the stream does. -/
theorem sliceBegin_threadCount (hpos : 0 < threadCount) :
    sliceBegin count threadCount threadCount = count := by
  rw [sliceBegin_eq hfits le_rfl, Nat.mul_div_cancel _ hpos]

end Slices

/-- The first slices together have the first queries of the stream, each once. -/
theorem index_of_jobsBelow {spec : QueryStreamSpec} {threadCount n : ℕ}
    (hfits : spec.count * threadCount < 2 ^ 64) (hn : n ≤ threadCount) {jobs : List Job}
    (h : jobsBelow spec threadCount n = some jobs) :
    jobs.map Job.index = List.range (sliceBegin spec.count threadCount n) := by
  induction n generalizing jobs with
  | zero =>
      cases h
      simp [sliceBegin]
  | succ n ih =>
      obtain ⟨before, hbefore, hjobs⟩ := Option.bind_eq_some_iff.mp h
      obtain ⟨slice, hslice, rfl⟩ := Option.map_eq_some_iff.mp hjobs
      obtain ⟨size, hsize⟩ := Nat.exists_eq_add_of_le (sliceBegin_le_succ hfits hn)
      have hindex := index_of_jobsFrom hslice
      have happend := List.range'_append_1 (s := 0) (m := sliceBegin spec.count threadCount n)
        (n := size)
      rw [hsize, Nat.add_sub_cancel_left] at hindex
      rw [Nat.zero_add] at happend
      rw [List.map_append, ih (by omega) hbefore, hindex, hsize, List.range_eq_range',
        List.range_eq_range', happend]

/-- **The slices make up the stream**: every index, in order. -/
theorem index_of_streamJobs {spec : QueryStreamSpec} {threadCount : ℕ} (hpos : 0 < threadCount)
    (hfits : spec.count * threadCount < 2 ^ 64) {jobs : List Job}
    (h : streamJobs spec threadCount = some jobs) :
    jobs.map Job.index = List.range spec.count := by
  have hindex := index_of_jobsBelow hfits le_rfl h
  rwa [sliceBegin_threadCount hfits hpos] at hindex

end Benchmark
end DynLocks
