import DynLocks.Benchmark.Totals
import DynLocks.PrintCompat
import DynLocks.Report

/-!
# DynLocks.Benchmark.Print

What the adaptive benchmark prints: the settings, the table of each scenario that is
selected, the partitions behind it, and the comparison of the mutexes and the spin
locks.

* `print_rowFormat` — the format string of a table row prints the columns of
  `DynLocks.Report`.
-/

namespace DynLocks
namespace Benchmark

open PrintCompat Report

/-! ## results -/

/-- `ImplementationResult`, but for what is not printed. -/
structure ImplementationResult where
  name : Impl
  totalSeconds : ℚ≥0 := 0
  setupSeconds : ℚ≥0 := 0
  measuredSeconds : ℚ≥0 := 0
  lockOnlyTotalSeconds : ℚ≥0 := 0
  avgLockUs : ℚ≥0 := 0
  measuredLockTotalSeconds : ℚ≥0 := 0
  avgMutexesPerQuery : ℚ≥0 := 0
  leftHotLocks : ℕ := 0
  rightHotLocks : ℕ := 0
  reconfigurations : ℕ := 0
  partitionCuts : List ℕ := []
  debugWindowLocks : List ℕ := []

/-- What `RunScenarioResults` returns; `RunGeneticEnabled` decides about the last one. -/
structure ScenarioResults where
  naive : ImplementationResult
  dynamic : ImplementationResult
  genetic : Option ImplementationResult
  name_naive : naive.name = .naive
  name_dynamic : dynamic.name = .dynamic
  name_genetic : ∀ result ∈ genetic, result.name = .genetic

/-- The results in a row. -/
def ScenarioResults.toList (results : ScenarioResults) : List ImplementationResult :=
  results.naive :: results.dynamic :: results.genetic.toList

/-- `SafeSpeedup`. -/
def safeSpeedup (baselineSeconds measuredSeconds : ℚ≥0) : ℚ≥0 :=
  if measuredSeconds > 0 then baselineSeconds / measuredSeconds else 0

/-- The values of a row of the table. -/
def ImplementationResult.row (baseline result : ImplementationResult) : Row where
  totalSeconds := result.totalSeconds
  totalSpeedup := safeSpeedup baseline.totalSeconds result.totalSeconds
  setupSeconds := result.setupSeconds
  measuredSeconds := result.measuredSeconds
  lockOnlyTotalSeconds := result.lockOnlyTotalSeconds
  lockSpeedup := safeSpeedup baseline.lockOnlyTotalSeconds result.lockOnlyTotalSeconds
  avgLockUs := result.avgLockUs
  measuredLockTotalSeconds := result.measuredLockTotalSeconds
  avgMutexesPerQuery := result.avgMutexesPerQuery
  leftHotLocks := result.leftHotLocks
  rightHotLocks := result.rightHotLocks
  reconfigurations := result.reconfigurations

/-- The rows of the table. -/
def ScenarioResults.rows (results : ScenarioResults) : List (Impl × Row) :=
  results.toList.map fun result => (result.name, results.naive.row result)

/-! ## partitions -/

/-- `PrintSizeVector`. -/
def printSizeVector (values : List ℕ) : List Char :=
  print "[" [] ++
    List.intercalate (print ", " []) (values.map fun value => print "{}" [.int value]) ++
    print "]" []

/-- `CutsToWidths`; the differences are those of `size_t`. -/
def cutsToWidths (cuts : List ℕ) : List ℕ :=
  List.zipWith (fun previous cut => (cut + (2 ^ 64 - previous % 2 ^ 64)) % 2 ^ 64) cuts cuts.tail

/-- A line with a vector. -/
def printVectorLine (label : String) (values : List ℕ) : List Char :=
  print label [] ++ (printSizeVector values ++ println "" [])

/-- `PrintPartitionDebug`. -/
def printPartitionDebug (scenario : ScenarioInput) (result : ImplementationResult) : List Char :=
  if result.partitionCuts.isEmpty ∧ result.debugWindowLocks.isEmpty then []
  else
    println "  {} partition debug:" [.text result.name.name] ++
      ((if result.partitionCuts.isEmpty then []
        else printVectorLine "    cuts: " result.partitionCuts ++
          printVectorLine "    widths: " (cutsToWidths result.partitionCuts)) ++
      if scenario.debugWindowBegins.isEmpty then []
      else printVectorLine "    hot window begins: " scenario.debugWindowBegins ++
        printVectorLine "    locks per hot window: " result.debugWindowLocks)

/-! ## scenarios -/

/-- `timed_adapt_queries` of `PrintScenario`. -/
def ScenarioInput.timedAdaptQueries (scenario : ScenarioInput) : UInt64 :=
  scenario.timedPhases.foldl (fun queries phase => queries + UInt64.ofNat phase.adaptQueries.count) 0

/-- `timed_adapt_seconds` of `PrintScenario`. -/
def ScenarioInput.timedAdaptSeconds (scenario : ScenarioInput) : ℚ :=
  scenario.timedPhases.foldl (fun seconds phase => seconds + phase.adaptSeconds) 0

/-- The line of `PrintScenario` with the numbers of queries, up to those that are measured. -/
def printSetupQueries (scenario : ScenarioInput) : List Char :=
  print "  setup queries: " [] ++
    (List.intercalate (print " + " [])
      (scenario.setupPhases.map fun phase => print "{}" [.int phase.queries.count]) ++
    if scenario.timedAdaptQueries = 0 then []
    else print " + {} timed adapt" [.int scenario.timedAdaptQueries.toNat] ++
      if scenario.timedAdaptSeconds > 0 then
        print " (time-capped to {:.1f}s total across timed phases)"
          [.double scenario.timedAdaptSeconds.toNNRat]
      else [])

/-- The values of a row in the order of its columns. -/
def rowValues (name : Impl) (r : Row) : List Value :=
  [.text name.name, .double r.totalSeconds, .double r.totalSpeedup, .double r.setupSeconds,
    .double r.measuredSeconds, .double r.lockOnlyTotalSeconds, .double r.lockSpeedup,
    .double r.avgLockUs, .double r.measuredLockTotalSeconds, .double r.avgMutexesPerQuery,
    .int r.leftHotLocks, .int r.rightHotLocks, .int r.reconfigurations]

/-- The format of a row. -/
def rowFormat : String :=
  "  {:<10}{:>8.3f}{:>8.3f}{:>8.3f}{:>11.3f}{:>13.3f}{:>8.3f}{:>13.2f}{:>12.3f}{:>11.2f}" ++
    "{:>5}/{:>2}{:>10}"

/-- The note about timed phases. -/
def timedNote : String :=
  "  timed scenario: adapt and measure phases run continuously; " ++
    "online rebuild/training is included in total_s"

/-- The titles of the columns. -/
def tableTitle : String :=
  "  impl       total_s total_x  setup_s measured_s  lock_only_s" ++
    "  lock_x  avg_lock_us  lock_sum_s  avg_mutex  hot(L/R)  rebuild/train"

/-- `PrintScenario`. -/
def printScenario (debugPartitions : Bool) (scenario : ScenarioInput) (results : ScenarioResults) :
    List Char :=
  println "scenario: {}" [.text scenario.name.toList] ++
    (println "  {}" [.text scenario.description.toList] ++
    (printSetupQueries scenario ++
      print ", measured queries: {}\n\n" [.int scenario.measuredQueries.toNat] ++
    ((if scenario.timedPhases.isEmpty then []
      else println (timedNote ++ "\n") []) ++
    (println tableTitle [] ++
    (results.rows.flatMap (fun row => println rowFormat (rowValues row.1 row.2)) ++
    ((if debugPartitions then
        println "" [] ++ results.toList.flatMap (printPartitionDebug scenario)
      else []) ++
    println "" []))))))

/-! ## mutexes and spin locks -/

/-- The titles of the comparison. -/
def comparisonTitle : String :=
  "  impl       spin_total_s  spin_x  spin_lock_only_s  spin_lock_x" ++
    "  mutex_total_s  mutex_lock_only_s  spin_vs_mutex_total  spin_vs_mutex_lock"

/-- `FindResult`; it throws without such a result. -/
def findResult (results : List ImplementationResult) (name : Impl) : Option ImplementationResult :=
  results.find? (·.name = name)

/-- A row of `PrintPointSpinComparison`. -/
def printPointSpinRow (spinNaive : ImplementationResult) (name : Impl)
    (spinResult mutexResult : ImplementationResult) : List Char :=
  println "  {:<10}{:>12.3f}{:>8.3f}{:>18.3f}{:>13.3f}{:>14.3f}{:>19.3f}{:>20.3f}{:>20.3f}"
    [.text name.name, .double spinResult.totalSeconds,
      .double (safeSpeedup spinNaive.totalSeconds spinResult.totalSeconds),
      .double spinResult.lockOnlyTotalSeconds,
      .double (safeSpeedup spinNaive.lockOnlyTotalSeconds spinResult.lockOnlyTotalSeconds),
      .double mutexResult.totalSeconds, .double mutexResult.lockOnlyTotalSeconds,
      .double (safeSpeedup mutexResult.totalSeconds spinResult.totalSeconds),
      .double (safeSpeedup mutexResult.lockOnlyTotalSeconds spinResult.lockOnlyTotalSeconds)]

/-- `PrintPointSpinComparison`. -/
def printPointSpinComparison (scenario : ScenarioInput)
    (mutexResults spinResults : List ImplementationResult) : Option (List Char) := do
  let spinNaive ← findResult spinResults .naive
  pure (println "point lock primitive comparison: {}" [.text scenario.name.toList] ++
    (print "  spin naive baseline: total_s={:.3f}, lock_only_s={:.3f}\n\n"
      [.double spinNaive.totalSeconds, .double spinNaive.lockOnlyTotalSeconds] ++
    (println comparisonTitle [] ++
    ([Impl.dynamic, Impl.genetic].flatMap (fun name =>
      match findResult spinResults name, findResult mutexResults name with
      | some spinResult, some mutexResult =>
          printPointSpinRow spinNaive name spinResult mutexResult
      | _, _ => []) ++
    println "" []))))

/-! ## the program -/

/-- The settings that only the locks use; `ReadEnvDouble` keeps negative numbers out, and the
interval is a signed number of milliseconds. -/
structure Settings where
  threadCount : ℕ
  rebuildIntervalMs : ℤ := 10000
  rebuildThreshold : ℚ≥0 := 2
  rebuildMinGain : ℚ≥0 := 1
  rebuildMinSkew : ℚ≥0 := 4
  dynamicStatsSampleRate : ℕ := 64
  geneticTrainingBatchSize : ℕ := 100000
  geneticTrainingSampleRate : ℕ := 64
  geneticTrainingProbeGap : ℕ := 1000000
  geneticMinTrainingSkew : ℚ≥0 := 4

/-- The lines that `main` begins with. -/
def header (env : Env) (settings : Settings) : List (String × List Value) :=
  [("dynamic lock comparison benchmark", []),
    ("  array size: {}", [.int kArraySize]),
    ("  mutexes: {}, fine blocks: {}, fine block size: {}",
      [.int kLockCount, .int kBlocks, .int kBlockSize]),
    ("  threads: {}", [.int settings.threadCount]),
    ("  point query length: {}", [.int kPointQueryLength]),
    ("  random range max length: {}", [.int kRandomRangeMaxLength]),
    ("  hot window size: {}", [.int kHotWindowSize]),
    ("  clustered hot window size: {}", [.int kClusteredHotWindowSize]),
    ("  small range max length: {}", [.int kSmallRangeMaxLength]),
    ("  moving window size: {}", [.int kMovingWindowSize]),
    ("  moving window stops: {}", [.int (2 * kMovingWindowStops - 2 : ℕ)]),
    ("  query divisor: {}", [.int env.queryDivisor]),
    ("  query multiplier: {}", [.int env.queryMultiplier]),
    ("  measured query multiplier: {}", [.int env.measuredQueryMultiplier]),
    ("  rebuild interval, ms: {}", [.int settings.rebuildIntervalMs]),
    ("  rebuild threshold: {:.3f}", [.double settings.rebuildThreshold]),
    ("  rebuild min gain: {:.3f}", [.double settings.rebuildMinGain]),
    ("  rebuild min skew: {:.3f}", [.double settings.rebuildMinSkew]),
    ("  dynamic stats sample rate: {}", [.int settings.dynamicStatsSampleRate]),
    ("  genetic training batch: {}", [.int settings.geneticTrainingBatchSize]),
    ("  genetic training sample rate: {}", [.int settings.geneticTrainingSampleRate]),
    ("  genetic training probe gap: {}", [.int settings.geneticTrainingProbeGap]),
    ("  genetic min training skew: {:.3f}", [.double settings.geneticMinTrainingSkew])]

/-- The explanation of the columns behind them. -/
def legend : List Char :=
  println "  total_s: full scenario wall time, including online rebuild/training" [] ++
    (println "  measured_s: final measured phases inside the same run" [] ++
    (println "  lock_only_s: same full scenario with empty critical-section body" [] ++
    print "  total_x and lock_x are speedups over naive in the same scenario\n\n" []))

/-- `ShouldRunScenario`. -/
def shouldRunScenario (selected : Option String) (scenario : ScenarioInput) : Bool :=
  selected.all (scenario.name = ·)

/-- What `main` prints behind the tables, if all scenarios are run. -/
def printComparisons (env : Env) (selected : Option String)
    (results spinResults : ScenarioInput → ScenarioResults) : Option (List Char) :=
  if selected.isSome then some []
  else do
    let shift ← printPointSpinComparison (makeShiftScenario env)
      (results (makeShiftScenario env)).toList (spinResults (makeShiftScenario env)).toList
    let random ← printPointSpinComparison (makeRandomScenario env)
      (results (makeRandomScenario env)).toList (spinResults (makeRandomScenario env)).toList
    pure (shift ++ random)

/-- The output of `main`, whose measurements give `results` for the mutexes and `spinResults` for the
spin locks. -/
def mainOutput (env : Env) (settings : Settings) (debugPartitions : Bool) (selected : Option String)
    (results spinResults : ScenarioInput → ScenarioResults) : Option (List Char) := do
  let all ← scenarios env
  let comparisons ← printComparisons env selected results spinResults
  pure ((header env settings).flatMap (fun line => println line.1 line.2) ++
    (legend ++
    ((all.filter (shouldRunScenario selected)).flatMap
      (fun scenario => printScenario debugPartitions scenario (results scenario)) ++
    comparisons)))

/-! ## rows -/

/-- A column of a double. -/
def doubleHole (width places : ℕ) : Hole where
  align := some false
  width := some width
  precision := some places
  double := true

/-- A column of a size. -/
def sizeHole (width : ℕ) : Hole where
  align := some false
  width := some width

/-- The holes of `rowFormat`. -/
def rowHoles : List Hole :=
  [{ front := "  ".toList, align := some true, width := some 10 }, doubleHole 8 3, doubleHole 8 3,
    doubleHole 8 3, doubleHole 11 3, doubleHole 13 3, doubleHole 8 3, doubleHole 13 2,
    doubleHole 12 3, doubleHole 11 2, sizeHole 5, { sizeHole 2 with front := ['/'] }, sizeHole 10]

/-- The format of a row is made of its holes. -/
theorem rowFormat_eq : rowFormat.toList = rowHoles.flatMap Hole.source ++ [] :=
  (toList_of_literal (append_of_literal rfl rfl)).trans rfl

/-- A hole for a number of seconds prints a column of the table. -/
theorem fill_doubleHole (width places : ℕ) (x : ℚ≥0) (h : places ≠ 0) :
    (doubleHole width places).fill (.double x) = (doubleCell width places x).print ' ' := by
  simp [doubleHole, Hole.fill, Hole.spec, formatValue, Value.write, fixedText, h, doubleCell,
    Columns.Cell.print]

/-- So does a hole for a number of locks. -/
theorem fill_sizeHole (width n : ℕ) :
    (sizeHole width).fill (.int n) = (sizeCell width n).print ' ' := by
  simp [sizeHole, Hole.fill, Hole.spec, formatValue, Value.write, intText_natCast, sizeCell,
    Columns.Cell.print]

/-- **The row of the table**: its format string prints the columns one after the other. -/
theorem print_rowFormat (name : Impl) (r : Row) :
    print rowFormat (rowValues name r) = printRow name r := by
  have hname : Hole.fill { front := "  ".toList, align := some true, width := some 10 }
      (.text name.name) = "  ".toList ++ name.name.rightpad 10 ' ' := rfl
  have hslash (n : ℕ) : Hole.fill { sizeHole 2 with front := ['/'] } (.int n) =
      '/' :: (sizeCell 2 n).print ' ' :=
    congrArg ('/' :: ·) (fill_sizeHole 2 n)
  rw [print, rowFormat_eq, appendFormat_render (by decide) rfl]
  simp only [rowHoles, rowValues, List.zipWith_cons_cons, List.zipWith_nil_left, hname, hslash,
    fill_doubleHole _ 3 _ (by decide), fill_doubleHole _ 2 _ (by decide), fill_sizeHole,
    List.flatten_cons, List.flatten_nil, List.append_nil]
  simp only [printRow, Row.first, Row.cells, Row.left, Columns.print, List.flatMap_cons,
    List.flatMap_nil, List.cons_append, List.nil_append, List.append_nil, List.append_assoc]

end Benchmark
end DynLocks
