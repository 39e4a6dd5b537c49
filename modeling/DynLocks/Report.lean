import DynLocks.Lib.Columns
import DynLocks.Lib.Decimal

/-!
# DynLocks.Report

The rows that the benchmark prints, and the script that reads them back.

* `search_rowRe` — what `ROW_RE` finds in a printed row: the text of every column, or nothing;
* `apart_iff` — a column that follows another one keeps its blank as long as its number is short;
* `rowKept_iff` — a row comes back with every column's value exactly if all of them are.
-/

namespace DynLocks.Report

open Pattern Columns Decimal

/-! ## the row of `PrintScenario` -/

/-- The implementations that `RunScenarioResults` runs. -/
inductive Impl
  | naive
  | dynamic
  | genetic
  deriving DecidableEq

/-- The name in the first column. -/
def Impl.name : Impl → List Char
  | .naive => "naive".toList
  | .dynamic => "dynamic".toList
  | .genetic => "genetic".toList

/-- The values of a row: the columns of type `double`, none of them negative, and the three of type
`size_t`. -/
structure Row where
  totalSeconds : ℚ≥0
  totalSpeedup : ℚ≥0
  setupSeconds : ℚ≥0
  measuredSeconds : ℚ≥0
  lockOnlyTotalSeconds : ℚ≥0
  lockSpeedup : ℚ≥0
  avgLockUs : ℚ≥0
  measuredLockTotalSeconds : ℚ≥0
  avgMutexesPerQuery : ℚ≥0
  leftHotLocks : ℕ
  rightHotLocks : ℕ
  reconfigurations : ℕ

/-- The format `{:>width.placesf}`. -/
def doubleCell (width places : ℕ) (x : ℚ≥0) : Cell Char := ⟨width, fixed places (units places x)⟩

/-- The format `{:>width}` of a size. -/
def sizeCell (width n : ℕ) : Cell Char := ⟨width, Nat.toDigits 10 n⟩

/-- The first number of the row. -/
def Row.first (r : Row) : Cell Char := doubleCell 8 3 r.totalSeconds

/-- The numbers that follow it up to the hot locks. -/
def Row.cells (r : Row) : List (Cell Char) :=
  [doubleCell 8 3 r.totalSpeedup, doubleCell 8 3 r.setupSeconds, doubleCell 11 3 r.measuredSeconds,
    doubleCell 13 3 r.lockOnlyTotalSeconds, doubleCell 8 3 r.lockSpeedup,
    doubleCell 13 2 r.avgLockUs, doubleCell 12 3 r.measuredLockTotalSeconds,
    doubleCell 11 2 r.avgMutexesPerQuery]

/-- The hot locks of the left half. -/
def Row.left (r : Row) : Cell Char := sizeCell 5 r.leftHotLocks

/-- The line that `PrintScenario` prints for one implementation. -/
def printRow (impl : Impl) (r : Row) : List Char :=
  "  ".toList ++ (impl.name.rightpad 10 ' ' ++ (r.first.print ' ' ++
    (print ' ' (r.cells ++ [r.left]) ++
      '/' :: print ' ' [sizeCell 2 r.rightHotLocks, sizeCell 10 r.reconfigurations])))

/-! ## the script -/

/-- The class `\s`. -/
def isSpace (c : Char) : Bool :=
  (9 ≤ c.toNat ∧ c.toNat ≤ 13) ∨ (28 ≤ c.toNat ∧ c.toNat ≤ 32) ∨
    c.toNat ∈ [0x85, 0xa0, 0x1680, 0x2028, 0x2029, 0x202f, 0x205f, 0x3000] ∨
    (0x2000 ≤ c.toNat ∧ c.toNat ≤ 0x200a)

/-- The class `[0-9.]`. -/
def isNumeric (c : Char) : Bool := c.isDigit || c == '.'

/-- `ROW_RE` from the counts on.  Of the class `\d` only the ten digits matter, the line has no
others. -/
def countsRe : List (Atom Char) :=
  [run true Char.isDigit 1, run false isSpace 0, lit '/', run false isSpace 0,
    run true Char.isDigit 1, run false isSpace 1, run true Char.isDigit 1, run false isSpace 0,
    eol '\n']

/-- `ROW_RE`. -/
def rowRe : List (Atom Char) :=
  run false isSpace 0 :: choice [Impl.naive.name, Impl.dynamic.name, Impl.genetic.name] ::
    run false isSpace 1 :: (columns isNumeric isSpace 9 ++ countsRe)

/-- The entry of `rows` for one implementation. -/
structure Fields where
  totalS : ℚ≥0
  totalX : ℚ≥0
  setupS : ℚ≥0
  measuredS : ℚ≥0
  lockOnlyS : ℚ≥0
  lockX : ℚ≥0
  avgLockUs : ℚ≥0
  lockSumS : ℚ≥0
  avgMutex : ℚ≥0
  hotL : ℕ
  hotR : ℕ
  rebuilds : ℕ

/-- The entry for the groups of a match, with the decimal values that `float` takes to the nearest
doubles; `none` is its exception on a text that is no number. -/
def fieldsOf : List (List Char) → Option Fields
  | [totalS, totalX, setupS, measuredS, lockOnlyS, lockX, avgLockUs, lockSumS, avgMutex, hotL, hotR,
      rebuilds] => do
    return {
      totalS := ← read? totalS
      totalX := ← read? totalX
      setupS := ← read? setupS
      measuredS := ← read? measuredS
      lockOnlyS := ← read? lockOnlyS
      lockX := ← read? lockX
      avgLockUs := ← read? avgLockUs
      lockSumS := ← read? lockSumS
      avgMutex := ← read? avgMutex
      hotL := Nat.ofDigitChars 10 hotL 0
      hotR := Nat.ofDigitChars 10 hotR 0
      rebuilds := Nat.ofDigitChars 10 rebuilds 0 }
  | _ => none

/-- What `parse_file` has read so far. -/
structure Parsed where
  scenario : Option (List Char)
  rows : List Char → Option Fields

/-- Nothing is read yet. -/
def Parsed.init : Parsed where
  scenario := none
  rows _ := none

/-- The entry of an implementation is set. -/
def Parsed.record (st : Parsed) (impl : List Char) (fields : Fields) : Parsed :=
  { st with rows := Function.update st.rows impl (some fields) }

/-- `strip` -/
def strip (s : List Char) : List Char := ((s.dropWhile isSpace).reverse.dropWhile isSpace).reverse

/-- The body of the loop in `parse_file`. -/
def parseLine (st : Parsed) (line : List Char) : Option Parsed :=
  if "scenario: ".toList.isPrefixOf line then
    some { st with scenario := some (strip (line.dropWhile (· != ':')).tail) }
  else
    match search rowRe line with
    | some (impl :: groups) => (fieldsOf groups).map (st.record impl)
    | _ => some st

/-- `parse_file` on the lines of the file. -/
def parseFile (lines : List (List Char)) : Option Parsed :=
  lines.foldlM parseLine Parsed.init

/-! ## the classes -/

theorem isSpace_of_isNumeric (c : Char) (h : isNumeric c = true) : isSpace c = false := by
  rw [isNumeric, Bool.or_eq_true, Char.isDigit_iff_toNat, beq_iff_eq] at h
  have hrange : 46 ≤ c.toNat ∧ c.toNat ≤ 57 := by
    rcases h with ⟨hlow, hhigh⟩ | rfl
    · exact ⟨le_trans (by decide) hlow, hhigh⟩
    · decide
  have h46 := hrange.1
  have h57 := hrange.2
  simp only [isSpace, List.mem_cons, List.not_mem_nil, or_false, decide_eq_false_iff_not]
  omega

theorem isSpace_of_isDigit (c : Char) (h : c.isDigit = true) : isSpace c = false :=
  isSpace_of_isNumeric c (by rw [isNumeric, h, Bool.true_or])

theorem isDigit_of_isSpace (c : Char) (h : isSpace c = true) : c.isDigit = false := by
  cases hdigit : c.isDigit with
  | false => rfl
  | true => simp [isSpace_of_isDigit c hdigit] at h

/-- A printed double is a word of digits and points. -/
theorem word_doubleCell (width places : ℕ) (x : ℚ≥0) :
    Word isNumeric (doubleCell width places x).text where
  ne_nil := by simp [doubleCell, fixed]
  token c hc := by
    rw [isNumeric, Bool.or_eq_true, beq_iff_eq]
    exact mem_fixed hc

/-- A printed size is a word of digits. -/
theorem word_sizeCell (width n : ℕ) : Word Char.isDigit (sizeCell width n).text where
  ne_nil := Nat.toDigits_ne_nil
  token _ hc := Nat.isDigit_of_mem_toDigits (by decide) le_rfl hc

theorem isNumeric_of_isDigit (c : Char) (h : c.isDigit = true) : isNumeric c = true := by
  rw [isNumeric, h, Bool.true_or]

/-- The columns up to the hot locks are words of digits and points. -/
theorem Row.word_cells (r : Row) : ∀ c ∈ r.cells ++ [r.left], Word isNumeric c.text := by
  intro c hc
  rw [List.mem_append, List.mem_singleton] at hc
  rcases hc with hc | rfl
  · simp only [Row.cells, List.mem_cons, List.not_mem_nil, or_false] at hc
    rcases hc with rfl | rfl | rfl | rfl | rfl | rfl | rfl | rfl <;> exact word_doubleCell _ _ _
  · exact (word_sizeCell 5 r.leftHotLocks).mono isNumeric_of_isDigit

/-! ## the pattern on a row -/

/-- Blanks in front of a number. -/
theorem isSpace_of_mem_pad {n : ℕ} : ∀ c ∈ List.replicate n ' ', isSpace c = true := by
  intro c hc
  rw [(List.mem_replicate.1 hc).2]
  rfl

theorem rejects_digits {as : List (Atom Char)} :
    Rejects (run true Char.isDigit 1 :: as) isSpace :=
  rejects_run isDigit_of_isSpace Nat.one_pos

/-- The last two numbers of a line, behind the slash and its blanks. -/
theorem search_lastCounts {right last : Cell Char} (hright : Word Char.isDigit right.text)
    (hlast : Word Char.isDigit last.text) :
    search [run true Char.isDigit 1, run false isSpace 1, run true Char.isDigit 1,
        run false isSpace 0, eol '\n'] (right.text ++ last.print ' ') =
      if last.Apart then some [right.text, last.text] else none := by
  have hend : Rejects [run false isSpace 0, eol '\n'] Char.isDigit :=
    rejects_run_of_rejects isSpace_of_isDigit (rejects_eol (by decide))
  by_cases hapart : last.Apart
  · have hlastEnd : search (run true Char.isDigit 1 :: [run false isSpace 0, eol '\n'])
        (last.text ++ []) = _ := search_run hend hlast.token ends_nil
    rw [List.append_nil] at hlastEnd
    have hlastBegin : Ends isSpace (last.text ++ []) := hlast.ends isSpace_of_isDigit
    rw [List.append_nil] at hlastBegin
    rw [if_pos hapart, Cell.print_of_apart hapart,
      search_run (rejects_run isSpace_of_isDigit Nat.one_pos) hright.token
        (by rw [List.replicate_succ, List.cons_append, ends_cons]; decide),
      if_pos hright.length_pos,
      search_run rejects_digits isSpace_of_mem_pad hlastBegin,
      if_pos (by simp), hlastEnd, if_pos hlast.length_pos, search_run_nil ends_nil, if_pos rfl,
      search_eol]
    rfl
  · -- the two numbers are one word, and no blank follows it
    have hword := hright.append hlast
    have hwordEnd : search (run true Char.isDigit 1 :: [run false isSpace 1,
        run true Char.isDigit 1, run false isSpace 0, eol '\n'])
          (right.text ++ last.text ++ []) = _ :=
      search_run (rejects_run isSpace_of_isDigit Nat.one_pos) hword.token ends_nil
    rw [List.append_nil] at hwordEnd
    rw [if_neg hapart, Cell.print_of_not_apart hapart, hwordEnd, if_pos hword.length_pos,
      search_run_nil ends_nil, if_neg Nat.one_ne_zero]
    rfl

/-- The counts at the end of a line. -/
theorem search_countsRe {left right last : Cell Char} (hleft : Word Char.isDigit left.text)
    (hright : Word Char.isDigit right.text) (hlast : Word Char.isDigit last.text) :
    search countsRe (left.text ++ '/' :: print ' ' [right, last]) =
      if last.Apart then some [left.text, right.text, last.text] else none := by
  have hslash (as) : Rejects (run false isSpace 0 :: lit '/' :: as) Char.isDigit :=
    rejects_run_of_rejects isSpace_of_isDigit (rejects_lit (by decide))
  have hcells : print ' ' [right, last] = List.replicate (right.width - right.text.length) ' ' ++
      (right.text ++ last.print ' ') := by
    simp [print, Cell.print_eq]
  rw [hcells, countsRe, search_run (hslash _) hleft.token (ends_cons.2 (by decide)),
    if_pos hleft.length_pos, search_run_nil (ends_cons.2 (by decide)), if_pos rfl, search_lit,
    search_run rejects_digits isSpace_of_mem_pad (hright.ends isSpace_of_isDigit),
    if_pos (Nat.zero_le _), search_lastCounts hright hlast]
  split <;> rfl

/-- Every column that follows another one without a separator begins with a blank. -/
def Row.Apart (r : Row) : Prop :=
  (∀ c ∈ r.cells ++ [r.left], c.Apart) ∧ (sizeCell 10 r.reconfigurations).Apart

instance (r : Row) : Decidable r.Apart := inferInstanceAs (Decidable (_ ∧ _))

/-- The texts of the columns behind the name. -/
def Row.texts (r : Row) : List (List Char) :=
  r.first.text :: (r.cells.map Cell.text ++
    [r.left.text, (sizeCell 2 r.rightHotLocks).text, (sizeCell 10 r.reconfigurations).text])

/-- The blanks between the name and the first number. -/
def namePad (impl : Impl) (r : Row) : ℕ :=
  10 - impl.name.length + (r.first.width - r.first.text.length)

/-- A printed row piece by piece. -/
theorem printRow_eq (impl : Impl) (r : Row) :
    printRow impl r = List.replicate 2 ' ' ++ (impl.name ++ (List.replicate (namePad impl r) ' ' ++
      (r.first.text ++ (print ' ' (r.cells ++ [r.left]) ++
        '/' :: print ' ' [sizeCell 2 r.rightHotLocks, sizeCell 10 r.reconfigurations])))) := by
  rw [printRow, List.rightpad, Cell.print_eq, namePad, List.replicate_add]
  simp only [List.append_assoc]
  rfl

/-- The name fits no other name of the list. -/
theorem filter_names (impl : Impl) (t : List Char) :
    [Impl.naive.name, Impl.dynamic.name, Impl.genetic.name].filter (·.isPrefixOf (impl.name ++ t)) =
      [impl.name] := by
  cases impl <;> rfl

/-- The name is padded to more than its length. -/
theorem namePad_pos (impl : Impl) (r : Row) : 1 ≤ namePad impl r := by
  have hname : impl.name.length < 10 := by
    cases impl <;> decide
  unfold namePad
  omega

/-- **What the pattern finds in a row**: the name and the text of every column if all columns are
apart, and nothing otherwise. -/
theorem search_rowRe (impl : Impl) (r : Row) :
    search rowRe (printRow impl r) = if r.Apart then some (impl.name :: r.texts) else none := by
  have hnames : ∀ w ∈ [Impl.naive.name, Impl.dynamic.name, Impl.genetic.name],
      ∃ y v, w = y :: v ∧ isSpace y = false := by
    intro w hw
    simp only [List.mem_cons, List.not_mem_nil, or_false] at hw
    rcases hw with rfl | rfl | rfl
    · exact ⟨'n', "aive".toList, rfl, by decide⟩
    · exact ⟨'d', "ynamic".toList, rfl, by decide⟩
    · exact ⟨'g', "enetic".toList, rfl, by decide⟩
  have hname (t : List Char) : Ends isSpace (impl.name ++ t) := by
    cases impl <;> exact ends_cons.2 (by decide)
  have hcountsRe : Rejects countsRe isSpace := rejects_digits
  have hrest : Rejects (columns isNumeric isSpace 9 ++ countsRe) isSpace :=
    rejects_columns isSpace_of_isNumeric hcountsRe
  have hfirst : Word isNumeric r.first.text := word_doubleCell _ _ _
  have hcolumns : search (columns isNumeric isSpace (r.cells.length + 1) ++ countsRe)
      (r.first.text ++ (print ' ' (r.cells ++ [r.left]) ++
        '/' :: print ' ' [sizeCell 2 r.rightHotLocks, sizeCell 10 r.reconfigurations])) = _ :=
    search_columns isSpace_of_isNumeric hcountsRe (by decide) (by decide) hfirst r.word_cells
  have hcounts : search countsRe (r.left.text ++
      '/' :: print ' ' [sizeCell 2 r.rightHotLocks, sizeCell 10 r.reconfigurations]) = _ :=
    search_countsRe (word_sizeCell 5 r.leftHotLocks) (word_sizeCell 2 r.rightHotLocks)
      (word_sizeCell 10 r.reconfigurations)
  have hlength : r.cells.length + 1 = 9 := rfl
  rw [hlength] at hcolumns
  rw [printRow_eq, rowRe, search_run (rejects_choice hnames) isSpace_of_mem_pad (hname _),
    if_pos (Nat.zero_le _), search_choice (filter_names impl _),
    search_run hrest isSpace_of_mem_pad (hfirst.ends isSpace_of_isNumeric),
    if_pos (by simpa using namePad_pos impl r), hcolumns, hcounts]
  by_cases hcells : ∀ c ∈ r.cells ++ [r.left], c.Apart
  · by_cases hlast : (sizeCell 10 r.reconfigurations).Apart
    · rw [if_pos hcells, if_pos hlast, if_pos ⟨hcells, hlast⟩]
      rfl
    · rw [if_pos hcells, if_neg hlast, if_neg fun h => hlast h.2]
      rfl
  · rw [if_neg hcells, if_neg fun h => hcells h.1]
    rfl

/-! ## short numbers -/

/-- **The width of a double**: the column keeps its blank as long as the rounded number leaves one
character of the width free. -/
theorem apart_doubleCell_iff {width places : ℕ} (h : places + 2 < width) (x : ℚ≥0) :
    (doubleCell width places x).Apart ↔ (x : ℚ) < (10 ^ (width - 2) - 1 / 2) / 10 ^ places := by
  have heven : Even (10 ^ (width - 2)) := (Nat.even_pow.2 ⟨by decide, by omega⟩)
  have hpos : (0 : ℚ) ≤ x * 10 ^ places := by positivity
  have hlt := roundHalfEven_lt_iff hpos heven
  push_cast at hlt
  rw [Cell.Apart, doubleCell, length_fixed_lt_iff h, units, hlt, lt_div_iff₀ (by positivity),
    lt_sub_iff_add_lt]

/-- The width of a size. -/
theorem apart_sizeCell_iff {width n : ℕ} (h : 1 < width) :
    (sizeCell width n).Apart ↔ n < 10 ^ (width - 1) := by
  rw [Cell.Apart, sizeCell, ← Nat.length_toDigits_le_iff (by decide) (by omega)]
  dsimp only
  omega

/-- Every number that is printed behind another one without a separator is short enough for the
width of its column. -/
structure Row.Short (r : Row) : Prop where
  totalSpeedup : (r.totalSpeedup : ℚ) < 999.9995
  setupSeconds : (r.setupSeconds : ℚ) < 999.9995
  measuredSeconds : (r.measuredSeconds : ℚ) < 999999.9995
  lockOnlyTotalSeconds : (r.lockOnlyTotalSeconds : ℚ) < 99999999.9995
  lockSpeedup : (r.lockSpeedup : ℚ) < 999.9995
  avgLockUs : (r.avgLockUs : ℚ) < 999999999.995
  measuredLockTotalSeconds : (r.measuredLockTotalSeconds : ℚ) < 9999999.9995
  avgMutexesPerQuery : (r.avgMutexesPerQuery : ℚ) < 9999999.995
  leftHotLocks : r.leftHotLocks < 10000
  reconfigurations : r.reconfigurations < 1000000000

/-- The columns are apart exactly if the numbers are short. -/
theorem apart_iff (r : Row) : r.Apart ↔ r.Short := by
  have h8 : ((10 ^ (8 - 2) - 1 / 2) / 10 ^ 3 : ℚ) = 999.9995 := by norm_num
  have h11 : ((10 ^ (11 - 2) - 1 / 2) / 10 ^ 3 : ℚ) = 999999.9995 := by norm_num
  have h13 : ((10 ^ (13 - 2) - 1 / 2) / 10 ^ 3 : ℚ) = 99999999.9995 := by norm_num
  have h13' : ((10 ^ (13 - 2) - 1 / 2) / 10 ^ 2 : ℚ) = 999999999.995 := by norm_num
  have h12 : ((10 ^ (12 - 2) - 1 / 2) / 10 ^ 3 : ℚ) = 9999999.9995 := by norm_num
  have h11' : ((10 ^ (11 - 2) - 1 / 2) / 10 ^ 2 : ℚ) = 9999999.995 := by norm_num
  have hcells : r.Apart ↔
      ((doubleCell 8 3 r.totalSpeedup).Apart ∧ (doubleCell 8 3 r.setupSeconds).Apart ∧
        (doubleCell 11 3 r.measuredSeconds).Apart ∧
        (doubleCell 13 3 r.lockOnlyTotalSeconds).Apart ∧ (doubleCell 8 3 r.lockSpeedup).Apart ∧
        (doubleCell 13 2 r.avgLockUs).Apart ∧
        (doubleCell 12 3 r.measuredLockTotalSeconds).Apart ∧
        (doubleCell 11 2 r.avgMutexesPerQuery).Apart ∧ (sizeCell 5 r.leftHotLocks).Apart) ∧
        (sizeCell 10 r.reconfigurations).Apart := by
    simp [Row.Apart, Row.cells, Row.left]
  rw [hcells]
  simp only [apart_doubleCell_iff (show 3 + 2 < 8 by decide),
    apart_doubleCell_iff (show 3 + 2 < 11 by decide),
    apart_doubleCell_iff (show 3 + 2 < 13 by decide),
    apart_doubleCell_iff (show 2 + 2 < 13 by decide),
    apart_doubleCell_iff (show 3 + 2 < 12 by decide),
    apart_doubleCell_iff (show 2 + 2 < 11 by decide), apart_sizeCell_iff (show 1 < 5 by decide),
    apart_sizeCell_iff (show 1 < 10 by decide), h8, h11, h13, h13', h12, h11']
  constructor
  · rintro ⟨⟨h₁, h₂, h₃, h₄, h₅, h₆, h₇, h₈, h₉⟩, h₁₀⟩
    exact ⟨h₁, h₂, h₃, h₄, h₅, h₆, h₇, h₈, h₉, h₁₀⟩
  · intro h
    exact ⟨⟨h.totalSpeedup, h.setupSeconds, h.measuredSeconds, h.lockOnlyTotalSeconds,
      h.lockSpeedup, h.avgLockUs, h.measuredLockTotalSeconds, h.avgMutexesPerQuery,
      h.leftHotLocks⟩, h.reconfigurations⟩

instance (r : Row) : Decidable r.Short := decidable_of_iff r.Apart (apart_iff r)

/-! ## the round trip -/

/-- The values of a row as they are printed. -/
def Row.printed (r : Row) : Fields where
  totalS := value 3 (units 3 r.totalSeconds)
  totalX := value 3 (units 3 r.totalSpeedup)
  setupS := value 3 (units 3 r.setupSeconds)
  measuredS := value 3 (units 3 r.measuredSeconds)
  lockOnlyS := value 3 (units 3 r.lockOnlyTotalSeconds)
  lockX := value 3 (units 3 r.lockSpeedup)
  avgLockUs := value 2 (units 2 r.avgLockUs)
  lockSumS := value 3 (units 3 r.measuredLockTotalSeconds)
  avgMutex := value 2 (units 2 r.avgMutexesPerQuery)
  hotL := r.leftHotLocks
  hotR := r.rightHotLocks
  rebuilds := r.reconfigurations

/-- The text of each column denotes the value it was printed from, in its own field. -/
theorem fieldsOf_texts (r : Row) : fieldsOf r.texts = some r.printed := by
  simp only [fieldsOf, Row.texts, Row.first, Row.cells, Row.left, List.map_cons, List.map_nil,
    List.cons_append, List.nil_append, doubleCell, sizeCell, read?_fixed,
    Nat.ofDigitChars_ten_toDigits]
  rfl

/-- What the script makes of a printed row. -/
theorem parseLine_printRow (st : Parsed) (impl : Impl) (r : Row) :
    parseLine st (printRow impl r) =
      some (if r.Short then st.record impl.name r.printed else st) := by
  have hscenario : ¬"scenario: ".toList.isPrefixOf (printRow impl r) = true :=
    Bool.eq_false_iff.1 rfl
  rw [parseLine, if_neg hscenario, search_rowRe]
  by_cases h : r.Short
  · simp only [if_pos h, if_pos ((apart_iff r).2 h), fieldsOf_texts, Option.map_some]
  · simp only [if_neg h, if_neg fun hapart => h ((apart_iff r).1 hapart)]

/-- One more line of a file. -/
theorem parseFile_concat (lines : List (List Char)) (line : List Char) :
    parseFile (lines ++ [line]) = (parseFile lines).bind (parseLine · line) := by
  rw [parseFile, List.foldlM_append]
  cases h : lines.foldlM parseLine Parsed.init <;> simp [parseFile, h]

theorem record_rows_self (st : Parsed) (impl : List Char) (fields : Fields) :
    (st.record impl fields).rows impl = some fields :=
  Function.update_self ..

/-- A row with a number that is too long is dropped. -/
theorem parseFile_of_not_short {impl : Impl} {r : Row} (h : ¬r.Short) :
    parseFile [printRow impl r] = some Parsed.init := by
  have hconcat := parseFile_concat [] (printRow impl r)
  have hempty : parseFile [] = some Parsed.init := rfl
  rw [hempty, Option.bind_some, parseLine_printRow, if_neg h] at hconcat
  exact hconcat

/-- The row is read as it was printed, whatever the file holds before it. -/
def RowKept (impl : Impl) (r : Row) : Prop :=
  ∀ lines st, parseFile lines = some st →
    parseFile (lines ++ [printRow impl r]) = some (st.record impl.name r.printed)

theorem not_rowKept_of_not_short {impl : Impl} {r : Row} (h : ¬r.Short) : ¬RowKept impl r := by
  intro hkept
  have hread := hkept [] Parsed.init rfl
  rw [List.nil_append, parseFile_of_not_short h, Option.some.injEq] at hread
  have hrow := congrArg (Parsed.rows · impl.name) hread
  simp only [record_rows_self] at hrow
  contradiction

/-- **Rows that survive the script**: a row comes back with the value of every column in its own
field exactly if every number behind another one is short enough for its column; else the script
drops the row. -/
theorem rowKept_iff (impl : Impl) (r : Row) : RowKept impl r ↔ r.Short := by
  constructor
  · intro h
    by_contra hlong
    exact not_rowKept_of_not_short hlong h
  · intro h lines st hlines
    rw [parseFile_concat, hlines, Option.bind_some, parseLine_printRow, if_pos h]

/-- A row whose set-up took a thousand seconds and everything else one. -/
def longSetup : Row where
  totalSeconds := 1
  totalSpeedup := 1
  setupSeconds := 1000
  measuredSeconds := 1
  lockOnlyTotalSeconds := 1
  lockSpeedup := 1
  avgLockUs := 1
  measuredLockTotalSeconds := 1
  avgMutexesPerQuery := 1
  leftHotLocks := 1
  rightHotLocks := 1
  reconfigurations := 1

/-- Its set-up time runs into the column before, and the script reads no row at all. -/
theorem longSetup_dropped :
    parseFile [printRow .naive longSetup] = some Parsed.init ∧ ¬RowKept .naive longSetup := by
  have hlong : ¬longSetup.Short := by
    intro h
    have hsetup := h.setupSeconds
    norm_num [longSetup] at hsetup
  exact ⟨parseFile_of_not_short hlong, not_rowKept_of_not_short hlong⟩

end DynLocks.Report
