import DynLocks.Benchmark.Print
import DynLocks.Lib.Lines

/-!
# DynLocks.Summary

What the summary script reads in the output of the benchmark.

* `silent_of_plain` — lines of letters, digits and the like without a slash say nothing to
  the script;
* `readsAs_printScenario` — what a table says: the name of its scenario, and the rows whose
  numbers are short enough;
* `summarized_mainOutput` — so in a whole run the script finds the scenario that was
  printed last and for each lock the last row that is short enough, and its summary shows
  the numbers as they were printed.
-/

namespace DynLocks.Report

open Benchmark PrintCompat Pattern Lines

/-! ## the file -/

/-- The line breaks of `read_text`. -/
def universalNewlines : List Char → List Char
  | [] => []
  | '\r' :: '\n' :: text => '\n' :: universalNewlines text
  | '\r' :: text => '\n' :: universalNewlines text
  | c :: text => c :: universalNewlines text

/-- Where `splitlines` ends a line. -/
def isBreak (c : Char) : Bool :=
  (10 ≤ c.toNat ∧ c.toNat ≤ 13) ∨ (28 ≤ c.toNat ∧ c.toNat ≤ 30) ∨
    c.toNat ∈ [0x85, 0x2028, 0x2029]

/-- `parse_file` on the text of the file. -/
def parseText (text : List Char) : Option Parsed :=
  parseFile (Lines.split isBreak (universalNewlines text))

/-! ## plain text -/

/-- The characters that the benchmark prints, but for the slash. -/
def plain (c : Char) : Bool := 32 ≤ c.toNat ∧ c.toNat < 127 ∧ c ≠ '/'

variable {c : Char} {text line : List Char}

theorem plain_of_isDigit (h : c.isDigit = true) : plain c = true := by
  have hrange := Char.isDigit_iff_toNat.mp h
  have hlow : 48 ≤ c.toNat := hrange.1
  have hhigh : c.toNat ≤ 57 := hrange.2
  have hslash : c ≠ '/' := by
    rintro rfl
    exact absurd h (by decide)
  simp only [plain, decide_eq_true_eq]
  exact ⟨by omega, by omega, hslash⟩

theorem isBreak_of_plain (h : plain c = true) : isBreak c = false := by
  simp only [plain, decide_eq_true_eq] at h
  simp only [isBreak, List.mem_cons, List.not_mem_nil, or_false, decide_eq_false_iff_not]
  omega

/-- A value whose text is plain. -/
def PlainValue : Value → Prop
  | .text s => ∀ c ∈ s, plain c = true
  | _ => True

/-- The digits of a double. -/
theorem plain_of_mem_fixed {k n : ℕ} (h : c ∈ Decimal.fixed k n) : plain c = true := by
  rcases Decimal.mem_fixed h with hdigit | rfl
  · exact plain_of_isDigit hdigit
  · rfl

theorem plain_of_mem_toDigits {n : ℕ} (h : c ∈ Nat.toDigits 10 n) : plain c = true :=
  plain_of_isDigit (Nat.isDigit_of_mem_toDigits (by decide) le_rfl h)

theorem mem_of_mem_trimPlaces (h : c ∈ trimPlaces text) : c ∈ text := by
  have hmem := List.mem_reverse.mp h
  have hzeros := (List.dropWhile_suffix _).mem hmem
  exact List.mem_reverse.mp ((List.dropWhile_suffix _).mem hzeros)

theorem plain_of_mem_exponentText {e : ℤ} (h : c ∈ exponentText e) : plain c = true := by
  rw [exponentText, List.mem_cons, List.mem_cons, List.leftpad, List.mem_append,
    List.mem_replicate] at h
  rcases h with rfl | rfl | h | h
  · rfl
  · split <;> rfl
  · rw [h.2]
    rfl
  · exact plain_of_mem_toDigits h

theorem plain_of_mem_significantText {digits : ℕ} {x : ℚ≥0} {e : ℤ} {n : ℕ}
    (h : c ∈ significantText digits x e n) : plain c = true := by
  rw [significantText] at h
  split at h
  · exact plain_of_mem_fixed (mem_of_mem_trimPlaces h)
  · rcases List.mem_append.mp h with h | h
    · exact plain_of_mem_fixed (mem_of_mem_trimPlaces h)
    · exact plain_of_mem_exponentText h

theorem plain_of_mem_generalText {digits : ℕ} {x : ℚ≥0} (h : c ∈ generalText digits x) :
    plain c = true := by
  rw [generalText] at h
  split at h
  · rw [List.mem_singleton.mp h]
    rfl
  · dsimp only at h
    split at h <;> exact plain_of_mem_significantText h

/-- What `operator<<` writes of a plain value is plain. -/
theorem plain_of_mem_write {value : Value} (hvalue : PlainValue value) {precision : Option ℕ}
    (h : c ∈ value.write precision) : plain c = true := by
  cases value with
  | text s => exact hvalue c h
  | int n =>
      rw [Value.write, intText] at h
      split at h
      · rcases List.mem_cons.mp h with rfl | h
        · rfl
        · exact plain_of_mem_toDigits h
      · exact plain_of_mem_toDigits h
  | double x =>
      cases precision with
      | none => exact plain_of_mem_generalText h
      | some places =>
          rw [Value.write, Option.elim_some, fixedText] at h
          split at h
          · exact plain_of_mem_toDigits h
          · exact plain_of_mem_fixed h

/-- What holds of plain text and of the format holds of what is printed. -/
theorem of_mem_print {p : Char → Prop} (hp : ∀ c, plain c = true → p c) {fmt : String}
    {args : List Value} (hfmt : ∀ c ∈ fmt.toList, p c) (hargs : ∀ value ∈ args, PlainValue value)
    (h : c ∈ print fmt args) : p c := by
  rcases mem_appendFormat h with h | ⟨value, hvalue, spec, h⟩
  · exact hfmt c h
  · rcases mem_formatValue h with rfl | h
    · exact hp ' ' rfl
    · exact hp c (plain_of_mem_write (hargs value hvalue) h)

/-- So is a printed line, if its format and its values are. -/
theorem plain_of_mem_print {fmt : String} {args : List Value} (hchars : fmt = String.ofList text)
    (hfmt : text.all plain = true) (hargs : ∀ value ∈ args, PlainValue value)
    (h : c ∈ print fmt args) : plain c = true := by
  have htext := toList_of_literal hchars
  subst htext
  exact of_mem_print (fun _ hc => hc) (List.all_eq_true.mp hfmt) hargs h

/-! ## lines that say nothing -/

/-- The script passes over the line. -/
def Silent (line : List Char) : Prop := ∀ st, parseLine st line = some st

/-- A line that is neither a headline nor a row says nothing to the reader. -/
theorem silent_of_search (hhead : line.head? ≠ some 's') (h : search rowRe line = none) :
    Silent line := by
  intro st
  have hscenario : ¬"scenario: ".toList.isPrefixOf line = true := by
    intro hprefix
    rw [List.isPrefixOf_iff_prefix] at hprefix
    obtain ⟨rest, rfl⟩ := hprefix
    exact hhead rfl
  rw [parseLine, if_neg hscenario, h]

/-- **A line without a slash** is no row. -/
theorem silent_of_plain (hhead : line.head? ≠ some 's') (h : ∀ c ∈ line, plain c = true) :
    Silent line := by
  refine silent_of_search hhead ?_
  cases hsearch : search rowRe line with
  | none => rfl
  | some groups =>
      have hslash : lit '/' ∈ rowRe := by
        simp [rowRe, countsRe]
      exact absurd (h _ (mem_of_search hsearch hslash)) (by decide)

/-- Neither is a line whose first word begins with another letter than the locks. -/
theorem silent_of_first {n : ℕ} (hc : isSpace c = false) (hletter : c ∉ ['n', 'd', 'g', 's']) :
    Silent (List.replicate n ' ' ++ c :: text) := by
  have hnames : ∀ w ∈ [Impl.naive.name, Impl.dynamic.name, Impl.genetic.name],
      ∃ y v, w = y :: v ∧ isSpace y = false := by
    intro w hw
    simp only [List.mem_cons, List.not_mem_nil, or_false] at hw
    rcases hw with rfl | rfl | rfl
    · exact ⟨'n', "aive".toList, rfl, by decide⟩
    · exact ⟨'d', "ynamic".toList, rfl, by decide⟩
    · exact ⟨'g', "enetic".toList, rfl, by decide⟩
  simp only [List.mem_cons, List.not_mem_nil, or_false, not_or] at hletter
  obtain ⟨hn, hd, hg, hs⟩ := hletter
  refine silent_of_search ?_ ?_
  · cases n with
    | zero => simpa using hs
    | succ n => simp [List.replicate_succ]
  · have hfilter : [Impl.naive.name, Impl.dynamic.name, Impl.genetic.name].filter
        (·.isPrefixOf (c :: text)) = [] := by
      have hne (y : Char) (v : List Char) (hy : c ≠ y) : (y :: v).isPrefixOf (c :: text) = false := by
        simp [List.isPrefixOf, Ne.symm hy]
      have hnaive : Impl.naive.name.isPrefixOf (c :: text) = false := hne 'n' _ hn
      have hdynamic : Impl.dynamic.name.isPrefixOf (c :: text) = false := hne 'd' _ hd
      have hgenetic : Impl.genetic.name.isPrefixOf (c :: text) = false := hne 'g' _ hg
      simp [hnaive, hdynamic, hgenetic]
    rw [rowRe, search_run (rejects_choice hnames) isSpace_of_mem_pad (ends_cons.2 hc),
      if_pos (Nat.zero_le _), search_choice_none hfilter]
    rfl

/-! ## texts that say nothing -/

/-- What the script makes of a part of the output. -/
def ReadsAs (text : List Char) (f : Parsed → Parsed) : Prop :=
  Lines.Reads '\n' isBreak parseLine text f

/-- It is read without a change of what has been parsed. -/
theorem readsAs_silent (hline : ∀ c ∈ line, isBreak c = false) (h : Silent line) :
    ReadsAs (line ++ ['\n']) id :=
  Lines.Reads.ofLine hline h

/-- So is a plain line that does not begin like a headline. -/
theorem readsAs_plain (h : ∀ c ∈ line, plain c = true) (hhead : line.head? ≠ some 's') :
    ReadsAs (line ++ ['\n']) id :=
  readsAs_silent (fun c hc => isBreak_of_plain (h c hc)) (silent_of_plain hhead h)

/-- So is an empty line. -/
theorem readsAs_blank : ReadsAs ['\n'] id :=
  readsAs_plain (fun _ h => absurd h List.not_mem_nil) (by simp)

/-- An empty line behind another one. -/
theorem readsAs_behind {f : Parsed → Parsed} (h : ReadsAs (line ++ ['\n']) f) :
    ReadsAs (line ++ ['\n', '\n']) f := by
  have hsplit : line ++ ['\n', '\n'] = (line ++ ['\n']) ++ ['\n'] := by
    rw [List.append_assoc]
    rfl
  rw [hsplit]
  exact h.append readsAs_blank

/-- An empty line that is printed. -/
theorem readsAs_empty : ReadsAs (println "" []) id := readsAs_blank

/-- A format without a slash that begins with text. -/
def quiet : List Char → Bool
  | [] => false
  | c :: text => c != '{' && c != 's' && (c :: text).all plain

theorem quiet_elim (h : quiet text = true) :
    (∃ c rest, text = c :: rest ∧ c ≠ '{' ∧ c ≠ 's') ∧ text.all plain = true := by
  cases text with
  | nil => contradiction
  | cons c rest =>
      rw [quiet, Bool.and_eq_true, Bool.and_eq_true, bne_iff_ne, bne_iff_ne] at h
      exact ⟨⟨c, rest, rfl, h.1⟩, h.2⟩

/-- A line that is printed at once. -/
theorem readsAs_println {fmt : String} {args : List Value} (hchars : fmt = String.ofList text)
    (hfmt : quiet text = true) (hargs : ∀ value ∈ args, PlainValue value) :
    ReadsAs (println fmt args) id := by
  obtain ⟨⟨c, rest, hrest, hbrace, hs⟩, hplain⟩ := quiet_elim hfmt
  refine readsAs_plain (fun x hx => plain_of_mem_print hchars hplain hargs hx) ?_
  rw [print, toList_of_literal hchars, hrest, head?_appendFormat hbrace]
  simpa using hs

/-- A line that begins with another letter than the locks. -/
def foreign : List Char → Bool
  | ' ' :: ' ' :: c :: text =>
      !isSpace c && !(['n', 'd', 'g', 's'].contains c) && (c :: text).all fun c => !isBreak c
  | _ => false

/-- A line of the legend that has a slash. -/
theorem readsAs_legend {fmt : String} (hchars : fmt = String.ofList text)
    (hfmt : foreign text = true) : ReadsAs (println fmt []) id := by
  rw [println, print, appendFormat, toList_of_literal hchars]
  unfold foreign at hfmt
  split at hfmt
  · next c text =>
      simp only [Bool.and_eq_true, Bool.not_eq_true', List.all_eq_true] at hfmt
      obtain ⟨⟨hspace, hletter⟩, hbreak⟩ := hfmt
      refine readsAs_silent ?_ (silent_of_first (n := 2) hspace (by simpa using hletter))
      intro x hx
      rcases List.mem_cons.mp hx with rfl | hx
      · rfl
      · rcases List.mem_cons.mp hx with rfl | hx
        · rfl
        · exact hbreak x hx
  · contradiction

/-! ## partitions -/

theorem mem_of_mem_intercalate {separator : List Char} {texts : List (List Char)}
    (h : c ∈ List.intercalate separator texts) : c ∈ separator ∨ ∃ t ∈ texts, c ∈ t := by
  induction texts with
  | nil => contradiction
  | cons t texts ih =>
      cases texts with
      | nil =>
          rw [List.intercalate_singleton] at h
          exact .inr ⟨t, List.mem_cons_self, h⟩
      | cons t' texts =>
          rw [List.intercalate_cons_cons, List.mem_append, List.mem_append] at h
          rcases h with (h | h) | h
          · exact .inr ⟨t, List.mem_cons_self, h⟩
          · exact .inl h
          · exact (ih h).imp_right fun ⟨u, hu, hc⟩ => ⟨u, List.mem_cons_of_mem _ hu, hc⟩

/-- Numbers that are printed one after another. -/
theorem plain_of_mem_numbers {separator : String} (hchars : separator = String.ofList text)
    (hseparator : text.all plain = true) {β : Type} {xs : List β} {number : β → ℤ}
    (h : c ∈ List.intercalate (print separator []) (xs.map fun x => print "{}" [.int (number x)])) :
    plain c = true := by
  rcases mem_of_mem_intercalate h with h | ⟨t, ht, h⟩
  · exact plain_of_mem_print hchars hseparator (by simp) h
  · obtain ⟨x, -, rfl⟩ := List.mem_map.mp ht
    exact plain_of_mem_print rfl (by decide) (by simp [PlainValue]) h

theorem plain_of_mem_printSizeVector {values : List ℕ} (h : c ∈ printSizeVector values) :
    plain c = true := by
  rw [printSizeVector, List.mem_append, List.mem_append] at h
  rcases h with (h | h) | h
  · exact plain_of_mem_print rfl (by decide) (by simp) h
  · exact plain_of_mem_numbers rfl (by decide) h
  · exact plain_of_mem_print rfl (by decide) (by simp) h

/-- So is a line of the debug output, a label with a list of numbers behind it. -/
theorem readsAs_printVectorLine (label : String) (values : List ℕ)
    (hchars : label = String.ofList text) (hlabel : quiet text = true) :
    ReadsAs (printVectorLine label values) id := by
  obtain ⟨⟨first, rest, hrest, -, hs⟩, hplain⟩ := quiet_elim hlabel
  have hline : printVectorLine label values =
      (print label [] ++ printSizeVector values) ++ ['\n'] := by
    rw [printVectorLine, println, List.append_assoc]
    rfl
  rw [hline]
  refine readsAs_plain (fun x hx => ?_) ?_
  · rcases List.mem_append.mp hx with hx | hx
    · exact plain_of_mem_print hchars hplain (by simp) hx
    · exact plain_of_mem_printSizeVector hx
  · rw [print, toList_of_literal hchars, hrest, appendFormat]
    simpa using hs

theorem readsAs_ite (p : Prop) [Decidable p] {text text' : List Char} (h : ReadsAs text id)
    (h' : ReadsAs text' id) : ReadsAs (if p then text else text') id := by
  split
  · exact h
  · exact h'

theorem plain_name (name : Impl) : ∀ c ∈ name.name, plain c = true := by
  cases name <;> exact List.all_eq_true.mp rfl

/-- And so is the debug output of a partition. -/
theorem readsAs_printPartitionDebug (scenario : ScenarioInput) (result : ImplementationResult) :
    ReadsAs (printPartitionDebug scenario result) id := by
  have htitle : ReadsAs (println "  {} partition debug:" [.text result.name.name]) id :=
    readsAs_println rfl (by decide) (by simpa [PlainValue] using plain_name result.name)
  have hcuts := (readsAs_printVectorLine "    cuts: " result.partitionCuts rfl (by decide)).append
    (readsAs_printVectorLine "    widths: " (cutsToWidths result.partitionCuts) rfl (by decide))
  have hwindows := (readsAs_printVectorLine "    hot window begins: " scenario.debugWindowBegins rfl
    (by decide)).append
      (readsAs_printVectorLine "    locks per hot window: " result.debugWindowLocks rfl (by decide))
  exact readsAs_ite _ Lines.Reads.nil (htitle.append
    ((readsAs_ite _ Lines.Reads.nil hcuts).append (readsAs_ite _ Lines.Reads.nil hwindows)))

/-! ## a table -/

/-- What the script can read back: a name without blanks, and a description in plain text. -/
structure Labelled (scenario : ScenarioInput) : Prop where
  name : ∀ c ∈ scenario.name.toList, plain c = true ∧ isSpace c = false
  description : ∀ c ∈ scenario.description.toList, plain c = true

/-- What the script does with a row. -/
def readRow (p : Impl × Row) (st : Parsed) : Parsed :=
  if p.2.Short then st.record p.1.name p.2.printed else st

/-- What it does with a table. -/
def readTable (name : List Char) (rows : List (Impl × Row)) (st : Parsed) : Parsed :=
  rows.foldl (fun st p => readRow p st) { st with scenario := some name }

/-- A format that ends with a hole. -/
theorem print_hole {fmt : String} (front : List Char) (value : Value) (hfront : '{' ∉ front)
    (hfmt : fmt = String.ofList (front ++ ['{', '}'])) :
    print fmt [value] = front ++ formatValue value {} := by
  have hcons : appendFormat (front ++ '{' :: ([] ++ '}' :: [])) [value] =
      front ++ (formatValue value (parseSpec (specOf [])) ++ appendFormat [] []) :=
    appendFormat_cons hfront (by simp) value []
  rw [print, toList_of_literal hfmt]
  exact hcons.trans (congrArg (front ++ ·) (List.append_nil _))

theorem strip_blank {s : List Char} (h : ∀ c ∈ s, isSpace c = false) : strip (' ' :: s) = s := by
  have hdrop (t : List Char) (ht : ∀ c ∈ t, isSpace c = false) : t.dropWhile isSpace = t := by
    cases t with
    | nil => rfl
    | cons c t => rw [List.dropWhile_cons_of_neg (by simp [ht c List.mem_cons_self])]
  rw [strip, List.dropWhile_cons_of_pos rfl, hdrop s h,
    hdrop s.reverse fun c hc => h c (List.mem_reverse.mp hc), List.reverse_reverse]

/-- The line with the name. -/
theorem readsAs_name {scenario : ScenarioInput} (h : Labelled scenario) :
    ReadsAs (println "scenario: {}" [.text scenario.name.toList])
      fun st => { st with scenario := some scenario.name.toList } := by
  have hline : print "scenario: {}" [.text scenario.name.toList] =
      "scenario: ".toList ++ scenario.name.toList := by
    rw [print_hole "scenario: ".toList _ (by decide) (by decide)]
    simp [formatValue, Value.write]
  rw [println, hline]
  refine Lines.Reads.ofLine (fun c hc => ?_) fun st => ?_
  · rcases List.mem_append.mp hc with hc | hc
    · exact isBreak_of_plain (List.all_eq_true.mp (by decide) c hc)
    · exact isBreak_of_plain (h.name c hc).1
  · have hname : strip (' ' :: scenario.name.toList) = scenario.name.toList :=
      strip_blank fun c hc => (h.name c hc).2
    have hprefix : "scenario: ".toList.isPrefixOf ("scenario: ".toList ++ scenario.name.toList) =
        true := List.isPrefixOf_iff_prefix.mpr (List.prefix_append _ _)
    have htail : (("scenario: ".toList ++ scenario.name.toList).dropWhile (· != ':')).tail =
        ' ' :: scenario.name.toList := rfl
    rw [parseLine, if_pos hprefix, htail, hname]

/-- What stands behind the last hole of a format. -/
theorem print_behind {fmt fmt' : String} {values : List Value} (holes : List Hole)
    {last : List Char} (hfront : ∀ h ∈ holes, '{' ∉ h.front)
    (hlength : holes.length = values.length) (hchars : fmt = String.ofList text)
    (hfmt : text = holes.flatMap Hole.source ++ last) {text' : List Char}
    (hchars' : fmt' = String.ofList text') (hfmt' : text' = holes.flatMap Hole.source ++ []) :
    print fmt values = print fmt' values ++ last := by
  rw [print, print, toList_of_literal hchars, toList_of_literal hchars', hfmt, hfmt',
    appendFormat_render hfront hlength, appendFormat_render hfront hlength, List.append_nil]

/-- The same for a text without holes. -/
theorem print_nil_behind {fmt fmt' : String} {last text' : List Char}
    (hchars : fmt = String.ofList text) (hchars' : fmt' = String.ofList text')
    (h : text = text' ++ last) : print fmt [] = print fmt' [] ++ last := by
  rw [print, print, appendFormat, appendFormat, toList_of_literal hchars,
    toList_of_literal hchars', h]

theorem plain_of_mem_printSetupQueries {scenario : ScenarioInput}
    (h : c ∈ printSetupQueries scenario) : plain c = true := by
  rw [printSetupQueries, List.mem_append, List.mem_append] at h
  rcases h with h | h | h
  · exact plain_of_mem_print rfl (by decide) (by simp) h
  · exact plain_of_mem_numbers rfl (by decide) h
  · split at h
    · contradiction
    · rcases List.mem_append.mp h with h | h
      · exact plain_of_mem_print rfl (by decide) (by simp [PlainValue]) h
      · split at h
        · exact plain_of_mem_print rfl (by decide) (by simp [PlainValue]) h
        · contradiction

/-- The numbers of queries. -/
theorem readsAs_queries (scenario : ScenarioInput) :
    ReadsAs (printSetupQueries scenario ++
      print ", measured queries: {}\n\n" [.int scenario.measuredQueries.toNat]) id := by
  have hbehind : print ", measured queries: {}\n\n" [.int scenario.measuredQueries.toNat] =
      print ", measured queries: {}" [.int scenario.measuredQueries.toNat] ++ ['\n', '\n'] :=
    print_behind [{ front := ", measured queries: ".toList }] (by decide) rfl rfl rfl rfl rfl
  rw [hbehind, ← List.append_assoc]
  refine readsAs_behind (readsAs_plain (fun c hc => ?_) ?_)
  · rcases List.mem_append.mp hc with hc | hc
    · exact plain_of_mem_printSetupQueries hc
    · exact plain_of_mem_print rfl (by decide) (by simp [PlainValue]) hc
  · rw [printSetupQueries, List.append_assoc, show print "  setup queries: " [] =
      ' ' :: " setup queries: ".toList from rfl, List.cons_append, List.head?_cons]
    decide

/-- A row. -/
theorem readsAs_row (name : Impl) (r : Row) :
    ReadsAs (println rowFormat (rowValues name r)) (readRow (name, r)) := by
  have hformat : rowFormat.toList.all (fun c => !isBreak c) = true := by
    rw [rowFormat_eq]
    rfl
  refine Lines.Reads.ofLine (fun c hc => ?_) fun st => ?_
  · refine of_mem_print (p := fun c => isBreak c = false) (fun _ => isBreak_of_plain)
      (fun c hc => by simpa using List.all_eq_true.mp hformat c hc) ?_ hc
    simp only [rowValues, List.forall_mem_cons, PlainValue, List.not_mem_nil, false_implies,
      implies_true, and_true]
    exact plain_name name
  · rw [print_rowFormat, parseLine_printRow]
    rfl

/-- **A table**: its name, and the rows that are short enough. -/
theorem readsAs_printScenario {scenario : ScenarioInput} (h : Labelled scenario)
    (debugPartitions : Bool) (results : ScenarioResults) :
    ReadsAs (printScenario debugPartitions scenario results)
      (readTable scenario.name.toList results.rows) := by
  have hdescription : ReadsAs (println "  {}" [.text scenario.description.toList]) id :=
    readsAs_println rfl (by decide) (by simpa [PlainValue] using h.description)
  have htimed : ReadsAs (println (timedNote ++ "\n") []) id := by
    have hnote : timedNote = String.ofList _ := append_of_literal rfl rfl
    have hbehind : print (timedNote ++ "\n") [] = println timedNote [] :=
      print_nil_behind (append_of_literal hnote rfl) hnote rfl
    rw [println, hbehind]
    exact (readsAs_legend hnote rfl).append readsAs_blank
  have htitle : ReadsAs (println tableTitle []) id :=
    readsAs_legend (append_of_literal rfl rfl) rfl
  have hrows : ReadsAs (results.rows.flatMap fun row => println rowFormat (rowValues row.1 row.2))
      fun st => results.rows.foldl (fun st p => readRow p st) st :=
    Lines.Reads.flatMap fun row _ => readsAs_row row.1 row.2
  have hdebug : ReadsAs (println "" [] ++ results.toList.flatMap (printPartitionDebug scenario))
      id :=
    readsAs_empty.append
      (Lines.Reads.flatMap_id fun result _ => readsAs_printPartitionDebug scenario result)
  have hall := (readsAs_name h).append (hdescription.append ((readsAs_queries scenario).append
    ((readsAs_ite (scenario.timedPhases.isEmpty = true) Lines.Reads.nil htimed).append
      (htitle.append (hrows.append
        ((readsAs_ite (debugPartitions = true) hdebug Lines.Reads.nil).append readsAs_empty))))))
  exact hall.congr fun st => by simp only [readTable, Function.comp_apply, id]

/-! ## the comparison -/

theorem findResult_naive (results : ScenarioResults) :
    findResult results.toList .naive = some results.naive := by
  simp [findResult, ScenarioResults.toList, results.name_naive]

/-- The rows of the spin comparison do not look like those of the table. -/
theorem readsAs_printPointSpinRow (spinNaive : ImplementationResult) (name : Impl)
    (spinResult mutexResult : ImplementationResult) :
    ReadsAs (printPointSpinRow spinNaive name spinResult mutexResult) id := by
  refine readsAs_println rfl rfl ?_
  simp only [List.forall_mem_cons, PlainValue, List.not_mem_nil, false_implies, implies_true,
    and_true]
  exact plain_name name

/-- Nothing in the comparison is read. -/
theorem readsAs_printPointSpinComparison {scenario : ScenarioInput} (h : Labelled scenario)
    (mutexResults spinResults : ScenarioResults) :
    ∃ text, printPointSpinComparison scenario mutexResults.toList spinResults.toList = some text ∧
      ReadsAs text id := by
  have htitle : ReadsAs (println "point lock primitive comparison: {}"
      [.text scenario.name.toList]) id :=
    readsAs_println rfl (by decide) (by simpa [PlainValue] using fun c hc => (h.name c hc).1)
  have hbaseline (total lockOnly : ℚ≥0) : ReadsAs
      (print "  spin naive baseline: total_s={:.3f}, lock_only_s={:.3f}\n\n"
        [.double total, .double lockOnly]) id := by
    have hbehind : print "  spin naive baseline: total_s={:.3f}, lock_only_s={:.3f}\n\n"
        [.double total, .double lockOnly] =
          print "  spin naive baseline: total_s={:.3f}, lock_only_s={:.3f}"
            [.double total, .double lockOnly] ++ ['\n', '\n'] :=
      print_behind
        [{ front := "  spin naive baseline: total_s=".toList, precision := some 3, double := true },
          { front := ", lock_only_s=".toList, precision := some 3, double := true }]
        (by decide) rfl rfl rfl rfl rfl
    have hline : ReadsAs (println "  spin naive baseline: total_s={:.3f}, lock_only_s={:.3f}"
        [.double total, .double lockOnly]) id :=
      readsAs_println rfl rfl (by simp [PlainValue])
    rw [hbehind]
    exact readsAs_behind hline
  have htitles : ReadsAs (println comparisonTitle []) id :=
    readsAs_println (append_of_literal rfl rfl) rfl (by simp)
  rw [printPointSpinComparison, findResult_naive, Option.bind_eq_bind, Option.bind_some]
  refine ⟨_, rfl, htitle.append ((hbaseline _ _).append (htitles.append
    (Lines.Reads.append (Lines.Reads.flatMap_id fun name _ => ?_) readsAs_empty)))⟩
  split
  · exact readsAs_printPointSpinRow _ _ _ _
  · exact Lines.Reads.nil

/-! ## the head of the file -/

/-- The header of the benchmark says nothing to the reader. -/
theorem readsAs_header (env : Env) (settings : Settings) :
    ReadsAs ((header env settings).flatMap fun line => println line.1 line.2) id := by
  have hlines : ∀ line ∈ header env settings, ReadsAs (println line.1 line.2) id := by
    simp only [header, List.forall_mem_cons, List.not_mem_nil, false_implies, implies_true,
      and_true]
    and_intros <;> exact readsAs_println rfl rfl (by simp [PlainValue])
  exact Lines.Reads.flatMap_id hlines

/-- Nor do its legends. -/
theorem readsAs_legends : ReadsAs legend id := by
  have htotal : ReadsAs (println
      "  total_s: full scenario wall time, including online rebuild/training" []) id :=
    readsAs_legend rfl rfl
  have hmeasured : ReadsAs (println
      "  measured_s: final measured phases inside the same run" []) id :=
    readsAs_println rfl rfl (by simp)
  have hlockOnly : ReadsAs (println
      "  lock_only_s: same full scenario with empty critical-section body" []) id :=
    readsAs_println rfl rfl (by simp)
  have hspeedup : ReadsAs (print
      "  total_x and lock_x are speedups over naive in the same scenario\n\n" []) id := by
    have hbehind : print "  total_x and lock_x are speedups over naive in the same scenario\n\n" [] =
        print "  total_x and lock_x are speedups over naive in the same scenario" [] ++
          ['\n', '\n'] :=
      print_nil_behind rfl rfl rfl
    rw [hbehind]
    exact readsAs_behind (readsAs_println rfl rfl (by simp))
  exact htotal.append (hmeasured.append (hlockOnly.append hspeedup))

/-! ## the scenarios -/

/-- Names and descriptions that can be read back. -/
def labelled (name description : List Char) : Bool :=
  name.all (fun c => plain c && !isSpace c) && description.all plain

theorem labelled_of_literal {scenario : ScenarioInput} {name description : List Char}
    (hname : scenario.name = String.ofList name)
    (hdescription : scenario.description = String.ofList description)
    (h : labelled name description = true) : Labelled scenario := by
  rw [labelled, Bool.and_eq_true, List.all_eq_true, List.all_eq_true] at h
  rw [← toList_of_literal hname, ← toList_of_literal hdescription] at h
  exact ⟨fun c hc => by simpa using h.1 c hc, h.2⟩

/-- The name and the description of the shift scenario can be read back. -/
theorem labelled_makeShiftScenario (env : Env) : Labelled (makeShiftScenario env) :=
  labelled_of_literal rfl rfl rfl

theorem labelled_makeRandomScenario (env : Env) : Labelled (makeRandomScenario env) :=
  labelled_of_literal rfl rfl rfl

theorem labelled_makeClusteredWindowsScenario {env : Env} {clusterCount : ℕ} {seedBase : UInt64}
    {scenario : ScenarioInput}
    (h : makeClusteredWindowsScenario env clusterCount seedBase = some scenario)
    (hcount : clusterCount = 2 ∨ clusterCount = 4) : Labelled scenario := by
  simp only [makeClusteredWindowsScenario, Option.bind_eq_bind, Option.bind_eq_some_iff,
    Option.pure_def, Option.some.injEq] at h
  obtain ⟨_, -, _, -, _, -, _, -, rfl⟩ := h
  rcases hcount with rfl | rfl
  · have hname : "clustered_" ++ toString 2 ++ "_hot_windows" = "clustered_2_hot_windows" := rfl
    have hdescription : toString 2 ++ " " ++ toString kClusteredHotWindowSize ++
        "-element hot windows; final requests are point updates" =
          "2 16384-element hot windows; final requests are point updates" := rfl
    exact labelled_of_literal (hname.trans rfl) (hdescription.trans rfl) rfl
  · have hname : "clustered_" ++ toString 4 ++ "_hot_windows" = "clustered_4_hot_windows" := rfl
    have hdescription : toString 4 ++ " " ++ toString kClusteredHotWindowSize ++
        "-element hot windows; final requests are point updates" =
          "4 16384-element hot windows; final requests are point updates" := rfl
    exact labelled_of_literal (hname.trans rfl) (hdescription.trans rfl) rfl

theorem labelled_makeClusteredChurnScenario {env : Env} {clusterCount : ℕ} {seedBase : UInt64}
    {scenario : ScenarioInput}
    (h : makeClusteredChurnScenario env clusterCount seedBase = some scenario)
    (hcount : clusterCount = 2 ∨ clusterCount = 4) : Labelled scenario := by
  simp only [makeClusteredChurnScenario, Option.bind_eq_bind, Option.bind_eq_some_iff,
    Option.pure_def, Option.some.injEq] at h
  obtain ⟨_, -, _, -, _, -, rfl⟩ := h
  rcases hcount with rfl | rfl
  · have hname : "clustered_churn_" ++ toString 2 ++ "_hot_windows" =
        "clustered_churn_2_hot_windows" := rfl
    have hdescription : toString 2 ++ " compact hot windows; five phases replace half of " ++
        "the active windows before measuring point requests" =
          "2 compact hot windows; five phases replace half of the active windows before " ++
          "measuring point requests" := rfl
    exact labelled_of_literal (hname.trans rfl) (hdescription.trans (append_of_literal rfl rfl))
      rfl
  · have hname : "clustered_churn_" ++ toString 4 ++ "_hot_windows" =
        "clustered_churn_4_hot_windows" := rfl
    have hdescription : toString 4 ++ " compact hot windows; five phases replace half of " ++
        "the active windows before measuring point requests" =
          "4 compact hot windows; five phases replace half of the active windows before " ++
          "measuring point requests" := rfl
    exact labelled_of_literal (hname.trans rfl) (hdescription.trans (append_of_literal rfl rfl))
      rfl

theorem labelled_makeMovingWindowScenario {env : Env} {scenario : ScenarioInput}
    (h : makeMovingWindowScenario env = some scenario) : Labelled scenario := by
  simp only [makeMovingWindowScenario, Option.bind_eq_bind, Option.bind_eq_some_iff,
    Option.pure_def, Option.some.injEq] at h
  obtain ⟨_, -, _, -, rfl⟩ := h
  have hdescription : toString kMovingWindowSize ++
      "-element hot window moves left-to-right and back; each stop " ++
      "runs long enough for online repartitioning attempts" =
        "16384-element hot window moves left-to-right and back; each stop runs long enough for " ++
        "online repartitioning attempts" := rfl
  exact labelled_of_literal rfl (hdescription.trans (append_of_literal rfl rfl)) rfl

/-- The scenarios of `main` can be read back. -/
theorem labelled_scenarios {env : Env} {all : List ScenarioInput} (h : scenarios env = some all) :
    ∀ scenario ∈ all, Labelled scenario := by
  simp only [scenarios, Option.bind_eq_bind, Option.bind_eq_some_iff, Option.pure_def,
    Option.some.injEq] at h
  obtain ⟨_, hclustered2, _, hclustered4, _, hchurn2, _, hchurn4, _, hmoving, rfl⟩ := h
  simp only [List.forall_mem_cons, List.not_mem_nil, false_implies, implies_true, and_true]
  exact ⟨labelled_makeShiftScenario env,
    labelled_makeClusteredWindowsScenario hclustered2 (.inl rfl),
    labelled_makeClusteredWindowsScenario hclustered4 (.inr rfl),
    labelled_makeClusteredChurnScenario hchurn2 (.inl rfl),
    labelled_makeClusteredChurnScenario hchurn4 (.inr rfl),
    labelled_makeMovingWindowScenario hmoving, labelled_makeRandomScenario env,
    labelled_of_literal rfl rfl rfl, labelled_of_literal rfl rfl rfl⟩

/-! ## the last rows -/

/-- The last row of a lock that is short enough. -/
def lastShort (impl : Impl) (rows : List (Impl × Row)) : Option Row :=
  ((rows.filter fun p => p.1 = impl ∧ p.2.Short).getLast?).map Prod.snd

/-- The last short row of two tables is that of the second, if it has one. -/
theorem lastShort_append (impl : Impl) (rows rows' : List (Impl × Row)) :
    lastShort impl (rows ++ rows') = (lastShort impl rows').or (lastShort impl rows) := by
  rw [lastShort, lastShort, lastShort, List.filter_append, List.getLast?_append, Option.map_or]

/-- No two locks have the same name. -/
theorem name_injective : Function.Injective Impl.name := by
  intro impl impl' h
  cases impl <;> cases impl' <;> first | rfl | exact absurd h (by decide)

/-- A short row is stored for its lock, over what was stored before. -/
theorem rows_readRow (impl : Impl) (p : Impl × Row) (st : Parsed) :
    (readRow p st).rows impl.name =
      ((lastShort impl [p]).map Row.printed).or (st.rows impl.name) := by
  rw [readRow, lastShort]
  by_cases hshort : p.2.Short
  · rw [if_pos hshort]
    by_cases himpl : p.1 = impl
    · subst himpl
      simp [hshort, Parsed.record]
    · have hname : impl.name ≠ p.1.name := fun h => himpl (name_injective h).symm
      simp [himpl, Parsed.record, Function.update_of_ne hname]
  · simp [hshort]

/-- What the rows of a table leave. -/
theorem rows_foldl_readRow (impl : Impl) (rows : List (Impl × Row)) (st : Parsed) :
    (rows.foldl (fun st p => readRow p st) st).rows impl.name =
      ((lastShort impl rows).map Row.printed).or (st.rows impl.name) := by
  induction rows generalizing st with
  | nil => rfl
  | cons p rows ih =>
      have hcons : lastShort impl (p :: rows) = (lastShort impl rows).or (lastShort impl [p]) :=
        lastShort_append impl [p] rows
      rw [List.foldl_cons, ih, rows_readRow, hcons, Option.map_or, Option.or_assoc]

/-- Rows leave the scenario as it is. -/
theorem scenario_foldl_readRow (rows : List (Impl × Row)) (st : Parsed) :
    (rows.foldl (fun st p => readRow p st) st).scenario = st.scenario := by
  induction rows generalizing st with
  | nil => rfl
  | cons p rows ih =>
      have hrow : (readRow p st).scenario = st.scenario := by
        rw [readRow]
        split <;> rfl
      rw [List.foldl_cons, ih, hrow]

/-- What one table after another leaves. -/
theorem foldl_readTable {β : Type} (name : β → List Char) (rows : β → List (Impl × Row))
    (tables : List β) (st : Parsed) :
    (tables.foldl (fun st t => readTable (name t) (rows t) st) st).scenario =
        (tables.getLast?.map name).or st.scenario ∧
      ∀ impl : Impl, (tables.foldl (fun st t => readTable (name t) (rows t) st) st).rows impl.name =
        ((lastShort impl (tables.flatMap rows)).map Row.printed).or (st.rows impl.name) := by
  induction tables generalizing st with
  | nil => exact ⟨rfl, fun _ => rfl⟩
  | cons t tables ih =>
      obtain ⟨hscenario, hrows⟩ := ih (readTable (name t) (rows t) st)
      constructor
      · rw [List.foldl_cons, hscenario, readTable, scenario_foldl_readRow]
        cases htables : tables.getLast? with
        | none =>
            rw [List.getLast?_eq_none_iff.mp htables]
            rfl
        | some last =>
            rw [List.getLast?_cons, htables]
            rfl
      · intro impl
        rw [List.foldl_cons, hrows impl, readTable, rows_foldl_readRow, List.flatMap_cons,
          lastShort_append, Option.map_or, Option.or_assoc]

/-! ## the whole output -/

/-- Without a carriage return nothing is translated. -/
theorem universalNewlines_of_not_mem (h : '\r' ∉ text) : universalNewlines text = text := by
  induction text with
  | nil => rfl
  | cons c text ih =>
      have hc : c ≠ '\r' := fun heq => h (heq ▸ List.mem_cons_self)
      have hrest := ih fun hmem => h (List.mem_cons_of_mem _ hmem)
      rw [universalNewlines.eq_4 _ _ (fun t heq _ => hc heq) hc, hrest]

/-- A text that reads as something is read so from the file. -/
theorem parseText_of_readsAs {f : Parsed → Parsed} (h : ReadsAs text f) :
    parseText text = some (f Parsed.init) := by
  have hreturn : '\r' ∉ text := by
    obtain ⟨lines, rfl, hlines, -⟩ := h
    intro hmem
    obtain ⟨l, hl, hmem⟩ := List.mem_flatMap.mp hmem
    rcases List.mem_append.mp hmem with hmem | hmem
    · exact absurd (hlines l hl _ hmem) (by decide)
    · exact absurd hmem (by decide)
  rw [parseText, universalNewlines_of_not_mem hreturn]
  exact h.foldlM_split (by decide) Parsed.init

/-- The comparisons at the end say nothing to the reader. -/
theorem readsAs_printComparisons (env : Env) (selected : Option String)
    (results spinResults : ScenarioInput → ScenarioResults) :
    ∃ text, printComparisons env selected results spinResults = some text ∧ ReadsAs text id := by
  rw [printComparisons]
  split
  · exact ⟨[], rfl, Lines.Reads.nil⟩
  · obtain ⟨shift, hshift, hreads⟩ := readsAs_printPointSpinComparison
      (labelled_makeShiftScenario env) (results (makeShiftScenario env))
      (spinResults (makeShiftScenario env))
    obtain ⟨random, hrandom, hreads'⟩ := readsAs_printPointSpinComparison
      (labelled_makeRandomScenario env) (results (makeRandomScenario env))
      (spinResults (makeRandomScenario env))
    refine ⟨shift ++ random, ?_, hreads.append hreads'⟩
    rw [hshift, hrandom]
    rfl

/-- The output as it is read. -/
theorem readsAs_mainOutput {env : Env} {all : List ScenarioInput} (h : scenarios env = some all)
    (settings : Settings) (debugPartitions : Bool) (selected : Option String)
    (results spinResults : ScenarioInput → ScenarioResults) :
    ∃ text, mainOutput env settings debugPartitions selected results spinResults = some text ∧
      ReadsAs text fun st => (all.filter (shouldRunScenario selected)).foldl
        (fun st scenario => readTable scenario.name.toList (results scenario).rows st) st := by
  have hlabelled := labelled_scenarios h
  obtain ⟨comparisons, hcomparisons, hsilent⟩ :=
    readsAs_printComparisons env selected results spinResults
  have htables : ReadsAs ((all.filter (shouldRunScenario selected)).flatMap fun scenario =>
      printScenario debugPartitions scenario (results scenario)) fun st =>
        (all.filter (shouldRunScenario selected)).foldl
          (fun st scenario => readTable scenario.name.toList (results scenario).rows st) st :=
    Lines.Reads.flatMap fun scenario hscenario =>
      readsAs_printScenario (hlabelled scenario (List.mem_of_mem_filter hscenario)) debugPartitions
        (results scenario)
  refine ⟨_, ?_, (readsAs_header env settings).append
    (readsAs_legends.append (htables.append hsilent))⟩
  rw [mainOutput, h, hcomparisons]
  rfl

/-! ## the summary -/

/-- The line of the summary with the cells `cells` behind the first three. -/
def summaryRow (stem status scenario : List Char) (cells : List (List Char)) : List Char :=
  "| `".toList ++ stem ++ ".txt` | ".toList ++ status ++ " | `".toList ++ scenario ++
    "` | ".toList ++ List.intercalate " | ".toList cells ++ " |".toList

/-- The format `{:.3f}` of the script. -/
def threePlaces (x : ℚ≥0) : List Char := Decimal.fixed 3 (Decimal.units 3 x)

/-- What `main` prints for the file `stem.txt`; the numbers of a missing row are zero. -/
def summaryLine (stem status : List Char) (parsed : Parsed) : List Char :=
  let naive := parsed.rows Impl.naive.name
  let dynamic := parsed.rows Impl.dynamic.name
  let genetic := parsed.rows Impl.genetic.name
  let scenario := parsed.scenario.getD []
  summaryRow stem status (if scenario = [] then stem else scenario)
    [threePlaces (naive.elim 0 Fields.totalS), threePlaces (dynamic.elim 0 Fields.totalX),
      threePlaces (genetic.elim 0 Fields.totalX),
      Nat.toDigits 10 (dynamic.elim 0 Fields.rebuilds),
      Nat.toDigits 10 (genetic.elim 0 Fields.rebuilds),
      threePlaces (dynamic.elim 0 Fields.lockSumS), threePlaces (genetic.elim 0 Fields.lockSumS)]

/-- The text of a column in the last row that was read, or of a zero. -/
def cellText (column : Row → Columns.Cell Char) (zero : List Char) (row : Option Row) : List Char :=
  row.elim zero fun r => (column r).text

/-- The line with the texts of the tables. -/
def printedLine (stem status : List Char) (tables : List (List Char × List (Impl × Row))) :
    List Char :=
  let naive := lastShort .naive (tables.flatMap Prod.snd)
  let dynamic := lastShort .dynamic (tables.flatMap Prod.snd)
  let genetic := lastShort .genetic (tables.flatMap Prod.snd)
  let scenario := (tables.getLast?.map Prod.fst).getD []
  summaryRow stem status (if scenario = [] then stem else scenario)
    [cellText Row.first "0.000".toList naive,
      cellText (fun r => doubleCell 8 3 r.totalSpeedup) "0.000".toList dynamic,
      cellText (fun r => doubleCell 8 3 r.totalSpeedup) "0.000".toList genetic,
      cellText (fun r => sizeCell 10 r.reconfigurations) ['0'] dynamic,
      cellText (fun r => sizeCell 10 r.reconfigurations) ['0'] genetic,
      cellText (fun r => doubleCell 12 3 r.measuredLockTotalSeconds) "0.000".toList dynamic,
      cellText (fun r => doubleCell 12 3 r.measuredLockTotalSeconds) "0.000".toList genetic]

/-- What the script makes of some tables. -/
structure Summarized (tables : List (List Char × List (Impl × Row))) (parsed : Parsed) :
    Prop where
  scenario : parsed.scenario = tables.getLast?.map Prod.fst
  rows : ∀ impl : Impl,
    parsed.rows impl.name = (lastShort impl (tables.flatMap Prod.snd)).map Row.printed
  line : ∀ stem status, summaryLine stem status parsed = printedLine stem status tables

/-- Three places that were read are printed again. -/
theorem threePlaces_printed (column : Row → ℚ≥0) (field : Fields → ℚ≥0) (width : ℕ)
    (h : ∀ r : Row, field r.printed = Decimal.value 3 (Decimal.units 3 (column r)))
    (row : Option Row) :
    threePlaces ((row.map Row.printed).elim 0 field) =
      cellText (fun r => doubleCell width 3 (column r)) "0.000".toList row := by
  cases row with
  | none =>
      have hzero : (0 : ℚ≥0) = Decimal.value 3 0 := by
        simp [Decimal.value]
      change threePlaces 0 = "0.000".toList
      rw [hzero, threePlaces, Decimal.units_value]
      rfl
  | some r =>
      rw [Option.map_some, Option.elim_some, h, threePlaces, Decimal.units_value]
      rfl

/-- The name and the rows determine the line. -/
theorem summarized_of_rows {tables : List (List Char × List (Impl × Row))} {parsed : Parsed}
    (hscenario : parsed.scenario = tables.getLast?.map Prod.fst)
    (hrows : ∀ impl : Impl,
      parsed.rows impl.name = (lastShort impl (tables.flatMap Prod.snd)).map Row.printed) :
    Summarized tables parsed where
  scenario := hscenario
  rows := hrows
  line stem status := by
    have hsize (row : Option Row) :
        Nat.toDigits 10 ((row.map Row.printed).elim 0 Fields.rebuilds) =
          cellText (fun r => sizeCell 10 r.reconfigurations) ['0'] row := by
      cases row <;> rfl
    have htotal := threePlaces_printed Row.totalSeconds Fields.totalS 8 fun _ => rfl
    have hspeedup := threePlaces_printed Row.totalSpeedup Fields.totalX 8 fun _ => rfl
    have hlock := threePlaces_printed Row.measuredLockTotalSeconds Fields.lockSumS 12 fun _ => rfl
    rw [summaryLine, hscenario, hrows .naive, hrows .dynamic, hrows .genetic]
    simp only [htotal, hspeedup, hlock, hsize]
    rfl

/-- The tables that a run prints. -/
def tablesOf (selected : List ScenarioInput) (results : ScenarioInput → ScenarioResults) :
    List (List Char × List (Impl × Row)) :=
  selected.map fun scenario => (scenario.name.toList, (results scenario).rows)

/-- **From the measurements to the summary**: whatever the settings and the results are, the script
reads the output of a run without an exception.  It takes the name of the last scenario that was
run, and has for each lock the numbers of its last row that is short enough, and no others; the line
of the summary shows them as the benchmark printed them. -/
theorem summarized_mainOutput (env : Env) (settings : Settings) (debugPartitions : Bool)
    (selected : Option String) (results spinResults : ScenarioInput → ScenarioResults) :
    ∃ all text parsed, scenarios env = some all ∧
      mainOutput env settings debugPartitions selected results spinResults = some text ∧
      parseText text = some parsed ∧
      Summarized (tablesOf (all.filter (shouldRunScenario selected)) results) parsed := by
  obtain ⟨all, hall, -⟩ := placed_scenarios env
  obtain ⟨text, htext, hreads⟩ :=
    readsAs_mainOutput hall settings debugPartitions selected results spinResults
  obtain ⟨hscenario, hrows⟩ := foldl_readTable (fun scenario => scenario.name.toList)
    (fun scenario => (results scenario).rows) (all.filter (shouldRunScenario selected)) Parsed.init
  refine ⟨all, text, _, hall, htext, parseText_of_readsAs hreads,
    summarized_of_rows ?_ fun impl => ?_⟩
  · rw [hscenario, Parsed.init, Option.or_none, tablesOf, List.getLast?_map, Option.map_map]
    rfl
  · rw [hrows impl, Parsed.init, Option.or_none, tablesOf, List.flatMap_map]

end DynLocks.Report
