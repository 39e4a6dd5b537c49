import DynLocks.Lib.Decimal
import Mathlib.Data.Int.Log

/-!
# DynLocks.PrintCompat

`print_compat`: the part of `std::print` that the benchmarks use, for compilers
without it.

* `parseSpec_text` — `ParseSpec` reads the alignment, the width and the precision that
  a specification was written from;
* `appendFormat_cons` — what `AppendFormat` does with one hole of a format string;
* `appendFormat_render` — and so what a format string prints;
* `appendFormat_eq_std` — the same as `std::format`, if the values suit their holes and the
  texts between them have no braces;
* `mem_appendFormat` — where the characters of a printed text come from.
-/

namespace DynLocks
namespace PrintCompat

open Decimal

/-! ## the source -/

/-- The specification of a hole; without a precision `FormatSpec` has `-1`. -/
structure FormatSpec where
  width : ℕ := 0
  precision : Option ℕ := none
  leftAlign : Bool := false
  deriving DecidableEq

/-- The number at the front of a text. -/
def leadingNumber (text : List Char) : ℕ := Nat.ofDigitChars 10 (text.takeWhile Char.isDigit) 0

/-- The part of `ParseSpec` behind the alignment. -/
def parseWidth (leftAlign : Bool) (spec : List Char) : FormatSpec where
  width := leadingNumber spec
  precision :=
    match spec.dropWhile Char.isDigit with
    | '.' :: places => some (leadingNumber places)
    | _ => none
  leftAlign := leftAlign

/-- `ParseSpec`. -/
def parseSpec : List Char → FormatSpec
  | [] => {}
  | '<' :: spec => parseWidth true spec
  | '>' :: spec => parseWidth false spec
  | spec => parseWidth false spec

/-- What the benchmarks print: texts whose characters have one byte each, integers, and the doubles
that are finite and not negative. -/
inductive Value
  | text (s : List Char)
  | int (n : ℤ)
  | double (x : ℚ≥0)

/-- The digits of an integer. -/
def intText (n : ℤ) : List Char :=
  if n < 0 then '-' :: Nat.toDigits 10 n.natAbs else Nat.toDigits 10 n.natAbs

/-- A double behind `std::fixed`; without a place there is no point. -/
def fixedText (places : ℕ) (x : ℚ≥0) : List Char :=
  if places = 0 then Nat.toDigits 10 (units 0 x) else fixed places (units places x)

/-- No zeros at the end of the places, and no point in front of none. -/
def trimPlaces (text : List Char) : List Char :=
  ((text.reverse.dropWhile (· == '0')).dropWhile (· == '.')).reverse

/-- The exponent behind a mantissa has two digits at least. -/
def exponentText (e : ℤ) : List Char :=
  'e' :: (if e < 0 then '-' else '+') :: (Nat.toDigits 10 e.natAbs).leftpad 2 '0'

/-- A double whose `digits` digits `n` begin at the power `e` of ten, without the zeros at their
end. -/
def significantText (digits : ℕ) (x : ℚ≥0) (e : ℤ) (n : ℕ) : List Char :=
  if -4 ≤ e ∧ e < digits then
    trimPlaces (fixed (digits - 1 - e).toNat (units (digits - 1 - e).toNat x))
  else trimPlaces (fixed (digits - 1) n) ++ exponentText e

/-- A double in the general notation, with that many significant digits. -/
def generalText (digits : ℕ) (x : ℚ≥0) : List Char :=
  if x = 0 then ['0']
  else
    let e := Int.log 10 (x : ℚ)
    let n := roundHalfEven (x / (10 : ℚ) ^ (e - (digits - 1)))
    -- the digits may round up to the next power of ten
    if n = 10 ^ digits then significantText digits x (e + 1) (10 ^ (digits - 1))
    else significantText digits x e n

/-- What `operator<<` writes, before the padding; it has six digits by default. -/
def Value.write (precision : Option ℕ) : Value → List Char
  | .text s => s
  | .int n => intText n
  | .double x => precision.elim (generalText 6 x) fun places => fixedText places x

/-- `FormatValue`. -/
def formatValue (value : Value) (spec : FormatSpec) : List Char :=
  let written := value.write spec.precision
  if spec.leftAlign then written.rightpad spec.width ' ' else written.leftpad spec.width ' '

/-- The specification between the braces of a hole. -/
def specOf (inside : List Char) : List Char :=
  match inside with
  | ':' :: spec => spec
  | _ => []

/-- `AppendFormat`. -/
def appendFormat : List Char → List Value → List Char
  | fmt, [] => fmt
  | fmt, value :: rest =>
      if '{' ∉ fmt then fmt
      else
        let opened := (fmt.dropWhile (· != '{')).tail
        if '}' ∉ opened then fmt
        else
          fmt.takeWhile (· != '{') ++
            (formatValue value (parseSpec (specOf (opened.takeWhile (· != '}')))) ++
              appendFormat (opened.dropWhile (· != '}')).tail rest)

/-- `Print`. -/
def print (fmt : String) (args : List Value) : List Char := appendFormat fmt.toList args

/-- `Println`. -/
def println (fmt : String) (args : List Value) : List Char := print fmt args ++ ['\n']

/-- A literal has the characters it is written with. -/
theorem toList_of_literal {literal : String} {chars : List Char}
    (h : literal = String.ofList chars) : literal.toList = chars := by
  rw [h, String.toList_ofList]

theorem append_of_literal {literal literal' : String} {chars chars' : List Char}
    (h : literal = String.ofList chars) (h' : literal' = String.ofList chars') :
    literal ++ literal' = String.ofList (chars ++ chars') := by
  rw [h, h', String.ofList_append]

theorem intText_natCast (n : ℕ) : intText n = Nat.toDigits 10 n := by
  rw [intText, if_neg (by omega), Int.natAbs_natCast]

/-! ## what a specification says -/

/-- A hole of a format string and the text in front of it: the alignment, of which `true` is `<`,
the width, the precision, and whether the `f` of doubles stands there. -/
structure Hole where
  front : List Char := []
  align : Option Bool := none
  width : Option ℕ := none
  precision : Option ℕ := none
  double : Bool := false

/-- A number that may be missing. -/
def numberText (n : Option ℕ) : List Char := n.elim [] (Nat.toDigits 10)

/-- The type at the end. -/
def Hole.typeText (h : Hole) : List Char := if h.double then ['f'] else []

/-- The precision and the type. -/
def Hole.precisionText (h : Hole) : List Char :=
  h.precision.elim h.typeText fun places => '.' :: (Nat.toDigits 10 places ++ h.typeText)

/-- The specification as it is written. -/
def Hole.specText (h : Hole) : List Char :=
  h.align.elim [] (fun left => [if left then '<' else '>']) ++
    (numberText h.width ++ h.precisionText)

/-- What stands between the braces. -/
def Hole.inside (h : Hole) : List Char :=
  match h.specText with
  | [] => []
  | spec => ':' :: spec

/-- What the specification says. -/
def Hole.spec (h : Hole) : FormatSpec where
  width := h.width.getD 0
  precision := h.precision
  leftAlign := h.align.getD false

variable {n : Option ℕ} {places width : ℕ} {c : Char} {fmt inside text : List Char}

/-- A number ends where the digits do. -/
theorem takeWhile_number (htext : ∀ c ∈ text.head?, c.isDigit = false) :
    (numberText n ++ text).takeWhile Char.isDigit = numberText n ∧
      (numberText n ++ text).dropWhile Char.isDigit = text := by
  have hdigits : ∀ c ∈ numberText n, c.isDigit = true := by
    intro c hc
    cases n with
    | none => contradiction
    | some n => exact Nat.isDigit_of_mem_toDigits (by decide) le_rfl hc
  rw [List.takeWhile_append_of_pos hdigits, List.dropWhile_append_of_pos hdigits]
  cases text with
  | nil => exact ⟨List.append_nil _, rfl⟩
  | cons c text =>
      have hc : c.isDigit = false := htext c rfl
      simp [hc]

theorem leadingNumber_number (htext : ∀ c ∈ text.head?, c.isDigit = false) :
    leadingNumber (numberText n ++ text) = n.getD 0 := by
  rw [leadingNumber, (takeWhile_number htext).1]
  cases n with
  | none => rfl
  | some n => exact Nat.ofDigitChars_ten_toDigits

/-- Neither the point nor the type is a digit. -/
theorem Hole.head?_precisionText (h : Hole) : ∀ c ∈ h.precisionText.head?, c.isDigit = false := by
  intro c hc
  obtain ⟨front, align, width, precision, double⟩ := h
  cases precision <;> cases double <;> cases hc <;> rfl

theorem Hole.head?_typeText (h : Hole) : ∀ c ∈ h.typeText.head?, c.isDigit = false := by
  intro c hc
  obtain ⟨front, align, width, precision, double⟩ := h
  cases double <;> cases hc
  rfl

theorem Hole.parseWidth_text (h : Hole) (leftAlign : Bool) :
    parseWidth leftAlign (numberText h.width ++ h.precisionText) =
      { h.spec with leftAlign := leftAlign } := by
  have hprecision : (match h.precisionText with
      | '.' :: places => some (leadingNumber places)
      | _ => none) = h.precision := by
    obtain ⟨front, align, width, precision, double⟩ := h
    cases precision with
    | none => cases double <;> rfl
    | some places =>
        exact congrArg some (leadingNumber_number (n := some places) (Hole.head?_typeText _))
  rw [parseWidth, (takeWhile_number h.head?_precisionText).2,
    leadingNumber_number h.head?_precisionText, hprecision]
  rfl

theorem isDigit_of_mem_numberText (h : c ∈ numberText n) : c.isDigit = true := by
  cases n with
  | none => contradiction
  | some n => exact Nat.isDigit_of_mem_toDigits (by decide) le_rfl h

/-- The characters behind the alignment. -/
theorem Hole.mem_width {h : Hole} (hc : c ∈ numberText h.width ++ h.precisionText) :
    c.isDigit = true ∨ c = '.' ∨ c = 'f' := by
  have htype (hc : c ∈ h.typeText) : c = 'f' := by
    rw [typeText] at hc
    split at hc
    · exact List.mem_singleton.mp hc
    · contradiction
  rcases List.mem_append.mp hc with hc | hc
  · exact .inl (isDigit_of_mem_numberText hc)
  · rw [precisionText] at hc
    cases hprecision : h.precision with
    | none =>
        rw [hprecision] at hc
        exact .inr (.inr (htype hc))
    | some places =>
        rw [hprecision, Option.elim_some, List.mem_cons, List.mem_append] at hc
        rcases hc with hc | hc | hc
        · exact .inr (.inl hc)
        · exact .inl (isDigit_of_mem_numberText (n := some places) hc)
        · exact .inr (.inr (htype hc))

/-- **Reading a specification** gives what it was written from. -/
theorem parseSpec_text (h : Hole) : parseSpec h.specText = h.spec := by
  cases halign : h.align with
  | none =>
      have hspec : h.spec = { h.spec with leftAlign := false } := by
        rw [Hole.spec, halign]
        rfl
      rw [Hole.specText, halign, Option.elim_none, List.nil_append, hspec, ← h.parseWidth_text]
      rcases htext : numberText h.width ++ h.precisionText with - | ⟨c, text⟩
      · rfl
      · have hc : c.isDigit = true ∨ c = '.' ∨ c = 'f' :=
          Hole.mem_width (htext ▸ List.mem_cons_self)
        have hleft : c ≠ '<' := by
          rintro rfl
          exact absurd hc (by decide)
        have hright : c ≠ '>' := by
          rintro rfl
          exact absurd hc (by decide)
        exact parseSpec.eq_4 _ (by simp) (by simpa using hleft) (by simpa using hright)
  | some left =>
      have hspec : h.spec = { h.spec with leftAlign := left } := by
        rw [Hole.spec, halign]
        rfl
      rw [Hole.specText, halign, Option.elim_some, hspec, ← h.parseWidth_text]
      cases left <;> rfl

/-! ## format strings -/

/-- The text up to the first `c`, and from there on. -/
theorem takeWhile_bne {u v : List Char} (h : c ∉ u) :
    (u ++ c :: v).takeWhile (· != c) = u ∧ (u ++ c :: v).dropWhile (· != c) = c :: v := by
  have hu : ∀ x ∈ u, (x != c) = true := fun x hx => bne_iff_ne.mpr fun heq => h (heq ▸ hx)
  rw [List.takeWhile_append_of_pos hu, List.dropWhile_append_of_pos hu]
  simp

/-- **One hole**: the text in front of it, the value in its place, and the rest of the format. -/
theorem appendFormat_cons {front : List Char} (hfront : '{' ∉ front) (hinside : '}' ∉ inside)
    (value : Value) (rest : List Value) :
    appendFormat (front ++ '{' :: (inside ++ '}' :: fmt)) (value :: rest) =
      front ++ (formatValue value (parseSpec (specOf inside)) ++ appendFormat fmt rest) := by
  have hopen := takeWhile_bne (v := inside ++ '}' :: fmt) hfront
  have hclose := takeWhile_bne (v := fmt) hinside
  rw [appendFormat, if_neg (by simp), hopen.1, hopen.2, List.tail_cons]
  dsimp only
  rw [if_neg (by simp), hclose.1, hclose.2, List.tail_cons]

/-- The hole as it stands in a format string. -/
def Hole.source (h : Hole) : List Char := h.front ++ '{' :: (h.inside ++ ['}'])

/-- What a hole prints. -/
def Hole.fill (h : Hole) (value : Value) : List Char := h.front ++ formatValue value h.spec

theorem Hole.specOf_inside (h : Hole) : specOf h.inside = h.specText := by
  rw [inside]
  split
  · next heq =>
      rw [heq]
      rfl
  · rfl

/-- No specification ends its hole. -/
theorem Hole.not_mem_inside (h : Hole) : '}' ∉ h.inside := by
  intro hmem
  have hspec : '}' ∈ h.specText := by
    rw [inside] at hmem
    split at hmem
    · contradiction
    · exact (List.mem_cons.mp hmem).resolve_left (by decide)
  rcases List.mem_append.mp hspec with halign | hwidth
  · have hchar : '}' = '<' ∨ '}' = '>' := by
      cases hleft : h.align with
      | none =>
          rw [hleft] at halign
          contradiction
      | some left =>
          rw [hleft] at halign
          cases left
          · exact .inr (List.mem_singleton.mp halign)
          · exact .inl (List.mem_singleton.mp halign)
    exact absurd hchar (by decide)
  · exact absurd (Hole.mem_width hwidth) (by decide)

/-- A hole is filled, and the rest of the format follows. -/
theorem appendFormat_hole {h : Hole} (hfront : '{' ∉ h.front) (value : Value) (rest : List Value) :
    appendFormat (h.source ++ fmt) (value :: rest) = h.fill value ++ appendFormat fmt rest := by
  have hsource : h.source ++ fmt = h.front ++ '{' :: (h.inside ++ '}' :: fmt) := by
    simp [Hole.source]
  rw [hsource, appendFormat_cons hfront h.not_mem_inside, h.specOf_inside, parseSpec_text, Hole.fill,
    List.append_assoc]

/-- **What a format string prints**: each value in its hole, aligned, padded and rounded as the hole
says, between the texts in front of the holes, and what stands behind the last hole as it is. -/
theorem appendFormat_render {holes : List Hole} {values : List Value}
    (hfront : ∀ h ∈ holes, '{' ∉ h.front) (hlength : holes.length = values.length)
    (last : List Char) :
    appendFormat (holes.flatMap Hole.source ++ last) values =
      (List.zipWith Hole.fill holes values).flatten ++ last := by
  induction holes generalizing values with
  | nil =>
      rw [List.eq_nil_of_length_eq_zero hlength.symm]
      rfl
  | cons h holes ih =>
      obtain ⟨value, rest, rfl⟩ := List.exists_cons_of_length_eq_add_one hlength.symm
      have hrest := ih (fun h' hh' => hfront h' (List.mem_cons_of_mem _ hh'))
        (Nat.succ.inj hlength)
      rw [List.flatMap_cons, List.append_assoc, appendFormat_hole (hfront h List.mem_cons_self),
        hrest, List.zipWith_cons_cons, List.flatten_cons, List.append_assoc]

/-! ## `std::format` -/

section Std

/- The shortest text that is read back as the same double. `std::format` writes it in a hole that
asks for neither a precision nor an `f`; such a hole does not suit a double, so that nothing is
assumed of it. -/
variable (shortest : ℚ≥0 → List Char)

/-- A double as `std::format` writes it: with an `f` it has the places of the precision, six by
default, and with a precision alone so many significant digits, but one at least. -/
def stdDouble (h : Hole) (x : ℚ≥0) : List Char :=
  if h.double then fixedText (h.precision.getD 6) x
  else h.precision.elim (shortest x) fun digits => generalText (max digits 1) x

/-- What `std::format` writes in a hole before the padding, if it accepts the hole: it cuts texts
off at the precision, refuses an `f` and a width of zero for them, and refuses an `f` and a
precision for integers. -/
def stdWrite (h : Hole) : Value → Option (List Char)
  | .text s =>
      if h.double ∨ h.width = some 0 then none
      else some (h.precision.elim s fun places => s.take places)
  | .int n => if h.double ∨ h.precision.isSome then none else some (intText n)
  | .double x => some (stdDouble shortest h x)

/-- Texts stand on the left by default, and numbers on the right. -/
def Value.leftAlign : Value → Bool
  | .text _ => true
  | _ => false

variable {shortest}

end Std

/-- Without the `f` a precision counts places in the one and significant digits in the other. -/
theorem formatValue_ne_std :
    formatValue (.double 1234.5) (Hole.spec { precision := some 3 }) = "1234.500".toList ∧
      ∀ shortest, stdWrite shortest { precision := some 3 } (.double 1234.5) =
        some "1.23e+03".toList := by
  have hgeneral : generalText 3 1234.5 = "1.23e+03".toList := by
    decide +kernel
  exact ⟨by decide +kernel, fun _ => congrArg some hgeneral⟩

/-! ## the characters -/

/-- A formatted value has the characters that `operator<<` writes, and blanks. -/
theorem mem_formatValue {value : Value} {spec : FormatSpec} (h : c ∈ formatValue value spec) :
    c = ' ' ∨ c ∈ value.write spec.precision := by
  unfold formatValue at h
  dsimp only at h
  split at h
  · rw [List.rightpad, List.mem_append, List.mem_replicate] at h
    exact h.symm.imp_left And.right
  · rw [List.leftpad, List.mem_append, List.mem_replicate] at h
    exact h.imp_left And.right

/-- Where the characters of a printed text come from. -/
theorem mem_appendFormat {args : List Value} (h : c ∈ appendFormat fmt args) :
    c ∈ fmt ∨ ∃ value ∈ args, ∃ spec, c ∈ formatValue value spec := by
  induction args generalizing fmt with
  | nil => exact .inl h
  | cons value rest ih =>
      rw [appendFormat] at h
      split at h
      · exact .inl h
      · dsimp only at h
        split at h
        · exact .inl h
        · rcases List.mem_append.mp h with h | h
          · exact .inl (List.takeWhile_subset _ h)
          · rcases List.mem_append.mp h with h | h
            · exact .inr ⟨value, List.mem_cons_self, _, h⟩
            · rcases ih h with h | ⟨value', hvalue', hspec⟩
              · refine .inl ?_
                have hopened := List.mem_of_mem_tail h
                have hclosed := List.mem_of_mem_tail ((List.dropWhile_suffix _).mem hopened)
                exact (List.dropWhile_suffix _).mem hclosed
              · exact .inr ⟨value', List.mem_cons_of_mem _ hvalue', hspec⟩

/-- A format that begins with text prints it first. -/
theorem head?_appendFormat {args : List Value} (hc : c ≠ '{') :
    (appendFormat (c :: fmt) args).head? = some c := by
  cases args with
  | nil => rfl
  | cons value rest =>
      rw [appendFormat]
      split
      · rfl
      · dsimp only
        split
        · rfl
        · simp [hc]

end PrintCompat
end DynLocks
