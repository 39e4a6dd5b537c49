import Mathlib.Algebra.Order.Floor.Semiring
import Mathlib.Data.NNRat.Defs
import Mathlib.Data.Rat.Floor
import Mathlib.Tactic.Linarith
import Mathlib.Tactic.Positivity

/-!
# DynLocks.Lib.Decimal

Decimal numbers with a fixed number of places, as they are printed and read back.

* `roundHalfEven_lt_iff` — when the rounded number stays below an even bound;
* `length_fixed_lt_iff` — how many characters a number takes;
* `read?_fixed` — the text denotes the number it was printed from.
-/

namespace Decimal

/-! ## rounding -/

/-- The nearest integer, the even one of two that are as near. -/
def roundHalfEven (y : ℚ) : ℕ :=
  if 2 * y < 2 * ⌊y⌋₊ + 1 then ⌊y⌋₊
  else if 2 * ⌊y⌋₊ + 1 < 2 * y then ⌊y⌋₊ + 1
  else if Even ⌊y⌋₊ then ⌊y⌋₊
  else ⌊y⌋₊ + 1

/-- A number in units of the last of `k` decimal places, rounded. -/
def units (k : ℕ) (x : ℚ≥0) : ℕ := roundHalfEven (x * 10 ^ k)

/-- The number that `n` of these units are. -/
def value (k n : ℕ) : ℚ≥0 := n / 10 ^ k

variable {y : ℚ} {n k w : ℕ}

/-- The rounded number is at most half a unit too large. -/
theorem roundHalfEven_le (hy : 0 ≤ y) : (roundHalfEven y : ℚ) ≤ y + 1 / 2 := by
  have hle : (⌊y⌋₊ : ℚ) ≤ y := Nat.floor_le hy
  unfold roundHalfEven
  split_ifs with hdown hup heven
  · linarith
  · push_cast
    linarith
  · linarith
  · push_cast
    linarith

/-- It is less than half a unit too small, or exactly half a unit and then even. -/
theorem lt_roundHalfEven (y : ℚ) :
    y < roundHalfEven y + 1 / 2 ∨ y = roundHalfEven y + 1 / 2 ∧ Even (roundHalfEven y) := by
  have hlt : y < ⌊y⌋₊ + 1 := Nat.lt_floor_add_one y
  unfold roundHalfEven
  split_ifs with hdown hup heven
  · left
    linarith
  · left
    push_cast
    linarith
  · right
    exact ⟨by linarith, heven⟩
  · left
    push_cast
    linarith

/-- **Rounding below an even bound**: the first number that reaches the bound lies half a unit
below it. -/
theorem roundHalfEven_lt_iff (hy : 0 ≤ y) (hn : Even n) :
    roundHalfEven y < n ↔ y + 1 / 2 < n := by
  constructor
  · intro h
    rcases lt_roundHalfEven y with hlt | ⟨heq, heven⟩
    · have hbound : (roundHalfEven y : ℚ) + 1 ≤ n := by
        exact_mod_cast h
      linarith
    · -- both are even, so the bound is two further
      have htwo : roundHalfEven y + 2 ≤ n := by
        obtain ⟨a, ha⟩ := heven
        obtain ⟨b, hb⟩ := hn
        omega
      have hbound : (roundHalfEven y : ℚ) + 2 ≤ n := by
        exact_mod_cast htwo
      linarith
  · intro h
    have hbound : (roundHalfEven y : ℚ) < n := (roundHalfEven_le hy).trans_lt h
    exact_mod_cast hbound

theorem roundHalfEven_natCast (n : ℕ) : roundHalfEven (n : ℚ) = n := by
  rw [roundHalfEven, Nat.floor_natCast, if_pos (lt_add_one _)]

/-- A number of units is no longer rounded. -/
theorem units_value (k n : ℕ) : units k (value k n) = n := by
  have hexact : ((value k n : ℚ≥0) : ℚ) * 10 ^ k = n := by
    rw [value]
    push_cast
    exact div_mul_cancel₀ _ (by positivity)
  rw [units, hexact, roundHalfEven_natCast]

/-! ## printing -/

/-- The digits of a number, with zeros in front so that one stands before the decimal point. -/
def paddedDigits (k n : ℕ) : List Char := (Nat.toDigits 10 n).leftpad (k + 1) '0'

/-- A number of units as text with `k` decimal places. -/
def fixed (k n : ℕ) : List Char :=
  (paddedDigits k n).take ((paddedDigits k n).length - k) ++
    '.' :: (paddedDigits k n).drop ((paddedDigits k n).length - k)

theorem length_paddedDigits (k n : ℕ) :
    (paddedDigits k n).length = max (k + 1) (Nat.toDigits 10 n).length :=
  List.length_leftpad

theorem isDigit_of_mem_paddedDigits {c : Char} (h : c ∈ paddedDigits k n) : c.isDigit = true := by
  rw [paddedDigits, List.leftpad, List.mem_append] at h
  rcases h with h | h
  · rw [(List.mem_replicate.1 h).2]
    rfl
  · exact Nat.isDigit_of_mem_toDigits (by decide) le_rfl h

theorem ofDigitChars_paddedDigits (k n : ℕ) : Nat.ofDigitChars 10 (paddedDigits k n) 0 = n := by
  rw [paddedDigits, List.leftpad, Nat.ofDigitChars_append, Nat.ofDigitChars_replicate_zero,
    Nat.mul_zero, Nat.ofDigitChars_ten_toDigits]

theorem length_fixed (k n : ℕ) :
    (fixed k n).length = max (k + 1) (Nat.toDigits 10 n).length + 1 := by
  rw [fixed, List.length_append, List.length_cons, ← Nat.add_assoc, ← List.length_append,
    List.take_append_drop, length_paddedDigits]

/-- **The length of a printed number**: two characters of the width go to the point and to what
keeps the number apart. -/
theorem length_fixed_lt_iff (hw : k + 2 < w) : (fixed k n).length < w ↔ n < 10 ^ (w - 2) := by
  have hlen := Nat.length_toDigits_le_iff (b := 10) (n := n) (k := w - 2) (by decide) (by omega)
  rw [length_fixed, ← hlen]
  omega

/-- A printed number consists of digits and points. -/
theorem mem_fixed {c : Char} (h : c ∈ fixed k n) : c.isDigit = true ∨ c = '.' := by
  rw [fixed, List.mem_append, List.mem_cons] at h
  rcases h with h | h | h
  · exact .inl (isDigit_of_mem_paddedDigits (List.mem_of_mem_take h))
  · exact .inr h
  · exact .inl (isDigit_of_mem_paddedDigits (List.mem_of_mem_drop h))

/-! ## reading -/

/-- The number that a text of digits with at most one point denotes. -/
def read? (s : List Char) : Option ℚ≥0 :=
  let whole := s.takeWhile (· != '.')
  let frac := (s.dropWhile (· != '.')).tail
  if whole ++ frac ≠ [] ∧ (whole ++ frac).all Char.isDigit then
    some (value frac.length (Nat.ofDigitChars 10 (whole ++ frac) 0))
  else none

theorem takeWhile_fixed (u v : List Char) (hu : ∀ c ∈ u, c.isDigit = true) :
    (u ++ '.' :: v).takeWhile (· != '.') = u ∧ (u ++ '.' :: v).dropWhile (· != '.') = '.' :: v := by
  have hpoint : ∀ c ∈ u, (c != '.') = true := by
    intro c hc
    rw [bne_iff_ne]
    rintro rfl
    exact absurd (hu _ hc) (by decide)
  rw [List.takeWhile_append_of_pos hpoint, List.dropWhile_append_of_pos hpoint]
  simp

/-- **Reading what was printed**: the text of a number of units denotes that many units. -/
theorem read?_fixed (k n : ℕ) : read? (fixed k n) = some (value k n) := by
  have hsplit := takeWhile_fixed ((paddedDigits k n).take ((paddedDigits k n).length - k))
    ((paddedDigits k n).drop ((paddedDigits k n).length - k))
    fun c hc => isDigit_of_mem_paddedDigits (List.mem_of_mem_take hc)
  have hlen : k + 1 ≤ (paddedDigits k n).length := by
    rw [length_paddedDigits]
    exact le_max_left _ _
  have hne : paddedDigits k n ≠ [] := by
    rw [← List.length_pos_iff]
    omega
  rw [read?, fixed, hsplit.1, hsplit.2, List.tail_cons]
  simp only [List.take_append_drop]
  have hdigits : (paddedDigits k n).all Char.isDigit = true :=
    List.all_eq_true.mpr fun c => isDigit_of_mem_paddedDigits
  rw [if_pos ⟨hne, hdigits⟩, ofDigitChars_paddedDigits,
    List.length_drop, Nat.sub_sub_self (by omega)]

end Decimal
