import Mathlib.Logic.Function.Basic
import Mathlib.Data.List.Nodup
import Mathlib.Data.Nat.Notation

/-!
# DynLocks.Lib.Ledger

Items that enter a system once and then move from place to place, always all
that a place holds at a time.

* `Ledger.enter`, `Ledger.move` — the two ways a ledger grows and changes;
* `Ledger.Conserved` — every item that has entered is in exactly one place,
  there once, and no other item is anywhere;
* `Ledger.Only` — what is in a place satisfies the condition of the place.
-/

/-- What has entered and where it is now. -/
structure Ledger (Place Item : Type) where
  entered : List Item
  contents : Place → List Item

namespace Ledger

variable {Place Item : Type}

/-- Nothing has entered. -/
def empty : Ledger Place Item := ⟨[], fun _ => []⟩

section Operations

variable [DecidableEq Place] (L : Ledger Place Item)

/-- A new item in the place `p`. -/
def enter (p : Place) (x : Item) : Ledger Place Item where
  entered := L.entered ++ [x]
  contents := Function.update L.contents p (L.contents p ++ [x])

/-- Everything in `p` goes to `q`. -/
def move (p q : Place) : Ledger Place Item where
  entered := L.entered
  contents := Function.update (Function.update L.contents q (L.contents q ++ L.contents p)) p []

@[simp]
theorem enter_entered (p : Place) (x : Item) : (L.enter p x).entered = L.entered ++ [x] := rfl

@[simp]
theorem move_entered (p q : Place) : (L.move p q).entered = L.entered := rfl

@[simp]
theorem enter_contents_self (p : Place) (x : Item) :
    (L.enter p x).contents p = L.contents p ++ [x] :=
  Function.update_self ..

theorem enter_contents_of_ne {p r : Place} (h : r ≠ p) (x : Item) :
    (L.enter p x).contents r = L.contents r :=
  Function.update_of_ne h ..

@[simp]
theorem move_contents_source (p q : Place) : (L.move p q).contents p = [] :=
  Function.update_self ..

theorem move_contents_target {p q : Place} (h : q ≠ p) :
    (L.move p q).contents q = L.contents q ++ L.contents p := by
  simp [move, h]

theorem move_contents_of_ne {p q r : Place} (hp : r ≠ p) (hq : r ≠ q) :
    (L.move p q).contents r = L.contents r := by
  simp [move, hp, hq]

/-- Where an item can be after a new one has entered. -/
theorem mem_enter {p r : Place} {x y : Item} :
    y ∈ (L.enter p x).contents r ↔ y ∈ L.contents r ∨ (r = p ∧ y = x) := by
  by_cases h : r = p
  · subst h
    simp
  · simp [L.enter_contents_of_ne h, h]

/-- Where an item can be after a move. -/
theorem mem_move {p q r : Place} (hne : q ≠ p) {y : Item} :
    y ∈ (L.move p q).contents r ↔ r ≠ p ∧ (y ∈ L.contents r ∨ (r = q ∧ y ∈ L.contents p)) := by
  by_cases hp : r = p
  · subst hp
    simp
  · by_cases hq : r = q
    · subst hq
      simp [L.move_contents_target hp, hp]
    · simp [L.move_contents_of_ne hp hq, hp, hq]

end Operations

/-! ## conservation -/

/-- Every item that has entered is in exactly one place, there once, and no other item is
anywhere. -/
structure Conserved (L : Ledger Place Item) : Prop where
  somewhere : ∀ x ∈ L.entered, ∃ p, x ∈ L.contents p
  unique : ∀ x p q, x ∈ L.contents p → x ∈ L.contents q → p = q
  nodup : ∀ p, (L.contents p).Nodup
  entered : ∀ p, ∀ x ∈ L.contents p, x ∈ L.entered

/-- What is in a place satisfies the condition of the place. -/
def Only (L : Ledger Place Item) (R : Place → Item → Prop) : Prop :=
  ∀ p, ∀ x ∈ L.contents p, R p x

theorem conserved_empty : (empty : Ledger Place Item).Conserved where
  somewhere := by simp [empty]
  unique := by simp [empty]
  nodup := by simp [empty]
  entered := by simp [empty]

theorem only_empty (R : Place → Item → Prop) : (empty : Ledger Place Item).Only R := by
  simp [Only, empty]

section Rules

variable [DecidableEq Place] {L : Ledger Place Item} {R R' : Place → Item → Prop}

/-- Nothing is lost or doubled when a new item enters. -/
theorem Conserved.enter (h : L.Conserved) (p : Place) {x : Item} (hx : x ∉ L.entered) :
    (L.enter p x).Conserved where
  somewhere y hy := by
    rw [enter_entered, List.mem_append, List.mem_singleton] at hy
    obtain hy | rfl := hy
    · obtain ⟨r, hr⟩ := h.somewhere y hy
      exact ⟨r, (L.mem_enter).mpr (.inl hr)⟩
    · exact ⟨p, (L.mem_enter).mpr (.inr ⟨rfl, rfl⟩)⟩
  unique y r r' hr hr' := by
    rw [mem_enter] at hr hr'
    obtain hr | ⟨rfl, rfl⟩ := hr
    · obtain hr' | ⟨rfl, rfl⟩ := hr'
      · exact h.unique y r r' hr hr'
      · exact absurd (h.entered r _ hr) hx
    · obtain hr' | ⟨rfl, -⟩ := hr'
      · exact absurd (h.entered r' _ hr') hx
      · rfl
  nodup r := by
    by_cases hr : r = p
    · subst hr
      rw [enter_contents_self]
      have hnew : x ∉ L.contents r := fun hmem => hx (h.entered r x hmem)
      rw [← List.concat_eq_append]
      exact (h.nodup r).concat hnew
    · rw [L.enter_contents_of_ne hr]
      exact h.nodup r
  entered r y hy := by
    rw [enter_entered, List.mem_append, List.mem_singleton]
    rw [mem_enter] at hy
    obtain hy | ⟨-, rfl⟩ := hy
    · exact .inl (h.entered r y hy)
    · exact .inr rfl

/-- Nothing is lost or doubled by a move. -/
theorem Conserved.move (h : L.Conserved) {p q : Place} (hne : q ≠ p) : (L.move p q).Conserved where
  somewhere x hx := by
    obtain ⟨r, hr⟩ := h.somewhere x hx
    by_cases hrp : r = p
    · subst hrp
      exact ⟨q, (L.mem_move hne).mpr ⟨hne, .inr ⟨rfl, hr⟩⟩⟩
    · exact ⟨r, (L.mem_move hne).mpr ⟨hrp, .inl hr⟩⟩
  unique x r r' hr hr' := by
    obtain ⟨hrp, hold | ⟨rfl, hold⟩⟩ := (L.mem_move hne).mp hr
    · obtain ⟨-, hold' | ⟨rfl, hold'⟩⟩ := (L.mem_move hne).mp hr'
      · exact h.unique x r r' hold hold'
      · exact absurd (h.unique x r p hold hold') hrp
    · obtain ⟨hrp', hold' | ⟨rfl, -⟩⟩ := (L.mem_move hne).mp hr'
      · exact absurd (h.unique x r' p hold' hold) hrp'
      · rfl
  nodup r := by
    by_cases hrp : r = p
    · subst hrp
      rw [move_contents_source]
      exact List.nodup_nil
    · by_cases hrq : r = q
      · subst hrq
        rw [L.move_contents_target hne]
        refine (h.nodup r).append (h.nodup p) ?_
        intro x hx hx'
        exact hne (h.unique x r p hx hx')
      · rw [L.move_contents_of_ne hrp hrq]
        exact h.nodup r
  entered r x hx := by
    obtain ⟨-, hx | ⟨-, hx⟩⟩ := (L.mem_move hne).mp hx
    · exact h.entered r x hx
    · exact h.entered p x hx

omit [DecidableEq Place] in
/-- A weaker condition for what is there. -/
theorem Only.mono (h : L.Only R) (himp : ∀ p, ∀ x ∈ L.contents p, R p x → R' p x) : L.Only R' :=
  fun p x hx => himp p x hx (h p x hx)

/-- A new item has to satisfy the condition of its place. -/
theorem Only.enter (h : L.Only R) {p : Place} {x : Item} (hx : R p x) : (L.enter p x).Only R := by
  intro r y hy
  obtain hy | ⟨rfl, rfl⟩ := (L.mem_enter).mp hy
  · exact h r y hy
  · exact hx

/-- What is moved has to satisfy the condition of the place it goes to. -/
theorem Only.move (h : L.Only R) {p q : Place} (hne : q ≠ p)
    (hmove : ∀ x ∈ L.contents p, R p x → R q x) : (L.move p q).Only R := by
  intro r x hx
  obtain ⟨-, hold | ⟨rfl, hold⟩⟩ := (L.mem_move hne).mp hx
  · exact h r x hold
  · exact hmove x hold (h p x hold)

end Rules

end Ledger
