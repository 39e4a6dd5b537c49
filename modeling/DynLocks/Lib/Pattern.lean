import Mathlib.Data.List.Basic
import Mathlib.Data.List.TakeDrop

/-!
# DynLocks.Lib.Pattern

Matching of a sequence of elements by backtracking, as regular expression engines do it.  An
element offers the lengths it may take, best first; `search` tries them in this order and goes
back to the next one when the rest of the pattern fails.

* `search_run` — a greedy run is never shortened if what follows it cannot begin inside the run;
* `Rejects` — the condition for that, with one rule for each kind of element.
-/

namespace Pattern

/-- One element of a pattern: whether its piece is a group of the match, and the lengths it may
take at the front of a text, best first. -/
structure Atom (α : Type*) where
  captured : Bool
  lengths : List α → List ℕ

variable {α : Type*}

/-- The groups of a match, with the piece that the element took. -/
def Atom.keep (a : Atom α) (piece : List α) (groups : List (List α)) : List (List α) :=
  if a.captured then piece :: groups else groups

/-- The groups of the first match of a pattern at the front of a text. -/
def search : List (Atom α) → List α → Option (List (List α))
  | [], _ => some []
  | a :: as, s =>
      (a.lengths s).findSome? fun n => (search as (s.drop n)).map (a.keep (s.take n))

/-! ## the elements -/

/-- As many elements of a class as there are, and at least `least`. -/
def run (captured : Bool) (cls : α → Bool) (least : ℕ) : Atom α where
  captured := captured
  lengths s := (List.range ((s.takeWhile cls).length + 1)).reverse.filter (least ≤ ·)

/-- One of several words, the first that fits. -/
def choice [DecidableEq α] (words : List (List α)) : Atom α where
  captured := true
  lengths s := (words.filter (·.isPrefixOf s)).map List.length

/-- A fixed element. -/
def lit [DecidableEq α] (x : α) : Atom α where
  captured := false
  lengths s := if s.head? = some x then [1] else []

/-- The end of the text, or a last `newline`. -/
def eol [DecidableEq α] (newline : α) : Atom α where
  captured := false
  lengths s := if s = [] ∨ s = [newline] then [0] else []

/-! ## runs -/

/-- The pattern does not match where a member of the class comes first. -/
def Rejects (as : List (Atom α)) (cls : α → Bool) : Prop :=
  ∀ x t, cls x = true → search as (x :: t) = none

/-- The text does not go on with a member of the class. -/
def Ends (cls : α → Bool) (t : List α) : Prop := ∀ x ∈ t.head?, cls x = false

variable {as : List (Atom α)} {cls cls' : α → Bool} {captured : Bool} {least : ℕ}
  {u t : List α} {x : α}

theorem ends_nil : Ends cls [] := by
  simp [Ends]

theorem ends_cons : Ends cls (x :: t) ↔ cls x = false := by
  simp [Ends]

theorem keep_run (piece : List α) :
    (run captured cls least).keep piece = fun groups =>
      if captured then piece :: groups else groups :=
  rfl

/-- What a greedy run takes at most. -/
theorem takeWhile_append_of_ends (hu : ∀ y ∈ u, cls y = true) (ht : Ends cls t) :
    (u ++ t).takeWhile cls = u := by
  rw [List.takeWhile_append_of_pos hu]
  cases t with
  | nil => simp
  | cons x t => simp [ends_cons.1 ht]

/-- A run that the rest of the pattern does not follow any earlier takes all it can. -/
theorem search_run_of_short (hu : ∀ y ∈ u, cls y = true) (ht : Ends cls t)
    (hshort : ∀ n < u.length, search as ((u ++ t).drop n) = none) :
    search (run captured cls least :: as) (u ++ t) =
      if least ≤ u.length then (search as t).map ((run captured cls least).keep u) else none := by
  rw [search]
  simp only [run, takeWhile_append_of_ends hu ht, List.range_succ, List.reverse_append,
    List.reverse_cons, List.reverse_nil, List.nil_append, List.singleton_append, List.filter_cons,
    decide_eq_true_eq]
  have hrest : ((List.range u.length).reverse.filter (least ≤ ·)).findSome?
      (fun n => (search as ((u ++ t).drop n)).map
        ((⟨captured, (run captured cls least).lengths⟩ : Atom α).keep ((u ++ t).take n))) =
      none := by
    rw [List.findSome?_eq_none_iff]
    intro n hn
    have hn' : n < u.length := by
      simpa using (List.mem_filter.1 hn).1
    rw [hshort n hn']
    rfl
  split
  · rw [List.findSome?_cons, List.drop_left, List.take_left]
    cases search as t with
    | none => exact hrest
    | some groups => rfl
  · exact hrest

/-- **A run is greedy for good**: if the rest of the pattern cannot begin inside the run, then it
takes the whole run, and the match succeeds or fails with that. -/
theorem search_run (h : Rejects as cls) (hu : ∀ y ∈ u, cls y = true) (ht : Ends cls t) :
    search (run captured cls least :: as) (u ++ t) =
      if least ≤ u.length then (search as t).map ((run captured cls least).keep u) else none := by
  apply search_run_of_short hu ht
  intro n hn
  rw [List.drop_append_of_le_length (Nat.le_of_lt hn), List.drop_eq_getElem_cons hn]
  exact h _ _ (hu _ (List.getElem_mem hn))

/-- A run of a class that does not come takes nothing. -/
theorem search_run_nil (ht : Ends cls t) :
    search (run captured cls least :: as) t =
      if least = 0 then (search as t).map ((run captured cls least).keep []) else none := by
  have h : search (run captured cls least :: as) ([] ++ t) = _ :=
    search_run_of_short (by simp) ht (by simp)
  simpa using h

/-! ## where a pattern cannot begin -/

/-- A run that needs an element does not begin with a member of another class. -/
theorem rejects_run (hdisj : ∀ x, cls x = true → cls' x = false) (hleast : 0 < least) :
    Rejects (run captured cls' least :: as) cls := by
  intro x t hx
  have hnone : (x :: t).takeWhile cls' = [] := by
    simp [hdisj x hx]
  rw [search, List.findSome?_eq_none_iff]
  intro n hn
  simp only [run, hnone, List.length_nil, Nat.zero_add, List.range_one, List.reverse_singleton,
    List.mem_filter, List.mem_singleton, decide_eq_true_eq] at hn
  omega

/-- A run that may be empty does not help a pattern that cannot begin there. -/
theorem rejects_run_of_rejects (hdisj : ∀ x, cls x = true → cls' x = false)
    (h : Rejects as cls) : Rejects (run captured cls' least :: as) cls := by
  intro x t hx
  have hnone : (x :: t).takeWhile cls' = [] := by
    simp [hdisj x hx]
  rw [search, List.findSome?_eq_none_iff]
  intro n hn
  simp only [run, hnone, List.length_nil, Nat.zero_add, List.range_one, List.reverse_singleton,
    List.mem_filter, List.mem_singleton] at hn
  rw [hn.1, List.drop_zero, h x t hx]
  rfl

variable [DecidableEq α]

theorem rejects_lit (h : cls x = false) : Rejects (lit x :: as) cls := by
  intro y t hy
  have hne : y ≠ x := fun heq => by simp [← heq, hy] at h
  simp [search, lit, hne]

theorem rejects_eol (h : cls x = false) : Rejects (eol x :: as) cls := by
  intro y t hy
  have hne : y ≠ x := fun heq => by simp [← heq, hy] at h
  simp [search, eol, hne]

/-- No word begins with a member of the class. -/
theorem rejects_choice {words : List (List α)}
    (h : ∀ w ∈ words, ∃ y v, w = y :: v ∧ cls y = false) : Rejects (choice words :: as) cls := by
  intro y t hy
  have hnone : words.filter (·.isPrefixOf (y :: t)) = [] := by
    rw [List.filter_eq_nil_iff]
    intro w hw hbegins
    obtain ⟨z, v, rfl, hz⟩ := h w hw
    rw [List.isPrefixOf, Bool.and_eq_true, beq_iff_eq] at hbegins
    rw [hbegins.1, hy] at hz
    contradiction
  simp [search, choice, hnone]

/-! ## what a match needs -/

/-- A text that matches has every fixed element of the pattern. -/
theorem mem_of_search {s : List α} {groups : List (List α)} (h : search as s = some groups)
    (hx : lit x ∈ as) : x ∈ s := by
  induction as generalizing s groups with
  | nil => contradiction
  | cons a as ih =>
      rw [search] at h
      obtain ⟨n, hn, hmatch⟩ := List.exists_of_findSome?_eq_some h
      obtain ⟨rest, hrest, -⟩ := Option.map_eq_some_iff.mp hmatch
      rcases List.mem_cons.mp hx with heq | hmem
      · subst heq
        have hhead : s.head? = some x := by
          by_contra hne
          simp [lit, hne] at hn
        exact List.mem_of_mem_head? hhead
      · exact List.mem_of_mem_drop (ih hrest hmem)

/-! ## the other elements -/

theorem keep_lit (piece : List α) : (lit x).keep piece = id := rfl

theorem keep_choice (words : List (List α)) (piece : List α) :
    (choice words).keep piece = (piece :: ·) := rfl

/-- A literal is matched by itself. -/
theorem search_lit : search (lit x :: as) (x :: t) = search as t := by
  have hlengths : (lit x).lengths (x :: t) = [1] := by simp [lit]
  simp [search, hlengths, keep_lit]

theorem search_eol : search [eol x] [] = some [] := by
  simp [search, eol, Atom.keep]

/-- A word that no other one of the list fits is the group. -/
theorem search_choice {words : List (List α)} {w : List α}
    (h : words.filter (·.isPrefixOf (w ++ t)) = [w]) :
    search (choice words :: as) (w ++ t) = (search as t).map (w :: ·) := by
  have hlengths : (choice words).lengths (w ++ t) = [w.length] := by simp [choice, h]
  simp [search, hlengths, keep_choice]

/-- No word of the list fits. -/
theorem search_choice_none {words : List (List α)} (h : words.filter (·.isPrefixOf t) = []) :
    search (choice words :: as) t = none := by
  simp [search, choice, h]

end Pattern
