import DynLocks.Lib.Pattern

/-!
# DynLocks.Lib.Columns

A table row whose cells are padded to a least width, with nothing printed between two cells, read
by a pattern that asks for a blank between two words.

* `search_columns` — the pattern finds the words of the row exactly if every cell is shorter than
  its width; a cell that fills its width runs into the word before it, and then the pattern finds
  nothing at all.
-/

namespace Columns

open Pattern

variable {α : Type*}

/-- A right-aligned cell: the text and the least width. -/
structure Cell (α : Type*) where
  width : ℕ
  text : List α

/-- The printed cell. -/
def Cell.print (blank : α) (c : Cell α) : List α := c.text.leftpad c.width blank

/-- The printed cells, one after the other. -/
def print (blank : α) (cells : List (Cell α)) : List α := cells.flatMap (Cell.print blank)

/-- The cell begins with a blank. -/
def Cell.Apart (c : Cell α) : Prop := c.text.length < c.width

instance (c : Cell α) : Decidable c.Apart := inferInstanceAs (Decidable (_ < _))

/-- A text of one or more members of a class. -/
structure Word (token : α → Bool) (t : List α) : Prop where
  ne_nil : t ≠ []
  token : ∀ y ∈ t, token y = true

/-- `k` words, each with blanks behind it. -/
def columns (token space : α → Bool) : ℕ → List (Atom α)
  | 0 => []
  | k + 1 => run true token 1 :: run false space 1 :: columns token space k

variable {token space : α → Bool} {blank x : α} {t u rest : List α} {as : List (Atom α)}
  {cells : List (Cell α)} {k : ℕ}

theorem Word.append (ht : Word token t) (hu : Word token u) : Word token (t ++ u) where
  ne_nil := by simp [ht.ne_nil]
  token y hy := (List.mem_append.1 hy).elim (ht.token y) (hu.token y)

theorem Word.length_pos (ht : Word token t) : 1 ≤ t.length :=
  List.length_pos_iff.2 ht.ne_nil

theorem Word.mono {token' : α → Bool} (ht : Word token t)
    (h : ∀ y, token y = true → token' y = true) : Word token' t where
  ne_nil := ht.ne_nil
  token y hy := h y (ht.token y hy)

/-- A word is no blank. -/
theorem Word.ends (ht : Word token t) (hdisj : ∀ y, token y = true → space y = false) :
    Ends space (t ++ rest) := by
  obtain ⟨y, u, rfl⟩ := List.exists_cons_of_ne_nil ht.ne_nil
  rw [List.cons_append, ends_cons]
  exact hdisj y (ht.token y List.mem_cons_self)

/-! ## the row -/

/-- A cell is its text behind blanks. -/
theorem Cell.print_eq (c : Cell α) :
    c.print blank = List.replicate (c.width - c.text.length) blank ++ c.text :=
  rfl

theorem print_cons (c : Cell α) : print blank (c :: cells) = c.print blank ++ print blank cells :=
  rfl

theorem Cell.print_of_apart {c : Cell α} (h : c.Apart) :
    c.print blank = List.replicate (c.width - c.text.length - 1 + 1) blank ++ c.text := by
  have hpos : c.width - c.text.length - 1 + 1 = c.width - c.text.length :=
    Nat.sub_add_cancel (Nat.sub_pos_of_lt h)
  rw [hpos]
  rfl

theorem Cell.print_of_not_apart {c : Cell α} (h : ¬c.Apart) : c.print blank = c.text := by
  have hzero : c.width - c.text.length = 0 := Nat.sub_eq_zero_of_le (Nat.le_of_not_lt h)
  rw [Cell.print, List.leftpad, hzero]
  rfl

/-! ## the pattern on the row -/

section

variable (hdisj : ∀ y, token y = true → space y = false)

include hdisj

/-- A word with no blank behind it. -/
theorem search_columns_stop (hx : token x = false ∧ space x = false) (ht : Word token t) :
    search (columns token space (k + 1) ++ as) (t ++ x :: rest) = none := by
  rw [columns, List.cons_append, List.cons_append,
    search_run (rejects_run hdisj Nat.one_pos) ht.token (ends_cons.2 hx.1), if_pos ht.length_pos,
    search_run_nil (ends_cons.2 hx.2), if_neg Nat.one_ne_zero]
  rfl

variable (has : Rejects as space)

include has

/-- Neither a word nor the rest of the pattern begins with a blank. -/
theorem rejects_columns : Rejects (columns token space k ++ as) space := by
  cases k with
  | zero => exact has
  | succ k =>
      refine rejects_run (fun y hy => ?_) Nat.one_pos
      cases htoken : token y with
      | false => rfl
      | true => simp [hdisj y htoken] at hy

/-- One word and the blanks behind it. -/
theorem search_column {n : ℕ} (hblank : space blank = true) (ht : Word token t)
    (hu : Word token u) :
    search (columns token space (k + 1) ++ as)
        (t ++ (List.replicate (n + 1) blank ++ (u ++ rest))) =
      (search (columns token space k ++ as) (u ++ rest)).map (t :: ·) := by
  have hends : Ends token (List.replicate (n + 1) blank ++ (u ++ rest)) := by
    rw [List.replicate_succ, List.cons_append, ends_cons]
    cases htoken : token blank with
    | false => rfl
    | true => simp [hdisj blank htoken] at hblank
  have hpad : ∀ y ∈ List.replicate (n + 1) blank, space y = true := by
    intro y hy
    rw [(List.mem_replicate.1 hy).2, hblank]
  rw [columns, List.cons_append, List.cons_append,
    search_run (rejects_run hdisj Nat.one_pos) ht.token hends, if_pos ht.length_pos,
    search_run (rejects_columns hdisj has) hpad (hu.ends hdisj), if_pos (by simp)]
  simp [keep_run]

variable (hblank : space blank = true) (hx : token x = false ∧ space x = false)

include hblank hx

/-- **Too few words**: a row with fewer cells than the pattern asks for is not matched. -/
theorem search_columns_of_lt (ht : Word token t) (hcells : ∀ c ∈ cells, Word token c.text)
    (hk : cells.length < k) :
    search (columns token space k ++ as) (t ++ (print blank cells ++ x :: rest)) = none := by
  induction cells generalizing t k with
  | nil =>
      obtain ⟨k, rfl⟩ := Nat.exists_eq_succ_of_ne_zero (Nat.ne_of_gt hk)
      exact search_columns_stop hdisj hx ht
  | cons c cs ih =>
      have hc : Word token c.text := hcells c List.mem_cons_self
      have hcs : ∀ d ∈ cs, Word token d.text := fun d hd => hcells d (List.mem_cons_of_mem _ hd)
      rw [print_cons, List.append_assoc]
      by_cases hapart : c.Apart
      · obtain ⟨k, rfl⟩ := Nat.exists_eq_succ_of_ne_zero (Nat.ne_of_gt (Nat.zero_lt_of_lt hk))
        rw [Cell.print_of_apart hapart, List.append_assoc,
          search_column hdisj has hblank ht hc, ih hc hcs (Nat.lt_of_succ_lt_succ hk)]
        rfl
      · -- the cell runs into the word before it: one word less
        rw [Cell.print_of_not_apart hapart, ← List.append_assoc]
        exact ih (ht.append hc) hcs (Nat.lt_of_succ_lt hk)

/-- **The words of a row**: with as many words as cells, the pattern finds each cell's text if all
cells are apart, and nothing otherwise. -/
theorem search_columns {last : Cell α} (ht : Word token t)
    (hcells : ∀ c ∈ cells ++ [last], Word token c.text) :
    search (columns token space (cells.length + 1) ++ as)
        (t ++ (print blank (cells ++ [last]) ++ x :: rest)) =
      if ∀ c ∈ cells ++ [last], c.Apart then
        (search as (last.text ++ x :: rest)).map ((t :: cells.map Cell.text) ++ ·)
      else none := by
  induction cells generalizing t with
  | nil =>
      have hlast : Word token last.text := hcells last (by simp)
      rw [List.nil_append, print_cons, List.append_assoc]
      by_cases hapart : last.Apart
      · rw [Cell.print_of_apart hapart, List.append_assoc, if_pos (by simpa using hapart)]
        exact search_column hdisj has hblank ht hlast
      · rw [Cell.print_of_not_apart hapart, ← List.append_assoc, if_neg (by simpa using hapart)]
        exact search_columns_of_lt hdisj has hblank hx (ht.append hlast) (by simp) Nat.one_pos
  | cons c cs ih =>
      have hc : Word token c.text := hcells c (by simp)
      have hcs : ∀ d ∈ cs ++ [last], Word token d.text :=
        fun d hd => hcells d (List.mem_cons_of_mem _ hd)
      rw [List.cons_append, print_cons, List.append_assoc, List.length_cons]
      by_cases hapart : c.Apart
      · have hall : (∀ d ∈ c :: (cs ++ [last]), d.Apart) ↔ ∀ d ∈ cs ++ [last], d.Apart := by
          rw [List.forall_mem_cons]
          exact and_iff_right hapart
        rw [Cell.print_of_apart hapart, List.append_assoc, search_column hdisj has hblank ht hc,
          ih hc hcs]
        simp only [hall]
        split
        · rw [Option.map_map]
          rfl
        · rfl
      · rw [Cell.print_of_not_apart hapart, ← List.append_assoc,
          if_neg (fun h => hapart (h c List.mem_cons_self))]
        exact search_columns_of_lt hdisj has hblank hx (ht.append hc) hcs (by simp)

end

end Columns
