import Mathlib.Data.List.Basic
import Mathlib.Data.List.Flatten

/-!
# DynLocks.Lib.Lines

A text that is written in lines, and a reader that goes through its lines.

* `split_write` — the lines come back, if none of them has a break in it;
* `Reads` — what the reader does with a text of whole lines, with one rule for a line
  and one for texts that follow each other;
* `Reads.foldlM_split` — and so what it does with a text that was put together so.
-/

namespace Lines

variable {α σ : Type*}

/-- The lines, each with a newline behind it. -/
def write (newline : α) (lines : List (List α)) : List α := lines.flatMap (· ++ [newline])

/-- The lines of a text behind the beginning `line` of the first one; there is none behind a break
at the end. -/
def splitFrom (isBreak : α → Bool) : List α → List α → List (List α)
  | line, [] => if line.isEmpty then [] else [line]
  | line, x :: text =>
      if isBreak x then line :: splitFrom isBreak [] text else splitFrom isBreak (line ++ [x]) text

/-- The lines of a text. -/
def split (isBreak : α → Bool) (text : List α) : List (List α) := splitFrom isBreak [] text

variable {newline : α} {isBreak : α → Bool} {text text' line : List α} {lines : List (List α)}

/-- A line goes on until its break. -/
theorem splitFrom_append (hline : ∀ x ∈ line, isBreak x = false) (front : List α) :
    splitFrom isBreak front (line ++ text) = splitFrom isBreak (front ++ line) text := by
  induction line generalizing front with
  | nil => rw [List.nil_append, List.append_nil]
  | cons x line ih =>
      have hx : isBreak x = false := hline x List.mem_cons_self
      have hrest := ih (fun y hy => hline y (List.mem_cons_of_mem _ hy)) (front ++ [x])
      rw [List.cons_append, splitFrom, hx, if_neg Bool.false_ne_true, hrest, List.append_assoc]
      rfl

/-- **Lines come back**: what was written in lines without breaks is split into them. -/
theorem split_write (hnewline : isBreak newline = true)
    (hlines : ∀ l ∈ lines, ∀ x ∈ l, isBreak x = false) :
    split isBreak (write newline lines) = lines := by
  induction lines with
  | nil => rfl
  | cons l lines ih =>
      have hl : ∀ x ∈ l, isBreak x = false := hlines l List.mem_cons_self
      have hrest : splitFrom isBreak [] (write newline lines) = lines :=
        ih fun l' hl' => hlines l' (List.mem_cons_of_mem _ hl')
      rw [split, write, List.flatMap_cons, List.append_assoc, splitFrom_append hl, List.nil_append,
        List.singleton_append, splitFrom, hnewline, if_pos rfl]
      exact congrArg (l :: ·) hrest

/-! ## readers -/

variable {step : σ → List α → Option σ} {f g : σ → σ}

/-- The text has whole lines, and the reader goes through them without failing and does `f`. -/
def Reads (newline : α) (isBreak : α → Bool) (step : σ → List α → Option σ) (text : List α)
    (f : σ → σ) : Prop :=
  ∃ lines, text = write newline lines ∧ (∀ l ∈ lines, ∀ x ∈ l, isBreak x = false) ∧
    ∀ s, lines.foldlM step s = some (f s)

namespace Reads

theorem nil : Reads newline isBreak step [] id :=
  ⟨[], rfl, fun _ h => absurd h List.not_mem_nil, fun _ => rfl⟩

/-- One line. -/
theorem ofLine (hline : ∀ x ∈ line, isBreak x = false) (hstep : ∀ s, step s line = some (f s)) :
    Reads newline isBreak step (line ++ [newline]) f := by
  refine ⟨[line], (List.append_nil _).symm, fun l hl => ?_, fun s => ?_⟩
  · rwa [List.mem_singleton.mp hl]
  · rw [List.foldlM_cons, hstep]
    rfl

/-- One text behind another. -/
theorem append (h : Reads newline isBreak step text f) (h' : Reads newline isBreak step text' g) :
    Reads newline isBreak step (text ++ text') (g ∘ f) := by
  obtain ⟨lines, rfl, hlines, hfold⟩ := h
  obtain ⟨lines', rfl, hlines', hfold'⟩ := h'
  refine ⟨lines ++ lines', List.flatMap_append.symm, fun l hl => ?_, fun s => ?_⟩
  · exact (List.mem_append.mp hl).elim (hlines l) (hlines' l)
  · rw [List.foldlM_append, hfold]
    exact hfold' (f s)

theorem congr (h : Reads newline isBreak step text f) (hfg : ∀ s, f s = g s) :
    Reads newline isBreak step text g := by
  rwa [← funext hfg]

/-- A text for each of some things. -/
theorem flatMap {β : Type*} {page : β → List α} {change : β → σ → σ} {xs : List β}
    (h : ∀ x ∈ xs, Reads newline isBreak step (page x) (change x)) :
    Reads newline isBreak step (xs.flatMap page) fun s =>
      xs.foldl (fun s x => change x s) s := by
  induction xs with
  | nil => exact nil
  | cons x xs ih =>
      have hx := h x List.mem_cons_self
      exact hx.append (ih fun y hy => h y (List.mem_cons_of_mem _ hy))

/-- Texts that say nothing to the reader. -/
theorem flatMap_id {β : Type*} {page : β → List α} {xs : List β}
    (h : ∀ x ∈ xs, Reads newline isBreak step (page x) id) :
    Reads newline isBreak step (xs.flatMap page) id := by
  induction xs with
  | nil => exact nil
  | cons x xs ih =>
      have hx := h x List.mem_cons_self
      exact hx.append (ih fun y hy => h y (List.mem_cons_of_mem _ hy))

/-- **Reading the text** does what reading its parts does. -/
theorem foldlM_split (h : Reads newline isBreak step text f) (hnewline : isBreak newline = true)
    (s : σ) : (split isBreak text).foldlM step s = some (f s) := by
  obtain ⟨lines, rfl, hlines, hfold⟩ := h
  rw [split_write hnewline hlines, hfold]

end Reads

end Lines
