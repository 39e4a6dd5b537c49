import Mathlib.Data.Nat.Notation
import Mathlib.Data.Option.Basic

/-!
# DynLocks.Lib.Sampler

Computations that draw from a generator and may fail to return.

`Rand G` threads a generator state of type `G`; a run has no result where the
program it models throws, loops, or leaves its language's defined behaviour.
`Sat x Q` is partial correctness: whatever the generator, a result of `x`
satisfies `Q`.  The rules follow the program's shape (`pure`, `bind`, a draw, a
lifted `Option`), and `Sat.iterate`, `Sat.collect` are the two loops: repeat a
step, and append the results of a step.
-/

namespace Sampler

variable {G α β : Type}

/-- A computation over a generator state; `none` where it does not return. -/
abbrev Rand (G : Type) := StateT G Option

/-- Draw once from the generator. -/
def draw (f : G → α × G) : Rand G α := fun g => some (f g)

/-- A computation that does not use the generator. -/
def ofOption (x : Option α) : Rand G α := fun g => x.map fun a => (a, g)

/-- The computation never returns. -/
def never : Rand G α := fun _ => none

/-- Repeat a step `n` times. -/
def iterate (step : α → Rand G α) : ℕ → α → Rand G α
  | 0, a => pure a
  | n + 1, a => step a >>= iterate step n

/-- Append the results of `n` runs of a step, which sees what is already there. -/
def collect (step : List α → Rand G α) (n : ℕ) (xs : List α) : Rand G (List α) :=
  iterate (fun xs => do let x ← step xs; pure (xs ++ [x])) n xs

/-! ## partial correctness -/

/-- Every result of `x` satisfies `Q`. -/
def Sat (x : Rand G α) (Q : α → Prop) : Prop := ∀ g a g', x g = some (a, g') → Q a

namespace Sat

variable {x : Rand G α} {Q R : α → Prop}

theorem mono (h : Sat x Q) (himp : ∀ a, Q a → R a) : Sat x R :=
  fun g a g' hrun => himp a (h g a g' hrun)

theorem pure {a : α} (h : Q a) : Sat (G := G) (Pure.pure a) Q := by
  intro g b g' hrun
  cases hrun
  exact h

theorem never : Sat (G := G) Sampler.never Q := by
  intro g a g' hrun
  cases hrun

/-- A sequence: the second part may rely on what the first one established. -/
theorem bind {f : α → Rand G β} {S : β → Prop} (hx : Sat x Q) (hf : ∀ a, Q a → Sat (f a) S) :
    Sat (x >>= f) S := by
  intro g b g' hrun
  obtain ⟨⟨a, g₁⟩, hfirst, hsecond⟩ := Option.bind_eq_some_iff.mp hrun
  exact hf a (hx g a g₁ hfirst) g₁ b g' hsecond

theorem draw {f : G → α × G} (h : ∀ g, Q (f g).1) : Sat (Sampler.draw f) Q := by
  intro g a g' hrun
  have heq : f g = (a, g') := Option.some.inj hrun
  have hg := h g
  rw [heq] at hg
  exact hg

/-- A lifted computation: its result is known exactly. -/
theorem ofOption {o : Option α} (h : ∀ a, o = some a → Q a) :
    Sat (G := G) (Sampler.ofOption o) Q := by
  intro g a g' hrun
  obtain ⟨b, ho, heq⟩ := Option.map_eq_some_iff.mp hrun
  cases heq
  exact h _ ho

/-- An invariant of the step is an invariant of the loop. -/
theorem iterate {step : α → Rand G α} (h : ∀ a, Q a → Sat (step a) Q) (n : ℕ) {a : α}
    (ha : Q a) : Sat (Sampler.iterate step n a) Q := by
  induction n generalizing a with
  | zero => exact Sat.pure ha
  | succ n ih => exact Sat.bind (h a ha) fun b hb => ih hb

/-- What every appended element satisfies, every element of the result satisfies. -/
theorem collect {step : List α → Rand G α} (h : ∀ xs, (∀ x ∈ xs, Q x) → Sat (step xs) Q) (n : ℕ)
    {xs : List α} (hxs : ∀ x ∈ xs, Q x) :
    Sat (Sampler.collect step n xs) fun ys => ∀ y ∈ ys, Q y := by
  refine Sat.iterate (fun zs hzs => ?_) n hxs
  refine Sat.bind (h zs hzs) fun z hz => Sat.pure fun y hy => ?_
  rcases List.mem_append.mp hy with hold | hnew
  · exact hzs y hold
  · rw [List.mem_singleton.mp hnew]
    exact hz

/-- The loop of `collect` only appends. -/
theorem collect_prefix (step : List α → Rand G α) (n : ℕ) (xs : List α) :
    Sat (Sampler.collect step n xs) fun ys => xs <+: ys := by
  refine Sat.iterate (fun zs hzs => ?_) n (List.prefix_refl xs)
  refine Sat.bind (Q := fun _ => True) (fun _ _ _ _ => trivial) fun z _ => Sat.pure ?_
  exact hzs.trans (List.prefix_append zs [z])

/-- Two facts about the results of one computation. -/
theorem and (hQ : Sat x Q) (hR : Sat x R) : Sat x fun a => Q a ∧ R a :=
  fun g a g' hrun => ⟨hQ g a g' hrun, hR g a g' hrun⟩

end Sat

/-! ## totality -/

/-- The computation returns, whatever the generator. -/
def Returns (x : Rand G α) : Prop := ∀ g, (x g).isSome = true

namespace Returns

theorem pure (a : α) : Returns (G := G) (Pure.pure a) := fun _ => rfl

theorem draw (f : G → α × G) : Returns (Sampler.draw f) := fun _ => rfl

theorem ofOption {o : Option α} (h : o.isSome = true) : Returns (G := G) (Sampler.ofOption o) := by
  intro g
  rw [Sampler.ofOption, Option.isSome_map, h]

/-- A sequence returns if its parts do. -/
theorem bind {x : Rand G α} {f : α → Rand G β} (hx : Returns x) (hf : ∀ a, Returns (f a)) :
    Returns (x >>= f) := by
  intro g
  obtain ⟨⟨a, g'⟩, hrun⟩ := Option.isSome_iff_exists.mp (hx g)
  show (Option.bind (x g) fun r => f r.1 r.2).isSome = true
  rw [hrun]
  exact hf a g'

end Returns

end Sampler
