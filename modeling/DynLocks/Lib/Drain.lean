import DynLocks.Lib.Interleaving
import Mathlib.Algebra.BigOperators.Group.Finset.Basic
import Mathlib.Algebra.Order.BigOperators.Group.Finset
import Mathlib.Algebra.Order.Monoid.Prod
import Mathlib.Data.Finite.Prod
import Mathlib.Data.Set.Finite.Basic
import Mathlib.Order.OrderIsoNat

/-!
# DynLocks.Lib.Drain

Programs that come to rest when they get no more work.

A `Ranking` gives every thread a budget, which other threads never touch, and a
number of steps still to do, which grows only when another thread spends some of
its budget.  Every step is then one that waits or one that brings the sums down:

* `Ranking.eventually_waits` — in an endless run without more work, all steps
  wait from some tick on;
* `Ranking.drains` — if some step that does not wait is always within reach, every
  reachable state can come to rest.

`Endless` is a run that never ends, `Endless.Fair` says that nobody who can act is
passed over for ever.
-/

namespace Interleaving
namespace Program

variable {Tid Act Mem Loc : Type} [DecidableEq Tid] {P : Program Tid Act Mem Loc}

/-- Only finitely many threads have ever moved. -/
theorem Reachable.finite_moved {s : State Tid Mem Loc} (h : P.Reachable s) :
    {t | s.loc t ≠ P.start t}.Finite := by
  refine h.invariant (I := fun s => {t | s.loc t ≠ P.start t}.Finite) ?_ ?_
  · have hempty : {t | P.initial.loc t ≠ P.start t} = ∅ := by
      ext t
      simp [initial]
    rw [hempty]
    exact Set.finite_empty
  · intro s s' _ hfinite ⟨t, ht⟩
    refine (hfinite.insert t).subset fun u hu => ?_
    by_cases hut : u = t
    · exact Or.inl hut
    · have hmoved : s'.loc u ≠ P.start u := hu
      rw [ht.elim.2 u hut] at hmoved
      exact Or.inr hmoved

/-- What the threads get to with what is permitted, they get to. -/
theorem Reachable.path {permits : Loc → Act → Bool} {s s' : State Tid Mem Loc}
    (hs : P.Reachable s) (h : Relation.ReflTransGen (P.restrict permits).Step s s') :
    P.Reachable s' := by
  induction h with
  | refl => exact hs
  | tail _ hstep ih =>
      obtain ⟨t, ht⟩ := hstep
      exact ih.step ⟨t, ht.of_restrict⟩

/-- A tick of a run: a thread acts, or nothing happens. -/
inductive Tick (P : Program Tid Act Mem Loc) :
    Option (Tid × Act) → State Tid Mem Loc → State Tid Mem Loc → Prop
  | idle {s : State Tid Mem Loc} : Tick P none s s
  | act {t : Tid} {a : Act} {s s' : State Tid Mem Loc} : P.next t a s = some s' →
      Tick P (some (t, a)) s s'

/-- A run that never ends; one that comes to an end goes on with ticks at which nothing
happens. -/
structure Endless (P : Program Tid Act Mem Loc) where
  states : ℕ → State Tid Mem Loc
  moves : ℕ → Option (Tid × Act)
  tick : ∀ n, P.Tick (moves n) (states n) (states (n + 1))

/-- A thread that can always act from some tick on does act. -/
def Endless.Fair (r : P.Endless) : Prop :=
  ∀ t n, (∀ m ≥ n, ∃ a s', P.next t a (r.states m) = some s') →
    ∃ m ≥ n, ∃ a, r.moves m = some (t, a)

/-- What every tick keeps holds from a tick on. -/
theorem Endless.invariant (r : P.Endless) {I : State Tid Mem Loc → Prop} {n : ℕ}
    (hinit : I (r.states n))
    (hstep : ∀ m ≥ n, ∀ t a, r.moves m = some (t, a) → I (r.states m) →
      P.next t a (r.states m) = some (r.states (m + 1)) → I (r.states (m + 1)))
    {m : ℕ} (hm : n ≤ m) : I (r.states m) := by
  induction m, hm using Nat.le_induction with
  | base => exact hinit
  | succ m hm ih =>
      have htick := r.tick m
      cases hmove : r.moves m with
      | none =>
          rw [hmove] at htick
          generalize r.states (m + 1) = s' at htick
          cases htick
          exact ih
      | some move =>
          obtain ⟨t, a⟩ := move
          rw [hmove] at htick
          cases htick with
          | act hnext => exact hstep m hm t a hmove ih hnext

/-- Follow a schedule in which no thread blocks; then nothing happens any more. -/
def Endless.ofSchedule (P : Program Tid Act Mem Loc) (schedule : List (Tid × Act))
    (s₀ : State Tid Mem Loc) (h : (P.exec schedule s₀).isSome) : P.Endless where
  states n := (P.exec (schedule.take n) s₀).getD s₀
  moves n := schedule[n]?
  tick n := by
    by_cases hn : n < schedule.length
    · have hsplit : schedule.take (n + 1) = schedule.take n ++ [schedule[n]] :=
        List.take_succ_eq_append_getElem hn
      have hsome : (P.exec (schedule.take (n + 1)) s₀).isSome := by
        rw [← List.take_append_drop (n + 1) schedule, exec_append] at h
        exact Option.isSome_of_isSome_bind h
      obtain ⟨s', hs'⟩ := Option.isSome_iff_exists.mp hsome
      rw [hs', List.getElem?_eq_getElem hn]
      rw [hsplit, exec_append] at hs'
      obtain ⟨s, hs, hlast⟩ := Option.bind_eq_some_iff.mp hs'
      obtain ⟨mid, hmid, hend⟩ := Option.bind_eq_some_iff.mp hlast
      cases hend
      rw [hs]
      exact .act hmid
    · have hn := Nat.not_lt.mp hn
      rw [List.take_of_length_le hn, List.take_of_length_le (Nat.le_succ_of_le hn),
        List.getElem?_eq_none hn]
      exact .idle

/-- If nobody can act in the end, nobody was passed over. -/
theorem Endless.fair_ofSchedule {schedule : List (Tid × Act)} {s₀ s' : State Tid Mem Loc}
    (h : P.exec schedule s₀ = some s') (hend : ∀ t a, P.next t a s' = none) :
    (Endless.ofSchedule P schedule s₀ (by rw [h]; rfl)).Fair := by
  intro t n hcan
  obtain ⟨a, s, hs⟩ := hcan (max n schedule.length) (le_max_left _ _)
  simp only [ofSchedule] at hs
  rw [List.take_of_length_le (le_max_right _ _), h, Option.getD_some, hend] at hs
  contradiction

/-- Budgets and steps still to do of the threads of `P`, as long as they only do what is permitted.
A thread at rest has neither and stays at rest. -/
structure Ranking (P : Program Tid Act Mem Loc) (permits : Loc → Act → Bool)
    (Rests : Loc → Prop) (Waits : Loc → Loc → Prop) (A : Type) [AddCommMonoid A] [LinearOrder A]
    where
  budget : Loc → A
  todo : Mem → Loc → ℕ
  start : ∀ t, Rests (P.start t)
  zero : ∀ {l}, Rests l → budget l = 0 ∧ ∀ m, todo m l = 0
  waits : ∀ {l l'}, Rests l → Waits l l'
  keep : ∀ {s t a m' l'}, P.Reachable s → permits (s.loc t) a = true →
    P.advance t a s.mem (s.loc t) = some (m', l') → Rests (s.loc t) → Rests l'
  own : ∀ {s t a m' l'}, P.Reachable s → permits (s.loc t) a = true →
    P.advance t a s.mem (s.loc t) = some (m', l') → ¬Rests (s.loc t) →
      budget l' < budget (s.loc t) ∨ budget l' = budget (s.loc t) ∧
        (todo m' l' < todo s.mem (s.loc t) ∨
          Waits (s.loc t) l' ∧ todo m' l' ≤ todo s.mem (s.loc t))
  other : ∀ {s t u a m' l'}, P.Reachable s → permits (s.loc t) a = true →
    P.advance t a s.mem (s.loc t) = some (m', l') → u ≠ t →
      budget l' < budget (s.loc t) ∨ todo m' (s.loc u) ≤ todo s.mem (s.loc u)

namespace Ranking

variable {permits : Loc → Act → Bool} {Rests : Loc → Prop} {Waits : Loc → Loc → Prop} {A : Type}
  [AddCommMonoid A] [LinearOrder A] {s s' : State Tid Mem Loc} {t : Tid} {F : Finset Tid}

/-- The sums over the threads of `F`. -/
def measure (R : Ranking P permits Rests Waits A) (F : Finset Tid) (s : State Tid Mem Loc) :
    A ×ₗ ℕ :=
  toLex (∑ t ∈ F, R.budget (s.loc t), ∑ t ∈ F, R.todo s.mem (s.loc t))

/-- All threads but those of `F` are at rest. -/
def Covers (Rests : Loc → Prop) (F : Finset Tid) (s : State Tid Mem Loc) : Prop :=
  ∀ t, t ∉ F → Rests (s.loc t)

theorem exists_covers (R : Ranking P permits Rests Waits A) (hs : P.Reachable s) :
    ∃ F, Covers Rests F s := by
  refine ⟨hs.finite_moved.toFinset, fun t ht => ?_⟩
  have hstart : s.loc t = P.start t := by
    simpa using ht
  rw [hstart]
  exact R.start t

/-- What a step does, by the fields of the ranking. -/
theorem elim_restrict (h : (P.restrict permits).StepBy t s s') :
    (∃ a, permits (s.loc t) a = true ∧ P.advance t a s.mem (s.loc t) = some (s'.mem, s'.loc t)) ∧
      ∀ u, u ≠ t → s'.loc u = s.loc u := by
  obtain ⟨⟨a, ha⟩, hframe⟩ := h.elim
  exact ⟨⟨a, advance_of_restrict ha⟩, hframe⟩

theorem covers_step (R : Ranking P permits Rests Waits A) (hs : P.Reachable s)
    (h : (P.restrict permits).StepBy t s s') (hF : Covers Rests F s) : Covers Rests F s' := by
  obtain ⟨⟨a, hpermits, ha⟩, hframe⟩ := elim_restrict h
  intro u hu
  by_cases hut : u = t
  · subst hut
    exact R.keep hs hpermits ha (hF u hu)
  · rw [hframe u hut]
    exact hF u hu

variable [IsOrderedCancelAddMonoid A]

/-- **Step lemma**: the sums do not grow, and they shrink unless the step waits. -/
theorem measure_step (R : Ranking P permits Rests Waits A) (hs : P.Reachable s)
    (h : (P.restrict permits).StepBy t s s') (hF : Covers Rests F s) :
    R.measure F s' < R.measure F s ∨
      Waits (s.loc t) (s'.loc t) ∧ R.measure F s' ≤ R.measure F s := by
  obtain ⟨⟨a, hpermits, ha⟩, hframe⟩ := elim_restrict h
  have hbudget : ∀ u, u ≠ t → R.budget (s'.loc u) = R.budget (s.loc u) := by
    intro u hu
    rw [hframe u hu]
  have htodo : ¬R.budget (s'.loc t) < R.budget (s.loc t) →
      ∀ u, u ≠ t → R.todo s'.mem (s'.loc u) ≤ R.todo s.mem (s.loc u) := by
    intro hnot u hu
    rw [hframe u hu]
    exact (R.other hs hpermits ha hu).resolve_left hnot
  simp only [measure, Prod.Lex.toLex_lt_toLex, Prod.Lex.toLex_le_toLex]
  by_cases ht : Rests (s.loc t)
  · -- a thread at rest spends nothing
    have hzero := R.zero ht
    have hzero' := R.zero (R.keep hs hpermits ha ht)
    have hsame : R.budget (s'.loc t) = R.budget (s.loc t) := by rw [hzero.1, hzero'.1]
    refine Or.inr ⟨R.waits ht, Or.inr ⟨?_, ?_⟩⟩
    · refine Finset.sum_congr rfl fun u _ => ?_
      by_cases hu : u = t
      · rw [hu, hsame]
      · exact hbudget u hu
    · refine Finset.sum_le_sum fun u _ => ?_
      by_cases hu : u = t
      · rw [hu, hzero'.2]
        exact Nat.zero_le _
      · exact htodo (by rw [hsame]; exact lt_irrefl _) u hu
  · have hmem : t ∈ F := by
      by_contra hnot
      exact ht (hF t hnot)
    rcases R.own hs hpermits ha ht with hlt | ⟨hsame, hown⟩
    · left
      left
      refine Finset.sum_lt_sum (fun u _ => ?_) ⟨t, hmem, hlt⟩
      by_cases hu : u = t
      · rw [hu]
        exact hlt.le
      · exact (hbudget u hu).le
    · have hsum : ∑ u ∈ F, R.budget (s'.loc u) = ∑ u ∈ F, R.budget (s.loc u) := by
        refine Finset.sum_congr rfl fun u _ => ?_
        by_cases hu : u = t
        · rw [hu, hsame]
        · exact hbudget u hu
      have hle : ∀ u ∈ F, R.todo s'.mem (s'.loc u) ≤ R.todo s.mem (s.loc u) := by
        intro u _
        by_cases hu : u = t
        · rw [hu]
          rcases hown with hlt | ⟨-, hle⟩
          · exact hlt.le
          · exact hle
        · exact htodo (by rw [hsame]; exact lt_irrefl _) u hu
      rcases hown with hlt | ⟨hwaits, -⟩
      · exact Or.inl (Or.inr ⟨hsum, Finset.sum_lt_sum hle ⟨t, hmem, hlt⟩⟩)
      · exact Or.inr ⟨hwaits, Or.inr ⟨hsum, Finset.sum_le_sum hle⟩⟩

/-- **No livelock**: without more work, all steps wait from some tick on. -/
theorem eventually_waits [WellFoundedLT A] (R : Ranking P permits Rests Waits A)
    (r : (P.restrict permits).Endless) (hs : P.Reachable (r.states 0)) :
    ∃ n, ∀ m ≥ n, ∀ t a, r.moves m = some (t, a) →
      Waits ((r.states m).loc t) ((r.states (m + 1)).loc t) := by
  obtain ⟨F, hF⟩ := R.exists_covers hs
  have hall : ∀ n, P.Reachable (r.states n) ∧ Covers Rests F (r.states n) := fun n =>
    r.invariant (I := fun s => P.Reachable s ∧ Covers Rests F s) ⟨hs, hF⟩
      (fun _ _ t a _ hI hnext =>
        have hstep : (P.restrict permits).StepBy t _ _ := ⟨a, hnext⟩
        ⟨hI.1.step ⟨t, hstep.of_restrict⟩, R.covers_step hI.1 hstep hI.2⟩) (Nat.zero_le n)
  have hmeasure : ∀ n t a, r.moves n = some (t, a) →
      R.measure F (r.states (n + 1)) < R.measure F (r.states n) ∨
        Waits ((r.states n).loc t) ((r.states (n + 1)).loc t) ∧
          R.measure F (r.states (n + 1)) ≤ R.measure F (r.states n) := by
    intro n t a hmove
    have htick := r.tick n
    rw [hmove] at htick
    cases htick with
    | act hnext => exact R.measure_step (hall n).1 ⟨a, hnext⟩ (hall n).2
  have hanti : Antitone fun n => R.measure F (r.states n) := by
    refine antitone_nat_of_succ_le fun n => ?_
    cases hmove : r.moves n with
    | none =>
        have htick := r.tick n
        rw [hmove] at htick
        generalize r.states (n + 1) = s' at htick
        cases htick
        exact le_rfl
    | some move =>
        rcases hmeasure n move.1 move.2 hmove with hlt | ⟨-, hle⟩
        · exact hlt.le
        · exact hle
  obtain ⟨n, hn⟩ := WellFoundedLT.antitone_chain_condition hanti
  refine ⟨n, fun m hm t a hmove => ?_⟩
  rcases hmeasure m t a hmove with hlt | ⟨hwaits, -⟩
  · rw [← hn m hm, ← hn (m + 1) (by omega)] at hlt
    exact absurd hlt (lt_irrefl _)
  · exact hwaits

/-- **No deadlock**: if, unless all threads rest, some step that does not wait is within reach,
then every reachable state can come to rest. -/
theorem drains [WellFoundedLT A] (R : Ranking P permits Rests Waits A)
    (hprogress : ∀ s, P.Reachable s → (∃ t, ¬Rests (s.loc t)) → ∃ s₁ t s₂,
      Relation.ReflTransGen (P.restrict permits).Step s s₁ ∧
        (P.restrict permits).StepBy t s₁ s₂ ∧ ¬Waits (s₁.loc t) (s₂.loc t))
    (hs : P.Reachable s) :
    ∃ s', Relation.ReflTransGen (P.restrict permits).Step s s' ∧ P.Reachable s' ∧
      ∀ t, Rests (s'.loc t) := by
  obtain ⟨F, hF⟩ := R.exists_covers hs
  generalize hmeasure : R.measure F s = n
  induction n using WellFoundedLT.induction generalizing s with
  | ind n ih =>
      by_cases hall : ∀ t, Rests (s.loc t)
      · exact ⟨s, .refl, hs, hall⟩
      · push Not at hall
        obtain ⟨s₁, t, s₂, hpath, hstep, hnot⟩ := hprogress s hs hall
        -- the steps on the way keep the sums, the last one brings them down
        have hs₁ : P.Reachable s₁ ∧ Covers Rests F s₁ ∧ R.measure F s₁ ≤ R.measure F s := by
          clear hstep hnot
          induction hpath with
          | refl => exact ⟨hs, hF, le_rfl⟩
          | tail _ hnext ih =>
              obtain ⟨hreach, hcovers, hle⟩ := ih
              obtain ⟨u, hu⟩ := hnext
              refine ⟨hreach.step ⟨u, hu.of_restrict⟩, R.covers_step hreach hu hcovers, ?_⟩
              rcases R.measure_step hreach hu hcovers with hlt | ⟨-, hle'⟩
              · exact hlt.le.trans hle
              · exact hle'.trans hle
        obtain ⟨hreach, hcovers, hle⟩ := hs₁
        have hlt := (R.measure_step hreach hstep hcovers).resolve_right fun h => hnot h.1
        obtain ⟨s', hrest, hreach', hrests⟩ := ih _ (hmeasure ▸ hlt.trans_le hle)
          (hreach.step ⟨t, hstep.of_restrict⟩) (R.covers_step hreach hstep hcovers) rfl
        exact ⟨s', (hpath.tail ⟨t, hstep⟩).trans hrest, hreach', hrests⟩

end Ranking

end Program
end Interleaving
