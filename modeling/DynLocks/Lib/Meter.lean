import DynLocks.Lib.Interleaving
import Mathlib.Algebra.BigOperators.Group.List.Basic
import Mathlib.Data.List.Count
import Mathlib.Data.UInt

/-!
# DynLocks.Lib.Meter

Two counters that a call puts something into on its way: first the time it took
to a total of times, then one to a number of calls.

* `Program.along` — what an observer notes of the steps of a schedule;
* `Meter` — where a thread stands between the two, and that every step goes on
  from there and changes the counters accordingly;
* `Meter.exec_time`, `Meter.exec_operations` — the counters hold what has been
  noted, whatever else the threads do;
* `Meter.threads_perm` — between two states in which nobody is in a call, every
  call has put in one time and one number.
-/

namespace Interleaving

variable {Tid Act Mem Loc : Type} [DecidableEq Tid]

/-! ## notes along a schedule -/

namespace Program

variable {Note : Type} (P : Program Tid Act Mem Loc)

/-- What is noted of the steps of a schedule, each with its thread; the notes end where a thread is
blocked. -/
def along (note : Act → Loc → Loc → Option Note) :
    List (Tid × Act) → State Tid Mem Loc → List (Tid × Note)
  | [], _ => []
  | (t, a) :: schedule, s =>
      match P.next t a s with
      | none => []
      | some s' => ((note a (s.loc t) (s'.loc t)).map (t, ·)).toList ++ along note schedule s'

variable {P} {schedule : List (Tid × Act)} {s s' : State Tid Mem Loc}

/-- What a thread does when it acts. -/
theorem next_elim {t : Tid} {a : Act} (h : P.next t a s = some s') :
    P.advance t a s.mem (s.loc t) = some (s'.mem, s'.loc t) ∧ ∀ u, u ≠ t → s'.loc u = s.loc u := by
  obtain ⟨⟨m', l'⟩, hadvance, rfl⟩ := Option.map_eq_some_iff.mp h
  exact ⟨by simpa using hadvance, fun u hu => Function.update_of_ne hu _ _⟩

theorem along_cons {note : Act → Loc → Loc → Option Note} {t : Tid} {a : Act}
    (h : P.next t a s = some s') :
    P.along note ((t, a) :: schedule) s =
      ((note a (s.loc t) (s'.loc t)).map (t, ·)).toList ++ P.along note schedule s' := by
  rw [along, h]

/-- A number that every step changes by what its note is worth. -/
theorem sum_along {A : Type} [AddMonoid A] {value : Mem → A}
    (note : Act → Loc → Loc → Option Note) (worth : Note → A)
    (hstep : ∀ t a m l m' l', P.advance t a m l = some (m', l') →
      value m' = value m + ((note a l l').map worth).getD 0)
    (h : P.exec schedule s = some s') :
    value s'.mem = value s.mem + ((P.along note schedule s).map fun n => worth n.2).sum := by
  induction schedule generalizing s with
  | nil =>
      cases h
      simp [along]
  | cons move schedule ih =>
      obtain ⟨t, a⟩ := move
      obtain ⟨mid, hmid, hrest⟩ := Option.bind_eq_some_iff.mp h
      obtain ⟨hadvance, -⟩ := next_elim hmid
      rw [ih hrest, along_cons hmid, List.map_append, List.sum_append, ← add_assoc,
        hstep t a _ _ _ _ hadvance]
      cases note a (s.loc t) (mid.loc t) <;> simp

/-- What a thread has noted and what it still owes stay in balance with what it has noted elsewhere,
if its steps keep them so. -/
theorem count_along {Note' : Type} {note : Act → Loc → Loc → Option Note}
    {note' : Act → Loc → Loc → Option Note'} (owes : Loc → ℕ)
    (hstep : ∀ t a m l m' l', P.advance t a m l = some (m', l') →
      (note a l l').toList.length + owes l = (note' a l l').toList.length + owes l')
    (h : P.exec schedule s = some s') (t : Tid) :
    ((P.along note schedule s).map Prod.fst).count t + owes (s.loc t) =
      ((P.along note' schedule s).map Prod.fst).count t + owes (s'.loc t) := by
  induction schedule generalizing s with
  | nil =>
      cases h
      simp [along]
  | cons move schedule ih =>
      obtain ⟨u, a⟩ := move
      obtain ⟨mid, hmid, hrest⟩ := Option.bind_eq_some_iff.mp h
      obtain ⟨hadvance, hframe⟩ := next_elim hmid
      have hrest := ih hrest
      have hnote := hstep u a _ _ _ _ hadvance
      have hcount : ∀ {N : Type} (x : Option N),
          ((x.map (u, ·)).toList.map Prod.fst).count t = if u = t then x.toList.length else 0 := by
        intro N x
        cases x <;> simp [List.count_singleton]
      rw [along_cons hmid, along_cons hmid, List.map_append, List.map_append, List.count_append,
        List.count_append, hcount, hcount]
      by_cases hu : u = t
      · subst hu
        simp only [if_true]
        omega
      · rw [hframe t (Ne.symm hu)] at hrest
        simp only [if_neg hu]
        omega

end Program

/-! ## meters -/

/-- Where a thread stands: in no call, in a call that has put in nothing yet, its time, or its number
too. -/
inductive Meter.Stage
  | outside
  | waiting
  | timed
  | counted
  deriving DecidableEq

/-- What a step does to the stage of its thread and to the counters, if the clock says `delta`. -/
inductive Meter.Move (operations : UInt64) (time delta : ℕ) : Stage → UInt64 → ℕ → Stage → Prop
  | keep {stage : Stage} : Move operations time delta stage operations time stage
  | call : Move operations time delta .outside operations time .waiting
  | time : Move operations time delta .waiting operations (time + delta) .timed
  | count : Move operations time delta .timed (operations + 1) time .counted
  | returns : Move operations time delta .counted operations time .outside

namespace Meter

/-- Has the call its time still to put in? -/
def Stage.owesTime : Stage → ℕ
  | .waiting => 1
  | _ => 0

/-- Has the call its number still to put in? -/
def Stage.owesCount : Stage → ℕ
  | .waiting => 1
  | .timed => 1
  | _ => 0

section Moves

variable {operations operations' : UInt64} {time time' delta : ℕ} {x y : Stage}
  (h : Move operations time delta x operations' time' y)

include h

theorem Move.time_eq :
    time' = time + if x = .waiting ∧ y = .timed then delta else 0 := by
  cases h with
  | keep => cases x <;> rfl
  | _ => rfl

theorem Move.operations_eq :
    operations' = operations + if x = .timed ∧ y = .counted then 1 else 0 := by
  cases h with
  | keep => cases x <;> exact (UInt64.add_zero _).symm
  | count => rfl
  | _ => exact (UInt64.add_zero _).symm

theorem Move.owesTime_eq : (if x = .outside ∧ y = .waiting then 1 else 0) + x.owesTime =
    (if x = .waiting ∧ y = .timed then 1 else 0) + y.owesTime := by
  cases h with
  | keep => cases x <;> rfl
  | _ => rfl

theorem Move.owesCount_eq : (if x = .outside ∧ y = .waiting then 1 else 0) + x.owesCount =
    (if x = .timed ∧ y = .counted then 1 else 0) + y.owesCount := by
  cases h with
  | keep => cases x <;> rfl
  | _ => rfl

end Moves

/-- A step that leaves the counters alone and its thread where it stands. -/
theorem Move.of_eq {operations operations' : UInt64} {time time' delta : ℕ} {x y : Stage}
    (hcounters : (operations', time') = (operations, time)) (hstage : y = x) :
    Move operations time delta x operations' time' y := by
  cases hcounters
  cases hstage
  exact .keep

/-- One turn of a loop that adds a time to the total: an exchange that succeeds if the total is still
the `current` one and it does not fail for no reason, and is tried again otherwise. -/
theorem Move.of_exchange {Pc : Type} {operations : Mem → UInt64} {time : Mem → ℕ}
    {stage : Pc → Stage} {m added m' : Mem} {done retry : Pc} {pc : Option Pc} {spurious : Bool}
    {current delta : ℕ}
    (h : (if time m = current ∧ spurious = false then some (added, some done)
      else some (m, some retry)) = some (m', pc))
    (hoperations : operations added = operations m) (htime : time added = current + delta)
    (hdone : stage done = .timed) (hretry : stage retry = .waiting) :
    Move (operations m) (time m) delta .waiting (operations m') (time m')
      (pc.elim .counted stage) := by
  split at h
  · next hsucceeds =>
      cases h
      rw [hoperations, htime, ← hsucceeds.1, Option.elim_some, hdone]
      exact .time
  · cases h
    rw [Option.elim_some, hretry]
    exact .keep

end Meter

/-- The two counters of a program. -/
structure Meter (P : Program Tid Act Mem Loc) where
  stage : Loc → Meter.Stage
  operations : Mem → UInt64
  time : Mem → ℕ
  delta : Act → ℕ
  advance : ∀ {t a m l m' l'}, P.advance t a m l = some (m', l') →
    Meter.Move (operations m) (time m) (delta a) (stage l) (operations m') (time m') (stage l')

namespace Meter

variable {P : Program Tid Act Mem Loc} (M : Meter P)

/-- A call begins. -/
def began (_ : Act) (l l' : Loc) : Option Unit :=
  if M.stage l = .outside ∧ M.stage l' = .waiting then some () else none

/-- A call puts in its time. -/
def timed (a : Act) (l l' : Loc) : Option ℕ :=
  if M.stage l = .waiting ∧ M.stage l' = .timed then some (M.delta a) else none

/-- A call puts in its number. -/
def counted (_ : Act) (l l' : Loc) : Option Unit :=
  if M.stage l = .timed ∧ M.stage l' = .counted then some () else none

/-- The threads that begin a call, in order. -/
def calls (schedule : List (Tid × Act)) (s : State Tid Mem Loc) : List Tid :=
  (P.along M.began schedule s).map Prod.fst

/-- The times that are put in, each with its thread. -/
def times (schedule : List (Tid × Act)) (s : State Tid Mem Loc) : List (Tid × ℕ) :=
  P.along M.timed schedule s

/-- The threads that put in a number. -/
def counts (schedule : List (Tid × Act)) (s : State Tid Mem Loc) : List Tid :=
  (P.along M.counted schedule s).map Prod.fst

/-- Nobody is in a call. -/
def Rests (s : State Tid Mem Loc) : Prop := ∀ t, M.stage (s.loc t) = .outside

/-- The counters of a program whose threads only do what is permitted. -/
def restrict (permits : Loc → Act → Bool) : Meter (P.restrict permits) where
  stage := M.stage
  operations := M.operations
  time := M.time
  delta := M.delta
  advance h := M.advance (Program.advance_of_restrict h).2

variable {M} {schedule : List (Tid × Act)} {s s' : State Tid Mem Loc}

/-- The total holds the times that have been put in. -/
theorem exec_time (h : P.exec schedule s = some s') :
    M.time s'.mem = M.time s.mem + ((M.times schedule s).map Prod.snd).sum := by
  refine Program.sum_along M.timed id (fun t a m l m' l' hadvance => ?_) h
  rw [(M.advance hadvance).time_eq, timed]
  split <;> rfl

/-- The number is that of the calls that have put in theirs. -/
theorem exec_operations (h : P.exec schedule s = some s') :
    M.operations s'.mem = M.operations s.mem + UInt64.ofNat (M.counts schedule s).length := by
  have hsum : M.operations s'.mem = M.operations s.mem +
      ((P.along M.counted schedule s).map fun _ => (1 : UInt64)).sum := by
    refine Program.sum_along M.counted (fun _ => 1)
      (fun t a m l m' l' hadvance => ?_) h
    rw [(M.advance hadvance).operations_eq, counted]
    split <;> rfl
  rw [hsum, counts, List.length_map]
  congr 1
  induction P.along M.counted schedule s with
  | nil => rfl
  | cons n ns ih =>
      rw [List.map_cons, List.sum_cons, ih, List.length_cons, UInt64.ofNat_add, UInt64.add_comm]
      rfl

/-- Every call that has begun has put in its time or is about to. -/
theorem count_times (h : P.exec schedule s = some s') (t : Tid) :
    (M.calls schedule s).count t + (M.stage (s.loc t)).owesTime =
      ((M.times schedule s).map Prod.fst).count t + (M.stage (s'.loc t)).owesTime := by
  refine Program.count_along (fun l => (M.stage l).owesTime)
    (fun u a m l m' l' hadvance => ?_) h t
  have hmove := (M.advance hadvance).owesTime_eq
  simp only [began, timed]
  split <;> split <;> simp_all

/-- Every call that has begun has put in its number or is about to. -/
theorem count_counts (h : P.exec schedule s = some s') (t : Tid) :
    (M.calls schedule s).count t + (M.stage (s.loc t)).owesCount =
      (M.counts schedule s).count t + (M.stage (s'.loc t)).owesCount := by
  refine Program.count_along (fun l => (M.stage l).owesCount)
    (fun u a m l m' l' hadvance => ?_) h t
  have hmove := (M.advance hadvance).owesCount_eq
  simp only [began, counted]
  split <;> split <;> simp_all

/-- **Between two rests** every call puts in one time and one number. -/
theorem threads_perm (h : P.exec schedule s = some s') (hs : M.Rests s) (hs' : M.Rests s') :
    ((M.times schedule s).map Prod.fst).Perm (M.calls schedule s) ∧
      (M.counts schedule s).Perm (M.calls schedule s) := by
  constructor
  · refine List.perm_iff_count.mpr fun t => ?_
    have hcount := count_times (M := M) h t
    rw [hs t, hs' t] at hcount
    exact (Nat.add_right_cancel hcount).symm
  · refine List.perm_iff_count.mpr fun t => ?_
    have hcount := count_counts (M := M) h t
    rw [hs t, hs' t] at hcount
    exact (Nat.add_right_cancel hcount).symm

end Meter

end Interleaving
