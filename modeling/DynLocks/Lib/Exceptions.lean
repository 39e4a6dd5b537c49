import DynLocks.Lib.Interleaving
import Mathlib.Data.List.Nodup
import Mathlib.Data.Nat.Init

/-!
# DynLocks.Lib.Exceptions

Exceptions in a program of threads and mutexes.  At some of its points a thread
may raise one instead of taking its step; the exception then passes the guards
the thread has built, innermost first, each of which unlocks a mutex, and leaves
the operation.

* `Guarded.owned` — if an exception passes exactly the guards of the mutexes its
  thread holds, recorded holders stay right while threads unwind;
* `Exceptions.handled` — the same when callers handle exceptions and go on;
* `Run.before_exceptions` — up to its first exception a run is one of the program
  without exceptions;
* `Run.Failure` — an operation that the first exception of a run leaves.
-/

namespace Interleaving

/-! ## unwinding -/

/-- Where a thread is: at a point of the program, among the guards that an exception passes, or
out of the operation. -/
inductive ExcLoc (Loc X : Type)
  | run (l : Loc)
  | unwind (held : List X)
  | thrown

/-- A thread acts, raises an exception, or passes a guard. -/
inductive ExcAct (Act D : Type)
  | act (a : Act)
  | raise (d : D)
  | unlock

/-- Where the exceptions are: `throws d m l` is the memory an exception raised at `l` leaves and the
mutexes whose guards it passes, `none` where nothing throws; what an operation that fails halfway
leaves in memory may depend on `d`. -/
structure Exceptions (Mem Loc D X : Type) where
  throws : D → Mem → Loc → Option (Mem × List X)
  unlock : X → Mem → Mem

variable {Tid Act Mem Loc D X : Type}

/-- With no guard left, the exception leaves the operation. -/
def ExcLoc.leave : List X → ExcLoc Loc X
  | [] => .thrown
  | x :: held => .unwind (x :: held)

/-- The mutexes a thread holds, as far as `holds` says it for the points of the program. -/
def ExcLoc.Holds (holds : Loc → X → Prop) : ExcLoc Loc X → X → Prop
  | .run l, x => holds l x
  | .unwind held, x => x ∈ held
  | .thrown, _ => False

theorem ExcLoc.holds_leave (holds : Loc → X → Prop) (held : List X) (x : X) :
    (ExcLoc.leave held).Holds holds x ↔ x ∈ held := by
  cases held with
  | nil => simp [leave, Holds]
  | cons y held => exact Iff.rfl

/-- The thread is at a point of the program that passes the test. -/
def ExcLoc.runs (test : Loc → Bool) : ExcLoc Loc X → Bool
  | .run l => test l
  | _ => false

theorem ExcLoc.of_runs {test : Loc → Bool} {l : ExcLoc Loc X} (h : l.runs test = true) :
    ∃ l', l = .run l' ∧ test l' = true := by
  cases l with
  | run l => exact ⟨l, rfl, h⟩
  | _ => contradiction

/-- The thread is among the guards that an exception passes. -/
def ExcLoc.unwinds : ExcLoc Loc X → Bool
  | .unwind _ => true
  | _ => false

/-- The exception has left the operation of the thread. -/
def ExcLoc.isThrown : ExcLoc Loc X → Bool
  | .thrown => true
  | _ => false

/-- The point of the program a thread is at, or was at the start. -/
def ExcLoc.point (l : Loc) : ExcLoc Loc X → Loc
  | .run l' => l'
  | _ => l

/-- In an operation that starts and returns where `idle` says, or among its guards. -/
def ExcLoc.inOperation (idle : Loc → Bool) : ExcLoc Loc X → Bool
  | .run l => !idle l
  | .unwind _ => true
  | .thrown => false

/-- What a thread does from one place to the next, if `acts` says what a step of the program does,
`raises` what one that throws has done and `unlocks` what the guard of a mutex does. -/
def ExcLoc.events {Event : Type} (acts : Loc → Loc → List Event) (raises : Loc → List Event)
    (unlocks : X → List Event) : ExcLoc Loc X → ExcLoc Loc X → List Event
  | .run l, .run l' => acts l l'
  | .run l, _ => raises l
  | .unwind (x :: _), _ => unlocks x
  | _, _ => []

theorem ExcLoc.events_leave {Event : Type} (acts : Loc → Loc → List Event)
    (raises : Loc → List Event) (unlocks : X → List Event) (l : Loc) (held : List X) :
    events acts raises unlocks (.run l) (.leave held) = raises l := by
  cases held <;> rfl

namespace Exceptions

variable (E : Exceptions Mem Loc D X) (P : Program Tid Act Mem Loc)

/-- The program with its exceptions. -/
def program : Program Tid (ExcAct Act D) Mem (ExcLoc Loc X) where
  init := P.init
  start t := .run (P.start t)
  advance t a m
    | .run l =>
        match a with
        | .act a => (P.advance t a m l).map fun r => (r.1, .run r.2)
        | .raise d => (E.throws d m l).map fun r => (r.1, .leave r.2)
        | .unlock => none
    | .unwind (x :: held) =>
        match a with
        | .unlock => some (E.unlock x m, .leave held)
        | _ => none
    | _ => none

/-- What one step of thread `t` does. -/
inductive Move (t : Tid) : Mem → ExcLoc Loc X → Mem → ExcLoc Loc X → Prop
  | act {a : Act} {m m' : Mem} {l l' : Loc} :
      P.advance t a m l = some (m', l') → Move t m (.run l) m' (.run l')
  | raise {d : D} {m m' : Mem} {l : Loc} {held : List X} :
      E.throws d m l = some (m', held) → Move t m (.run l) m' (.leave held)
  | unlock {m : Mem} {x : X} {held : List X} :
      Move t m (.unwind (x :: held)) (E.unlock x m) (.leave held)

variable {E P} {t : Tid}

theorem move_of_advance {a : ExcAct Act D} {m m' : Mem} {l l' : ExcLoc Loc X}
    (h : (E.program P).advance t a m l = some (m', l')) : E.Move P t m l m' l' := by
  cases l with
  | run l =>
      cases a with
      | act a =>
          simp only [program, Option.map_eq_some_iff, Prod.mk.injEq] at h
          obtain ⟨r, hadvance, rfl, rfl⟩ := h
          exact .act hadvance
      | raise d =>
          simp only [program, Option.map_eq_some_iff, Prod.mk.injEq] at h
          obtain ⟨r, hthrows, rfl, rfl⟩ := h
          exact .raise hthrows
      | unlock => contradiction
  | unwind held =>
      cases held with
      | nil => contradiction
      | cons x held =>
          cases a with
          | unlock => cases h; exact .unlock
          | _ => contradiction
  | thrown => contradiction

/-- Only from a point of the program does a step lead to one. -/
theorem Move.of_run {m m' : Mem} {l : ExcLoc Loc X} {l' : Loc} (h : E.Move P t m l m' (.run l')) :
    ∃ l₀ a, l = .run l₀ ∧ P.advance t a m l₀ = some (m', l') := by
  generalize htarget : ExcLoc.run l' = target at h
  cases h with
  | act hadvance => cases htarget; exact ⟨_, _, rfl, hadvance⟩
  | @raise _ _ _ _ held => cases held <;> contradiction
  | @unlock _ _ held => cases held <;> contradiction

/-! ## callers that handle exceptions -/

variable (E P) in
/-- The program in which a caller may handle an exception that has left an operation, and go on
where it started. -/
def handled : Program Tid (Option (ExcAct Act D)) Mem (ExcLoc Loc X) where
  init := P.init
  start t := .run (P.start t)
  advance t a m l :=
    match a with
    | some a => (E.program P).advance t a m l
    | none =>
        match l with
        | .thrown => some (m, .run (P.start t))
        | _ => none

theorem move_of_handled {a : Option (ExcAct Act D)} {m m' : Mem} {l l' : ExcLoc Loc X}
    (h : (E.handled P).advance t a m l = some (m', l')) :
    E.Move P t m l m' l' ∨ l = .thrown ∧ m' = m ∧ l' = .run (P.start t) := by
  cases a with
  | some a => exact Or.inl (move_of_advance h)
  | none =>
      cases l with
      | thrown => cases h; exact Or.inr ⟨rfl, rfl, rfl⟩
      | _ => contradiction

/-! ## recorded holders -/

/-- An exception passes exactly the guards of the mutexes its thread holds, each of them once.
`inv` is what the points of the program keep and the moves of the mutexes rely on. -/
structure Guarded [DecidableEq X] (E : Exceptions Mem Loc D X) (P : Program Tid Act Mem Loc)
    (owner : Mem → X → Option Tid) (holds : Loc → X → Prop) (inv : Loc → Prop) : Prop where
  free : ∀ x, owner P.init x = none
  start : ∀ t, inv (P.start t) ∧ ∀ x, ¬holds (P.start t) x
  keep : ∀ {t a m l m' l'}, inv l → P.advance t a m l = some (m', l') → inv l'
  move : ∀ {t a m l m' l'}, inv l → P.advance t a m l = some (m', l') →
    ∀ x, LockMove t (owner m x) (holds l x) (owner m' x) (holds l' x)
  throws : ∀ {d m l m' held}, E.throws d m l = some (m', held) →
    owner m' = owner m ∧ held.Nodup ∧ ∀ x, x ∈ held ↔ holds l x
  unlock : ∀ x m, owner (E.unlock x m) = Function.update (owner m) x none

section Owned

variable [DecidableEq Tid] [DecidableEq X] {owner : Mem → X → Option Tid} {holds : Loc → X → Prop}
  {inv : Loc → Prop} {s : State Tid Mem (ExcLoc Loc X)}

/-- What a thread keeps by its own steps. -/
def Kept (inv : Loc → Prop) : ExcLoc Loc X → Prop
  | .run l => inv l
  | .unwind held => held.Nodup
  | .thrown => True

omit [DecidableEq X] in
theorem kept_leave {held : List X} (h : held.Nodup) : Kept inv (.leave held) := by
  cases held with
  | nil => trivial
  | cons x held => exact h

omit [DecidableEq Tid] in
theorem Guarded.kept_move (hguarded : E.Guarded P owner holds inv) {m m' : Mem}
    {l l' : ExcLoc Loc X} (hkept : Kept inv l) (hmove : E.Move P t m l m' l') : Kept inv l' := by
  cases hmove with
  | act hadvance => exact hguarded.keep hkept hadvance
  | raise hthrows => exact kept_leave (hguarded.throws hthrows).2.1
  | unlock => exact kept_leave (List.nodup_cons.mp hkept).2

omit [DecidableEq Tid] in
/-- A step, an exception or a guard takes a mutex that is free, gives back one the thread holds, or
leaves it alone. -/
theorem Guarded.lockMove (hguarded : E.Guarded P owner holds inv) {m m' : Mem}
    {l l' : ExcLoc Loc X} (hkept : Kept inv l) (hmove : E.Move P t m l m' l') (x : X) :
    LockMove t (owner m x) (l.Holds holds x) (owner m' x) (l'.Holds holds x) := by
  cases hmove with
  | act hadvance => exact hguarded.move hkept hadvance x
  | @raise d _ _ l held hthrows =>
      obtain ⟨howner, -, hheld⟩ := hguarded.throws hthrows
      rw [howner]
      exact .keep ((ExcLoc.holds_leave holds held x).trans (hheld x))
  | @unlock m y held =>
      rw [hguarded.unlock]
      have hnot := (List.nodup_cons.mp hkept).1
      refine .update_none (List.mem_cons_self ..) ?_ fun hne => ?_
      · rwa [ExcLoc.holds_leave]
      · rw [ExcLoc.holds_leave]
        exact ⟨List.mem_cons_of_mem y, fun hmem => (List.mem_cons.mp hmem).resolve_left hne⟩

theorem Guarded.kept (hguarded : E.Guarded P owner holds inv) (hs : (E.program P).Reachable s)
    (t : Tid) : Kept inv (s.loc t) :=
  hs.localInvariant (P := E.program P) (Q := fun _ _ l => Kept inv l)
    (fun t => (hguarded.start t).1)
    (fun _ _ _ _ _ _ hkept h => hguarded.kept_move hkept (move_of_advance h))
    (fun _ _ _ _ _ _ _ _ hkept _ => hkept) t

/-- The recorded holder of a mutex is the one thread that holds it, unwinding or not. -/
theorem Guarded.owned (hguarded : E.Guarded P owner holds inv) (hs : (E.program P).Reachable s)
    (x : X) : Owned (owner s.mem x) fun t => (s.loc t).Holds holds x :=
  hs.owned (P := E.program P) (fun m => owner m x) (fun l => l.Holds holds x)
    (hguarded.free x) (fun t => (hguarded.start t).2 x)
    fun _ t _ _ _ hreach h => hguarded.lockMove (hguarded.kept hreach t) (move_of_advance h) x

/-- It is so as well if callers handle exceptions and go on. -/
theorem Guarded.owned_handled (hguarded : E.Guarded P owner holds inv)
    (hs : (E.handled P).Reachable s) (x : X) :
    Owned (owner s.mem x) fun t => (s.loc t).Holds holds x := by
  have hkept : ∀ {s}, (E.handled P).Reachable s → ∀ t, Kept inv (s.loc t) := fun hs t => by
    refine hs.localInvariant (P := E.handled P) (Q := fun _ _ l => Kept inv l)
      (fun t => (hguarded.start t).1) ?_ (fun _ _ _ _ _ _ _ _ hkept _ => hkept) t
    intro s t a m' l' _ hkept h
    rcases move_of_handled h with hmove | ⟨-, -, rfl⟩
    · exact hguarded.kept_move hkept hmove
    · exact (hguarded.start t).1
  refine hs.owned (P := E.handled P) (fun m => owner m x) (fun l => l.Holds holds x)
    (hguarded.free x) (fun t => (hguarded.start t).2 x) fun s t a m' l' hreach h => ?_
  rcases move_of_handled h with hmove | ⟨hthrown, rfl, rfl⟩
  · exact hguarded.lockMove (hkept hreach t) hmove x
  · rw [hthrown]
    exact .keep ⟨fun hholds => absurd hholds ((hguarded.start t).2 x), False.elim⟩

omit [DecidableEq X] in
/-- The outermost guard is passed last. -/
theorem mem_of_unwind {x : X} (hthrows : ∀ {d m l m' held}, E.throws d m l = some (m', held) →
      held = [] ∨ held.getLast? = some x)
    (hs : (E.program P).Reachable s) {held : List X} (hl : s.loc t = .unwind held) : x ∈ held := by
  have hlast : ∀ held, s.loc t = .unwind held → held.getLast? = some x := by
    refine hs.localInvariant (P := E.program P)
      (Q := fun _ _ l => ∀ held, l = .unwind held → held.getLast? = some x)
      (fun _ _ h => by contradiction) ?_ (fun _ _ _ _ _ _ _ _ hlast _ => hlast) t
    intro s t a m' l' _ hlast h held' hl'
    have hmove := move_of_advance h
    generalize s.loc t = l at hlast hmove
    cases hmove with
    | act => contradiction
    | @raise _ _ _ _ held hraise =>
        cases held with
        | nil => contradiction
        | cons y held =>
            obtain rfl : y :: held = held' := by cases hl'; rfl
            exact (hthrows hraise).resolve_left (by simp)
    | @unlock _ y held =>
        cases held with
        | nil => contradiction
        | cons z held =>
            obtain rfl : z :: held = held' := by cases hl'; rfl
            have := hlast _ rfl
            rwa [List.getLast?_cons_cons] at this
  exact List.mem_of_getLast? (hlast held hl)

end Owned

end Exceptions

/-! ## runs up to the first exception -/

namespace Program

variable [DecidableEq Tid] {E : Exceptions Mem Loc D X} {P : Program Tid Act Mem Loc}

/-- No thread has raised an exception. -/
def Undisturbed (s : State Tid Mem (ExcLoc Loc X)) : Prop := ∀ t, ∃ l, s.loc t = .run l

/-- The state without its exceptions. -/
def plain (P : Program Tid Act Mem Loc) (s : State Tid Mem (ExcLoc Loc X)) : State Tid Mem Loc :=
  ⟨s.mem, fun t => (s.loc t).point (P.start t)⟩

variable {s s' : State Tid Mem (ExcLoc Loc X)} {t : Tid}

omit [DecidableEq Tid] in
theorem Undisturbed.loc_eq (h : Undisturbed s) (t : Tid) :
    s.loc t = .run ((plain P s).loc t) := by
  obtain ⟨l, hl⟩ := h t
  simp [plain, hl, ExcLoc.point]

/-- A step from which no thread is unwinding is one of the program. -/
theorem Undisturbed.stepBy (h' : Undisturbed s') (hstep : (E.program P).StepBy t s s') :
    Undisturbed s ∧ P.StepBy t (plain P s) (plain P s') := by
  obtain ⟨⟨a, ha⟩, hframe⟩ := hstep.elim
  have hmove := Exceptions.move_of_advance ha
  rw [h'.loc_eq (P := P) t] at hmove
  obtain ⟨l, b, hl, hadvance⟩ := hmove.of_run
  have hpoint : (plain P s).loc t = l := by simp [plain, hl, ExcLoc.point]
  refine ⟨fun u => ?_, ?_⟩
  · by_cases hu : u = t
    · exact ⟨l, hu ▸ hl⟩
    · rw [← hframe u hu]
      exact h' u
  · have hnext : (plain P s').loc = Function.update (plain P s).loc t ((plain P s').loc t) := by
      funext u
      by_cases hu : u = t
      · rw [hu, Function.update_self]
      · rw [Function.update_of_ne hu]
        simp only [plain, hframe u hu]
    have hstate : plain P s' =
        ⟨s'.mem, Function.update (plain P s).loc t ((plain P s').loc t)⟩ := by
      rw [← hnext]
      rfl
    rw [hstate]
    exact stepBy_of_advance (by rw [hpoint]; exact hadvance)

/-- Up to the first exception a run is one of the program. -/
theorem Run.before_exceptions (r : Run (E.program P)) {n : ℕ} (hn : n ≤ r.length)
    (h : Undisturbed (r.states n)) :
    ∃ r' : Run P, r'.length = n ∧ ∀ i ≤ n, Undisturbed (r.states i) ∧
      r'.states i = plain P (r.states i) := by
  have hback : ∀ k ≤ n, Undisturbed (r.states (n - k)) := by
    intro k hk
    induction k with
    | zero => exact h
    | succ k ih =>
        have hstep := r.step (n - (k + 1)) (by omega)
        rw [show n - (k + 1) + 1 = n - k by omega] at hstep
        exact ((ih (by omega)).stepBy hstep).1
  have hall : ∀ i ≤ n, Undisturbed (r.states i) := fun i hi => by
    rw [show i = n - (n - i) by omega]
    exact hback (n - i) (by omega)
  refine ⟨⟨n, fun i => plain P (r.states i), r.who, ?_, fun i hi => ?_⟩, rfl,
    fun i hi => ⟨hall i hi, rfl⟩⟩
  · rw [r.start]
    rfl
  · exact ((hall (i + 1) hi).stepBy (r.step i (by omega))).2

/-- Thread `t` is `inCall` from state `a` to state `n` of the run; in state `n` it is at `l` and its
next step raises the first exception of the run, which leaves the operation in the step to state
`b`. -/
structure Run.Failure (r : Run (E.program P)) (t : Tid) (a n b : ℕ) (inCall : Loc → Prop) (l : Loc) :
    Prop where
  entered : a ≤ n
  raised : n < b
  length : b ≤ r.length
  calling : ∀ i, a ≤ i → i ≤ n → ∃ l, (r.states i).loc t = .run l ∧ inCall l
  point : (r.states n).loc t = .run l
  first : Undisturbed (r.states n)
  unwinding : ∀ i, n < i → i < b → ∃ held, (r.states i).loc t = .unwind held
  thrown : (r.states b).loc t = .thrown

/-- A failure of a run that can be evaluated. -/
theorem Run.Failure.of_tests {r : Run (E.program P)} {a n b : ℕ} {inCall : Loc → Prop}
    {test : Loc → Bool} (htest : ∀ l, test l = true → inCall l) (han : a ≤ n) (hnb : n < b)
    (hlength : b ≤ r.length) (hcalling : ∀ i ≤ n, a ≤ i → ((r.states i).loc t).runs test = true)
    (hfirst : ∀ u, ((r.states n).loc u).runs (fun _ => true) = true)
    (hunwinding : ∀ i < b, n < i → ((r.states i).loc t).unwinds = true)
    (hthrown : ((r.states b).loc t).isThrown = true) :
    ∃ l, test l = true ∧ r.Failure t a n b inCall l := by
  obtain ⟨l, hl, hpass⟩ := ExcLoc.of_runs (hcalling n (Nat.le_refl n) han)
  refine ⟨l, hpass, han, hnb, hlength, fun i hai hin => ?_, hl, fun u => ?_, fun i hni hib => ?_, ?_⟩
  · obtain ⟨l', hl', hpass'⟩ := ExcLoc.of_runs (hcalling i hin hai)
    exact ⟨l', hl', htest l' hpass'⟩
  · obtain ⟨l', hl', -⟩ := ExcLoc.of_runs (hfirst u)
    exact ⟨l', hl'⟩
  · have hunwinds := hunwinding i hib hni
    cases hloc : (r.states i).loc t with
    | unwind held => exact ⟨held, rfl⟩
    | _ => rw [hloc] at hunwinds; contradiction
  · cases hloc : (r.states b).loc t with
    | thrown => rfl
    | _ => rw [hloc] at hthrown; contradiction

/-- While the exception passes its guards, the thread is at no point of the program. -/
theorem Run.Failure.loc_ne {r : Run (E.program P)} {a n b : ℕ} {inCall : Loc → Prop} {l : Loc}
    (h : r.Failure t a n b inCall l) {i : ℕ} (hi : n < i) (hib : i ≤ b) (l' : Loc) :
    (r.states i).loc t ≠ .run l' := by
  intro heq
  rcases Nat.lt_or_eq_of_le hib with hlt | rfl
  · obtain ⟨held, hheld⟩ := h.unwinding i hi hlt
    rw [heq] at hheld
    contradiction
  · have := h.thrown
    rw [heq] at this
    contradiction

/-- The point the thread is at is one that throws. -/
theorem Run.Failure.throws {r : Run (E.program P)} {a n b : ℕ} {inCall : Loc → Prop} {l : Loc}
    (h : r.Failure t a n b inCall l) :
    ∃ d held, E.throws d (r.states n).mem l = some ((r.states (n + 1)).mem, held) ∧
      (r.states (n + 1)).loc t = .leave held := by
  have hlength := h.length
  have hbefore := h.raised
  have hnot := h.loc_ne (Nat.lt_succ_self n) hbefore
  obtain ⟨⟨act, ha⟩, -⟩ := (r.stepBy_of_ne (n := n) (t := t) (by omega) (by
    rw [h.point]
    exact hnot l)).elim
  rw [h.point] at ha
  have hmove := Exceptions.move_of_advance ha
  generalize (r.states (n + 1)).loc t = l' at hmove hnot
  generalize (r.states (n + 1)).mem = m' at hmove ⊢
  cases hmove with
  | act => exact absurd rfl (hnot _)
  | raise hthrows => exact ⟨_, _, hthrows, rfl⟩

/-- An exception that passes no guard leaves the operation at once. -/
theorem Run.Failure.eq_succ {r : Run (E.program P)} {a n b : ℕ} {inCall : Loc → Prop} {l : Loc}
    (h : r.Failure t a n b inCall l) (hthrown : (r.states (n + 1)).loc t = .thrown) : b = n + 1 := by
  have hraised := h.raised
  rcases Nat.lt_or_eq_of_le (Nat.succ_le_of_lt hraised) with hlt | heq
  · obtain ⟨held, hheld⟩ := h.unwinding (n + 1) (Nat.lt_succ_self n) hlt
    rw [hthrown] at hheld
    contradiction
  · exact heq.symm

/-- What neither the exception, nor the guards it passes, nor the steps of the other threads
meanwhile change is as it was when the exception was raised. -/
theorem Run.Failure.frame {C : Type} (f : Mem → C) {r : Run (E.program P)} {a n b : ℕ}
    {inCall : Loc → Prop} {l : Loc} (h : r.Failure t a n b inCall l)
    (hraise : ∀ {d m held}, E.throws d (r.states n).mem l = some (m, held) →
      f m = f (r.states n).mem)
    (hunlock : ∀ x m, f (E.unlock x m) = f m)
    (hother : ∀ i u, n < i → i < b → u ≠ t →
      (E.program P).StepBy u (r.states i) (r.states (i + 1)) →
      f (r.states (i + 1)).mem = f (r.states i).mem) :
    f (r.states b).mem = f (r.states n).mem := by
  have hlength := h.length
  have hbefore := h.raised
  have hupto : ∀ i, n < i → i ≤ b → f (r.states i).mem = f (r.states n).mem := by
    intro i hi
    induction i, hi using Nat.le_induction with
    | base =>
        intro _
        obtain ⟨d, held, hthrows, -⟩ := h.throws
        exact hraise hthrows
    | succ i hi ih =>
        intro hib
        rw [← ih (by omega)]
        have hstep := r.step i (by omega)
        by_cases hu : r.who i = t
        · rw [hu] at hstep
          obtain ⟨⟨act, ha⟩, -⟩ := hstep.elim
          obtain ⟨held, hheld⟩ := h.unwinding i (by omega) (by omega)
          rw [hheld] at ha
          have hmove := Exceptions.move_of_advance ha
          generalize (r.states (i + 1)).loc t = l' at hmove
          generalize (r.states (i + 1)).mem = m' at hmove ⊢
          cases hmove with
          | unlock => exact hunlock _ _
        · exact hother i _ (by omega) (by omega) hu hstep
  exact hupto b hbefore (Nat.le_refl b)

end Program

end Interleaving
