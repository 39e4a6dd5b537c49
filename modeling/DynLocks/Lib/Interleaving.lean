import Mathlib.Logic.Function.Basic
import Mathlib.Logic.Relation
import Mathlib.Data.Nat.Notation

/-!
# DynLocks.Lib.Interleaving

Sequential threads over one shared memory, sequentially consistent: a step is
one action of one thread, and it reads and writes the shared memory and the
thread's own local state only.

* `Program.Reachable` with `Reachable.invariant`, the induction every safety
  result goes through, and `Reachable.localInvariant`, its form for an
  assertion about one thread (own steps keep it, other steps do not interfere);
* `Owned` / `LockMove` — the holder recorded in a mutex is the thread whose
  program counter says so; `FlagOwned` / `FlagMove` — the same for a flag that
  is taken by an exchange;
* `Reachable.project` — a component of a program;
* `Program.resume` / `Program.restrict` — a program from another state on, and with some of its
  actions only;
* `Program.Run` — finite runs with the schedule made explicit, and `Run.Call`, an operation in
  one of them.
-/

namespace Interleaving

/-! ## programs and their states -/

/-- A program: the initial memory, where each thread starts, and what thread `t` does on the
action `a` from a memory and its local state (`none` where it is blocked). -/
structure Program (Tid Act Mem Loc : Type) where
  init : Mem
  start : Tid → Loc
  advance : Tid → Act → Mem → Loc → Option (Mem × Loc)

/-- The shared memory and the local state of every thread. -/
structure State (Tid Mem Loc : Type) where
  mem : Mem
  loc : Tid → Loc

variable {Tid Act Mem Loc : Type}

namespace Program

variable [DecidableEq Tid] (P : Program Tid Act Mem Loc)

def initial : State Tid Mem Loc := ⟨P.init, P.start⟩

/-- Let thread `t` do `a`. -/
def next (t : Tid) (a : Act) (s : State Tid Mem Loc) : Option (State Tid Mem Loc) :=
  (P.advance t a s.mem (s.loc t)).map fun r => ⟨r.1, Function.update s.loc t r.2⟩

/-- A step of thread `t`. -/
def StepBy (t : Tid) (s s' : State Tid Mem Loc) : Prop := ∃ a, P.next t a s = some s'

/-- A step of some thread. -/
def Step (s s' : State Tid Mem Loc) : Prop := ∃ t, P.StepBy t s s'

/-- The states some interleaving leads to. -/
inductive Reachable : State Tid Mem Loc → Prop
  | init : Reachable P.initial
  | step {s s' : State Tid Mem Loc} : Reachable s → P.Step s s' → Reachable s'

variable {P} {t : Tid} {s s' : State Tid Mem Loc}

/-- What a step of thread `t` changes. -/
theorem StepBy.elim (h : P.StepBy t s s') :
    (∃ a, P.advance t a s.mem (s.loc t) = some (s'.mem, s'.loc t)) ∧
      ∀ u, u ≠ t → s'.loc u = s.loc u := by
  obtain ⟨a, ha⟩ := h
  obtain ⟨⟨m', l'⟩, hadv, rfl⟩ := Option.map_eq_some_iff.mp ha
  refine ⟨⟨a, ?_⟩, fun u hu => Function.update_of_ne hu _ _⟩
  simpa using hadv

/-- A step is determined by what `advance` returns. -/
theorem stepBy_of_advance {a : Act} {m' : Mem} {l' : Loc}
    (h : P.advance t a s.mem (s.loc t) = some (m', l')) :
    P.StepBy t s ⟨m', Function.update s.loc t l'⟩ :=
  ⟨a, by rw [next, h]; rfl⟩

/-- A thread that can move does. -/
theorem exists_stepBy {a : Act} {m' : Mem} {l' : Loc}
    (h : P.advance t a s.mem (s.loc t) = some (m', l')) :
    ∃ s', P.StepBy t s s' ∧ s'.mem = m' ∧ s'.loc t = l' ∧ ∀ u, u ≠ t → s'.loc u = s.loc u :=
  ⟨_, stepBy_of_advance h, rfl, Function.update_self .., fun _ hu => Function.update_of_ne hu ..⟩

/-! ## invariants -/

/-- What holds at the start and is kept by every step holds in every reachable state. -/
theorem Reachable.invariant {I : State Tid Mem Loc → Prop} (hinit : I P.initial)
    (hstep : ∀ s s', P.Reachable s → I s → P.Step s s' → I s') {s : State Tid Mem Loc}
    (h : P.Reachable s) : I s := by
  induction h with
  | init => exact hinit
  | step hs hstep' ih => exact hstep _ _ hs ih hstep'

/-- An assertion about one thread: its own steps keep it and no other step interferes. -/
theorem Reachable.localInvariant {Q : Tid → Mem → Loc → Prop}
    (hinit : ∀ t, Q t P.init (P.start t))
    (hself : ∀ s t a m' l', P.Reachable s → Q t s.mem (s.loc t) →
      P.advance t a s.mem (s.loc t) = some (m', l') → Q t m' l')
    (hother : ∀ s t u a m' l', P.Reachable s → u ≠ t → Q t s.mem (s.loc t) →
      P.advance u a s.mem (s.loc u) = some (m', l') → Q t m' (s.loc t))
    {s : State Tid Mem Loc} (h : P.Reachable s) (t : Tid) : Q t s.mem (s.loc t) := by
  refine h.invariant (I := fun s => ∀ t, Q t s.mem (s.loc t)) hinit ?_ t
  intro s s' hs hQ ⟨u, hu⟩ t
  obtain ⟨⟨a, ha⟩, hframe⟩ := hu.elim
  by_cases hut : u = t
  · subst hut
    exact hself s u a _ _ hs (hQ u) ha
  · rw [hframe t (Ne.symm hut)]
    exact hother s t u a _ _ hs hut (hQ t) ha

/-- A component of a program: if every step of the program is one of the component or leaves it
alone, then the component is in a state that it reaches on its own. -/
theorem Reachable.project {Act₀ Mem₀ Loc₀ : Type} {P₀ : Program Tid Act₀ Mem₀ Loc₀}
    (mem : Mem → Mem₀) (loc : Loc → Loc₀) (hinit : mem P.init = P₀.init)
    (hstart : ∀ t, loc (P.start t) = P₀.start t)
    (hadvance : ∀ {t a m l m' l'}, P.advance t a m l = some (m', l') →
      (mem m' = mem m ∧ loc l' = loc l) ∨
        ∃ b, P₀.advance t b (mem m) (loc l) = some (mem m', loc l'))
    {s : State Tid Mem Loc} (h : P.Reachable s) :
    P₀.Reachable ⟨mem s.mem, fun t => loc (s.loc t)⟩ := by
  refine h.invariant (I := fun s => P₀.Reachable ⟨mem s.mem, fun t => loc (s.loc t)⟩) ?_ ?_
  · have hinitial : (⟨mem P.init, fun t => loc (P.start t)⟩ : State Tid Mem₀ Loc₀) = P₀.initial := by
      rw [hinit, funext hstart]
      rfl
    exact hinitial ▸ .init
  · intro s s' _ hreach ⟨t, ht⟩
    obtain ⟨⟨a, ha⟩, hframe⟩ := ht.elim
    have hloc : (fun u => loc (s'.loc u)) =
        Function.update (fun u => loc (s.loc u)) t (loc (s'.loc t)) := by
      funext u
      by_cases hu : u = t
      · rw [hu, Function.update_self]
      · rw [Function.update_of_ne hu, hframe u hu]
    rcases hadvance ha with ⟨hmem, hsame⟩ | ⟨b, hb⟩
    · rw [hloc, hmem, hsame, Function.update_eq_self]
      exact hreach
    · rw [hloc]
      exact hreach.step ⟨t, stepBy_of_advance hb⟩

/-! ## parts of a program -/

/-- The program from another state on. -/
def resume (P : Program Tid Act Mem Loc) (s₀ : State Tid Mem Loc) : Program Tid Act Mem Loc where
  init := s₀.mem
  start := s₀.loc
  advance := P.advance

/-- What a program reaches from a reachable state is reachable. -/
theorem Reachable.of_resume {s₀ s : State Tid Mem Loc} (h : (P.resume s₀).Reachable s)
    (hs₀ : P.Reachable s₀) : P.Reachable s := by
  induction h with
  | init => exact hs₀
  | step _ hstep ih => exact ih.step hstep

/-- The program whose threads only do what is permitted. -/
def restrict (P : Program Tid Act Mem Loc) (permits : Loc → Act → Bool) :
    Program Tid Act Mem Loc where
  init := P.init
  start := P.start
  advance t a m l := if permits l a then P.advance t a m l else none

omit [DecidableEq Tid] in
theorem advance_of_restrict {permits : Loc → Act → Bool} {t : Tid} {a : Act} {m m' : Mem}
    {l l' : Loc} (h : (P.restrict permits).advance t a m l = some (m', l')) :
    permits l a = true ∧ P.advance t a m l = some (m', l') := by
  simp only [restrict] at h
  split at h
  · next hpermits => exact ⟨hpermits, h⟩
  · contradiction

theorem StepBy.of_restrict {permits : Loc → Act → Bool}
    (h : (P.restrict permits).StepBy t s s') : P.StepBy t s s' := by
  obtain ⟨a, ha⟩ := h
  obtain ⟨⟨m', l'⟩, hadvance, rfl⟩ := Option.map_eq_some_iff.mp ha
  exact stepBy_of_advance (advance_of_restrict hadvance).2

/-- What the threads reach with what is permitted, they reach. -/
theorem Reachable.of_restrict {permits : Loc → Act → Bool}
    (h : (P.restrict permits).Reachable s) : P.Reachable s := by
  induction h with
  | init => exact .init
  | step _ hstep ih =>
      obtain ⟨t, ht⟩ := hstep
      exact ih.step ⟨t, ht.of_restrict⟩

end Program

/-! ## mutexes and flags -/

/-- The recorded holder is the one thread that holds. -/
def Owned (own : Option Tid) (holds : Tid → Prop) : Prop := ∀ u, own = some u ↔ holds u

/-- What one step of thread `t` may do to a mutex: leave it, take it when it is free, or give
it back. -/
inductive LockMove (t : Tid) : Option Tid → Prop → Option Tid → Prop → Prop
  | keep {own : Option Tid} {held held' : Prop} : (held' ↔ held) →
      LockMove t own held own held'
  | take {held held' : Prop} : held' → LockMove t none held (some t) held'
  | give {own : Option Tid} {held held' : Prop} : held → ¬held' →
      LockMove t own held none held'

/-- A mutex that is free is taken. -/
theorem LockMove.take_of_free {t : Tid} {own : Option Tid} {held held' : Prop} (hfree : own = none)
    (htaken : held') : LockMove t own held (some t) held' := by
  subst hfree
  exact .take htaken

/-- Taking one mutex of an array, seen from mutex `i`. -/
theorem LockMove.update_some {ι : Type} [DecidableEq ι] {t : Tid} {owner : ι → Option Tid}
    {next i : ι} {holds holds' : ι → Prop} (hfree : owner next = none) (htaken : holds' next)
    (hrest : i ≠ next → (holds' i ↔ holds i)) :
    LockMove t (owner i) (holds i) (Function.update owner next (some t) i) (holds' i) := by
  by_cases hi : i = next
  · subst hi
    rw [Function.update_self]
    exact .take_of_free hfree htaken
  · rw [Function.update_of_ne hi]
    exact .keep (hrest hi)

/-- Giving back one mutex of an array, seen from mutex `i`. -/
theorem LockMove.update_none {ι : Type} [DecidableEq ι] {t : Tid} {owner : ι → Option Tid}
    {next i : ι} {holds holds' : ι → Prop} (hheld : holds next) (hgiven : ¬holds' next)
    (hrest : i ≠ next → (holds' i ↔ holds i)) :
    LockMove t (owner i) (holds i) (Function.update owner next none i) (holds' i) := by
  by_cases hi : i = next
  · subst hi
    rw [Function.update_self]
    exact .give hheld hgiven
  · rw [Function.update_of_ne hi]
    exact .keep (hrest hi)

theorem Owned.unique {own : Option Tid} {holds : Tid → Prop} (h : Owned own holds) {t u : Tid}
    (ht : holds t) (hu : holds u) : t = u :=
  Option.some.inj (((h t).mpr ht).symm.trans ((h u).mpr hu))

theorem Owned.move {own own' : Option Tid} {holds holds' : Tid → Prop} {t : Tid}
    (h : Owned own holds) (hmove : LockMove t own (holds t) own' (holds' t))
    (hframe : ∀ u, u ≠ t → (holds' u ↔ holds u)) : Owned own' holds' := by
  intro u
  by_cases hu : u = t
  · subst hu
    cases hmove with
    | keep hiff => rw [hiff]; exact h u
    | take htaken => exact ⟨fun _ => htaken, fun _ => rfl⟩
    | give _ hnot => exact ⟨fun heq => by contradiction, fun hh => absurd hh hnot⟩
  · rw [hframe u hu, ← h u]
    cases hmove with
    | keep => exact Iff.rfl
    | take => exact ⟨fun heq => absurd (Option.some.inj heq).symm hu, fun heq => by contradiction⟩
    | give hheld =>
        rw [(h t).mpr hheld]
        exact ⟨fun heq => by contradiction, fun heq => absurd (Option.some.inj heq).symm hu⟩

/-- A mutex whose holder is recorded by every step is always held as recorded. -/
theorem Program.Reachable.owned [DecidableEq Tid] {P : Program Tid Act Mem Loc}
    (own : Mem → Option Tid) (holds : Loc → Prop) (hinit : own P.init = none)
    (hstart : ∀ t, ¬holds (P.start t))
    (hmove : ∀ s t a m' l', P.Reachable s → P.advance t a s.mem (s.loc t) = some (m', l') →
      LockMove t (own s.mem) (holds (s.loc t)) (own m') (holds l'))
    {s : State Tid Mem Loc} (h : P.Reachable s) : Owned (own s.mem) fun t => holds (s.loc t) := by
  refine h.invariant (I := fun s => Owned (own s.mem) fun t => holds (s.loc t)) ?_ ?_
  · intro u
    show own P.init = some u ↔ holds (P.start u)
    rw [hinit]
    exact ⟨fun heq => by contradiction, fun hh => absurd hh (hstart u)⟩
  · intro s s' hs howned ⟨t, ht⟩
    obtain ⟨⟨a, ha⟩, hframe⟩ := ht.elim
    exact howned.move (hmove s t a _ _ hs ha) fun u hu => by rw [hframe u hu]

/-- A flag is up exactly while one thread, and no more, is in the region it guards. -/
def FlagOwned (flag : Bool) (inside : Tid → Prop) : Prop :=
  ∃ own : Option Tid, flag = own.isSome ∧ Owned own inside

/-- What one step of thread `t` may do to such a flag. -/
inductive FlagMove : Bool → Prop → Bool → Prop → Prop
  | keep {flag : Bool} {held held' : Prop} : (held' ↔ held) → FlagMove flag held flag held'
  | take {held held' : Prop} : held' → FlagMove false held true held'
  | give {flag : Bool} {held held' : Prop} : held → ¬held' → FlagMove flag held false held'

theorem FlagOwned.unique {flag : Bool} {inside : Tid → Prop} (h : FlagOwned flag inside)
    {t u : Tid} (ht : inside t) (hu : inside u) : t = u := by
  obtain ⟨own, -, howned⟩ := h
  exact howned.unique ht hu

theorem FlagOwned.move {flag flag' : Bool} {inside inside' : Tid → Prop} {t : Tid}
    (h : FlagOwned flag inside) (hmove : FlagMove flag (inside t) flag' (inside' t))
    (hframe : ∀ u, u ≠ t → (inside' u ↔ inside u)) : FlagOwned flag' inside' := by
  obtain ⟨own, rfl, howned⟩ := h
  generalize hflag : own.isSome = flag at hmove
  cases hmove with
  | keep hiff => exact ⟨own, hflag.symm, howned.move (.keep hiff) hframe⟩
  | take htaken =>
      obtain rfl : own = none := by simpa using hflag
      exact ⟨some t, rfl, howned.move (.take htaken) hframe⟩
  | give hheld hnot => exact ⟨none, rfl, howned.move (.give hheld hnot) hframe⟩

/-! ## runs -/

namespace Program

variable [DecidableEq Tid] {P : Program Tid Act Mem Loc}

/-- Let the threads act in the given order. -/
def exec (P : Program Tid Act Mem Loc) : List (Tid × Act) → State Tid Mem Loc →
    Option (State Tid Mem Loc)
  | [], s => some s
  | (t, a) :: schedule, s => (P.next t a s).bind (exec P schedule)

/-- What a schedule leads to is reachable. -/
theorem reachable_exec {schedule : List (Tid × Act)} {s s' : State Tid Mem Loc}
    (hs : P.Reachable s) (h : P.exec schedule s = some s') : P.Reachable s' := by
  induction schedule generalizing s with
  | nil =>
      simp only [exec, Option.some.injEq] at h
      exact h ▸ hs
  | cons move schedule ih =>
      obtain ⟨mid, hmid, hrest⟩ := Option.bind_eq_some_iff.mp h
      exact ih (hs.step ⟨move.1, move.2, hmid⟩) hrest

/-- The step of a thread whose local state is known. -/
theorem exec_cons {t : Tid} {a : Act} {s : State Tid Mem Loc} {m' : Mem} {l l' : Loc}
    (hloc : s.loc t = l) (h : P.advance t a s.mem l = some (m', l')) (schedule : List (Tid × Act)) :
    P.exec ((t, a) :: schedule) s = P.exec schedule ⟨m', Function.update s.loc t l'⟩ := by
  rw [exec, next, hloc, h, Option.map_some, Option.bind_some]

/-- The step of a thread that has just moved. -/
theorem exec_cons_update {t : Tid} {a : Act} {m m' : Mem} {l l' : Loc} (loc : Tid → Loc)
    (h : P.advance t a m l = some (m', l')) (schedule : List (Tid × Act)) :
    P.exec ((t, a) :: schedule) ⟨m, Function.update loc t l⟩ =
      P.exec schedule ⟨m', Function.update loc t l'⟩ := by
  rw [exec_cons (Function.update_self t l loc) h, Function.update_idem]

theorem exec_append (schedule rest : List (Tid × Act)) (s : State Tid Mem Loc) :
    P.exec (schedule ++ rest) s = (P.exec schedule s).bind (P.exec rest) := by
  induction schedule generalizing s with
  | nil => rfl
  | cons move schedule ih =>
      rw [List.cons_append, exec, exec, Option.bind_assoc]
      congr 1
      funext mid
      exact ih mid

/-- Thread `t` gets from one memory and local state to another while the others stand still. -/
def Alone (P : Program Tid Act Mem Loc) (t : Tid) : Mem × Loc → Mem × Loc → Prop :=
  Relation.ReflTransGen fun x y => ∃ a, P.advance t a x.1 x.2 = some y

omit [DecidableEq Tid] in
theorem Alone.single {t : Tid} {a : Act} {m m' : Mem} {l l' : Loc}
    (h : P.advance t a m l = some (m', l')) : P.Alone t (m, l) (m', l') :=
  Relation.ReflTransGen.single ⟨a, h⟩

/-- Where a thread gets alone is reachable. -/
theorem Alone.reachable {t : Tid} {s : State Tid Mem Loc} {x : Mem × Loc}
    (h : P.Alone t (s.mem, s.loc t) x) (hs : P.Reachable s) :
    P.Reachable ⟨x.1, Function.update s.loc t x.2⟩ := by
  induction h with
  | refl =>
      rw [Function.update_eq_self]
      exact hs
  | @tail x y _ hstep ih =>
      obtain ⟨a, ha⟩ := hstep
      refine ih.step ⟨t, a, ?_⟩
      rw [next]
      dsimp only
      rw [Function.update_self, ha, Option.map_some, Function.update_idem]

/-- A finite run: the states it passes and the thread that takes each step. -/
structure Run (P : Program Tid Act Mem Loc) where
  length : ℕ
  states : ℕ → State Tid Mem Loc
  who : ℕ → Tid
  start : states 0 = P.initial
  step : ∀ n < length, P.StepBy (who n) (states n) (states (n + 1))

/-- The run of a schedule in which no thread blocks; `t` stands in beyond the end of it. -/
def Run.ofSchedule (P : Program Tid Act Mem Loc) (schedule : List (Tid × Act)) (t : Tid)
    (h : (P.exec schedule P.initial).isSome) : Run P where
  length := schedule.length
  states n := (P.exec (schedule.take n) P.initial).getD P.initial
  who n := ((schedule.map Prod.fst)[n]?).getD t
  start := rfl
  step n hn := by
    have hsplit : schedule.take (n + 1) = schedule.take n ++ [schedule[n]] :=
      List.take_succ_eq_append_getElem hn
    have hsome : (P.exec (schedule.take (n + 1)) P.initial).isSome := by
      rw [← List.take_append_drop (n + 1) schedule, exec_append] at h
      exact Option.isSome_of_isSome_bind h
    obtain ⟨s', hs'⟩ := Option.isSome_iff_exists.mp hsome
    rw [hs']
    rw [hsplit, exec_append] at hs'
    obtain ⟨s, hs, hlast⟩ := Option.bind_eq_some_iff.mp hs'
    obtain ⟨mid, hmid, hend⟩ := Option.bind_eq_some_iff.mp hlast
    cases hend
    rw [hs]
    exact ⟨schedule[n].2, by simpa [hn] using hmid⟩

theorem Run.reachable (r : Run P) {n : ℕ} (hn : n ≤ r.length) : P.Reachable (r.states n) := by
  induction n with
  | zero => rw [r.start]; exact .init
  | succ n ih => exact (ih (by omega)).step ⟨r.who n, r.step n hn⟩

/-- Only its own steps move a thread. -/
theorem Run.stepBy_of_ne (r : Run P) {n : ℕ} (hn : n < r.length) {t : Tid}
    (hne : (r.states (n + 1)).loc t ≠ (r.states n).loc t) :
    P.StepBy t (r.states n) (r.states (n + 1)) := by
  have hstep := r.step n hn
  by_cases ht : t = r.who n
  · rw [ht]
    exact hstep
  · exact absurd (hstep.elim.2 t ht) hne

/-- Thread `t` starts an operation from `start` in step `a` of the run, is `running` it up to state
`b`, and has then come to `returned`. -/
structure Run.Call (r : Run P) (t : Tid) (a b : ℕ) (start : Loc)
    (enter : Mem → Option (Mem × Loc)) (running : Loc → Prop) (returned : Loc) : Prop where
  before : a < b
  length : b ≤ r.length
  starts : (r.states a).loc t = start
  enters : enter (r.states a).mem = some ((r.states (a + 1)).mem, (r.states (a + 1)).loc t)
  inside : ∀ n, a < n → n < b → running ((r.states n).loc t)
  returns : (r.states b).loc t = returned

/-- An operation that does not return at once returns in a step of its own. -/
theorem Run.Call.exit {r : Run P} {t : Tid} {a b : ℕ} {start returned : Loc}
    {enter : Mem → Option (Mem × Loc)} {running : Loc → Prop}
    (h : r.Call t a b start enter running returned) (hrunning : ¬running returned)
    (hlong : ∀ m m', enter m ≠ some (m', returned)) :
    ∃ n, a < n ∧ n + 1 = b ∧ running ((r.states n).loc t) ∧
      P.StepBy t (r.states n) (r.states (n + 1)) := by
  have hbefore := h.before
  have hlt : a + 1 < b := by
    rcases Nat.lt_or_eq_of_le hbefore with hlt | heq
    · exact hlt
    · have henters := h.enters
      rw [show a + 1 = b from heq, h.returns] at henters
      exact absurd henters (hlong _ _)
  have hinside := h.inside (b - 1) (by omega) (by omega)
  have hend : b - 1 + 1 = b := by omega
  refine ⟨b - 1, by omega, hend, hinside, r.stepBy_of_ne ?_ fun heq => ?_⟩
  · have := h.length
    omega
  · rw [hend, h.returns] at heq
    exact hrunning (heq ▸ hinside)

/-- A run with one more step. -/
def Run.snoc (r : Run P) {t : Tid} {s' : State Tid Mem Loc}
    (h : P.StepBy t (r.states r.length) s') : Run P where
  length := r.length + 1
  states n := if n ≤ r.length then r.states n else s'
  who n := if n < r.length then r.who n else t
  start := by rw [if_pos (Nat.zero_le _), r.start]
  step n hn := by
    by_cases hlt : n < r.length
    · rw [if_pos hlt, if_pos (Nat.le_of_lt hlt), if_pos (show n + 1 ≤ r.length from hlt)]
      exact r.step n hlt
    · obtain rfl : n = r.length := by omega
      rw [if_neg hlt, if_pos (Nat.le_refl _), if_neg (by omega)]
      exact h

/-- Up to its last state but one, a run with one more step is the run itself. -/
theorem Run.snoc_states (r : Run P) {t : Tid} {s' : State Tid Mem Loc}
    (h : P.StepBy t (r.states r.length) s') {n : ℕ} (hn : n ≤ r.length) :
    (r.snoc h).states n = r.states n := if_pos hn

/-- A run goes on by any step from its last state. -/
theorem Run.exists_snoc (r : Run P) {t : Tid} {s' : State Tid Mem Loc}
    (h : P.StepBy t (r.states r.length) s') :
    ∃ r' : Run P, r'.length = r.length + 1 ∧ r'.states r'.length = s' ∧ r'.who r.length = t ∧
      (∀ n ≤ r.length, r'.states n = r.states n) ∧ ∀ n < r.length, r'.who n = r.who n :=
  ⟨r.snoc h, rfl, if_neg (show ¬ r.length + 1 ≤ r.length by omega), if_neg (Nat.lt_irrefl _),
    fun _ hn => if_pos hn, fun _ hn => if_pos hn⟩

theorem Run.snoc_last (r : Run P) {t : Tid} {s' : State Tid Mem Loc}
    (h : P.StepBy t (r.states r.length) s') : (r.snoc h).states (r.length + 1) = s' :=
  if_neg (by omega)

/-- Every reachable state is the last one of a run. -/
theorem Reachable.exists_run {s : State Tid Mem Loc} (hs : P.Reachable s) (t : Tid) :
    ∃ r : Run P, r.states r.length = s := by
  induction hs with
  | init => exact ⟨⟨0, fun _ => P.initial, fun _ => t, rfl, fun n hn => absurd hn (by omega)⟩, rfl⟩
  | step _ hstep ih =>
      obtain ⟨r, rfl⟩ := ih
      obtain ⟨u, hu⟩ := hstep
      exact ⟨r.snoc hu, r.snoc_last hu⟩

/-- A run goes on along any further steps; the states they leave keep their property. -/
theorem Run.extend (r : Run P) {C : State Tid Mem Loc → Prop} {s' : State Tid Mem Loc}
    (h : Relation.ReflTransGen (fun s s' => C s ∧ P.Step s s') (r.states r.length) s') :
    ∃ r' : Run P, r.length ≤ r'.length ∧ r'.states r'.length = s' ∧
      (∀ n ≤ r.length, r'.states n = r.states n) ∧ (∀ n < r.length, r'.who n = r.who n) ∧
        ∀ n, r.length ≤ n → n < r'.length → C (r'.states n) := by
  induction h with
  | refl => exact ⟨r, Nat.le_refl _, rfl, fun _ _ => rfl, fun _ _ => rfl, fun n _ _ => by omega⟩
  | tail _ hstep ih =>
      obtain ⟨r', hle, rfl, hstates, hwho, hC⟩ := ih
      obtain ⟨hlast, u, hu⟩ := hstep
      refine ⟨r'.snoc hu, Nat.le_succ_of_le hle, r'.snoc_last hu, fun n hn => ?_, fun n hn => ?_,
        fun n hrn hn => ?_⟩
      · rw [r'.snoc_states hu (Nat.le_trans hn hle), hstates n hn]
      · rw [← hwho n hn]
        exact if_pos (Nat.lt_of_lt_of_le hn hle)
      · have hn' : n ≤ r'.length := Nat.le_of_lt_succ hn
        rw [r'.snoc_states hu hn']
        rcases Nat.lt_or_eq_of_le hn' with hlt | rfl
        · exact hC n hrn hlt
        · exact hlast

/-- A thread that can enter an operation and get to its end alone does so in some run. -/
theorem Reachable.exists_call {s : State Tid Mem Loc} (hs : P.Reachable s) {t : Tid} {a : Act}
    {start : Loc} {enter : Mem → Option (Mem × Loc)} {running : Loc → Prop} {x y : Mem × Loc}
    (hstart : s.loc t = start) (henter : enter s.mem = some x)
    (hadvance : P.advance t a s.mem start = some x)
    (halone : Relation.ReflTransGen
      (fun x y => running x.2 ∧ ∃ a, P.advance t a x.1 x.2 = some y) x y) :
    ∃ (r : Run P) (i : ℕ), r.Call t i r.length start enter running y.2 := by
  suffices h : ∃ (r : Run P) (i : ℕ), r.states r.length = ⟨y.1, Function.update s.loc t y.2⟩ ∧
      r.Call t i r.length start enter running y.2 by
    obtain ⟨r, i, -, hcall⟩ := h
    exact ⟨r, i, hcall⟩
  induction halone with
  | refl =>
      obtain ⟨r, rfl⟩ := hs.exists_run t
      have hstep : P.StepBy t (r.states r.length)
          ⟨x.1, Function.update (r.states r.length).loc t x.2⟩ :=
        stepBy_of_advance (by rw [hstart]; exact hadvance)
      refine ⟨r.snoc hstep, r.length, r.snoc_last hstep, ?_⟩
      refine ⟨Nat.lt_succ_self _, (Nat.le_refl _), ?_, ?_, ?_, ?_⟩
      · rw [r.snoc_states hstep (Nat.le_refl _), hstart]
      · rw [r.snoc_states hstep (Nat.le_refl _), r.snoc_last hstep, henter]
        dsimp only
        rw [Function.update_self]
      · intro n hn hn'
        change n < r.length + 1 at hn'
        omega
      · change ((r.snoc hstep).states (r.length + 1)).loc t = x.2
        rw [r.snoc_last hstep]
        exact Function.update_self _ _ _
  | @tail y z _ hyz ih =>
      obtain ⟨r, i, hlast, hcall⟩ := ih
      obtain ⟨hrunning, a, ha⟩ := hyz
      have hloc : (r.states r.length).loc t = y.2 := by
        rw [hlast]
        exact Function.update_self _ _ _
      have hstep : P.StepBy t (r.states r.length) ⟨z.1, Function.update s.loc t z.2⟩ := by
        have hmove : P.StepBy t (r.states r.length)
            ⟨z.1, Function.update (r.states r.length).loc t z.2⟩ :=
          stepBy_of_advance (by rw [hloc, hlast]; exact ha)
        rw [hlast] at hmove ⊢
        dsimp only at hmove
        rwa [Function.update_idem] at hmove
      refine ⟨r.snoc hstep, i, r.snoc_last hstep, ?_⟩
      have hbefore := hcall.before
      refine ⟨Nat.lt_trans hbefore (Nat.lt_succ_self _), (Nat.le_refl _), ?_, ?_, ?_, ?_⟩
      · rw [r.snoc_states hstep (Nat.le_of_lt hbefore), hcall.starts]
      · rw [r.snoc_states hstep (Nat.le_of_lt hbefore), r.snoc_states hstep hbefore]
        exact hcall.enters
      · intro n hn hn'
        change n < r.length + 1 at hn'
        rw [r.snoc_states hstep (Nat.le_of_lt_succ hn')]
        rcases Nat.lt_or_eq_of_le (Nat.le_of_lt_succ hn') with hlt | rfl
        · exact hcall.inside n hn hlt
        · rwa [hloc]
      · change ((r.snoc hstep).states (r.length + 1)).loc t = z.2
        rw [r.snoc_last hstep]
        exact Function.update_self _ _ _

end Program

end Interleaving
