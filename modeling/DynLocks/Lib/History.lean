import DynLocks.Lib.Interleaving
import Mathlib.Algebra.BigOperators.Group.List.Basic
import Mathlib.Data.List.Nodup
import Mathlib.Data.List.Range

/-!
# DynLocks.Lib.History

What the threads of a run do, event by event, if every step says what its thread
does in it.

* `Run.log` — the events of one thread, `Run.trace` those of all threads in the
  order in which they happen;
* `Run.trace_perm` — the trace is made of the logs of the threads;
* `Run.log_owed` — a thread that does what it owes has done, at any time, all but
  what it still owes;
* `Run.sum_trace` — a number that every step changes by what its events are worth.
-/

namespace Interleaving

variable {Tid Act Mem Loc Event : Type} [DecidableEq Tid] {P : Program Tid Act Mem Loc}

namespace Program

/-! ## logs and traces -/

/-- What thread `t` does from state `a` of the run to state `n`, if `events` says what a step
does. -/
def Run.log (r : Run P) (events : Loc → Loc → List Event) (t : Tid) (a n : ℕ) : List Event :=
  (List.range' a (n - a)).flatMap fun i =>
    if r.who i = t then events ((r.states i).loc t) ((r.states (i + 1)).loc t) else []

theorem Run.log_succ (r : Run P) (events : Loc → Loc → List Event) (t : Tid) {a n : ℕ}
    (han : a ≤ n) :
    r.log events t a (n + 1) = r.log events t a n ++
      if r.who n = t then events ((r.states n).loc t) ((r.states (n + 1)).loc t) else [] := by
  rw [Run.log, show n + 1 - a = n - a + 1 by omega, List.range'_1_concat, List.flatMap_append,
    show a + (n - a) = n by omega]
  simp [Run.log]

@[simp] theorem Run.log_self (r : Run P) (events : Loc → Loc → List Event) (t : Tid) (a : ℕ) :
    r.log events t a a = [] := by
  simp [Run.log]

/-- What all threads do before state `n`, in the order of the run. -/
def Run.trace (r : Run P) (events : Loc → Loc → List Event) (n : ℕ) : List Event :=
  (List.range n).flatMap fun i =>
    events ((r.states i).loc (r.who i)) ((r.states (i + 1)).loc (r.who i))

@[simp] theorem Run.trace_zero (r : Run P) (events : Loc → Loc → List Event) :
    r.trace events 0 = [] := rfl

theorem Run.trace_succ (r : Run P) (events : Loc → Loc → List Event) (n : ℕ) :
    r.trace events (n + 1) = r.trace events n ++
      events ((r.states n).loc (r.who n)) ((r.states (n + 1)).loc (r.who n)) := by
  simp [Run.trace, List.range_succ]

end Program

/-! ## the trace and the logs -/

/-- Lists of which one grows, end to end. -/
theorem flatMap_perm_append {ι α : Type} {xs : List ι} (hnodup : xs.Nodup) {i : ι} (hi : i ∈ xs)
    {f f' : ι → List α} {more : List α} (hself : f' i = f i ++ more)
    (hrest : ∀ j, j ≠ i → f' j = f j) : (xs.flatMap f').Perm (xs.flatMap f ++ more) := by
  induction xs with
  | nil => contradiction
  | cons x xs ih =>
      obtain ⟨hx, hnodup⟩ := List.nodup_cons.mp hnodup
      rw [List.flatMap_cons, List.flatMap_cons, List.append_assoc]
      by_cases hxi : x = i
      · subst hxi
        have hsame : xs.flatMap f' = xs.flatMap f :=
          List.flatMap_congr fun j hj => hrest j fun heq => hx (heq ▸ hj)
        rw [hself, hsame, List.append_assoc]
        exact List.Perm.append_left _ List.perm_append_comm
      · have hmem : i ∈ xs := (List.mem_cons.mp hi).resolve_left (Ne.symm hxi)
        rw [hrest x hxi]
        exact List.Perm.append_left _ (ih hnodup hmem)

namespace Program

/-- The trace of a run is made of the logs of the threads, if no other thread does anything. -/
theorem Run.trace_perm (r : Run P) {events : Loc → Loc → List Event} {threads : List Tid}
    (hnodup : threads.Nodup)
    (honly : ∀ n < r.length, r.who n ∉ threads →
      events ((r.states n).loc (r.who n)) ((r.states (n + 1)).loc (r.who n)) = [])
    {n : ℕ} (hn : n ≤ r.length) :
    (r.trace events n).Perm (threads.flatMap fun t => r.log events t 0 n) := by
  induction n with
  | zero => simp
  | succ n ih =>
      have hprev := ih (by omega)
      rw [r.trace_succ]
      by_cases hwho : r.who n ∈ threads
      · have hself : r.log events (r.who n) 0 (n + 1) = r.log events (r.who n) 0 n ++
            events ((r.states n).loc (r.who n)) ((r.states (n + 1)).loc (r.who n)) := by
          rw [r.log_succ events _ (Nat.zero_le n), if_pos rfl]
        have hrest : ∀ t, t ≠ r.who n → r.log events t 0 (n + 1) = r.log events t 0 n := by
          intro t ht
          rw [r.log_succ events _ (Nat.zero_le n), if_neg (Ne.symm ht), List.append_nil]
        exact (hprev.append_right _).trans (flatMap_perm_append hnodup hwho hself hrest).symm
      · have hsame : (threads.flatMap fun t => r.log events t 0 (n + 1)) =
            threads.flatMap fun t => r.log events t 0 n := by
          refine List.flatMap_congr fun t ht => ?_
          have hne : ¬r.who n = t := fun heq => hwho (heq ▸ ht)
          rw [r.log_succ events _ (Nat.zero_le n), if_neg hne, List.append_nil]
        rw [honly n (by omega) hwho, hsame, List.append_nil]
        exact hprev

/-! ## what the events come to -/

/-- If every step does the first of what its thread owes, then what a thread has done and what it
still owes are, one after the other, what it owed at the start.  `none` stands for a thread that
cannot do what it owes. -/
theorem Run.log_owed (r : Run P) (events : Loc → Loc → List Event)
    (owed : Loc → Option (List Event))
    (hstep : ∀ s t a m' l', P.Reachable s → P.advance t a s.mem (s.loc t) = some (m', l') →
      owed (s.loc t) = (owed l').map (events (s.loc t) l' ++ ·))
    (t : Tid) {n : ℕ} (hn : n ≤ r.length) :
    owed (P.start t) = (owed ((r.states n).loc t)).map (r.log events t 0 n ++ ·) := by
  induction n with
  | zero =>
      have hstart : (r.states 0).loc t = P.start t := by rw [r.start]; rfl
      simp [hstart]
  | succ n ih =>
      obtain ⟨⟨a, ha⟩, hframe⟩ := (r.step n (by omega)).elim
      rw [ih (by omega), r.log_succ events t (Nat.zero_le n)]
      by_cases ht : r.who n = t
      · rw [ht] at ha
        rw [if_pos ht, hstep _ t a _ _ (r.reachable (by omega)) ha, Option.map_map]
        congr 1
        funext rest
        exact (List.append_assoc _ _ _).symm
      · rw [if_neg ht, List.append_nil, hframe t (Ne.symm ht)]

/-- A number that every step changes by what its events are worth. -/
theorem Run.sum_trace {A : Type} [AddMonoid A] (r : Run P) (events : Loc → Loc → List Event)
    (value : Mem → A) {worth : Event → A}
    (hstep : ∀ s t a m' l', P.Reachable s → P.advance t a s.mem (s.loc t) = some (m', l') →
      value m' = value s.mem + ((events (s.loc t) l').map worth).sum) {n : ℕ} (hn : n ≤ r.length) :
    value (r.states n).mem = value P.init + ((r.trace events n).map worth).sum := by
  induction n with
  | zero =>
      have hstart : (r.states 0).mem = P.init := by rw [r.start]; rfl
      simp [hstart]
  | succ n ih =>
      obtain ⟨⟨a, ha⟩, -⟩ := (r.step n (by omega)).elim
      rw [hstep _ _ a _ _ (r.reachable (by omega)) ha, ih (by omega), r.trace_succ,
        List.map_append, List.sum_append, add_assoc]

end Program
end Interleaving
