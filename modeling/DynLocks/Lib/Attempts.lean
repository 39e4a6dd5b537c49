import DynLocks.Lib.Exceptions
import DynLocks.Lib.History
import Mathlib.Data.List.Count
import Mathlib.Data.List.Range

/-!
# DynLocks.Lib.Attempts

An operation that needs a segment of an array of mutexes.  In an attempt it
picks a segment, locks the mutexes of it one by one, and gives back what it has
locked from the last to the first: because the segment turned out to be stale,
because the function it runs under the mutexes has returned, or because a
`lock()` or that function has thrown.

* `Run.Calling.describes` — the induction along a call, over the log of its thread;
* `Point` / `Point.Step` — the points of such an operation and its steps;
* `Describes.step` — the log of the call so far consists of attempts, the last
  of which may be under way;
* `Describes.neutral` — so between attempts and at the end nothing is held, and
  the function has run at most once.
-/

namespace Interleaving

/-! ## calls of a run -/

namespace Program

variable {Tid Act Mem Loc Event A : Type} [DecidableEq Tid] {P : Program Tid Act Mem Loc}

/-- Thread `t` starts an operation from `start` in step `a` of the run and has been `running` it
before state `n`. -/
structure Run.Calling (r : Run P) (t : Tid) (a n : ℕ) (start : Loc)
    (enter : Mem → Option (Mem × Loc)) (running : Loc → Prop) : Prop where
  before : a < n
  length : n ≤ r.length
  who : r.who a = t
  starts : (r.states a).loc t = start
  enters : enter (r.states a).mem = some ((r.states (a + 1)).mem, (r.states (a + 1)).loc t)
  inside : ∀ i, a < i → i < n → running ((r.states i).loc t)

/-- Where one may look at what a thread runs, a call can be read off the states of the run. -/
theorem Run.Calling.of_tests {r : Run P} {t : Tid} {a n : ℕ} {start : Loc}
    {enter : Mem → Option (Mem × Loc)} {running : Loc → Bool} (hbefore : a < n)
    (hlength : n ≤ r.length) (hwho : r.who a = t) (hstarts : (r.states a).loc t = start)
    (henters : enter (r.states a).mem = some ((r.states (a + 1)).mem, (r.states (a + 1)).loc t))
    (hrunning : ∀ i < n, a < i → running ((r.states i).loc t) = true) :
    r.Calling t a n start enter (fun l => running l = true) :=
  ⟨hbefore, hlength, hwho, hstarts, henters, fun i hi hin => hrunning i hin hi⟩

/-- If the steps of the operation are matched by those of an abstract one, then at every moment of a
call its log is one of the abstract operation, which is at a point that matches. -/
theorem Run.Calling.describes {r : Run P} {t : Tid} {a n : ℕ} {start : Loc}
    {enter : Mem → Option (Mem × Loc)} {running : Loc → Prop} {events : Loc → Loc → List Event}
    {At : Loc → A → Prop} {Describes : A → List Event → Prop}
    (h : r.Calling t a n start enter running)
    (henter : ∀ m m' l', enter m = some (m', l') → ∃ p, At l' p ∧ Describes p (events start l'))
    (hstep : ∀ b m l m' l' p log, running l → At l p → Describes p log →
      P.advance t b m l = some (m', l') → ∃ p', At l' p' ∧ Describes p' (log ++ events l l')) :
    ∃ p, At ((r.states n).loc t) p ∧ Describes p (r.log events t a n) := by
  obtain ⟨hbefore, hlength, hwho, hstarts, henters, hinside⟩ := h
  induction n, hbefore using Nat.le_induction with
  | base =>
      obtain ⟨p, hp, hlog⟩ := henter _ _ _ henters
      refine ⟨p, hp, ?_⟩
      rw [r.log_succ events t (Nat.le_refl a), if_pos hwho, hstarts]
      simpa [Run.log] using hlog
  | succ n han ih =>
      obtain ⟨p, hp, hlog⟩ := ih (by omega) fun i hi hin => hinside i hi (by omega)
      obtain ⟨⟨b, hb⟩, hframe⟩ := (r.step n (by omega)).elim
      rw [r.log_succ events t (by omega)]
      by_cases ht : r.who n = t
      · rw [if_pos ht]
        rw [ht] at hb
        exact hstep b _ _ _ _ p _ (hinside n han (Nat.lt_succ_self n)) hp hlog hb
      · rw [if_neg ht, List.append_nil, hframe t (Ne.symm ht)]
        exact ⟨p, hp, hlog⟩

end Program

end Interleaving

namespace Attempts

/-! ## what an operation does -/

/-- What an operation does to its mutexes, the segment an attempt has picked, and the calls of the
function it runs under them.  A `lock()` that throws has not locked. -/
inductive Event
  | segment (first last : ℕ)
  | lock (i : ℕ)
  | unlock (i : ℕ)
  | call
  | raise
  deriving DecidableEq

/-- How an attempt ends. -/
inductive Outcome
  | retried
  | returned
  | lockThrew
  | callThrew
  deriving DecidableEq

/-- What happens between the last `lock()` of an attempt and the first `unlock()`. -/
def Outcome.events : Outcome → List Event
  | .retried => []
  | .returned => [.call]
  | .lockThrew => [.raise]
  | .callThrew => [.call, .raise]

@[simp] theorem Outcome.count_lock (outcome : Outcome) (i : ℕ) :
    outcome.events.count (.lock i) = 0 := by
  cases outcome <;> simp [events]

@[simp] theorem Outcome.count_unlock (outcome : Outcome) (i : ℕ) :
    outcome.events.count (.unlock i) = 0 := by
  cases outcome <;> simp [events]

/-- An attempt calls the function once at most. -/
theorem Outcome.count_call_le (outcome : Outcome) : outcome.events.count .call ≤ 1 := by
  cases outcome <;> decide

/-- An attempt at the mutexes from `first` to `last` that has locked `count` of them: all, unless a
`lock()` threw. -/
structure Attempt where
  first : ℕ
  last : ℕ
  count : ℕ
  outcome : Outcome
  first_le : first ≤ last
  count_le : count ≤ last + 1 - first
  all_iff : count = last + 1 - first ↔ outcome ≠ .lockThrew

namespace Attempt

variable (a : Attempt)

/-- The mutexes it has locked, in this order. -/
def locked : List ℕ := List.range' a.first a.count

/-- Up to the point where it starts to unlock. -/
def opening : List Event :=
  .segment a.first a.last :: a.locked.map .lock ++ a.outcome.events

/-- The whole attempt: what it has locked is unlocked in the reverse order. -/
def log : List Event := a.opening ++ a.locked.reverse.map .unlock

end Attempt

/-! ## the points of an operation -/

/-- Where an operation is: between two attempts, in front of the mutex `next` of its segment (of
which it holds all before), unlocking the last of `count` mutexes, or at the end. -/
inductive Point
  | between
  | taking (first last next : ℕ)
  | dropping (outcome : Outcome) (first count : ℕ)
  | finished (outcome : Outcome)

namespace Point

/-- After an attempt: the next one, or the end. -/
def ended : Outcome → Point
  | .retried => .between
  | outcome => .finished outcome

/-- With `count` mutexes left to unlock. -/
def drop (outcome : Outcome) (first : ℕ) : ℕ → Point
  | 0 => ended outcome
  | count + 1 => .dropping outcome first (count + 1)

/-- The mutexes that are held. -/
def held : Point → List ℕ
  | .taking first _ next => List.range' first (next - first)
  | .dropping _ first count => List.range' first count
  | _ => []

/-- What has happened between the locks and the unlocks of the last attempt. -/
def settled : Point → List Event
  | .dropping outcome _ _ => outcome.events
  | .finished outcome => outcome.events
  | _ => []

/-- The segment is not empty, and the loops stay in their bounds. -/
def Bounded : Point → Prop
  | .taking first last next => first ≤ last ∧ first ≤ next ∧ next ≤ last + 1
  | .dropping _ _ count => 0 < count
  | .finished outcome => outcome ≠ .retried
  | .between => True

/-- What one step does. -/
inductive Step : Point → List Event → Point → Prop
  | stay {p : Point} : Step p [] p
  | pick {first last : ℕ} : first ≤ last →
      Step .between [.segment first last] (.taking first last first)
  | take {first last next : ℕ} : next ≤ last →
      Step (.taking first last next) [.lock next] (.taking first last (next + 1))
  | settle {first last : ℕ} {outcome : Outcome} : outcome ≠ .lockThrew →
      Step (.taking first last (last + 1)) outcome.events (drop outcome first (last + 1 - first))
  | fail {first last next : ℕ} : next ≤ last →
      Step (.taking first last next) Outcome.lockThrew.events (drop .lockThrew first (next - first))
  | unlock {first count : ℕ} {outcome : Outcome} :
      Step (.dropping outcome first (count + 1)) [.unlock (first + count)]
        (drop outcome first count)

@[simp] theorem held_drop (outcome : Outcome) (first count : ℕ) :
    (drop outcome first count).held = List.range' first count := by
  cases count with
  | zero => cases outcome <;> rfl
  | succ count => rfl

@[simp] theorem settled_drop (outcome : Outcome) (first count : ℕ) :
    (drop outcome first count).settled = outcome.events := by
  cases count with
  | zero => cases outcome <;> rfl
  | succ count => rfl

theorem drop_of_pos (outcome : Outcome) (first : ℕ) {count : ℕ} (h : 0 < count) :
    drop outcome first count = .dropping outcome first count := by
  obtain ⟨n, rfl⟩ := Nat.exists_eq_succ_of_ne_zero (Nat.ne_of_gt h)
  rfl

/-- With the whole segment locked, the function returns. -/
theorem Step.returned {first last : ℕ} (h : first ≤ last) :
    Step (.taking first last (last + 1)) [.call]
      (.dropping .returned first (last + 1 - first)) := by
  rw [← drop_of_pos .returned first (show 0 < last + 1 - first by omega)]
  exact .settle (show Outcome.returned ≠ .lockThrew by decide)

/-- With the whole segment locked, the attempt turns out to be stale. -/
theorem Step.retried {first last : ℕ} (h : first ≤ last) :
    Step (.taking first last (last + 1)) [] (.dropping .retried first (last + 1 - first)) := by
  rw [← drop_of_pos .retried first (show 0 < last + 1 - first by omega)]
  exact .settle (show Outcome.retried ≠ .lockThrew by decide)

/-- With the whole segment locked, the function throws. -/
theorem Step.callThrew (first last : ℕ) :
    Step (.taking first last (last + 1)) [.call, .raise]
      (drop .callThrew first (last + 1 - first)) :=
  .settle (show Outcome.callThrew ≠ .lockThrew by decide)

theorem bounded_drop (outcome : Outcome) (first count : ℕ) :
    (drop outcome first count).Bounded := by
  cases count with
  | zero => cases outcome <;> simp [drop, ended, Bounded]
  | succ count => exact Nat.succ_pos count

variable {p p' : Point} {events : List Event}

/-- A step keeps the call inside its segment. -/
theorem Step.bounded (h : p.Step events p') (hp : p.Bounded) : p'.Bounded := by
  cases h with
  | stay => exact hp
  | pick hle => exact ⟨hle, Nat.le_refl _, Nat.le_succ_of_le hle⟩
  | take hle =>
      obtain ⟨hsegment, hfirst, -⟩ := hp
      exact ⟨hsegment, Nat.le_succ_of_le hfirst, Nat.succ_le_succ hle⟩
  | settle => exact bounded_drop ..
  | fail => exact bounded_drop ..
  | unlock => exact bounded_drop ..

/-- What is locked is held until it is unlocked. -/
theorem Step.count_held (h : p.Step events p') (hp : p.Bounded) (i : ℕ) :
    p.held.count i + events.count (.lock i) = p'.held.count i + events.count (.unlock i) := by
  cases h with
  | stay => rfl
  | pick => simp [held]
  | @take first last next _ =>
      obtain ⟨-, hfirst, -⟩ := hp
      have hheld : (Point.taking first last (next + 1)).held =
          (Point.taking first last next).held ++ [next] := by
        simp only [held]
        rw [show next + 1 - first = next - first + 1 by omega, List.range'_1_concat,
          show first + (next - first) = next by omega]
      have hlock : List.count (Event.lock i) [.lock next] = List.count i [next] := by
        simp [List.count_singleton]
      rw [hheld, hlock, List.count_append]
      simp
  | settle => rw [held_drop, Outcome.count_lock, Outcome.count_unlock]; rfl
  | fail => rw [held_drop, Outcome.count_lock, Outcome.count_unlock]; rfl
  | @unlock first count outcome =>
      have hunlock : List.count (Event.unlock i) [.unlock (first + count)] =
          List.count i [first + count] := by
        simp [List.count_singleton]
      rw [held_drop, held, List.range'_1_concat, hunlock, List.count_append]
      simp

/-- Calls and exceptions are those of the attempt that settles. -/
theorem Step.count_settled (h : p.Step events p') {e : Event} (he : e = .call ∨ e = .raise) :
    p.settled.count e + events.count e = p'.settled.count e := by
  cases h with
  | stay => rfl
  | pick => rcases he with rfl | rfl <;> rfl
  | take => rcases he with rfl | rfl <;> rfl
  | settle => rw [settled_drop]; exact Nat.zero_add _
  | fail => rw [settled_drop]; exact Nat.zero_add _
  | unlock =>
      rw [settled_drop, settled]
      rcases he with rfl | rfl <;> rfl

end Point

/-! ## the log of a call -/

/-- Nothing but attempts that ended in a retry. -/
def Retries (log : List Event) : Prop :=
  ∃ past : List Attempt, (∀ a ∈ past, a.outcome = .retried) ∧ log = past.flatMap Attempt.log

/-- An attempt that has `count` of its mutexes still locked. -/
def Drops (outcome : Outcome) (first count : ℕ) (log : List Event) : Prop :=
  ∃ (before : List Event) (a : Attempt) (given : List ℕ), Retries before ∧ a.outcome = outcome ∧
    given ++ (List.range' first count).reverse = a.locked.reverse ∧
      log = before ++ (a.opening ++ given.map .unlock)

/-- A call whose last attempt did not end in a retry. -/
def Ends (outcome : Outcome) (log : List Event) : Prop :=
  ∃ (before : List Event) (a : Attempt), Retries before ∧ a.outcome = outcome ∧
    log = before ++ a.log

/-- What an operation that has come to this point has done. -/
def Point.Done : Point → List Event → Prop
  | .between, log => Retries log
  | .taking first last next, log => ∃ before, Retries before ∧
      log = before ++ .segment first last :: (List.range' first (next - first)).map .lock
  | .dropping outcome first count, log => Drops outcome first count log
  | .finished outcome, log => Ends outcome log

theorem retries_nil : Retries [] := ⟨[], by simp, rfl⟩

/-- After one more attempt that is tried again there are still only retries. -/
theorem Retries.append {before : List Event} (h : Retries before) {a : Attempt}
    (ha : a.outcome = .retried) : Retries (before ++ a.log) := by
  obtain ⟨past, hpast, rfl⟩ := h
  refine ⟨past ++ [a], fun b hb => ?_, by simp⟩
  rcases List.mem_append.mp hb with hmem | hmem
  · exact hpast b hmem
  · rwa [List.mem_singleton.mp hmem]

/-- An attempt that has unlocked everything is at its end. -/
theorem Drops.done {outcome : Outcome} {first count : ℕ} {log : List Event}
    (h : Drops outcome first count log) : (Point.drop outcome first count).Done log := by
  cases count with
  | succ count => exact h
  | zero =>
      obtain ⟨before, a, given, hbefore, houtcome, hgiven, rfl⟩ := h
      have hall : given = a.locked.reverse := by simpa using hgiven
      have hlog : a.opening ++ given.map .unlock = a.log := by rw [hall, Attempt.log]
      rw [hlog]
      cases outcome with
      | retried => exact hbefore.append houtcome
      | _ => exact ⟨before, a, hbefore, houtcome, rfl⟩

/-- An attempt that starts to unlock. -/
theorem Drops.start {before : List Event} (hbefore : Retries before) (a : Attempt) :
    Drops a.outcome a.first a.count
      (before ++ .segment a.first a.last :: a.locked.map .lock ++ a.outcome.events) :=
  ⟨before, a, [], hbefore, rfl, rfl, by simp [Attempt.opening]⟩

/-- Such a call gives back one more mutex. -/
theorem Drops.unlock {outcome : Outcome} {first count : ℕ} {log : List Event}
    (h : Drops outcome first (count + 1) log) :
    Drops outcome first count (log ++ [.unlock (first + count)]) := by
  obtain ⟨before, a, given, hbefore, houtcome, hgiven, rfl⟩ := h
  refine ⟨before, a, given ++ [first + count], hbefore, houtcome, ?_, by simp⟩
  rw [← hgiven, List.range'_1_concat, List.reverse_append]
  simp

/-- What has been done up to a point of a call. -/
structure Describes (p : Point) (log : List Event) : Prop where
  bounded : p.Bounded
  done : p.Done log
  held : ∀ i, log.count (.lock i) = log.count (.unlock i) + p.held.count i
  settled : ∀ {e}, e = .call ∨ e = .raise → log.count e = p.settled.count e

/-- Nothing has happened at the start of a call. -/
theorem describes_nil : Describes .between [] where
  bounded := trivial
  done := retries_nil
  held _ := rfl
  settled _ := rfl

/-- A step adds its events to the log. -/
theorem Point.Step.done {p p' : Point} {events log : List Event} (h : p.Step events p')
    (hp : p.Bounded) (hlog : p.Done log) : p'.Done (log ++ events) := by
  cases h with
  | stay => rwa [List.append_nil]
  | pick => exact ⟨log, hlog, by simp⟩
  | @take first last next _ =>
      obtain ⟨-, hfirst, -⟩ := hp
      obtain ⟨before, hbefore, rfl⟩ := hlog
      refine ⟨before, hbefore, ?_⟩
      rw [show next + 1 - first = next - first + 1 by omega, List.range'_1_concat,
        show first + (next - first) = next by omega]
      simp
  | @settle first last outcome hne =>
      obtain ⟨hle, -, -⟩ := hp
      obtain ⟨before, hbefore, rfl⟩ := hlog
      exact (Drops.start hbefore ⟨first, last, last + 1 - first, outcome, hle, Nat.le_refl _,
        ⟨fun _ => hne, fun _ => rfl⟩⟩).done
  | @fail first last next hlast =>
      obtain ⟨hle, hfirst, -⟩ := hp
      obtain ⟨before, hbefore, rfl⟩ := hlog
      exact (Drops.start hbefore ⟨first, last, next - first, .lockThrew, hle, by omega,
        ⟨fun heq => by omega, fun hne => absurd rfl hne⟩⟩).done
  | unlock => exact (Drops.unlock hlog).done

/-- **Step lemma**: what a step does is what its events say. -/
theorem Describes.step {p p' : Point} {log events : List Event} (h : Describes p log)
    (hstep : p.Step events p') : Describes p' (log ++ events) where
  bounded := hstep.bounded h.bounded
  done := hstep.done h.bounded h.done
  held i := by
    have hmove := hstep.count_held h.bounded i
    rw [List.count_append, List.count_append, h.held i]
    omega
  settled he := by
    rw [List.count_append, h.settled he, hstep.count_settled he]

/-! ## neutrality -/

theorem Attempt.nodup_locked (a : Attempt) : a.locked.Nodup := List.nodup_range'

/-- An attempt locks and unlocks the mutexes it has got. -/
theorem Attempt.count_log (a : Attempt) (i : ℕ) :
    a.log.count (.lock i) = a.locked.count i ∧ a.log.count (.unlock i) = a.locked.count i := by
  have hlock : (a.locked.map Event.lock).count (.lock i) = a.locked.count i :=
    List.count_map_of_injective _ _ (fun _ _ h => Event.lock.inj h) i
  have hunlock : (a.locked.reverse.map Event.unlock).count (.unlock i) = a.locked.count i := by
    rw [List.count_map_of_injective _ _ (fun _ _ h => Event.unlock.inj h) i, List.count_reverse]
  have hlock' : (a.locked.map Event.lock).count (.unlock i) = 0 := by
    simp [List.count_eq_zero]
  have hunlock' : (a.locked.reverse.map Event.unlock).count (.lock i) = 0 := by
    simp [List.count_eq_zero]
  constructor
  · rw [Attempt.log, List.count_append, hunlock', opening, List.cons_append, List.count_cons,
      List.count_append, hlock, Outcome.count_lock]
    simp
  · rw [Attempt.log, List.count_append, hunlock, opening, List.cons_append, List.count_cons,
      List.count_append, hlock', Outcome.count_unlock]
    simp

/-- Between two attempts or at the end. -/
def Point.AtRest : Point → Prop
  | .between => True
  | .finished _ => True
  | _ => False

/-- At rest, all that has been done is attempts. -/
theorem Describes.attempts {p : Point} {log : List Event} (h : Describes p log) (hp : p.AtRest) :
    ∃ attempts : List Attempt, log = attempts.flatMap Attempt.log := by
  have hdone := h.done
  cases p with
  | between =>
      obtain ⟨past, -, hlog⟩ := hdone
      exact ⟨past, hlog⟩
  | finished outcome =>
      obtain ⟨before, a, ⟨past, -, rfl⟩, -, hlog⟩ := hdone
      exact ⟨past ++ [a], by simp [hlog]⟩
  | _ => exact hp.elim

/-- What a call that has logged `log` owes its caller, if its thread `holds` some of the mutexes: it
holds what it has locked and not unlocked, and unlocks nothing else; at rest it holds nothing, and
its log consists of whole attempts, each of which unlocks every mutex it has locked, once; and it
calls the function at most once, and exactly once if it returns. -/
structure Neutral (log : List Event) (holds : ℕ → Prop) (atRest returned : Prop) : Prop where
  holds_iff : ∀ i, holds i ↔ log.count (.lock i) = log.count (.unlock i) + 1
  unlock_le : ∀ i, log.count (.unlock i) ≤ log.count (.lock i)
  not_holds : atRest → ∀ i, ¬holds i
  attempts : atRest → ∃ attempts : List Attempt, log = attempts.flatMap Attempt.log ∧
    ∀ a ∈ attempts, ∀ i, a.log.count (.lock i) ≤ 1 ∧
      a.log.count (.unlock i) = a.log.count (.lock i)
  call_le : log.count .call ≤ 1
  call_eq : returned → log.count .call = 1 ∧ .raise ∉ log

theorem Neutral.imp {log : List Event} {holds : ℕ → Prop} {atRest atRest' returned returned' : Prop}
    (h : Neutral log holds atRest returned) (hrest : atRest' → atRest)
    (hreturned : returned' → returned) : Neutral log holds atRest' returned' where
  holds_iff := h.holds_iff
  unlock_le := h.unlock_le
  not_holds hat := h.not_holds (hrest hat)
  attempts hat := h.attempts (hrest hat)
  call_le := h.call_le
  call_eq hat := h.call_eq (hreturned hat)

/-- **Neutrality**: a call whose log describes the point it has come to is neutral. -/
theorem Describes.neutral {p : Point} {log : List Event} {holds : ℕ → Prop}
    {atRest returned : Prop} (h : Describes p log) (hholds : ∀ i, holds i ↔ i ∈ p.held)
    (hrest : atRest → p.AtRest) (hreturned : returned → p = .finished .returned) :
    Neutral log holds atRest returned where
  holds_iff i := by
    have hnodup : p.held.Nodup := by cases p <;> simp [Point.held, List.nodup_range']
    rw [hholds, h.held i, Nat.add_left_cancel_iff]
    exact ⟨fun hmem => List.count_eq_one_of_mem hnodup hmem,
      fun hone => List.count_pos_iff.mp (by omega)⟩
  unlock_le i := by
    rw [h.held i]
    exact Nat.le_add_right _ _
  not_holds hat i := by
    rw [hholds]
    have hp := hrest hat
    cases p with
    | between => exact List.not_mem_nil
    | finished => exact List.not_mem_nil
    | _ => exact hp.elim
  attempts hat := by
    obtain ⟨attempts, hlog⟩ := h.attempts (hrest hat)
    refine ⟨attempts, hlog, fun a _ i => ?_⟩
    obtain ⟨hlock, hunlock⟩ := a.count_log i
    rw [hlock, hunlock]
    exact ⟨List.nodup_iff_count_le_one.mp a.nodup_locked i, rfl⟩
  call_le := by
    rw [h.settled (.inl rfl)]
    cases p with
    | dropping outcome => exact outcome.count_call_le
    | finished outcome => exact outcome.count_call_le
    | _ => exact Nat.zero_le _
  call_eq hat := by
    have hp := hreturned hat
    subst hp
    have hraise := h.settled (.inr rfl)
    exact ⟨h.settled (.inl rfl), List.count_eq_zero.mp hraise⟩

/-! ## programs that do it -/

section Implements

open Interleaving

variable {Tid Act Mem Loc D X : Type}

/-- An exception of the operation: a `lock()` or the function has thrown. -/
def Outcome.Throws (outcome : Outcome) : Prop := outcome = .lockThrew ∨ outcome = .callThrew

/-- A thread among the guards of the last attempt, or thrown out, is where an operation that unlocks
one mutex after the other is.  The guards may also be some of the caller's, after the last
attempt. -/
def AtExc (range : ℕ → X) (At : Loc → Point → Prop) : ExcLoc Loc X → Point → Prop
  | .run l, p => At l p
  | .unwind held, p =>
      (∃ outcome first count, outcome.Throws ∧ held = (List.range' first count).reverse.map range ∧
        p = .drop outcome first count) ∨
      (∀ i, range i ∉ held) ∧ p = .finished .returned
  | .thrown, p => ∃ outcome, p = .finished outcome

/-- The points of a program `At` which the operation is at a given point: its steps, its exceptions
and the guards they pass are steps of the operation. -/
structure Implements (E : Exceptions Mem Loc D X) (P : Program Tid Act Mem Loc) (range : ℕ → X)
    (idle : Loc → Bool) (acts : Loc → Loc → List Event) (raises : Loc → List Event)
    (unlocks : X → List Event) (At : Loc → Point → Prop) : Prop where
  act : ∀ {t a m l m' l' p}, idle l = false → At l p → p.Bounded →
    P.advance t a m l = some (m', l') → ∃ p', At l' p' ∧ p.Step (acts l l') p'
  raise : ∀ {d m l m' held p}, idle l = false → At l p → p.Bounded →
    E.throws d m l = some (m', held) →
      (∃ outcome first count, outcome.Throws ∧
        held = (List.range' first count).reverse.map range ∧
          p.Step (raises l) (.drop outcome first count)) ∨
      (∀ i, range i ∉ held) ∧ raises l = [] ∧ p = .finished .returned
  unlocks_range : ∀ i, unlocks (range i) = [.unlock i]
  unlocks_other : ∀ {x}, (∀ i, x ≠ range i) → unlocks x = []

variable {E : Exceptions Mem Loc D X} {P : Program Tid Act Mem Loc} {range : ℕ → X}
  {idle : Loc → Bool} {acts : Loc → Loc → List Event} {raises : Loc → List Event}
  {unlocks : X → List Event} {At : Loc → Point → Prop} {t : Tid}

theorem atExc_leave {outcome : Outcome} (h : outcome.Throws) (first count : ℕ) :
    AtExc range At (.leave ((List.range' first count).reverse.map range))
      (.drop outcome first count) := by
  cases count with
  | zero => rcases h with rfl | rfl <;> exact ⟨_, rfl⟩
  | succ count =>
      have hleave :
          (.leave ((List.range' first (count + 1)).reverse.map range) : ExcLoc Loc X) =
            .unwind ((List.range' first (count + 1)).reverse.map range) := by
        simp [List.range'_1_concat, ExcLoc.leave]
      rw [hleave]
      exact .inl ⟨outcome, first, count + 1, h, rfl, rfl⟩

theorem atExc_leave_other {held : List X} (h : ∀ i, range i ∉ held) :
    AtExc range At (.leave held) (.finished .returned) := by
  cases held with
  | nil => exact ⟨_, rfl⟩
  | cons x held => exact .inr ⟨h, rfl⟩

/-- Every move of a thread inside the operation is a step of it. -/
theorem Implements.move (h : Implements E P range idle acts raises unlocks At) {m m' : Mem}
    {l l' : ExcLoc Loc X} {p : Point} (hl : l.inOperation idle = true) (hp : AtExc range At l p)
    (hbounded : p.Bounded) (hmove : E.Move P t m l m' l') :
    ∃ p', AtExc range At l' p' ∧ p.Step (ExcLoc.events acts raises unlocks l l') p' := by
  cases hmove with
  | act hadvance => exact h.act (by simpa [ExcLoc.inOperation] using hl) hp hbounded hadvance
  | @raise _ _ _ l held hthrows =>
      rw [ExcLoc.events_leave]
      rcases h.raise (by simpa [ExcLoc.inOperation] using hl) hp hbounded hthrows with
        ⟨outcome, first, count, hthrow, rfl, hstep⟩ | ⟨hother, hraises, rfl⟩
      · exact ⟨_, atExc_leave hthrow first count, hstep⟩
      · rw [hraises]
        exact ⟨_, atExc_leave_other hother, .stay⟩
  | @unlock _ x held =>
      rcases hp with ⟨outcome, first, count, hthrow, hheld, rfl⟩ | ⟨hother, rfl⟩
      · cases count with
        | zero => contradiction
        | succ count =>
            rw [List.range'_1_concat, List.reverse_append] at hheld
            obtain ⟨rfl, rfl⟩ := List.cons.inj hheld
            rw [ExcLoc.events, h.unlocks_range]
            exact ⟨_, atExc_leave hthrow first count, .unlock⟩
      · have hrest : ∀ i, range i ∉ held := fun i hmem => hother i (List.mem_cons_of_mem x hmem)
        rw [ExcLoc.events, h.unlocks_other fun i hx => hother i (hx ▸ List.mem_cons_self)]
        exact ⟨_, atExc_leave_other hrest, .stay⟩

/-- What the thread holds is what the operation holds at its point. -/
theorem holds_iff_of_atExc {holds : Loc → X → Prop} (hrange : Function.Injective range)
    (hholds : ∀ l p i, At l p → p.Bounded → (holds l (range i) ↔ i ∈ p.held))
    {l : ExcLoc Loc X} {p : Point} (hp : AtExc range At l p) (hbounded : p.Bounded) (i : ℕ) :
    l.Holds holds (range i) ↔ i ∈ p.held := by
  cases l with
  | run l => exact hholds l p i hp hbounded
  | unwind held =>
      rcases hp with ⟨outcome, first, count, -, rfl, rfl⟩ | ⟨hother, rfl⟩
      · rw [Point.held_drop, ExcLoc.Holds, List.mem_map_of_injective hrange, List.mem_reverse]
      · exact iff_of_false (hother i) List.not_mem_nil
  | thrown =>
      obtain ⟨outcome, rfl⟩ := hp
      exact iff_of_false id List.not_mem_nil

/-- Thrown out, or at a point of the program that passes the test. -/
def Rests (rest : Loc → Prop) : ExcLoc Loc X → Prop
  | .run l => rest l
  | .unwind _ => False
  | .thrown => True

variable [DecidableEq Tid] [DecidableEq X] {owner : Mem → X → Option Tid}
  {holds : Loc → X → Prop} {inv : Loc → Prop}

/-- **Every call is neutral**: at each moment of a call of an operation that implements the attempts
and whose exceptions pass the guards of what is held, if callers may handle exceptions and go on. -/
theorem Implements.neutral (h : Implements E P range idle acts raises unlocks At)
    (hguarded : E.Guarded P owner holds inv) (hrange : Function.Injective range)
    (hholds : ∀ l p i, At l p → p.Bounded → (holds l (range i) ↔ i ∈ p.held))
    {rest returned : Loc → Prop} (hrest : ∀ l p, At l p → rest l → p.AtRest)
    (hreturned : ∀ l p, At l p → returned l → p = .finished .returned)
    {start : Loc} {enter : Mem → Option (Mem × Loc)}
    (henter : ∀ m m' l', enter m = some (m', l') →
      ∃ p, At l' p ∧ Point.Step .between (acts start l') p)
    {r : Program.Run (E.handled P)} {a n : ℕ}
    (hcall : r.Calling t a n (.run start) (fun m => (enter m).map fun x => (x.1, .run x.2))
      (fun l => l.inOperation idle)) :
    Neutral (r.log (ExcLoc.events acts raises unlocks) t a n)
      (fun i => owner (r.states n).mem (range i) = some t) (Rests rest ((r.states n).loc t))
      (∃ l, (r.states n).loc t = .run l ∧ returned l) := by
  have hdescribes : ∃ p, AtExc range At ((r.states n).loc t) p ∧
      Describes p (r.log (ExcLoc.events acts raises unlocks) t a n) := by
    refine hcall.describes ?_ ?_
    · intro m m' l' hentered
      obtain ⟨⟨m'', l''⟩, henters, heq⟩ := Option.map_eq_some_iff.mp hentered
      cases heq
      obtain ⟨p, hp, hstep⟩ := henter _ _ _ henters
      exact ⟨p, hp, describes_nil.step hstep⟩
    · intro b m l m' l' p log hl hp hlog hadvance
      rcases Exceptions.move_of_handled hadvance with hmove | ⟨rfl, -⟩
      · obtain ⟨p', hp', hstep⟩ := h.move hl hp hlog.bounded hmove
        exact ⟨p', hp', hlog.step hstep⟩
      · contradiction
  obtain ⟨p, hp, hlog⟩ := hdescribes
  refine hlog.neutral (fun i => ?_) (fun hat => ?_) ?_
  · rw [← holds_iff_of_atExc hrange hholds hp hlog.bounded i]
    exact hguarded.owned_handled (r.reachable hcall.length) (range i) t
  · generalize (r.states n).loc t = l at hp hat
    cases l with
    | run l => exact hrest l p hp hat
    | unwind held => exact hat.elim
    | thrown =>
        obtain ⟨outcome, rfl⟩ := hp
        trivial
  · rintro ⟨l, hl, hret⟩
    rw [hl] at hp
    exact hreturned l p hp hret

end Implements

end Attempts
