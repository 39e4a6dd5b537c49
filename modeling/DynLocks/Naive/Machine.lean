import DynLocks.Lib.Interleaving
import DynLocks.Lib.LockOrder
import DynLocks.Layout

/-!
# DynLocks.Naive.Machine

`NaiveLock` as a program of threads over shared memory, with the same grain as
the machines of the other locks.  The segment of a mutex never changes, so a
query locks the mutexes of its range and goes straight on.

* `owned_of_reachable` — the recorded holder of a mutex is the one thread whose
  program counter says that it holds it;
* `ordered_of_reachable` — the mutexes are taken by index.
-/

namespace DynLocks
namespace NaiveLock

open Interleaving LockOrder

/-! ## construction -/

/-- Template parameters and the constructor argument. -/
structure Config where
  kLockCnt : ℕ
  arraySize : ℕ
  kLockCnt_pos : 0 < kLockCnt := by decide

namespace Config

variable (cfg : Config)

/-- The member `block_size_`; the sum is one of `size_t`. -/
def blockSize : ℕ :=
  if cfg.arraySize = 0 then 1 else (cfg.arraySize + cfg.kLockCnt - 1) % 2 ^ 64 / cfg.kLockCnt

/-- The mutex of a position. -/
def lockOf (pos : ℕ) : ℕ := min (pos / cfg.blockSize) (cfg.kLockCnt - 1)

/-- Every position has a mutex, also one behind the end of the array. -/
theorem lockOf_lt (pos : ℕ) : cfg.lockOf pos < cfg.kLockCnt := by
  have := cfg.kLockCnt_pos
  unfold lockOf
  omega

/-- The mutexes follow the positions. -/
theorem lockOf_mono {pos pos' : ℕ} (h : pos ≤ pos') : cfg.lockOf pos ≤ cfg.lockOf pos' := by
  have := Nat.div_le_div_right (c := cfg.blockSize) h
  unfold lockOf
  omega

end Config

/-! ## the program -/

/-- The members of a `NaiveLock`. -/
structure Mem (Client : Type) where
  locks : ℕ → Option Client
  operationCount : UInt64
  totalLockTime : ℕ

/-- `WriteQuery` with the mutexes held. -/
inductive InsidePc
  | durationLoad
  | durationCas (current : ℕ)
  | countOperation
  | func

/-- `WriteQuery`; `release` unlocks from the top, `count` mutexes being still held. -/
inductive QueryPc
  | acquire (index : ℕ)
  | inside (pc : InsidePc)
  | release (count : ℕ)

/-- Where a thread stands and its local variables. -/
inductive Loc
  | idle
  | query (left right : ℕ) (pc : QueryPc)
  | counted (locks : ℕ)

/-- Is the thread between two calls? -/
def Loc.isIdle : Loc → Bool
  | .idle => true
  | _ => false

/-- The public operations. -/
inductive Call
  | writeQuery (left right : ℕ)
  | countLocksForRange (left right : ℕ)

/-- What the environment decides for a step: the next call, and the outcome of the clock and of a
weak compare-and-exchange. -/
inductive Act
  | step
  | call (c : Call)
  | elapsed (delta : ℕ) (spurious : Bool)

section Program

variable {Client : Type} (cfg : Config)

/-- `WriteQuery` with the mutexes held; `none` when `func` returns. -/
def insideStep (a : Act) (m : Mem Client) : InsidePc → Option (Mem Client × Option InsidePc)
  | .durationLoad => some (m, some (.durationCas m.totalLockTime))
  | .durationCas current =>
      match a with
      | .elapsed delta spurious =>
          if m.totalLockTime = current ∧ spurious = false then
            some ({ m with totalLockTime := current + delta }, some .countOperation)
          else some (m, some (.durationCas m.totalLockTime))
      | _ => none
  | .countOperation => some ({ m with operationCount := m.operationCount + 1 }, some .func)
  | .func => some (m, none)

/-- `WriteQuery` on the clamped range `[left, right]`. -/
def queryStep (t : Client) [DecidableEq Client] (a : Act) (m : Mem Client) (left right : ℕ) :
    QueryPc → Option (Mem Client × Option QueryPc)
  | .acquire index =>
      if m.locks index = none then
        some ({ m with locks := Function.update m.locks index (some t) },
          some (if index = cfg.lockOf right then .inside .durationLoad else .acquire (index + 1)))
      else none
  | .inside pc =>
      (insideStep a m pc).map fun r => (r.1, some (match r.2 with
        | some pc => .inside pc
        | none => .release (cfg.lockOf right + 1 - cfg.lockOf left)))
  | .release count =>
      some ({ m with locks := Function.update m.locks (cfg.lockOf left + (count - 1)) none },
        if count ≤ 1 then none else some (.release (count - 1)))

/-- Where a step of `WriteQuery` leads. -/
def afterQuery (left right : ℕ) : Option QueryPc → Loc
  | some pc => .query left right pc
  | none => .idle

/-- Enter a public operation.  Where the block size wraps to zero, so that the division has no
result, there is no step. -/
def enter (m : Mem Client) : Call → Option (Mem Client × Loc)
  | .writeQuery left right =>
      if cfg.arraySize = 0 then some (m, .idle)
      else if cfg.blockSize = 0 then none
      else
        let range := clampRange cfg.arraySize left right
        some (m, .query range.1 range.2 (.acquire (cfg.lockOf range.1)))
  | .countLocksForRange left right =>
      if cfg.arraySize = 0 then some (m, .counted 0)
      else if cfg.blockSize = 0 then none
      else
        let range := clampRange cfg.arraySize left right
        some (m, .counted (lockSpan (cfg.lockOf range.1) (cfg.lockOf range.2)))

/-- One step of thread `t`. -/
def advance (t : Client) [DecidableEq Client] (a : Act) (m : Mem Client) :
    Loc → Option (Mem Client × Loc)
  | .idle =>
      match a with
      | .call c => enter cfg m c
      | _ => none
  | .query left right pc =>
      (queryStep cfg t a m left right pc).map fun r => (r.1, afterQuery left right r.2)
  | .counted _ => some (m, .idle)

/-- A `NaiveLock` and the threads that use it. -/
def machine (Client : Type) [DecidableEq Client] : Program Client Act (Mem Client) Loc where
  init := ⟨fun _ => none, 0, 0⟩
  start _ := .idle
  advance t a := advance cfg t a

/-! ## who holds which mutex -/

/-- The mutexes a thread holds. -/
def Loc.Holds : Loc → ℕ → Prop
  | .query left _ (.acquire index), i => cfg.lockOf left ≤ i ∧ i < index
  | .query left right (.inside _), i => cfg.lockOf left ≤ i ∧ i ≤ cfg.lockOf right
  | .query left _ (.release count), i => cfg.lockOf left ≤ i ∧ i < cfg.lockOf left + count
  | _, _ => False

/-- The range is clamped, and the loops stay in their bounds. -/
def Loc.Bounded : Loc → Prop
  | .query left right (.acquire index) => left ≤ right ∧ right < cfg.arraySize ∧
      cfg.lockOf left ≤ index ∧ index ≤ cfg.lockOf right
  | .query left right (.inside _) => left ≤ right ∧ right < cfg.arraySize
  | .query left right (.release count) => left ≤ right ∧ right < cfg.arraySize ∧ 0 < count
  | _ => True

/-- The mutex that the next step of a thread locks. -/
def Loc.wants : Loc → Option ℕ
  | .query _ _ (.acquire index) => some index
  | _ => none

section Steps

variable {cfg} [DecidableEq Client] {t : Client} {a : Act} {m m' : Mem Client}
  {s : State Client (Mem Client) Loc}

omit [DecidableEq Client] in
/-- Under its mutexes a query locks no other. -/
theorem locks_insideStep {pc : InsidePc} {r : Option InsidePc}
    (h : insideStep a m pc = some (m', r)) : m'.locks = m.locks := by
  cases pc with
  | durationCas current =>
      cases a with
      | elapsed delta spurious =>
          simp only [insideStep] at h
          split at h <;>
          · cases h
            rfl
      | _ => contradiction
  | _ => cases h; rfl

theorem advance_bounded {l l' : Loc} (hl : l.Bounded cfg)
    (h : advance cfg t a m l = some (m', l')) : l'.Bounded cfg := by
  cases l with
  | idle =>
      cases a with
      | call c =>
          cases c with
          | writeQuery left right =>
              simp only [advance, enter] at h
              split at h
              · cases h; trivial
              · next hne =>
                  split at h
                  · contradiction
                  · cases h
                    have hle := clampRange_le cfg.arraySize left right
                    exact ⟨hle, clampRange_lt (Nat.pos_of_ne_zero hne) _ _, le_rfl,
                      cfg.lockOf_mono hle⟩
          | countLocksForRange left right =>
              simp only [advance, enter] at h
              split at h
              · cases h; trivial
              · split at h
                · contradiction
                · cases h; trivial
      | _ => contradiction
  | counted => cases h; trivial
  | query left right pc =>
      simp only [advance, Option.map_eq_some_iff, Prod.mk.injEq] at h
      obtain ⟨⟨m'', r⟩, hstep, rfl, rfl⟩ := h
      cases pc with
      | acquire index =>
          obtain ⟨hle, hlt, hfirst, hlast⟩ := hl
          simp only [queryStep] at hstep
          split at hstep
          · cases hstep
            dsimp only [afterQuery]
            split
            · exact ⟨hle, hlt⟩
            · next hne => exact ⟨hle, hlt, by omega, by omega⟩
          · contradiction
      | inside pc =>
          simp only [queryStep, Option.map_eq_some_iff, Prod.mk.injEq] at hstep
          obtain ⟨⟨m'', r'⟩, -, rfl, rfl⟩ := hstep
          have := cfg.lockOf_mono hl.1
          cases r' with
          | some pc' => exact hl
          | none => exact ⟨hl.1, hl.2, by omega⟩
      | release count =>
          obtain ⟨hle, hlt, hcount⟩ := hl
          cases hstep
          by_cases hlast : count ≤ 1
          · rw [if_pos hlast]
            trivial
          · rw [if_neg hlast]
            exact ⟨hle, hlt, Nat.sub_pos_of_lt (by omega)⟩

/-- Every step takes a mutex that is free, gives back one the thread holds, or leaves it alone. -/
theorem advance_owner {l l' : Loc} (hl : l.Bounded cfg)
    (h : advance cfg t a m l = some (m', l')) (i : ℕ) :
    LockMove t (m.locks i) (l.Holds cfg i) (m'.locks i) (l'.Holds cfg i) := by
  cases l with
  | idle =>
      cases a with
      | call c =>
          cases c with
          | writeQuery left right =>
              simp only [advance, enter] at h
              split at h
              · cases h; exact .keep Iff.rfl
              · split at h
                · contradiction
                · cases h
                  exact .keep ⟨fun hh => absurd hh.2 (Nat.not_lt.mpr hh.1), False.elim⟩
          | countLocksForRange left right =>
              simp only [advance, enter] at h
              split at h
              · cases h; exact .keep Iff.rfl
              · split at h
                · contradiction
                · cases h; exact .keep Iff.rfl
      | _ => contradiction
  | counted => cases h; exact .keep Iff.rfl
  | query left right pc =>
      simp only [advance, Option.map_eq_some_iff, Prod.mk.injEq] at h
      obtain ⟨⟨m'', r⟩, hstep, rfl, rfl⟩ := h
      cases pc with
      | acquire index =>
          obtain ⟨-, -, hfirst, hlast⟩ := hl
          simp only [queryStep] at hstep
          split at hstep
          · next hfree =>
              cases hstep
              dsimp only [afterQuery]
              split
              · next heq =>
                  subst heq
                  refine .update_some hfree ⟨hfirst, le_rfl⟩ fun hi => ?_
                  simp only [Loc.Holds]
                  omega
              · refine .update_some hfree ⟨hfirst, Nat.lt_succ_self _⟩ fun hi => ?_
                simp only [Loc.Holds]
                omega
          · contradiction
      | inside pc =>
          have hmono := cfg.lockOf_mono hl.1
          simp only [queryStep, Option.map_eq_some_iff, Prod.mk.injEq] at hstep
          obtain ⟨⟨m'', r'⟩, hinside, rfl, rfl⟩ := hstep
          rw [locks_insideStep hinside]
          refine .keep ?_
          cases r' with
          | some pc' => exact Iff.rfl
          | none =>
              simp only [afterQuery, Loc.Holds]
              omega
      | release count =>
          obtain ⟨-, -, hcount⟩ := hl
          cases hstep
          by_cases hlast : count ≤ 1
          · rw [if_pos hlast]
            refine .update_none ⟨by omega, by omega⟩ id fun hi => ?_
            simp only [afterQuery, Loc.Holds, false_iff]
            omega
          · rw [if_neg hlast]
            refine .update_none ⟨by omega, by omega⟩ ?_ fun hi => ?_
            · simp only [afterQuery, Loc.Holds]
              omega
            · simp only [afterQuery, Loc.Holds]
              omega

/-! ## in every reachable state -/

/-- **Run lemma**: the loops over the mutexes stay between their bounds. -/
theorem bounded_of_reachable (hs : (machine cfg Client).Reachable s) (t : Client) :
    (s.loc t).Bounded cfg :=
  hs.localInvariant (Q := fun _ _ l => l.Bounded cfg) (fun _ => trivial)
    (fun _ _ _ _ _ _ hl h => advance_bounded hl h) (fun _ _ _ _ _ _ _ _ hl _ => hl) t

/-- A mutex is recorded as held by the one thread that holds it. -/
theorem owned_of_reachable (hs : (machine cfg Client).Reachable s) (i : ℕ) :
    Owned (s.mem.locks i) fun t => (s.loc t).Holds cfg i :=
  hs.owned (fun m => m.locks i) (fun l => l.Holds cfg i) rfl (fun _ => id)
    fun _ t _ _ _ hreach h => advance_owner (bounded_of_reachable hreach t) h i

/-- A thread that waits for a mutex that is held makes no step. -/
theorem advance_eq_none_of_held {l : Loc} {i : ℕ} (hl : l.wants = some i)
    (hheld : m.locks i ≠ none) : advance cfg t a m l = none := by
  cases l with
  | query left right pc =>
      cases pc with
      | acquire index =>
          cases hl
          simp only [advance, queryStep, if_neg hheld, Option.map_none]
      | _ => contradiction
  | _ => contradiction

/-- The mutexes are taken by index. -/
theorem ordered_of_reachable (hs : (machine cfg Client).Reachable s) :
    Ordered (fun t => (s.loc t).wants) s.mem.locks id cfg.kLockCnt where
  rises t i j hi hj := by
    have hholds : (s.loc t).Holds cfg j := (owned_of_reachable hs j t).mp hj
    cases hloc : s.loc t with
    | query left right pc =>
        rw [hloc] at hi hholds
        cases pc with
        | acquire index =>
            cases hi
            exact hholds.2
        | _ => cases hi
    | _ => rw [hloc] at hi; cases hi
  bounded t i hi := by
    have hbounded := bounded_of_reachable hs t
    cases hloc : s.loc t with
    | query left right pc =>
        rw [hloc] at hi hbounded
        cases pc with
        | acquire index =>
            cases hi
            exact Nat.lt_of_le_of_lt hbounded.2.2.2 (cfg.lockOf_lt _)
        | _ => cases hi
    | _ => rw [hloc] at hi; cases hi

end Steps

end Program

end NaiveLock
end DynLocks
