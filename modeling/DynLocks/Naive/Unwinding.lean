import DynLocks.Lib.Attempts
import DynLocks.Naive.Machine

/-!
# DynLocks.Naive.Unwinding

Exceptions of `NaiveLock::WriteQuery`: every `lock()` may throw, and so may
`func`.  The segment of a query is known before the first attempt at its
mutexes, and there is no second one (`neutral_of_calling`).
-/

namespace DynLocks
namespace NaiveLock

open Interleaving Attempts

variable {Client : Type} (cfg : Config)

/-! ## where exceptions are raised -/

/-- The mutexes that the guard of `WriteQuery` unlocks when a `lock()` of its constructor, or `func`
under it, throws. -/
def QueryPc.throws (left right : ℕ) : QueryPc → Option (List ℕ)
  | .acquire index => some (unlockAll (cfg.lockOf left) (index - cfg.lockOf left))
  | .inside .func => some (unlockAll (cfg.lockOf left) (cfg.lockOf right + 1 - cfg.lockOf left))
  | _ => none

/-- The exceptions of `WriteQuery`. -/
def exceptions : Exceptions (Mem Client) Loc Unit ℕ where
  throws _ m
    | .query left right pc => (pc.throws cfg left right).map fun held => (m, held)
    | _ => none
  unlock i m := { m with locks := Function.update m.locks i none }

/-- What a step does that does not throw. -/
def Loc.acts : Loc → Loc → List Event
  | .idle, .query left right _ => [.segment (cfg.lockOf left) (cfg.lockOf right)]
  | .query _ _ (.acquire index), _ => [.lock index]
  | .query _ _ (.inside .func), _ => [.call]
  | .query left _ (.release count), _ => [.unlock (cfg.lockOf left + (count - 1))]
  | _, _ => []

/-- What a step has done that throws. -/
def Loc.raises : Loc → List Event
  | .query _ _ (.acquire _) => [.raise]
  | .query _ _ (.inside .func) => [.call, .raise]
  | _ => []

/-- What a thread does to the range mutexes and to `func`. -/
def queryEvents : ExcLoc Loc ℕ → ExcLoc Loc ℕ → List Event :=
  ExcLoc.events (Loc.acts cfg) Loc.raises fun i => [.unlock i]

/-- A `NaiveLock` whose clients may handle exceptions and go on. -/
abbrev throwing (Client : Type) [DecidableEq Client] :
    Program Client (Option (ExcAct Act Unit)) (Mem Client) (ExcLoc Loc ℕ) :=
  (exceptions cfg).handled (machine cfg Client)

/-- Call `WriteQuery`. -/
def enterQuery (left right : ℕ) (m : Mem Client) : Option (Mem Client × ExcLoc Loc ℕ) :=
  (enter cfg m (.writeQuery left right)).map fun x => (x.1, .run x.2)

/-! ## the points of the operation -/

/-- Where a query is. -/
def Loc.AtPoint : Loc → Point → Prop
  | .idle, p => p = .finished .returned ∨ cfg.arraySize = 0 ∧ p = .between
  | .query left right (.acquire index), p =>
      index ≤ cfg.lockOf right ∧ p = .taking (cfg.lockOf left) (cfg.lockOf right) index
  | .query left right (.inside _), p =>
      p = .taking (cfg.lockOf left) (cfg.lockOf right) (cfg.lockOf right + 1)
  | .query left _ (.release count), p => p = .dropping .returned (cfg.lockOf left) count
  | .counted _, _ => False

variable {cfg} {t : Client}

/-- A query that starts has picked its segment. -/
theorem at_enter {left right : ℕ} {m m' : Mem Client} {l' : Loc}
    (h : enter cfg m (.writeQuery left right) = some (m', l')) :
    ∃ p, l'.AtPoint cfg p ∧ Point.Step .between (Loc.acts cfg .idle l') p := by
  simp only [enter] at h
  split at h
  · next hsize =>
      cases h
      exact ⟨.between, .inr ⟨hsize, rfl⟩, .stay⟩
  · split at h
    · contradiction
    · cases h
      have hmono := cfg.lockOf_mono (clampRange_le cfg.arraySize left right)
      exact ⟨_, ⟨hmono, rfl⟩, .pick hmono⟩

/-- A step of a query is one of the operation. -/
theorem at_advance [DecidableEq Client] {a : Act} {m m' : Mem Client} {l l' : Loc} {p : Point}
    (hl : l.isIdle = false) (hp : l.AtPoint cfg p) (hbounded : p.Bounded)
    (h : advance cfg t a m l = some (m', l')) :
    ∃ p', l'.AtPoint cfg p' ∧ p.Step (Loc.acts cfg l l') p' := by
  cases l with
  | idle => contradiction
  | counted => exact hp.elim
  | query left right pc =>
      simp only [advance, Option.map_eq_some_iff, Prod.mk.injEq] at h
      obtain ⟨⟨m'', r⟩, hstep, rfl, rfl⟩ := h
      cases pc with
      | acquire index =>
          obtain ⟨hlast, rfl⟩ := hp
          simp only [queryStep] at hstep
          split at hstep
          · cases hstep
            dsimp only [afterQuery]
            split
            · next heq => exact ⟨_, rfl, by rw [← heq]; exact .take (Nat.le_refl _)⟩
            · next hne => exact ⟨_, ⟨by omega, rfl⟩, .take hlast⟩
          · contradiction
      | inside pc =>
          obtain rfl : p = _ := hp
          obtain ⟨hle, -, -⟩ := hbounded
          simp only [queryStep, Option.map_eq_some_iff, Prod.mk.injEq] at hstep
          obtain ⟨⟨m'', r'⟩, hinside, rfl, rfl⟩ := hstep
          cases pc with
          | func =>
              cases hinside
              exact ⟨_, rfl, .returned hle⟩
          | durationCas current =>
              cases a with
              | elapsed delta spurious =>
                  simp only [insideStep] at hinside
                  split at hinside
                  · cases hinside
                    exact ⟨_, rfl, .stay⟩
                  · cases hinside
                    exact ⟨_, rfl, .stay⟩
              | _ => contradiction
          | _ => cases hinside; exact ⟨_, rfl, .stay⟩
      | release count =>
          obtain rfl : p = _ := hp
          obtain ⟨n, rfl⟩ := Nat.exists_eq_succ_of_ne_zero (Nat.ne_of_gt hbounded)
          cases hstep
          refine ⟨Point.drop .returned (cfg.lockOf left) n, ?_, .unlock⟩
          cases n with
          | zero => exact .inl rfl
          | succ n => exact rfl

/-- An exception of a query is one of the operation. -/
theorem at_throws {d : Unit} {m m' : Mem Client} {l : Loc} {held : List ℕ} {p : Point}
    (hp : l.AtPoint cfg p) (h : (exceptions cfg).throws d m l = some (m', held)) :
    ∃ outcome first count, outcome.Throws ∧ held = (List.range' first count).reverse.map id ∧
      p.Step l.raises (.drop outcome first count) := by
  cases l with
  | query left right pc =>
      cases pc with
      | acquire index =>
          obtain ⟨hlast, rfl⟩ := hp
          cases h
          refine ⟨.lockThrew, cfg.lockOf left, index - cfg.lockOf left, .inl rfl, ?_, .fail hlast⟩
          rw [unlockAll_eq, List.map_id]
      | inside pc =>
          obtain rfl : p = _ := hp
          cases pc with
          | func =>
              cases h
              refine ⟨.callThrew, cfg.lockOf left, cfg.lockOf right + 1 - cfg.lockOf left, .inr rfl,
                ?_, .callThrew ..⟩
              rw [unlockAll_eq, List.map_id]
          | _ => contradiction
      | release count => contradiction
  | _ => contradiction

theorem holds_iff_of_at (l : Loc) (p : Point) (i : ℕ) (hp : l.AtPoint cfg p)
    (hbounded : p.Bounded) : l.Holds cfg i ↔ i ∈ p.held := by
  cases l with
  | idle =>
      rcases hp with rfl | ⟨-, rfl⟩
      · exact iff_of_false id List.not_mem_nil
      · exact iff_of_false id List.not_mem_nil
  | counted => exact hp.elim
  | query left right pc =>
      cases pc with
      | acquire index =>
          obtain ⟨-, rfl⟩ := hp
          obtain ⟨-, hfirst, -⟩ := hbounded
          rw [Point.held, List.mem_range'_1, Loc.Holds]
          omega
      | inside pc =>
          obtain rfl : p = _ := hp
          obtain ⟨hle, -, -⟩ := hbounded
          rw [Point.held, List.mem_range'_1, Loc.Holds]
          omega
      | release count =>
          obtain rfl : p = _ := hp
          rw [Point.held, List.mem_range'_1, Loc.Holds]

/-! ## neutrality -/

section Runs

variable [DecidableEq Client]

theorem implements : Implements (exceptions cfg) (machine cfg Client) id Loc.isIdle (Loc.acts cfg)
    Loc.raises (fun i => [.unlock i]) (Loc.AtPoint cfg) where
  act := at_advance
  raise _ hp _ h := .inl (at_throws hp h)
  unlocks_range _ := rfl
  unlocks_other h := absurd rfl (h _)

/-- An exception gives back the mutexes of its thread. -/
theorem guarded : (exceptions cfg).Guarded (machine cfg Client) Mem.locks (Loc.Holds cfg)
    (Loc.Bounded cfg) where
  free _ := rfl
  start _ := ⟨trivial, fun _ => id⟩
  keep := advance_bounded
  move := advance_owner
  throws {d m l m' held} h := by
    cases l with
    | query left right pc =>
        cases pc with
        | acquire index =>
            cases h
            refine ⟨rfl, nodup_unlockAll .., fun i => ?_⟩
            rw [mem_unlockAll, Loc.Holds]
            omega
        | inside pc =>
            cases pc with
            | func =>
                cases h
                refine ⟨rfl, nodup_unlockAll .., fun i => ?_⟩
                rw [mem_unlockAll, Loc.Holds]
                omega
            | _ => contradiction
        | release count => contradiction
    | _ => contradiction
  unlock _ _ := rfl

/-- Every call of `WriteQuery` is neutral. -/
theorem neutral_of_calling {r : Program.Run (throwing cfg Client)} {t : Client} {a n left right : ℕ}
    (h : r.Calling t a n (.run .idle) (enterQuery cfg left right)
      fun l => l.inOperation Loc.isIdle) :
    Neutral (r.log (queryEvents cfg) t a n) (fun i => (r.states n).mem.locks i = some t)
      ((r.states n).loc t = .run .idle ∨ (r.states n).loc t = .thrown)
      ((r.states n).loc t = .run .idle ∧ 1 ≤ cfg.arraySize) := by
  have hrest : ∀ l p, Loc.AtPoint cfg l p → l = .idle → p.AtRest := by
    rintro l p hp rfl
    rcases hp with rfl | ⟨-, rfl⟩ <;> trivial
  have hreturned : ∀ l p, Loc.AtPoint cfg l p → l = .idle ∧ 1 ≤ cfg.arraySize →
      p = .finished .returned := by
    rintro l p hp ⟨rfl, hsize⟩
    exact hp.resolve_right fun hempty => by omega
  refine (implements.neutral guarded Function.injective_id holds_iff_of_at hrest hreturned
    (fun _ _ _ => at_enter) h).imp ?_ fun hend => ⟨.idle, hend.1, rfl, hend.2⟩
  rintro (hend | hend)
  · rw [hend]
    rfl
  · rw [hend]
    trivial

end Runs

end NaiveLock
end DynLocks
