import DynLocks.Lib.Critical
import DynLocks.Naive.Machine

/-!
# DynLocks.Naive.RangeLock

`NaiveLock` as a lock for ranges of positions: two threads inside `func` on
ranges that meet would both hold the mutex of a common position
(`disjoint_of_inFunc`).
-/

namespace DynLocks
namespace NaiveLock

open Interleaving

/-- The clamped range on which a thread runs `func`. -/
def Loc.inFunc : Loc → Option (ℕ × ℕ)
  | .query left right (.inside .func) => some (left, right)
  | _ => none

/-- The clamped range of a `WriteQuery` whose `func` has not returned. -/
def Loc.asks : Loc → Option (ℕ × ℕ)
  | .query _ _ (.release _) => none
  | .query left right _ => some (left, right)
  | _ => none

variable {Client : Type} {cfg : Config} [DecidableEq Client] {t u : Client} {a : Act}
  {m m' : Mem Client} {s : State Client (Mem Client) Loc}

theorem Loc.inFunc_eq_some {l : Loc} {range : ℕ × ℕ} (h : l.inFunc = some range) :
    l = .query range.1 range.2 (.inside .func) := by
  cases l with
  | query left right pc =>
      cases pc with
      | inside pc =>
          cases pc with
          | func => cases h; rfl
          | _ => cases h
      | _ => cases h
  | _ => cases h

/-- A call goes on until its `func` has returned. -/
theorem asks_advance {l l' : Loc} {range : ℕ × ℕ}
    (h : (machine cfg Client).advance t a m l = some (m', l')) (hfunc : l.inFunc = none)
    (hasks : l.asks = some range) : l'.asks = some range := by
  cases l with
  | query left right pc =>
      obtain ⟨⟨m'', r⟩, hstep, heq⟩ := Option.map_eq_some_iff.mp h
      cases heq
      cases pc with
      | acquire index =>
          simp only [queryStep] at hstep
          split at hstep
          · cases hstep
            dsimp only [afterQuery]
            split <;> exact hasks
          · contradiction
      | inside pc =>
          simp only [queryStep, Option.map_eq_some_iff, Prod.mk.injEq] at hstep
          obtain ⟨⟨m'', r'⟩, hinside, rfl, rfl⟩ := hstep
          cases r' with
          | some pc' => exact hasks
          | none =>
              cases pc with
              | func => contradiction
              | durationCas current =>
                  cases a with
                  | elapsed delta spurious =>
                      simp only [insideStep] at hinside
                      split at hinside <;> cases hinside
                  | _ => contradiction
              | _ => cases hinside
      | release => cases hasks
  | _ => cases hasks

theorem asks_of_inFunc {l : Loc} {range : ℕ × ℕ} (h : l.inFunc = some range) :
    l.asks = some range := by
  rw [Loc.inFunc_eq_some h]
  rfl

/-- Two threads inside `func` work on disjoint ranges: a shared position has one mutex. -/
theorem disjoint_of_inFunc (hs : (machine cfg Client).Reachable s) (hne : t ≠ u) {r r' : ℕ × ℕ}
    (ht : (s.loc t).inFunc = some r) (hu : (s.loc u).inFunc = some r') :
    r.2 < r'.1 ∨ r'.2 < r.1 := by
  have hloc := Loc.inFunc_eq_some ht
  have hloc' := Loc.inFunc_eq_some hu
  have hbounded := bounded_of_reachable hs t
  have hbounded' := bounded_of_reachable hs u
  rw [hloc] at hbounded
  rw [hloc'] at hbounded'
  have hle : r.1 ≤ r.2 := hbounded.1
  have hle' : r'.1 ≤ r'.2 := hbounded'.1
  by_contra hover
  have hholds : (s.loc t).Holds cfg (cfg.lockOf (max r.1 r'.1)) := by
    rw [hloc]
    exact ⟨cfg.lockOf_mono (by omega), cfg.lockOf_mono (by omega)⟩
  have hholds' : (s.loc u).Holds cfg (cfg.lockOf (max r.1 r'.1)) := by
    rw [hloc']
    exact ⟨cfg.lockOf_mono (by omega), cfg.lockOf_mono (by omega)⟩
  exact hne ((owned_of_reachable hs _).unique hholds hholds')

/-- Once `func` has returned, it is not called again before the thread is idle. -/
theorem asks_eq_none_of_advance {l l' : Loc}
    (h : (machine cfg Client).advance t a m l = some (m', l')) (hidle : l.isIdle = false)
    (hasks : l.asks = none) : l'.asks = none := by
  cases l with
  | query left right pc =>
      obtain ⟨⟨m'', r⟩, hstep, heq⟩ := Option.map_eq_some_iff.mp h
      cases heq
      cases pc with
      | release count =>
          cases hstep
          by_cases hlast : count ≤ 1
          · simp [hlast, afterQuery, Loc.asks]
          · simp [hlast, afterQuery, Loc.asks]
      | _ => contradiction
  | counted locks => cases h; rfl
  | idle => contradiction

/-- A thread inside `func` holds the mutex of every position of its range. -/
theorem holds_of_inFunc (hs : (machine cfg Client).Reachable s) {range : ℕ × ℕ} {pos : ℕ}
    (ht : (s.loc t).inFunc = some range) (hlo : range.1 ≤ pos) (hhi : pos ≤ range.2) :
    s.mem.locks (cfg.lockOf pos) = some t := by
  have hholds : (s.loc t).Holds cfg (cfg.lockOf pos) := by
    rw [Loc.inFunc_eq_some ht]
    exact ⟨cfg.lockOf_mono hlo, cfg.lockOf_mono hhi⟩
  exact (owned_of_reachable hs _ t).mpr hholds

/-- A `NaiveLock` of a nonempty array as its users see it. -/
def rangeLock (cfg : Config) (Client : Type) [DecidableEq Client] :
    RangeLock Client Act (Mem Client) Loc where
  program := machine cfg Client
  isIdle := Loc.isIdle
  writeQuery left right := .call (.writeQuery left right)
  inFunc := Loc.inFunc

theorem rangeLock_sound (hsize : cfg.arraySize ≠ 0) :
    (rangeLock cfg Client).Sound (clampRange cfg.arraySize) Loc.asks where
  call {t left right m l m' l'} hidle h := by
    cases l with
    | idle =>
        change advance cfg t (.call (.writeQuery left right)) m .idle = some (m', l') at h
        simp only [advance, enter, hsize, if_false] at h
        split at h
        · contradiction
        · cases h
          rfl
    | _ => contradiction
  keep := asks_advance
  func := asks_of_inFunc
  exclusive hs hne ht hu := disjoint_of_inFunc hs hne ht hu

end NaiveLock
end DynLocks
