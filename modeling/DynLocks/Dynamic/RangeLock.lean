import DynLocks.Lib.Critical
import DynLocks.Dynamic.Exclusion

/-!
# DynLocks.Dynamic.RangeLock

`DynamicLock` as a lock for ranges of positions: `WriteQuery` gets to `func` on
the clamped range of its call (`asks_advance`), and never two of them at once on
ranges that meet (`disjoint_of_inFunc`), while the blocks are moved between the
mutexes.
-/

namespace DynLocks
namespace DynamicLock

open Interleaving

/-- The clamped range on which a thread runs `func`. -/
def Loc.inFunc : Loc → Option (ℕ × ℕ)
  | .query left right (.inside _ _ .func) => some (left, right)
  | _ => none

/-- The clamped range of a `WriteQuery` whose `func` has not returned. -/
def Loc.asks : Loc → Option (ℕ × ℕ)
  | .query _ _ (.release _ _) => none
  | .query left right _ => some (left, right)
  | _ => none

variable {Client : Type} {cfg : Config} [DecidableEq Client] {t u : Tid Client} {a : Act}
  {m m' : Mem Client} {s : State (Tid Client) (Mem Client) Loc}

theorem Loc.inFunc_eq_some {l : Loc} {range : ℕ × ℕ} (h : l.inFunc = some range) :
    ∃ lockStart lockEnd, l = .query range.1 range.2 (.inside lockStart lockEnd .func) := by
  cases l with
  | query left right pc =>
      cases pc with
      | inside lockStart lockEnd pc =>
          cases pc with
          | func => cases h; exact ⟨lockStart, lockEnd, rfl⟩
          | _ => cases h
      | _ => cases h
  | _ => cases h

theorem Loc.asks_eq_some {l : Loc} {range : ℕ × ℕ} (h : l.asks = some range) :
    ∃ pc, l = .query range.1 range.2 pc := by
  cases l with
  | query left right pc =>
      cases pc with
      | release => cases h
      | _ => cases h; exact ⟨_, rfl⟩
  | _ => cases h

/-- A query goes on until `func` has returned. -/
theorem asks_queryStep {left right : ℕ} {pc : QueryPc} {r : Option QueryPc}
    (hasks : (Loc.query left right pc).asks = some (left, right))
    (hfunc : (Loc.query left right pc).inFunc = none)
    (h : queryStep cfg t a m left right pc = some (m', r)) :
    (afterQuery left right r).asks = some (left, right) := by
  cases pc with
  | acquire epoch lockStart lockEnd index =>
      simp only [queryStep] at h
      split at h
      · cases h
        dsimp only [afterQuery]
        split <;> rfl
      · contradiction
  | inside lockStart lockEnd pc =>
      simp only [queryStep, Option.map_eq_some_iff, Prod.mk.injEq] at h
      obtain ⟨⟨m'', r'⟩, hstep, rfl, rfl⟩ := h
      cases r' with
      | some pc' => rfl
      | none =>
          cases pc with
          | func => contradiction
          | durationCas current =>
              cases a with
              | elapsed delta spurious =>
                  simp only [insideStep] at hstep
                  split at hstep <;> cases hstep
              | _ => contradiction
          | sampleLoad =>
              simp only [insideStep] at hstep
              split at hstep
              · cases hstep
              · split at hstep <;> cases hstep
          | _ => cases hstep
  | release => cases hasks
  | pauseLoad => cases h; dsimp only [afterQuery]; split <;> rfl
  | epochLoad => cases h; dsimp only [afterQuery]; split <;> rfl
  | leftLoad => cases h; rfl
  | rightLoad => cases h; dsimp only [afterQuery]; split <;> rfl
  | epochCheck => cases h; dsimp only [afterQuery]; split <;> rfl
  | retry => cases h; dsimp only [afterQuery]; split <;> rfl

/-- A call goes on until its `func` has returned. -/
theorem asks_advance {l l' : Loc} {range : ℕ × ℕ}
    (h : (machine cfg Client).advance t a m l = some (m', l')) (hfunc : l.inFunc = none)
    (hasks : l.asks = some range) : l'.asks = some range := by
  obtain ⟨pc, rfl⟩ := Loc.asks_eq_some hasks
  obtain ⟨⟨m'', r⟩, hstep, heq⟩ := Option.map_eq_some_iff.mp h
  cases heq
  exact asks_queryStep hasks hfunc hstep

theorem asks_of_inFunc {l : Loc} {range : ℕ × ℕ} (h : l.inFunc = some range) :
    l.asks = some range := by
  obtain ⟨lockStart, lockEnd, rfl⟩ := Loc.inFunc_eq_some h
  rfl

/-- Two threads inside `func` work on disjoint ranges. -/
theorem disjoint_of_inFunc (hs : (machine cfg Client).Reachable s) (hne : t ≠ u) {r r' : ℕ × ℕ}
    (ht : (s.loc t).inFunc = some r) (hu : (s.loc u).inFunc = some r') :
    r.2 < r'.1 ∨ r'.2 < r.1 := by
  obtain ⟨lockStart, lockEnd, ht⟩ := Loc.inFunc_eq_some ht
  obtain ⟨lockStart', lockEnd', hu⟩ := Loc.inFunc_eq_some hu
  exact (safe_of_reachable hs).disjoint ⟨lockStart, lockEnd, ht⟩ ⟨lockStart', lockEnd', hu⟩ hne

/-- A thread inside `func` holds the lock that the table names for every position of its range. -/
theorem holds_of_inFunc (hs : (machine cfg Client).Reachable s) {range : ℕ × ℕ} {pos : ℕ}
    (ht : (s.loc t).inFunc = some range) (hlo : range.1 ≤ pos) (hhi : pos ≤ range.2) :
    s.mem.locks (s.mem.blockToLock (cfg.positionToBlock pos)) = some t := by
  obtain ⟨lockStart, lockEnd, hloc⟩ := Loc.inFunc_eq_some ht
  have hfunc : InFunc s t range.1 range.2 := ⟨lockStart, lockEnd, hloc⟩
  obtain ⟨first, last, hinside⟩ := hfunc.inside cfg
  exact (safe_of_reachable hs).inv.holds hinside (cfg.positionToBlock_mono hlo)
    (cfg.positionToBlock_mono hhi)

/-- A `DynamicLock` of a nonempty array as its users see it. -/
def rangeLock (cfg : Config) (Client : Type) [DecidableEq Client] :
    RangeLock (Tid Client) Act (Mem Client) Loc where
  program := machine cfg Client
  isIdle := Loc.isIdle
  writeQuery left right := .call (.writeQuery left right)
  inFunc := Loc.inFunc

theorem rangeLock_sound (hsize : cfg.arraySize ≠ 0) :
    (rangeLock cfg Client).Sound (clampRange cfg.arraySize) Loc.asks where
  call {t left right m l m' l'} hidle h := by
    have hloc := Loc.eq_idle hidle
    subst hloc
    cases t with
    | background => contradiction
    | client c =>
        change advance cfg (.client c) (.call (.writeQuery left right)) m .idle = some (m', l') at h
        simp only [advance, enter, hsize, if_false] at h
        cases h
        rfl
  keep := asks_advance
  func := asks_of_inFunc
  exclusive hs hne ht hu := disjoint_of_inFunc hs hne ht hu

end DynamicLock
end DynLocks
