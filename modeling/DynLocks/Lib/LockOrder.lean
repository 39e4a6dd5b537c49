import Mathlib.Data.Set.Basic
import Mathlib.Data.Nat.Notation

/-!
# DynLocks.Lib.LockOrder

Deadlock among threads that wait for mutexes, and the classical way to rule it
out: every mutex has a rank, a thread only waits for a mutex above those it
holds, and the ranks that are waited for are bounded.
-/

namespace LockOrder

variable {Tid Mutex : Type}

/-- Every thread of the nonempty set `ts` waits for a mutex held by a thread of the set, possibly
by itself. -/
structure Deadlock (wants : Tid → Option Mutex) (owner : Mutex → Option Tid) (ts : Set Tid) :
    Prop where
  nonempty : ts.Nonempty
  blocked : ∀ t ∈ ts, ∃ x u, wants t = some x ∧ owner x = some u ∧ u ∈ ts

/-- What a thread waits for ranks above everything it holds and below `bound`. -/
structure Ordered (wants : Tid → Option Mutex) (owner : Mutex → Option Tid) (rank : Mutex → ℕ)
    (bound : ℕ) : Prop where
  rises : ∀ t x y, wants t = some x → owner y = some t → rank y < rank x
  bounded : ∀ t x, wants t = some x → rank x < bound

variable {wants : Tid → Option Mutex} {owner : Mutex → Option Tid} {rank : Mutex → ℕ} {bound : ℕ}

/-- The holder of a mutex waits for one of a higher rank, so waiting comes to an end. -/
theorem Ordered.not_deadlock (h : Ordered wants owner rank bound) (ts : Set Tid) :
    ¬Deadlock wants owner ts := by
  intro hdead
  have hend : ∀ n t, t ∈ ts → ∀ x, wants t = some x → bound - rank x ≤ n → False := by
    intro n
    induction n with
    | zero =>
        intro t _ x hx hle
        have := h.bounded t x hx
        omega
    | succ n ih =>
        intro t ht x hx hle
        obtain ⟨y, u, hy, howner, hu⟩ := hdead.blocked t ht
        obtain rfl : x = y := Option.some.inj (hx.symm.trans hy)
        obtain ⟨z, -, hz, -, -⟩ := hdead.blocked u hu
        have hrise := h.rises u z x hz howner
        have hbound := h.bounded u z hz
        exact ih u hu z hz (by omega)
  obtain ⟨t, ht⟩ := hdead.nonempty
  obtain ⟨x, -, hx, -, -⟩ := hdead.blocked t ht
  exact hend (bound - rank x) t ht x hx le_rfl

/-- Following the holders from a thread on leads to one that does not wait: the thread itself, or
one that holds a mutex. -/
theorem Ordered.exists_unblocked (h : Ordered wants owner rank bound) (t : Tid) :
    ∃ u, (u = t ∨ ∃ x, owner x = some u) ∧ ∀ x, wants u = some x → owner x = none := by
  have hchain : ∀ n t x, wants t = some x → bound - rank x ≤ n →
      ∃ u, (u = t ∨ ∃ x, owner x = some u) ∧ ∀ x, wants u = some x → owner x = none := by
    intro n
    induction n with
    | zero =>
        intro t x hx hle
        have := h.bounded t x hx
        omega
    | succ n ih =>
        intro t x hx hle
        cases howner : owner x with
        | none =>
            refine ⟨t, Or.inl rfl, fun y hy => ?_⟩
            obtain rfl : x = y := Option.some.inj (hx.symm.trans hy)
            exact howner
        | some v =>
            cases hv : wants v with
            | none => exact ⟨v, Or.inr ⟨x, howner⟩, fun y hy => by rw [hv] at hy; contradiction⟩
            | some y =>
                have hrise := h.rises v y x hv howner
                have hbound := h.bounded v y hv
                obtain ⟨u, hu, hfree⟩ := ih v y hv (by omega)
                refine ⟨u, Or.inr ?_, hfree⟩
                rcases hu with rfl | hholds
                · exact ⟨x, howner⟩
                · exact hholds
  cases ht : wants t with
  | none => exact ⟨t, Or.inl rfl, fun x hx => by rw [ht] at hx; contradiction⟩
  | some x => exact hchain (bound - rank x) t x ht le_rfl

end LockOrder
