import Mathlib.Data.Nat.Count

/-!
# DynLocks.Lib.Tally

A machine counter that some threads count up and others read and set back to
zero.  What happens to it is a sequence of events; `since` is the number of
increments since it was zeroed last, `adds` the number in a stretch of the
sequence.

* `toNat_value` — the counter holds `since`, as far as a word goes;
* `harvest_iff` — reading the counter and zeroing it later accounts for every
  increment exactly if none comes between the two and neither part wraps.
-/

namespace Tally

/-- What one step does to the counter. -/
inductive Event
  | add
  | zero
  | skip
  deriving DecidableEq

/-- The step on the value of the counter. -/
def Event.apply : Event → UInt64 → UInt64
  | .add, v => v + 1
  | .zero, _ => 0
  | .skip, v => v

variable (events : ℕ → Event)

/-- The increments among the first `n` events that follow the last zeroing of them. -/
def since : ℕ → ℕ
  | 0 => 0
  | n + 1 =>
      match events n with
      | .add => since n + 1
      | .zero => 0
      | .skip => since n

/-- The increments among the events from `m` up to `n`. -/
def adds (m n : ℕ) : ℕ := Nat.count (fun i => m ≤ i ∧ events i = .add) n

variable {events} {a l z e n : ℕ}

/-- No more increments than events. -/
theorem since_le (n : ℕ) : since events n ≤ n := by
  induction n with
  | zero => exact le_rfl
  | succ n ih =>
      rw [since]
      cases events n with
      | add => exact Nat.succ_le_succ ih
      | zero => exact Nat.zero_le _
      | skip => exact ih.trans n.le_succ

theorem adds_self (m : ℕ) : adds events m m = 0 := by
  unfold adds
  rw [Nat.count_iff_forall_not]
  intro i hi h
  omega

theorem adds_succ {m : ℕ} (hmn : m ≤ n) :
    adds events m (n + 1) = adds events m n + if events n = .add then 1 else 0 := by
  simp only [adds, Nat.count_succ, hmn, true_and]

/-- A stretch has no increments if none of its events is one. -/
theorem adds_eq_zero_iff {m : ℕ} :
    adds events m n = 0 ↔ ∀ i, m ≤ i → i < n → events i ≠ .add := by
  unfold adds
  rw [Nat.count_iff_forall_not]
  constructor
  · intro h i hmi hin hadd
    exact h i hin ⟨hmi, hadd⟩
  · intro h i hin hi
    exact h i hi.1 hin hi.2

/-- Two stretches end to end. -/
theorem adds_add_adds (hal : a ≤ l) (hle : l ≤ e) :
    adds events a l + adds events l e = adds events a e := by
  induction e, hle using Nat.le_induction with
  | base => rw [adds_self, Nat.add_zero]
  | succ e hle ih => rw [adds_succ hle, adds_succ (hal.trans hle), ← ih, Nat.add_assoc]

/-- As long as nobody zeroes the counter it goes on from where it was. -/
theorem since_eq (han : a ≤ n) (hzero : ∀ i, a ≤ i → i < n → events i ≠ .zero) :
    since events n = since events a + adds events a n := by
  induction n, han using Nat.le_induction with
  | base => rw [adds_self, Nat.add_zero]
  | succ n han ih =>
      have hprev := ih fun i hi hin => hzero i hi (by omega)
      have hnot := hzero n han (Nat.lt_succ_self n)
      rw [adds_succ han, since]
      cases hevent : events n with
      | add => simp only [hprev, if_true]; omega
      | zero => exact absurd hevent hnot
      | skip => simp [hprev]

/-- The counter holds the increments since it was zeroed last, modulo a word. -/
theorem toNat_value {value : ℕ → UInt64} (hinit : value 0 = 0)
    (hstep : ∀ i < n, value (i + 1) = (events i).apply (value i)) :
    (value n).toNat = since events n % 2 ^ 64 := by
  induction n with
  | zero => simp [hinit, since]
  | succ n ih =>
      have hprev := ih fun i hi => hstep i (by omega)
      rw [hstep n (Nat.lt_succ_self n), since]
      cases events n with
      | add => simp only [Event.apply, UInt64.toNat_add, hprev, UInt64.toNat_one]; omega
      | zero => simp [Event.apply]
      | skip => exact hprev

/-- Without a zeroing the count goes up. -/
theorem since_le_since (han : a ≤ n) (hzero : ∀ i, a ≤ i → i < n → events i ≠ .zero) :
    since events a ≤ since events n := by
  rw [since_eq han hzero]
  exact Nat.le_add_right _ _

/-- **What a reading and a later zeroing account for**: the counter is read by step `l` and zeroed
by step `z`, and by nothing else from `a` to `e`.  What was read and what is counted at `e` add up
to all the increments exactly if none falls between the two and the count fits a word throughout. -/
theorem harvest_iff (hal : a ≤ l) (hlz : l < z) (hze : z < e) (hl : events l = .skip)
    (hz : events z = .zero) (honly : ∀ i, a ≤ i → i < e → i ≠ z → events i ≠ .zero) :
    since events a + adds events a e = since events l % 2 ^ 64 + since events e % 2 ^ 64 ↔
      (∀ i, l < i → i ≤ z → events i ≠ .add) ∧ ∀ n, a ≤ n → n ≤ e → since events n < 2 ^ 64 := by
  have hbefore : ∀ m n, a ≤ m → n ≤ z → ∀ i, m ≤ i → i < n → events i ≠ .zero :=
    fun m n ham hnz i hmi hin => honly i (by omega) (by omega) (by omega)
  have hread : since events l = since events a + adds events a l :=
    since_eq hal (hbefore a l le_rfl hlz.le)
  have hafter : ∀ i, z + 1 ≤ i → i < e → events i ≠ .zero :=
    fun i hzi hie => honly i (by omega) hie (by omega)
  have hend : since events e = adds events (z + 1) e := by
    rw [since_eq (by omega) hafter, since, hz]
    exact Nat.zero_add _
  have hsplit : adds events a e = adds events a l + (adds events l z + adds events (z + 1) e) := by
    have hstep : adds events l (z + 1) = adds events l z := by simp [adds_succ hlz.le, hz]
    rw [← hstep, adds_add_adds (by omega) (by omega), adds_add_adds hal (by omega)]
  have hnone : (∀ i, l < i → i ≤ z → events i ≠ .add) ↔ adds events l z = 0 := by
    rw [adds_eq_zero_iff]
    constructor
    · intro h i hli hiz
      rcases Nat.eq_or_lt_of_le hli with rfl | hlt
      · simp [hl]
      · exact h i hlt hiz.le
    · intro h i hli hiz
      rcases Nat.eq_or_lt_of_le hiz with rfl | hlt
      · simp [hz]
      · exact h i hli.le hlt
  have hfits : (∀ n, a ≤ n → n ≤ e → since events n < 2 ^ 64) ↔
      since events z < 2 ^ 64 ∧ since events e < 2 ^ 64 := by
    constructor
    · exact fun h => ⟨h z (by omega) hze.le, h e (by omega) le_rfl⟩
    · rintro ⟨hzfits, hefits⟩ n han hne
      rcases Nat.lt_or_ge z n with hzn | hnz
      · exact (since_le_since hne fun i hi => hafter i (by omega)).trans_lt hefits
      · exact (since_le_since hnz (hbefore n z han le_rfl)).trans_lt hzfits
  have howed : since events z = since events l + adds events l z :=
    since_eq hlz.le (hbefore l z hal le_rfl)
  have hreadLe := Nat.mod_le (since events l) (2 ^ 64)
  have hendLe := Nat.mod_le (since events e) (2 ^ 64)
  have hreadLt := Nat.mod_lt (since events l) (show 0 < 2 ^ 64 by decide)
  have hendLt := Nat.mod_lt (since events e) (show 0 < 2 ^ 64 by decide)
  rw [hnone, hfits, hsplit]
  constructor
  · intro hsum
    omega
  · rintro ⟨hzero, hzfits, hefits⟩
    rw [Nat.mod_eq_of_lt (by omega), Nat.mod_eq_of_lt hefits]
    omega

end Tally
