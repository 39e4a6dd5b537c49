import DynLocks.Dynamic.Workload
import Mathlib.Algebra.BigOperators.Fin
import Mathlib.Algebra.Order.BigOperators.Group.Finset
import Mathlib.Data.Fintype.Option

/-!
# DynLocks.Dynamic.Example

The example of the README: every thread calls `WriteQuery(i, i + 1, AddOneToPoint)`
for each index of the array, and the program then checks that every cell counts
the threads.  No increment is lost, but the last call of a thread is clamped to
`(n - 1, n - 1)`, which the half-open loop of the callback takes for empty: the
last cell is never written and the check always fails (`example_check_fails`).
-/

namespace DynLocks

/-- The threads of a program as options: `none` is the background thread. -/
def Tid.equivOption (Client : Type) : Option Client ≃ Tid Client where
  toFun
    | some c => .client c
    | none => .background
  invFun
    | .client c => some c
    | .background => none
  left_inv o := by cases o <;> rfl
  right_inv t := by cases t <;> rfl

instance {Client : Type} [Fintype Client] : Fintype (Tid Client) :=
  Fintype.ofEquiv _ (Tid.equivOption Client)

theorem Tid.sum_eq {Client : Type} [Fintype Client] (f : Tid Client → ℤ) :
    ∑ t, f t = f .background + ∑ c, f (.client c) := by
  rw [← (Tid.equivOption Client).sum_comp, Fintype.sum_option]
  rfl

namespace DynamicLock

open Interleaving

/-! ## the program -/

/-- The arguments of the calls of one thread. -/
def exampleQueries (n : ℕ) : List (ℕ × ℕ) := (List.range n).map fun i => (i, i + 1)

/-- The callback `AddOneToPoint`: it adds one to each cell of the half-open range. -/
def addOneToPoint (_ range : ℕ × ℕ) : List (ℕ × ℤ) :=
  (List.range' range.1 (range.2 - range.1)).map fun idx => (idx, 1)

variable (cfg : Config) (kThreadCnt : ℕ)

/-- The threads of the example; nobody starts the rebuilder. -/
def exampleWorkload : Workload (Tid (Fin kThreadCnt)) Act Loc (ℕ × ℕ) (ℕ × ℕ) :=
  workload (fun _ => 0)
    (fun
      | .client _ => exampleQueries cfg.arraySize
      | .background => [])
    id addOneToPoint

def exampleProgram : Program (Tid (Fin kThreadCnt)) Act (WorkMem (Mem (Fin kThreadCnt)))
    (WorkLoc Loc (ℕ × ℕ)) :=
  (exampleWorkload cfg kThreadCnt).program (machine cfg (Fin kThreadCnt))

variable {cfg kThreadCnt}

/-- Every thread has returned from its last call. -/
def Joined (s : State (Tid (Fin kThreadCnt)) (WorkMem (Mem (Fin kThreadCnt))) (WorkLoc Loc (ℕ × ℕ))) :
    Prop :=
  ∀ t, (s.loc t).lock = .idle ∧ (s.loc t).todo = []

/-! ## what the callbacks add -/

theorem sound_example : (exampleWorkload cfg kThreadCnt).Sound (machine cfg (Fin kThreadCnt))
    (fun q => clampRange cfg.arraySize q.1 q.2) Loc.asks InRange := by
  refine sound _ _ id addOneToPoint fun t q _ u hu => ?_
  simp only [addOneToPoint, List.mem_map, List.mem_range'_1] at hu
  obtain ⟨idx, ⟨hlo, hhi⟩, rfl⟩ := hu
  exact ⟨hlo, by dsimp only [id] at *; omega⟩

/-- A call adds one to its point, unless that is the last one. -/
theorem amount_addOneToPoint {n i : ℕ} (hi : i < n) (cell : ℕ) :
    Workload.amount (addOneToPoint (i, i + 1) (clampRange n i (i + 1))) cell =
      if i + 1 < n ∧ i = cell then 1 else 0 := by
  by_cases hlast : i + 1 < n
  · have hclamp : clampRange n i (i + 1) = (i, i + 1) := by
      simp only [clampRange]
      rw [Nat.min_eq_left (by omega), Nat.min_eq_left (by omega), if_neg (by omega)]
    simp [hclamp, addOneToPoint, hlast]
  · have hclamp : clampRange n i (i + 1) = (n - 1, n - 1) := by
      simp only [clampRange]
      rw [Nat.min_eq_left (by omega), Nat.min_eq_right (by omega), if_neg (by omega)]
      congr 1
      omega
    simp [hclamp, addOneToPoint, hlast]

/-- The calls of one thread add one to each cell but the last. -/
theorem amount_exampleQueries (n cell : ℕ) :
    Workload.amount ((exampleWorkload cfg kThreadCnt).additions
        (fun q => clampRange n q.1 q.2) (exampleQueries n)) cell =
      if cell + 1 < n then 1 else 0 := by
  have hupto : ∀ k ≤ n, Workload.amount ((exampleWorkload cfg kThreadCnt).additions
      (fun q => clampRange n q.1 q.2) (exampleQueries k)) cell =
        if cell + 1 < n ∧ cell < k then 1 else 0 := by
    intro k hk
    induction k with
    | zero => simp [exampleQueries, Workload.additions]
    | succ k ih =>
        have hlast : (exampleWorkload cfg kThreadCnt).additions (fun q => clampRange n q.1 q.2)
            (exampleQueries (k + 1)) =
            (exampleWorkload cfg kThreadCnt).additions (fun q => clampRange n q.1 q.2)
              (exampleQueries k) ++ addOneToPoint (k, k + 1) (clampRange n k (k + 1)) := by
          simp [exampleQueries, Workload.additions, List.range_succ]
          rfl
        rw [hlast, Workload.amount_append, ih (by omega), amount_addOneToPoint (by omega)]
        by_cases hcell : k = cell
        · subst hcell
          simp
        · have hiff : (cell + 1 < n ∧ cell < k + 1) ↔ (cell + 1 < n ∧ cell < k) := by omega
          simp only [hcell, and_false, if_false, add_zero, hiff]
  rw [hupto n le_rfl]
  have hiff : (cell + 1 < n ∧ cell < n) ↔ cell + 1 < n := by omega
  simp only [hiff]

/-- What the array holds once all threads have joined. -/
theorem data_of_joined
    {s : State (Tid (Fin kThreadCnt)) (WorkMem (Mem (Fin kThreadCnt))) (WorkLoc Loc (ℕ × ℕ))}
    (hs : (exampleProgram cfg kThreadCnt).Reachable s) (hjoined : Joined s) (cell : ℕ) :
    s.mem.data cell = if cell + 1 < cfg.arraySize then (kThreadCnt : ℤ) else 0 := by
  have hdata := sound_example.data_of_done hs (fun t => (hjoined t).2) cell
  rw [Tid.sum_eq] at hdata
  have hclient : ∀ c : Fin kThreadCnt, Workload.amount ((exampleWorkload cfg kThreadCnt).additions
      (fun q => clampRange cfg.arraySize q.1 q.2)
        ((exampleWorkload cfg kThreadCnt).queries (.client c))) cell =
      if cell + 1 < cfg.arraySize then 1 else 0 := fun c => amount_exampleQueries _ _
  have hbackground : (exampleWorkload cfg kThreadCnt).queries .background = [] := rfl
  have hstart : (exampleWorkload cfg kThreadCnt).data cell = 0 := rfl
  simp only [hclient, hbackground, hstart, Workload.additions_nil, Workload.amount_nil,
    Finset.sum_const, Finset.card_univ, Fintype.card_fin] at hdata
  rw [hdata]
  split <;> simp

/-! ## a run to the end -/

variable (cfg) in
/-- No thread is in a call. -/
structure Resting
    (s : State (Tid (Fin kThreadCnt)) (WorkMem (Mem (Fin kThreadCnt))) (WorkLoc Loc (ℕ × ℕ))) :
    Prop where
  calm : Calm cfg s.mem.lock
  idle : ∀ t, (s.loc t).lock = .idle ∧ (s.loc t).work = none
  background : (s.loc .background).todo = []

/-- The calls that are left can be made one after the other. -/
theorem Resting.joined (hsize : cfg.arraySize ≠ 0) (left : ℕ)
    {s : State (Tid (Fin kThreadCnt)) (WorkMem (Mem (Fin kThreadCnt))) (WorkLoc Loc (ℕ × ℕ))}
    (h : Resting cfg s) (hs : (exampleProgram cfg kThreadCnt).Reachable s)
    (hleft : ∑ c, (s.loc (.client c)).todo.length = left) :
    ∃ s', (exampleProgram cfg kThreadCnt).Reachable s' ∧ Joined s' := by
  induction left generalizing s with
  | zero =>
      refine ⟨s, hs, fun t => ⟨(h.idle t).1, ?_⟩⟩
      cases t with
      | client c => exact List.length_eq_zero_iff.mp (Finset.sum_eq_zero_iff.mp hleft c (by simp))
      | background => exact h.background
  | succ left ih =>
      obtain ⟨c, -, hc⟩ := Finset.exists_ne_zero_of_sum_ne_zero (hleft.trans_ne (Nat.succ_ne_zero left))
      cases htodo : (s.loc (.client c)).todo with
      | nil => exact absurd (by rw [htodo]; rfl) hc
      | cons q rest =>
          have hloc : s.loc (.client c) = ⟨.idle, q :: rest, none⟩ := by
            obtain ⟨hlock, hwork⟩ := h.idle (.client c)
            rw [← hlock, ← hwork, ← htodo]
          have hpermits : (exampleWorkload cfg kThreadCnt).permits = permits id := rfl
          obtain ⟨m', data', hcalm, halone⟩ :=
            alone_query cfg hpermits rfl c s.mem.data h.calm hsize q rest
          have halone' : (exampleProgram cfg kThreadCnt).Alone (.client c)
              (s.mem, s.loc (.client c)) (⟨m', data'⟩, ⟨.idle, rest, none⟩) := by
            rw [hloc]
            exact halone
          have hreach := halone'.reachable hs
          refine ih (s := ⟨⟨m', data'⟩, Function.update s.loc (.client c) ⟨.idle, rest, none⟩⟩)
            ⟨hcalm, fun t => ?_, ?_⟩ hreach ?_
          · by_cases ht : t = .client c
            · simp [ht]
            · simp only [Function.update_of_ne ht]
              exact h.idle t
          · exact h.background
          · have hrest : ∀ d ∈ Finset.univ.erase c,
                (Function.update s.loc (.client c) ⟨.idle, rest, none⟩ (.client d)).todo.length =
                  (s.loc (.client d)).todo.length := fun d hd => by
              rw [Function.update_of_ne fun heq => Finset.ne_of_mem_erase hd (Tid.client.inj heq)]
            rw [← Finset.add_sum_erase _ _ (Finset.mem_univ c)] at hleft ⊢
            dsimp only
            rw [Finset.sum_congr rfl hrest, Function.update_self]
            rw [hloc] at hleft
            simp only [List.length_cons] at hleft ⊢
            omega

/-- The example comes to its check. -/
theorem exists_joined (cfg : Config) (hsize : cfg.arraySize ≠ 0) (kThreadCnt : ℕ) :
    ∃ s, (exampleProgram cfg kThreadCnt).Reachable s ∧ Joined s :=
  Resting.joined hsize _ (s := (exampleProgram cfg kThreadCnt).initial)
    ⟨calm_initMem, fun _ => ⟨rfl, rfl⟩, rfl⟩ .init rfl

/-- **The example's check fails** for every array and every number of threads: whatever the
interleaving, once all threads have joined the last cell is still zero, while every other cell
counts the threads. -/
theorem example_check_fails (cfg : Config) (hsize : 1 ≤ cfg.arraySize) (kThreadCnt : ℕ)
    (hthreads : 1 ≤ kThreadCnt) :
    (¬ ∀ s, (exampleProgram cfg kThreadCnt).Reachable s → Joined s →
        ∀ cell < cfg.arraySize, s.mem.data cell = kThreadCnt) ∧
      ∀ s, (exampleProgram cfg kThreadCnt).Reachable s → Joined s →
        s.mem.data (cfg.arraySize - 1) = 0 ∧
          ∀ cell, cell + 1 < cfg.arraySize → s.mem.data cell = kThreadCnt := by
  have hlast : ∀ s, (exampleProgram cfg kThreadCnt).Reachable s → Joined s →
      s.mem.data (cfg.arraySize - 1) = 0 := fun s hs hjoined => by
    rw [data_of_joined hs hjoined, if_neg (by omega)]
  refine ⟨fun hcheck => ?_, fun s hs hjoined => ⟨hlast s hs hjoined, fun cell hcell => ?_⟩⟩
  · obtain ⟨s, hs, hjoined⟩ := exists_joined cfg (by omega) kThreadCnt
    have hcell := hcheck s hs hjoined (cfg.arraySize - 1) (by omega)
    rw [hlast s hs hjoined] at hcell
    omega
  · rw [data_of_joined hs hjoined, if_pos hcell]

/-- Two threads on an array of two cells. -/
theorem example_check_fails_two_blocks :
    ¬ ∀ s, (exampleProgram twoBlocks 2).Reachable s → Joined s →
      ∀ cell < 2, s.mem.data cell = 2 :=
  (example_check_fails twoBlocks (by decide) 2 (by decide)).1

/-- One thread that makes its two calls on an array of two cells leaves the second cell at zero. -/
theorem example_check_one_thread :
    ¬ ∀ s, (exampleProgram twoBlocks 1).Reachable s → Joined s →
      ∀ cell < twoBlocks.arraySize, s.mem.data cell = 1 := by
  intro hcheck
  obtain ⟨s, hs, hjoined⟩ := exists_joined twoBlocks (by decide) 1
  have hcell := hcheck s hs hjoined 1 (by decide)
  rw [data_of_joined hs hjoined, if_neg (by decide)] at hcell
  contradiction

end DynamicLock
end DynLocks
