import DynLocks.Dynamic.Machine
import Mathlib.Data.List.TakeWhile
import Mathlib.Data.Nat.ModEq

/-!
# DynLocks.Sampling

Which operations are sampled.  `ShouldSampleStats` and `ShouldSampleTraining`
count in a function-local `static thread_local` variable, so a thread has one
counter for all locks of a type, and a lock is sampled when that counter is a
multiple of its rate.

* `sampledAtRate_shared` — the decisions on one lock keep to its rate as long
  as the thread's operations on other locks in between come in multiples of
  the rate, and the counter does not wrap at a rate that does not divide `2 ^ 64`;
* `not_sampledAtRate_alternating` — two locks of rate two, used in turn.
-/

namespace DynLocks

/-! ## multiples of a rate in a window -/

/-- Which of the `n` numbers from `start` on are multiples of `rate`. -/
def multiples (rate start n : ℕ) : List Bool :=
  (List.range n).map fun j => decide ((start + j) % rate = 0)

/-- Any `m` consecutive decisions contain `⌊m / rate⌋` or `⌈m / rate⌉` samples. -/
def SampledAtRate (rate : ℕ) (decisions : List Bool) : Prop :=
  ∀ start m, start + m ≤ decisions.length →
    ((decisions.drop start).take m).count true = m / rate ∨
      ((decisions.drop start).take m).count true = (m + rate - 1) / rate

@[simp] theorem length_multiples (rate start n : ℕ) : (multiples rate start n).length = n := by
  simp [multiples]

/-- One more number at the front. -/
theorem multiples_succ (rate start n : ℕ) :
    multiples rate start (n + 1) =
      decide (start % rate = 0) :: multiples rate (start + 1) n := by
  simp only [multiples, List.range_succ_eq_map, List.map_cons, List.map_map, Nat.add_zero]
  congr 1
  apply List.map_congr_left
  intro j _
  simp only [Function.comp_apply, Nat.succ_eq_add_one]
  rw [show start + (j + 1) = start + 1 + j by omega]

/-- A window of multiples starts later and is shorter. -/
theorem take_drop_multiples {rate start n s m : ℕ} (h : s + m ≤ n) :
    ((multiples rate start n).drop s).take m = multiples rate (start + s) m := by
  apply List.ext_getElem
  · simp only [List.length_take, List.length_drop, length_multiples]
    omega
  · intro j hj hj'
    simp [multiples, Nat.add_assoc]

/-- The multiples below `start + m` are those below `start` and those of the window. -/
theorem count_multiples {rate : ℕ} (hrate : 0 < rate) (start m : ℕ) :
    (multiples rate start m).count true + (start + rate - 1) / rate =
      (start + m + rate - 1) / rate := by
  induction m generalizing start with
  | zero => simp [multiples]
  | succ m ih =>
      have hstep : (start + 1 + rate - 1) / rate =
          (start + rate - 1) / rate + if start % rate = 0 then 1 else 0 := by
        rw [show start + 1 + rate - 1 = start + rate - 1 + 1 by omega, Nat.succ_div,
          show start + rate - 1 + 1 = start + rate by omega]
        simp [Nat.dvd_iff_mod_eq_zero]
      have hrest := ih (start + 1)
      rw [show start + 1 + m = start + (m + 1) by omega] at hrest
      rw [multiples_succ, List.count_cons]
      by_cases hmod : start % rate = 0
      · simp only [hmod, decide_true, beq_self_eq_true, if_true] at hstep ⊢
        omega
      · simp only [hmod, decide_false, if_false] at hstep ⊢
        simp only [Bool.false_eq_true, if_false, show (false == true) = false from rfl]
        omega

/-- Consecutive numbers keep to the rate. -/
theorem sampledAtRate_multiples {rate : ℕ} (hrate : 0 < rate) (start n : ℕ) :
    SampledAtRate rate (multiples rate start n) := by
  intro s m hle
  rw [length_multiples] at hle
  rw [take_drop_multiples hle]
  have hcount := count_multiples hrate (start + s) m
  -- both ends of the window are rounded up, so the difference is off by one at most
  rw [show start + s + m + rate - 1 = start + s + rate - 1 + m by omega,
    Nat.add_div hrate] at hcount
  rw [show m + rate - 1 = m + (rate - 1) by omega, Nat.add_div hrate,
    Nat.div_eq_of_lt (by omega : rate - 1 < rate), Nat.mod_eq_of_lt (by omega : rate - 1 < rate)]
  have hmod := Nat.mod_lt (start + s + rate - 1) hrate
  split at hcount
  · right
    rw [if_pos (by omega)]
    omega
  · left
    omega

/-! ## the shared counter -/

/-- What both functions do once collection is on: count, unless every operation is a sample. -/
def sampleCall (rate : ℕ) (counter : UInt64) : Bool × UInt64 :=
  if rate ≤ 1 then (true, counter)
  else (DynamicLock.sampleNow rate (counter + 1), counter + 1)

/-- `DynamicLock::ShouldSampleStats`: the decision and the counter it leaves. -/
def DynamicLock.shouldSampleStats (collectStats : Bool) (statsSampleRate : ℕ)
    (counter : UInt64) : Bool × UInt64 :=
  if collectStats = false then (false, counter) else sampleCall statsSampleRate counter

/-- `GeneticLock::ShouldSampleTraining`: the decision and the counter it leaves. -/
def GeneticLock.shouldSampleTraining (trainingEnabled : Bool)
    (operationCount nextTrainingProbeOperation : UInt64) (trainingSampleRate : ℕ)
    (counter : UInt64) : Bool × UInt64 :=
  if trainingEnabled = false then (false, counter)
  else if operationCount < nextTrainingProbeOperation then (false, counter)
  else sampleCall trainingSampleRate counter

/-- The sampling decision of `WriteQuery` in the machine is `ShouldSampleStats` on the thread's
counter. -/
theorem DynamicLock.insideStep_sampleLoad {Client : Type} [DecidableEq Client] (cfg : Config)
    (t : Tid Client) (a : Act) (m : Mem Client) (left right : ℕ) :
    let r := shouldSampleStats m.collectStats cfg.sampleRate (m.sampleCounter t)
    ∃ firstHit, insideStep cfg t a m left right .sampleLoad =
      some ({ m with sampleCounter := Function.update m.sampleCounter t r.2 },
        some (if r.1 then firstHit else .func)) := by
  have hsame : { m with
      sampleCounter := Function.update m.sampleCounter t (m.sampleCounter t) } = m := by
    rw [Function.update_eq_self]
  simp only [insideStep, shouldSampleStats, sampleCall]
  refine ⟨if cfg.positionToBlock left ≤ cfg.positionToBlock right ∧
    cfg.positionToBlock left < cfg.kBlocks then .addHit (cfg.positionToBlock left)
    else firstCrossing cfg left right, ?_⟩
  by_cases hcollect : m.collectStats = false
  · simp only [if_pos hcollect, hsame]
    rfl
  · by_cases hrate : cfg.sampleRate ≤ 1
    · simp only [if_neg hcollect, if_pos hrate, hsame]
      rfl
    · simp only [if_neg hcollect, if_neg hrate]

/-- The mask branch and the modulo branch obey one law. -/
theorem DynamicLock.sampleNow_eq {rate : ℕ} (hrate : 0 < rate) (counter : UInt64) :
    sampleNow rate counter = decide (counter.toNat % rate = 0) := by
  unfold sampleNow
  split
  · next hmask =>
      obtain ⟨k, rfl⟩ := (Nat.and_sub_one_eq_zero_iff_isPowerOfTwo hrate.ne').mp hmask
      rw [Nat.and_two_pow_sub_one_eq_mod]
  · rfl

/-! ## a thread's operations on many locks -/

section Runs

variable {Op ι : Type} [DecidableEq ι]

/-- The decisions for a thread's operations, one after the other, on one counter. -/
def decisions (sample : Op → UInt64 → Bool × UInt64) : UInt64 → List Op → List (Op × Bool)
  | _, [] => []
  | counter, op :: ops =>
      (op, (sample op counter).1) :: decisions sample (sample op counter).2 ops

/-- The decisions for the operations on lock `i`. -/
def decisionsOn (lock : Op → ι) (sample : Op → UInt64 → Bool × UInt64) (counter : UInt64)
    (ops : List Op) (i : ι) : List Bool :=
  ((decisions sample counter ops).filter fun d => lock d.1 = i).map Prod.snd

/-- The operations that move the counter. -/
def counted (lock : Op → ι) (rate : ι → ℕ) (ops : List Op) : ℕ :=
  ops.countP fun op => 1 < rate (lock op)

/-- Between two operations on lock `i`, the thread's operations on other locks move the counter by
a multiple of the rate of `i`. -/
def EvenlySpaced (lock : Op → ι) (rate : ι → ℕ) (ops : List Op) (i : ι) : Prop :=
  ∀ before between after first next, ops = before ++ first :: (between ++ next :: after) →
    lock first = i → lock next = i → (∀ op ∈ between, lock op ≠ i) →
      rate i ∣ counted lock rate between

/-- The counter does not wrap, or does so at a multiple of the rate. -/
def NoWrapAt (lock : Op → ι) (rate : ι → ℕ) (counter : UInt64) (ops : List Op) (i : ι) : Prop :=
  rate i ∣ 2 ^ 64 ∨ counter.toNat + counted lock rate ops < 2 ^ 64

/-- The operations before the first one on lock `i`. -/
def beforeFirst (lock : Op → ι) (ops : List Op) (i : ι) : List Op :=
  ops.takeWhile fun op => lock op ≠ i

variable {lock : Op → ι} {rate : ι → ℕ} {sample : Op → UInt64 → Bool × UInt64} {i : ι}

omit [DecidableEq ι] in
theorem counted_cons (op : Op) (ops : List Op) :
    counted lock rate (op :: ops) = counted lock rate ops + if 1 < rate (lock op) then 1 else 0 := by
  simp [counted, List.countP_cons]

omit [DecidableEq ι] in
theorem EvenlySpaced.tail {op : Op} {ops : List Op} (h : EvenlySpaced lock rate (op :: ops) i) :
    EvenlySpaced lock rate ops i := by
  intro before between after first next heq
  exact h (op :: before) between after first next (by rw [heq]; rfl)

omit [DecidableEq ι] in
theorem EvenlySpaced.nil : EvenlySpaced lock rate ([] : List Op) i := by
  intro before between after first next heq
  simp at heq

/-- An operation in front is evenly spaced if the next one on its lock is. -/
theorem EvenlySpaced.cons {op : Op} {ops : List Op} (h : EvenlySpaced lock rate ops i)
    (hop : lock op = i → (∃ o ∈ ops, lock o = i) →
      rate i ∣ counted lock rate (beforeFirst lock ops i)) :
    EvenlySpaced lock rate (op :: ops) i := by
  intro before between after first next heq hfirst hnext hother
  cases before with
  | cons op' before =>
      rw [List.cons_append, List.cons.injEq] at heq
      exact h before between after first next heq.2 hfirst hnext hother
  | nil =>
      rw [List.nil_append, List.cons.injEq] at heq
      obtain ⟨rfl, rfl⟩ := heq
      have hbetween : beforeFirst lock (between ++ next :: after) i = between := by
        rw [beforeFirst, List.takeWhile_append_of_pos fun o ho => by simpa using hother o ho,
          List.takeWhile_cons_of_neg (by simpa using hnext), List.append_nil]
      have hdvd := hop hfirst ⟨next, by simp, hnext⟩
      rwa [hbetween] at hdvd

/-- After an operation on lock `i` the next one is a multiple of the rate away, if there is one. -/
theorem EvenlySpaced.dvd_beforeFirst {op : Op} {ops : List Op}
    (h : EvenlySpaced lock rate (op :: ops) i) (hop : lock op = i) (hex : ∃ o ∈ ops, lock o = i) :
    rate i ∣ counted lock rate (beforeFirst lock ops i) := by
  have hrest : (ops.dropWhile fun o => lock o ≠ i) ≠ [] := by
    obtain ⟨o, ho, hoi⟩ := hex
    intro hnil
    have hall := List.dropWhile_eq_nil_iff.mp hnil o ho
    simp [hoi] at hall
  obtain ⟨next, after, hcons⟩ := List.exists_cons_of_ne_nil hrest
  have hsplit : ops = beforeFirst lock ops i ++ next :: after := by
    rw [← hcons]
    exact (List.takeWhile_append_dropWhile ..).symm
  refine h [] (beforeFirst lock ops i) after op next (by rw [← hsplit]; rfl) hop ?_ fun o ho => ?_
  · have hhead := List.head_dropWhile_not (fun o => decide (lock o ≠ i)) hrest
    simp only [hcons, List.head_cons] at hhead
    simpa using hhead
  · simpa using List.mem_takeWhile_imp ho

omit [DecidableEq ι] in
/-- Counting up once keeps the remainder of what has been counted. -/
theorem NoWrapAt.step {counter : UInt64} {op : Op} {ops : List Op}
    (h : NoWrapAt lock rate counter (op :: ops) i) (hcounted : 1 < rate (lock op)) :
    (counter + 1).toNat ≡ counter.toNat + 1 [MOD rate i] ∧
      NoWrapAt lock rate (counter + 1) ops i := by
  have hword : (counter + 1).toNat = (counter.toNat + 1) % 2 ^ 64 := by simp
  rw [NoWrapAt, counted_cons, if_pos hcounted] at h
  rcases h with hdvd | hlt
  · refine ⟨?_, Or.inl hdvd⟩
    rw [hword]
    exact (Nat.mod_modEq _ _).of_dvd hdvd
  · have hplain : (counter + 1).toNat = counter.toNat + 1 := by
      rw [hword, Nat.mod_eq_of_lt (by omega)]
    refine ⟨by rw [hplain], Or.inr ?_⟩
    rw [hplain]
    omega

omit [DecidableEq ι] in
theorem NoWrapAt.skip {counter : UInt64} {op : Op} {ops : List Op}
    (h : NoWrapAt lock rate counter (op :: ops) i) (hcounted : ¬1 < rate (lock op)) :
    NoWrapAt lock rate counter ops i := by
  rw [NoWrapAt, counted_cons, if_neg hcounted] at h
  exact h

/-- No decisions without operations. -/
theorem decisionsOn_eq_nil {ops : List Op} (h : ¬∃ o ∈ ops, lock o = i) (counter : UInt64) :
    decisionsOn lock sample counter ops i = [] := by
  induction ops generalizing counter with
  | nil => rfl
  | cons op ops ih =>
      have hop : lock op ≠ i := fun heq => h ⟨op, List.mem_cons_self, heq⟩
      rw [decisionsOn, decisions, List.filter_cons_of_neg (by simpa using hop)]
      exact ih (fun ⟨o, ho, hoi⟩ => h ⟨o, List.mem_cons_of_mem _ ho, hoi⟩) _

/-- The decisions on an evenly spaced lock are those of consecutive numbers. -/
theorem decisionsOn_eq_multiples {ops : List Op} {counter : UInt64} (hsample : ∀ op ∈ ops,
    ∀ c, sample op c = sampleCall (rate (lock op)) c) (hrate : 0 < rate i)
    (hspaced : EvenlySpaced lock rate ops i) (hwrap : NoWrapAt lock rate counter ops i)
    {start : ℕ} (hstart : start ≡
      counter.toNat + counted lock rate (beforeFirst lock ops i) + 1 [MOD rate i]) :
    ∃ n, decisionsOn lock sample counter ops i = multiples (rate i) start n := by
  induction ops generalizing counter start with
  | nil => exact ⟨0, rfl⟩
  | cons op ops ih =>
      have hcall : 1 < rate (lock op) → sample op counter =
          (DynamicLock.sampleNow (rate (lock op)) (counter + 1), counter + 1) := by
        intro hlt
        rw [hsample op List.mem_cons_self, sampleCall, if_neg (by omega)]
      have hsame : ¬1 < rate (lock op) → sample op counter = (true, counter) := by
        intro hle
        rw [hsample op List.mem_cons_self, sampleCall, if_pos (by omega)]
      have hsample' : ∀ o ∈ ops, ∀ c, sample o c = sampleCall (rate (lock o)) c :=
        fun o ho => hsample o (List.mem_cons_of_mem _ ho)
      by_cases hop : lock op = i
      · have hcons : decisionsOn lock sample counter (op :: ops) i =
            (sample op counter).1 :: decisionsOn lock sample (sample op counter).2 ops i := by
          rw [decisionsOn, decisions, List.filter_cons_of_pos (by simpa using hop)]
          rfl
        by_cases hlt : 1 < rate (lock op)
        · -- the operation is the number `start`, the rest goes on from there
          obtain ⟨hmod, hwrap'⟩ := hwrap.step hlt
          have hhead : start ≡ (counter + 1).toNat [MOD rate i] := by
            have hzero : counted lock rate (beforeFirst lock (op :: ops) i) = 0 := by
              simp [beforeFirst, counted, hop]
            rw [hzero] at hstart
            exact hstart.trans hmod.symm
          have hrest : ∃ n, decisionsOn lock sample (counter + 1) ops i =
              multiples (rate i) (start + 1) n := by
            by_cases hex : ∃ o ∈ ops, lock o = i
            · apply ih hsample' hspaced.tail hwrap'
              have hgap := (Nat.modEq_zero_iff_dvd.mpr (hspaced.dvd_beforeFirst hop hex)).symm
              exact (hhead.add hgap).add_right 1
            · exact ⟨0, decisionsOn_eq_nil hex _⟩
          obtain ⟨n, hn⟩ := hrest
          refine ⟨n + 1, ?_⟩
          rw [hcons, hcall hlt, multiples_succ, ← hn, DynamicLock.sampleNow_eq (by omega), hop,
            ← hhead]
        · -- at rate one every operation is a sample
          have hone : rate i = 1 := by
            rw [hop] at hlt
            omega
          have hany : start + 1 ≡ counter.toNat + counted lock rate (beforeFirst lock ops i) + 1
              [MOD rate i] := by
            rw [hone]
            exact Nat.modEq_one
          obtain ⟨n, hn⟩ := ih hsample' hspaced.tail (hwrap.skip hlt) hany
          refine ⟨n + 1, ?_⟩
          rw [hcons, hsame hlt, multiples_succ, ← hn, hone, Nat.mod_one]
          rfl
      · -- an operation on another lock moves the counter, or leaves it
        have hskip : ∀ c ds, decisionsOn lock sample c ops i = ds →
            (sample op counter).2 = c → decisionsOn lock sample counter (op :: ops) i = ds := by
          rintro c ds rfl rfl
          rw [decisionsOn, decisions, List.filter_cons_of_neg (by simpa using hop)]
          rfl
        have hfirst : beforeFirst lock (op :: ops) i = op :: beforeFirst lock ops i := by
          simp [beforeFirst, hop]
        rw [hfirst, counted_cons] at hstart
        by_cases hlt : 1 < rate (lock op)
        · obtain ⟨hmod, hwrap'⟩ := hwrap.step hlt
          rw [if_pos hlt] at hstart
          obtain ⟨n, hn⟩ := ih hsample' hspaced.tail hwrap' (by
            refine hstart.trans ?_
            have hcount := (hmod.add_right (counted lock rate (beforeFirst lock ops i) + 1)).symm
            rw [← Nat.add_assoc, Nat.add_right_comm counter.toNat] at hcount
            simpa [Nat.add_assoc] using hcount)
          exact ⟨n, hskip _ _ hn (by rw [hcall hlt])⟩
        · rw [if_neg hlt, Nat.add_zero] at hstart
          obtain ⟨n, hn⟩ := ih hsample' hspaced.tail (hwrap.skip hlt) hstart
          exact ⟨n, hskip _ _ hn (by rw [hsame hlt])⟩

/-- On an evenly spaced lock the decisions keep to the rate. -/
theorem sampledAtRate_decisionsOn {ops : List Op} {counter : UInt64} (hsample : ∀ op ∈ ops,
    ∀ c, sample op c = sampleCall (rate (lock op)) c) (hrate : 0 < rate i)
    (hspaced : EvenlySpaced lock rate ops i) (hwrap : NoWrapAt lock rate counter ops i) :
    SampledAtRate (rate i) (decisionsOn lock sample counter ops i) := by
  obtain ⟨n, hn⟩ := decisionsOn_eq_multiples hsample hrate hspaced hwrap (Nat.ModEq.refl _)
  rw [hn]
  exact sampledAtRate_multiples hrate _ n

/-- **Each lock at its own rate, with one counter for all**: for a thread that operates on any
locks with fixed rates, with collection on (and, for a `GeneticLock`, the probe threshold
reached), the decisions on a lock keep to its rate if the operations on other locks in between
move the counter by multiples of that rate, and the counter does not wrap unless the rate
divides `2 ^ 64`. -/
theorem sampledAtRate_shared (rate : ι → ℕ) (hrate : ∀ i, 1 ≤ rate i) (counter : UInt64) :
    (∀ (ops : List ι) (i : ι), EvenlySpaced id rate ops i → NoWrapAt id rate counter ops i →
        SampledAtRate (rate i)
          (decisionsOn id (fun i => DynamicLock.shouldSampleStats true (rate i)) counter ops i)) ∧
      ∀ (ops : List (ι × UInt64 × UInt64)) (i : ι), (∀ op ∈ ops, op.2.2 ≤ op.2.1) →
        EvenlySpaced Prod.fst rate ops i → NoWrapAt Prod.fst rate counter ops i →
          SampledAtRate (rate i) (decisionsOn Prod.fst (fun op =>
            GeneticLock.shouldSampleTraining true op.2.1 op.2.2 (rate op.1)) counter ops i) := by
  constructor
  · intro ops i hspaced hwrap
    exact sampledAtRate_decisionsOn (fun op _ c => rfl) (hrate i) hspaced hwrap
  · intro ops i hprobe hspaced hwrap
    refine sampledAtRate_decisionsOn (fun op hop c => ?_) (hrate i) hspaced hwrap
    exact if_neg (UInt64.not_lt.mpr (hprobe op hop))

end Runs

/-- Between two operations on lock `false` a new thread makes two on lock `true`. -/
theorem evenlySpaced_two_locks :
    EvenlySpaced id (fun _ => 2) [false, true, true, false, true, true] false := by
  have hlast : EvenlySpaced id (fun _ => 2) [true, true] false := by
    refine .cons (.cons .nil ?_) ?_ <;> decide
  refine .cons (.cons (.cons (.cons hlast ?_) ?_) ?_) ?_ <;> decide

/-- The operations on lock `false` are then the first and the fourth of the thread: one of the two
is sampled. -/
theorem sampledAtRate_shared_two_locks :
    let ops := [false, true, true, false, true, true]
    let on := decisionsOn id (fun _ => DynamicLock.shouldSampleStats true 2) 0 ops false
    SampledAtRate 2 on ∧ on = [false, true] := by
  intro ops on
  have hshared := (sampledAtRate_shared (fun _ : Bool => 2) (by decide) 0).1 ops false
  exact ⟨hshared evenlySpaced_two_locks (Or.inl (by decide)), by decide⟩

/-- Two locks of rate two, used in turn by a new thread: the first one is never sampled, the second
one always. -/
theorem not_sampledAtRate_alternating :
    let ops := [false, true, false, true]
    let on (i : Bool) := decisionsOn id (fun _ => DynamicLock.shouldSampleStats true 2) 0 ops i
    on false = [false, false] ∧ on true = [true, true] ∧
      ¬SampledAtRate 2 (on false) ∧ ¬SampledAtRate 2 (on true) := by
  intro ops on
  have hfalse : on false = [false, false] := by decide
  have htrue : on true = [true, true] := by decide
  refine ⟨hfalse, htrue, fun h => ?_, fun h => ?_⟩
  · rw [hfalse] at h
    exact absurd (h 0 2 (by decide)) (by decide)
  · rw [htrue] at h
    exact absurd (h 0 2 (by decide)) (by decide)

end DynLocks
