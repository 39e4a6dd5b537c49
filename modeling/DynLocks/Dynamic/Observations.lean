import DynLocks.Dynamic.Pause
import DynLocks.Dynamic.Return
import DynLocks.Lib.Tally

/-!
# DynLocks.Dynamic.Observations

What becomes of the hits that queries record while `RebuildPartitions` runs.
The call reads every counter, optimises, copies what it has read to
`last_stats_` and stores zero to every counter.

* `stats_advance` — what a step does to one cell of `stats_`;
* `stats_run` — the cell holds the increments since it was zeroed last;
* `read_rebuildStep` — what a step of the call knows of one cell;
* `observationsKept_iff` — a call that runs beside queries accounts for every hit of a
  block exactly if no query counts it between the load of its cell and the store.
-/

namespace DynLocks
namespace DynamicLock

open Interleaving Tally

variable {Client : Type} {cfg : Config}

/-! ## what happens to one cell -/

def ResetPc.zeroes (b : ℕ) : ResetPc → Bool
  | .zeroStats i => i == b
  | _ => false

/-- Is the next step of the rebuild the store of zero to `stats_[b]`? -/
def RebuildPc.zeroes (b : ℕ) : RebuildPc → Bool
  | .keep (.reset pc) => pc.zeroes b
  | .publish (.reset pc) => pc.zeroes b
  | _ => false

/-- What the next step of a thread does to `stats_[b]`. -/
def Loc.event (b : ℕ) : Loc → Event
  | .query _ _ (.inside _ _ (.addHit block)) => if block = b then .add else .skip
  | .rebuild _ _ pc => if pc.zeroes b then .zero else .skip
  | .rebuilder _ _ (.should _ (.reset pc)) => if pc.zeroes b then .zero else .skip
  | .forceStats i => if i = b then .zero else .skip
  | _ => .skip

/-- A query never clears a counter. -/
theorem event_query_ne_zero (b left right : ℕ) (pc : QueryPc) :
    Loc.event b (.query left right pc) ≠ .zero := by
  cases pc with
  | inside lockStart lockEnd pc =>
      cases pc with
      | addHit block =>
          simp only [Loc.event]
          split <;> simp
      | _ => simp [Loc.event]
  | _ => simp [Loc.event]

/-- A store of zero to the cell `i`. -/
theorem setCounter_zero_apply (c : ℕ → UInt64) (i b : ℕ) :
    setCounter c i 0 b = (if i = b then Event.zero else .skip).apply (c b) := by
  by_cases hib : i = b
  · rw [if_pos hib, hib]; exact Function.update_self ..
  · rw [if_neg hib]; exact Function.update_of_ne (Ne.symm hib) ..

theorem stats_resetStep (b : ℕ) (stats : ℕ → UInt64) (m : Mem Client) (pc : ResetPc) :
    (resetStep cfg stats m pc).1.counters.stats b =
      (if pc.zeroes b then Event.zero else .skip).apply (m.counters.stats b) := by
  cases pc with
  | zeroStats i =>
      simp only [resetStep, ResetPc.zeroes, beq_iff_eq]
      exact setCounter_zero_apply _ i b
  | _ => rfl

section Steps

variable [DecidableEq Client] {t : Tid Client} {a : Act} {m m' : Mem Client} (b : ℕ)

/-- A rebuild clears the counters one by one and does nothing else to them. -/
theorem stats_rebuildStep {snapshot snapshot' : Counters UInt64} {pc pc' : RebuildPc}
    (h : rebuildStep cfg t m snapshot pc = some (m', snapshot', pc')) :
    m'.counters.stats b =
      (if pc.zeroes b then Event.zero else .skip).apply (m.counters.stats b) := by
  cases pc with
  | gainLock =>
      simp only [rebuildStep] at h
      split at h
      · cases h; rfl
      · contradiction
  | lockAll next =>
      simp only [rebuildStep] at h
      split at h
      · cases h; rfl
      · contradiction
  | keep pc =>
      simp only [rebuildStep, Option.map_eq_some_iff, Prod.mk.injEq] at h
      obtain ⟨⟨m'', r⟩, hstep, rfl, -, -⟩ := h
      cases pc with
      | lockStats =>
          simp only [keepStep] at hstep
          split at hstep
          · cases hstep; rfl
          · contradiction
      | reset pc =>
          cases hstep
          exact stats_resetStep b _ m pc
      | _ => cases hstep; rfl
  | publish pc =>
      simp only [rebuildStep, Option.map_eq_some_iff, Prod.mk.injEq] at h
      obtain ⟨⟨m'', r⟩, hstep, rfl, -, -⟩ := h
      cases pc with
      | lockPartitions =>
          simp only [publishStep] at hstep
          split at hstep
          · cases hstep; rfl
          · contradiction
      | lockStats =>
          simp only [publishStep] at hstep
          split at hstep
          · cases hstep; rfl
          · contradiction
      | reset pc =>
          cases hstep
          exact stats_resetStep b _ m pc
      | _ => cases hstep; rfl
  | ret result => contradiction
  | _ => cases h; rfl

/-- A query adds its hits one by one and does nothing else to the counters. -/
theorem stats_insideStep {left right : ℕ} {pc : InsidePc} {r : Option InsidePc}
    (h : insideStep cfg t a m left right pc = some (m', r)) :
    m'.counters.stats b = (Loc.event b (.query left right (.inside 0 0 pc))).apply
      (m.counters.stats b) ∧ m'.lastStats = m.lastStats := by
  cases pc with
  | durationCas current =>
      cases a with
      | elapsed delta spurious =>
          simp only [insideStep] at h
          split at h <;> cases h <;> exact ⟨rfl, rfl⟩
      | step => contradiction
      | call => contradiction
  | sampleLoad =>
      simp only [insideStep] at h
      split at h
      · cases h; exact ⟨rfl, rfl⟩
      · split at h <;> cases h <;> exact ⟨rfl, rfl⟩
  | addHit block =>
      cases h
      refine ⟨?_, rfl⟩
      simp only [Loc.event, fetchAdd]
      by_cases hb : block = b
      · rw [if_pos hb, hb, Function.update_self]; rfl
      · rw [if_neg hb, Function.update_of_ne (Ne.symm hb)]; rfl
  | _ => cases h; exact ⟨rfl, rfl⟩

/-- A query only counts, and leaves what the last rebuild has saved. -/
theorem stats_queryStep {left right : ℕ} {pc : QueryPc} {r : Option QueryPc}
    (h : queryStep cfg t a m left right pc = some (m', r)) :
    m'.counters.stats b = (Loc.event b (.query left right pc)).apply (m.counters.stats b) ∧
      m'.lastStats = m.lastStats := by
  cases pc with
  | acquire epoch lockStart lockEnd index =>
      simp only [queryStep] at h
      split at h
      · cases h; exact ⟨rfl, rfl⟩
      · contradiction
  | inside lockStart lockEnd pc =>
      simp only [queryStep, Option.map_eq_some_iff, Prod.mk.injEq] at h
      obtain ⟨⟨m'', r'⟩, hstep, rfl, -⟩ := h
      cases pc <;> exact stats_insideStep b hstep
  | _ => cases h; exact ⟨rfl, rfl⟩

omit [DecidableEq Client] in
theorem stats_rebuilderStep {interval : ℕ} {changeThreshold : ℚ} {pc : RebuilderPc} {l' : Loc}
    (h : rebuilderStep cfg t m interval changeThreshold pc = some (m', l')) :
    m'.counters.stats b =
      (Loc.event b (.rebuilder interval changeThreshold pc)).apply (m.counters.stats b) := by
  cases pc with
  | should snapshot pc =>
      simp only [rebuilderStep, Option.map_eq_some_iff, Prod.mk.injEq] at h
      obtain ⟨⟨m'', r⟩, hstep, rfl, -⟩ := h
      cases pc with
      | lockStats =>
          simp only [shouldStep] at hstep
          split at hstep
          · cases hstep; rfl
          · contradiction
      | decide =>
          simp only [shouldStep] at hstep
          split at hstep
          · cases hstep; rfl
          · split at hstep
            · cases hstep; rfl
            · split at hstep <;> cases hstep <;> rfl
      | reset pc =>
          cases hstep
          exact stats_resetStep b _ m pc
      | snapStats i => cases hstep; rfl
      | unlockStats result => cases hstep; rfl
  | _ => cases h; rfl

omit [DecidableEq Client] in
theorem counters_startStep {interval : ℕ} {changeThreshold : ℚ} {stage : Fin 4} {l' : Loc}
    (h : startStep m interval changeThreshold stage = some (m', l')) :
    m'.counters = m.counters := by
  match stage with
  | 0 => cases h; rfl
  | 1 => cases h; rfl
  | 2 => cases h; rfl
  | 3 =>
      simp only [startStep] at h
      split at h
      · cases h; rfl
      · contradiction

omit [DecidableEq Client] in
theorem counters_stopStep {stage : Fin 4} {l' : Loc} (h : stopStep m stage = some (m', l')) :
    m'.counters = m.counters := by
  match stage with
  | 0 => cases h; rfl
  | 2 => cases h; rfl
  | 3 => cases h; rfl
  | 1 =>
      simp only [stopStep] at h
      split at h
      · cases h; rfl
      · split at h
        · cases h; rfl
        · contradiction

/-- An idle thread leaves the counters alone. -/
theorem counters_idle {l' : Loc} (h : advance cfg t a m .idle = some (m', l')) :
    m'.counters = m.counters ∧ m'.lastStats = m.lastStats := by
  cases t with
  | client c =>
      cases a with
      | call c => rw [eq_of_enter h]; exact ⟨rfl, rfl⟩
      | step => contradiction
      | elapsed => contradiction
  | background =>
      cases a with
      | step =>
          simp only [advance] at h
          split at h
          · cases h; exact ⟨rfl, rfl⟩
          · contradiction
      | call => contradiction
      | elapsed => contradiction

/-- **What a step does to `stats_[b]`**: one more, zero, or nothing. -/
theorem stats_advance {l l' : Loc} (h : advance cfg t a m l = some (m', l')) :
    m'.counters.stats b = (l.event b).apply (m.counters.stats b) := by
  cases l with
  | idle => rw [(counters_idle h).1]; rfl
  | query left right pc =>
      simp only [advance, Option.map_eq_some_iff, Prod.mk.injEq] at h
      obtain ⟨⟨m'', r⟩, hstep, rfl, -⟩ := h
      exact (stats_queryStep b hstep).1
  | rebuild caller snapshot pc =>
      rcases advance_rebuild cfg h with ⟨result, rfl, rfl, -⟩ | ⟨snapshot', pc', hstep, -⟩
      · rfl
      · exact stats_rebuildStep b hstep
  | rebuilder interval changeThreshold pc => exact stats_rebuilderStep b h
  | start interval changeThreshold stage => rw [counters_startStep h]; rfl
  | stop stage => rw [counters_stopStep h]; rfl
  | forceLock =>
      simp only [advance] at h
      split at h
      · cases h; rfl
      · contradiction
  | forceStats i => cases h; exact setCounter_zero_apply _ i b
  | count left right pc =>
      cases pc with
      | lockPartitions =>
          simp only [advance, countStep] at h
          split at h
          · cases h; rfl
          · contradiction
      | _ => cases h; rfl
  | cutsLock =>
      simp only [advance] at h
      split at h
      · cases h; rfl
      · contradiction
  | _ => cases h; rfl

end Steps

/-! ## what a rebuild has read and zeroed -/

/-- How far a rebuild has come with one cell: not read yet, read and not yet zeroed, or zeroed. -/
inductive Reading
  | unread
  | owed
  | zeroed
  deriving DecidableEq

def ResetPc.reading (b : ℕ) : ResetPc → Reading
  | .saveLast => .owed
  | .zeroStats i => if i ≤ b then .owed else .zeroed
  | .zeroCrossings i => if i < b then .owed else .zeroed

def KeepPc.reading (b : ℕ) : KeepPc → Reading
  | .lockStats => .owed
  | .reset pc => pc.reading b
  | _ => .zeroed

def PublishPc.reading (b : ℕ) : PublishPc → Reading
  | .reset pc => pc.reading b
  | .unlockStats => .zeroed
  | .unlockPartitions => .zeroed
  | .clearFlag => .zeroed
  | .clearPause => .zeroed
  | _ => .owed

def RebuildPc.reading (b : ℕ) : RebuildPc → Reading
  | .exchange => .unread
  | .snapStats i => if i ≤ b then .unread else .owed
  | .keep pc => pc.reading b
  | .publish pc => pc.reading b
  | .unlockAll _ => .zeroed
  | .ret _ => .zeroed
  | _ => .owed

/-- Has the rebuild assigned `last_stats_`? -/
def RebuildPc.saved : RebuildPc → Bool
  | .keep .lockStats => false
  | .keep (.reset .saveLast) => false
  | .keep _ => true
  | .publish (.reset .saveLast) => false
  | .publish (.reset _) => true
  | .publish .unlockStats => true
  | .publish .unlockPartitions => true
  | .publish .clearFlag => true
  | .publish .clearPause => true
  | .unlockAll _ => true
  | .ret _ => true
  | _ => false

/-- The reset loop zeroes a cell when it comes to it. -/
theorem reading_resetStep {b : ℕ} (hb : b < cfg.kBlocks) (stats : ℕ → UInt64) (m : Mem Client)
    (pc : ResetPc) :
    let next := ((resetStep cfg stats m pc).2.map (ResetPc.reading b)).getD .zeroed
    (pc.zeroes b = true ∧ pc.reading b = .owed ∧ next = .zeroed) ∨
      (pc.zeroes b = false ∧ next = pc.reading b) := by
  cases pc with
  | saveLast => exact Or.inr ⟨rfl, by simp [resetStep, ResetPc.reading]⟩
  | zeroStats i =>
      by_cases hib : i = b
      · subst hib
        left
        simp [ResetPc.zeroes, resetStep, ResetPc.reading]
      · refine Or.inr ⟨by simpa [ResetPc.zeroes] using hib, ?_⟩
        simp only [resetStep, ResetPc.reading, Option.map_some, Option.getD_some]
        split <;> split <;> first | rfl | omega
  | zeroCrossings i =>
      refine Or.inr ⟨rfl, ?_⟩
      simp only [resetStep, ResetPc.reading]
      by_cases hlast : i + 1 < cfg.kBlocks
      · rw [if_pos hlast]; rfl
      · rw [if_neg hlast, if_neg (by omega)]; rfl

section Rebuild

variable [DecidableEq Client] {t : Tid Client} {m m' : Mem Client}
  {snapshot snapshot' : Counters UInt64} {pc pc' : RebuildPc}

/-- **What a step of a rebuild does with one cell**: it goes on without it, it reads it, or it
zeroes it. -/
theorem read_rebuildStep {b : ℕ} (hb : b < cfg.kBlocks) (hpc : pc ≠ .exchange)
    (h : rebuildStep cfg t m snapshot pc = some (m', snapshot', pc')) :
    (pc'.reading b = pc.reading b ∧ pc.zeroes b = false ∧
        (pc.reading b ≠ .unread → snapshot'.stats b = snapshot.stats b)) ∨
      (pc = .snapStats b ∧ pc'.reading b = .owed ∧
        snapshot'.stats b = m.counters.stats b) ∨
      (pc.zeroes b = true ∧ pc.reading b = .owed ∧ pc'.reading b = .zeroed ∧
        snapshot' = snapshot) := by
  cases pc with
  | exchange => contradiction
  | snapStats i =>
      cases h
      by_cases hib : i = b
      · subst hib
        refine Or.inr (Or.inl ⟨rfl, ?_, Function.update_self ..⟩)
        split
        · simp [RebuildPc.reading]
        · rfl
      · refine Or.inl ⟨?_, rfl, fun _ => Function.update_of_ne (Ne.symm hib) ..⟩
        by_cases hlast : i + 1 < cfg.kBlocks
        · simp only [if_pos hlast, RebuildPc.reading]
          split <;> split <;> first | rfl | omega
        · rw [if_neg hlast]
          simp only [RebuildPc.reading]
          rw [if_neg (by omega)]
  | snapCrossings i =>
      cases h
      exact Or.inl ⟨by split <;> rfl, rfl, fun _ => rfl⟩
  | gainLock =>
      simp only [rebuildStep] at h
      split at h
      · cases h; exact Or.inl ⟨rfl, rfl, fun _ => rfl⟩
      · contradiction
  | gainTest =>
      cases h
      exact Or.inl ⟨by split <;> rfl, rfl, fun _ => rfl⟩
  | keep pc =>
      simp only [rebuildStep, Option.map_eq_some_iff, Prod.mk.injEq] at h
      obtain ⟨⟨m'', r⟩, hstep, -, rfl, rfl⟩ := h
      cases pc with
      | lockStats =>
          simp only [keepStep] at hstep
          split at hstep
          · cases hstep; exact Or.inl ⟨rfl, rfl, fun _ => rfl⟩
          · contradiction
      | reset pc =>
          cases hstep
          rcases reading_resetStep hb snapshot.stats m pc with
            ⟨hzeroes, howed, hnext⟩ | ⟨hzeroes, hnext⟩
          · refine Or.inr (Or.inr ⟨hzeroes, howed, Eq.trans ?_ hnext, rfl⟩)
            cases (resetStep cfg snapshot.stats m pc).2 <;> rfl
          · refine Or.inl ⟨Eq.trans ?_ hnext, hzeroes, fun _ => rfl⟩
            cases (resetStep cfg snapshot.stats m pc).2 <;> rfl
      | _ => cases hstep; exact Or.inl ⟨rfl, rfl, fun _ => rfl⟩
  | unlockGain => cases h; exact Or.inl ⟨rfl, rfl, fun _ => rfl⟩
  | pauseStore => cases h; exact Or.inl ⟨rfl, rfl, fun _ => rfl⟩
  | lockAll next =>
      simp only [rebuildStep] at h
      split at h
      · cases h; exact Or.inl ⟨by split <;> rfl, rfl, fun _ => rfl⟩
      · contradiction
  | publish pc =>
      simp only [rebuildStep, Option.map_eq_some_iff, Prod.mk.injEq] at h
      obtain ⟨⟨m'', r⟩, hstep, -, rfl, rfl⟩ := h
      cases pc with
      | lockPartitions =>
          simp only [publishStep] at hstep
          split at hstep
          · cases hstep; exact Or.inl ⟨rfl, rfl, fun _ => rfl⟩
          · contradiction
      | lockStats =>
          simp only [publishStep] at hstep
          split at hstep
          · cases hstep; exact Or.inl ⟨rfl, rfl, fun _ => rfl⟩
          · contradiction
      | refresh block lockIndex =>
          cases hstep
          exact Or.inl ⟨by split <;> rfl, rfl, fun _ => rfl⟩
      | reset pc =>
          cases hstep
          rcases reading_resetStep hb snapshot.stats m pc with
            ⟨hzeroes, howed, hnext⟩ | ⟨hzeroes, hnext⟩
          · refine Or.inr (Or.inr ⟨hzeroes, howed, Eq.trans ?_ hnext, rfl⟩)
            cases (resetStep cfg snapshot.stats m pc).2 <;> rfl
          · refine Or.inl ⟨Eq.trans ?_ hnext, hzeroes, fun _ => rfl⟩
            cases (resetStep cfg snapshot.stats m pc).2 <;> rfl
      | _ => cases hstep; exact Or.inl ⟨rfl, rfl, fun _ => rfl⟩
  | unlockAll count =>
      cases h
      exact Or.inl ⟨by split <;> rfl, rfl, fun _ => rfl⟩
  | ret result => contradiction

/-- What is saved is the snapshot. -/
theorem saved_rebuildStep (hsaved : pc.saved = true → m.lastStats = snapshot.stats)
    (hpc : pc ≠ .exchange) (h : rebuildStep cfg t m snapshot pc = some (m', snapshot', pc')) :
    pc'.saved = true → m'.lastStats = snapshot'.stats := by
  cases pc with
  | exchange => contradiction
  | gainLock =>
      simp only [rebuildStep] at h
      split at h
      · cases h; exact fun hnot => by contradiction
      · contradiction
  | keep pc =>
      simp only [rebuildStep, Option.map_eq_some_iff, Prod.mk.injEq] at h
      obtain ⟨⟨m'', r⟩, hstep, rfl, rfl, rfl⟩ := h
      cases pc with
      | lockStats =>
          simp only [keepStep] at hstep
          split at hstep
          · cases hstep; exact fun hnot => by contradiction
          · contradiction
      | reset pc =>
          cases hstep
          cases pc with
          | saveLast => exact fun _ => rfl
          | _ => exact fun _ => hsaved rfl
      | _ => cases hstep; exact fun _ => hsaved rfl
  | lockAll next =>
      simp only [rebuildStep] at h
      split at h
      · cases h
        intro hnot
        split at hnot <;> contradiction
      · contradiction
  | publish pc =>
      simp only [rebuildStep, Option.map_eq_some_iff, Prod.mk.injEq] at h
      obtain ⟨⟨m'', r⟩, hstep, rfl, rfl, rfl⟩ := h
      cases pc with
      | lockPartitions =>
          simp only [publishStep] at hstep
          split at hstep
          · cases hstep; exact fun hnot => by contradiction
          · contradiction
      | lockStats =>
          simp only [publishStep] at hstep
          split at hstep
          · cases hstep; exact fun hnot => by contradiction
          · contradiction
      | refresh block lockIndex =>
          cases hstep
          intro hnot
          split at hnot <;> contradiction
      | reset pc =>
          cases hstep
          cases pc with
          | saveLast => exact fun _ => rfl
          | _ => exact fun _ => hsaved rfl
      | unlockStats => cases hstep; exact fun _ => hsaved rfl
      | unlockPartitions => cases hstep; exact fun _ => hsaved rfl
      | clearFlag => cases hstep; exact fun _ => hsaved rfl
      | clearPause => cases hstep; exact fun _ => hsaved rfl
      | _ => cases hstep; exact fun hnot => by contradiction
  | unlockAll count => cases h; exact fun _ => hsaved rfl
  | ret result => contradiction
  | snapStats i =>
      cases h
      intro hnot
      split at hnot <;> contradiction
  | snapCrossings i =>
      cases h
      intro hnot
      split at hnot <;> contradiction
  | gainTest =>
      cases h
      intro hnot
      split at hnot <;> contradiction
  | _ => cases h; exact fun hnot => by contradiction

/-- A rebuild enters once. -/
theorem stage_ne_entering (h : rebuildStep cfg t m snapshot pc = some (m', snapshot', pc')) :
    pc'.stage ≠ .entering := by
  cases hstage : pc.stage with
  | entering =>
      rw [stage_of_entering h hstage]
      split <;> simp [RebuildPc.stage]
  | deciding =>
      rcases stage_of_deciding h hstage with hsame | ⟨-, -, -, hdecided⟩
      · simp [hsame]
      · rw [hdecided]
        split <;> simp
  | keeping => simp [(stage_of_keeping h hstage).1]
  | winning =>
      obtain ⟨-, ⟨hwin, -⟩ | ⟨-, hpub, -⟩⟩ := stage_of_winning h hstage
      · simp [hwin]
      · simp [hpub]
  | published => simp [(stage_of_published h hstage).1]

end Rebuild

/-! ## a rebuild beside queries -/

section Runs

variable [DecidableEq Client] (r : Program.Run (machine cfg Client))

/-- What step `n` of the run does to `stats_[b]`. -/
def events (b n : ℕ) : Event := ((r.states n).loc (r.who n)).event b

/-- Every thread but `t` is in `WriteQuery` or between two calls of it. -/
def OthersQuery (t : Tid Client) (s : State (Tid Client) (Mem Client) Loc) : Prop :=
  ∀ u, u ≠ t → s.loc u = .idle ∨ ∃ left right pc, s.loc u = .query left right pc

/-- From step `a` to state `e` thread `t` is in one call of `RebuildPartitions`, which returns
`result`, and meanwhile the others do nothing but query. -/
structure RebuildBesideQueries (t : Tid Client) (a e : ℕ) (result : Bool) : Prop where
  before : a < e
  length : e ≤ r.length
  who : r.who a = t
  enters : ∃ caller old, (r.states a).loc t = .rebuild caller old .exchange
  inside : ∀ n, a < n → n < e → ((r.states n).loc t).Rebuilding
  returns : ∃ caller snap, (r.states e).loc t = .rebuild caller snap (.ret result)
  others : ∀ n, a ≤ n → n ≤ e → OthersQuery t (r.states n)

/-- In state `n` the rebuild of `t` has loaded `stats_[b]` and has not yet stored zero to it. -/
def Owes (t : Tid Client) (b n : ℕ) : Prop :=
  ∃ caller snap pc, (r.states n).loc t = .rebuild caller snap pc ∧ pc.reading b = .owed

/-- What was counted for block `b` up to state `e`, since the last zeroing before state `a`, is
what was saved for it and what is still counted. -/
def ObservationsKept (a e b : ℕ) : Prop :=
  since (events r b) a + adds (events r b) a e =
    ((r.states e).mem.lastStats b).toNat + ((r.states e).mem.counters.stats b).toNat

/-- What the part of the call from `a` to `n` has done with one cell: `l` is the step that loaded
it and `z` the one that zeroed it. -/
def Harvest (t : Tid Client) (b a n : ℕ) (snapshot : Counters UInt64) : Reading → Prop
  | .unread => ∀ i, a ≤ i → i < n → events r b i ≠ .zero ∧ ¬ Owes r t b i
  | .owed => ∃ l, a ≤ l ∧ l < n ∧ events r b l = .skip ∧
      snapshot.stats b = (r.states l).mem.counters.stats b ∧
        ∀ i, a ≤ i → i < n → events r b i ≠ .zero ∧ (Owes r t b i ↔ l < i)
  | .zeroed => ∃ l z, a ≤ l ∧ l < z ∧ z < n ∧ events r b l = .skip ∧ events r b z = .zero ∧
      snapshot.stats b = (r.states l).mem.counters.stats b ∧
        ∀ i, a ≤ i → i < n →
          (i ≠ z → events r b i ≠ .zero) ∧ (Owes r t b i ↔ l < i ∧ i ≤ z)

variable {r} {t : Tid Client} {a e b n : ℕ} {snapshot snapshot' : Counters UInt64}
  {pc pc' : RebuildPc} {result : Bool}

/-- A cell holds the increments since it was zeroed last, modulo a word. -/
theorem stats_run (r : Program.Run (machine cfg Client)) (b : ℕ) (hn : n ≤ r.length) :
    ((r.states n).mem.counters.stats b).toNat = since (events r b) n % 2 ^ 64 := by
  have hinit : (r.states 0).mem.counters.stats b = 0 := by
    rw [r.start]
    rfl
  have hstep : ∀ i < n, (r.states (i + 1)).mem.counters.stats b =
      (events r b i).apply ((r.states i).mem.counters.stats b) := by
    intro i hi
    obtain ⟨⟨act, hact⟩, -⟩ := advance_of_stepBy (r.step i (by omega))
    exact stats_advance b hact
  exact @toNat_value (events r b) n (fun n => (r.states n).mem.counters.stats b) hinit hstep

/-- What holds of every step before `n` and of step `n`. -/
theorem forall_lt_succ {p : ℕ → Prop} (h : ∀ i, a ≤ i → i < n → p i) (hn : p n) :
    ∀ i, a ≤ i → i < n + 1 → p i := by
  intro i hai hin
  rcases Nat.lt_succ_iff_lt_or_eq.mp hin with hlt | rfl
  · exact h i hai hlt
  · exact hn

/-- Whether a rebuild owes a block is seen from where it stands. -/
theorem owes_iff {caller : Caller} (hloc : (r.states n).loc t = .rebuild caller snapshot pc) :
    Owes r t b n ↔ pc.reading b = .owed := by
  constructor
  · rintro ⟨caller', snap', pc', hloc', hpc⟩
    rw [hloc] at hloc'
    cases hloc'
    exact hpc
  · exact fun hpc => ⟨caller, snapshot, pc, hloc, hpc⟩

/-- A step that neither reads nor zeroes the cell takes nothing back. -/
theorem Harvest.skip {reading : Reading} (h : Harvest r t b a n snapshot reading)
    (hevent : events r b n ≠ .zero) (howes : Owes r t b n ↔ reading = .owed)
    (hsame : reading ≠ .unread → snapshot'.stats b = snapshot.stats b) :
    Harvest r t b a (n + 1) snapshot' reading := by
  cases reading with
  | unread => exact forall_lt_succ h ⟨hevent, by simp [howes]⟩
  | owed =>
      obtain ⟨l, hal, hln, hl, hread, hcells⟩ := h
      have hsnap := hsame (by simp)
      refine ⟨l, hal, Nat.lt_succ_of_lt hln, hl, hsnap.trans hread, ?_⟩
      exact forall_lt_succ hcells ⟨hevent, by simp [howes, hln]⟩
  | zeroed =>
      obtain ⟨l, z, hal, hlz, hzn, hl, hz, hread, hcells⟩ := h
      have hsnap := hsame (by simp)
      refine ⟨l, z, hal, hlz, Nat.lt_succ_of_lt hzn, hl, hz, hsnap.trans hread, ?_⟩
      exact forall_lt_succ hcells ⟨fun _ => hevent, by simp [howes, hzn]⟩

/-- A step of the call itself. -/
theorem harvest_self {caller : Caller} (hb : b < cfg.kBlocks) (han : a < n) (hwho : r.who n = t)
    (hloc : (r.states n).loc t = .rebuild caller snapshot pc) (hpc : pc.stage ≠ .entering)
    (hstep : rebuildStep cfg t (r.states n).mem snapshot pc =
      some ((r.states (n + 1)).mem, snapshot', pc'))
    (h : Harvest r t b a n snapshot (pc.reading b)) :
    Harvest r t b a (n + 1) snapshot' (pc'.reading b) := by
  have hevent : events r b n = if pc.zeroes b then .zero else .skip := by
    rw [events, hwho, hloc]
    rfl
  have howes := owes_iff (b := b) hloc
  have hne : pc ≠ .exchange := by
    rintro rfl
    exact hpc rfl
  rcases read_rebuildStep hb hne hstep with
    ⟨hreading, hzeroes, hsame⟩ | ⟨rfl, hreading, hread⟩ | ⟨hzeroes, howed, hreading, rfl⟩
  · rw [hreading]
    rw [hzeroes] at hevent
    exact h.skip (by simp [hevent]) howes hsame
  · have hskip : events r b n = .skip := by simp [hevent, RebuildPc.zeroes]
    have hunread : (RebuildPc.snapStats b).reading b = .unread := by simp [RebuildPc.reading]
    rw [hunread] at h howes
    rw [hreading]
    refine ⟨n, han.le, Nat.lt_succ_self n, hskip, hread, ?_⟩
    refine forall_lt_succ (fun i hai hin => ?_) ⟨by simp [hskip], by simp [howes]⟩
    obtain ⟨hzero, hnot⟩ := h i hai hin
    exact ⟨hzero, by simp only [hnot, false_iff]; omega⟩
  · rw [howed] at h howes
    rw [hreading]
    obtain ⟨l, hal, hln, hl, hread, hcells⟩ := h
    refine ⟨l, n, hal, hln, Nat.lt_succ_self n, hl, by simp [hevent, hzeroes], hread, ?_⟩
    refine forall_lt_succ (fun i hai hin => ?_) ⟨fun hne => absurd rfl hne, by simp [howes, hln]⟩
    obtain ⟨hzero, hiff⟩ := hcells i hai hin
    exact ⟨fun _ => hzero, by rw [hiff]; omega⟩

/-- The other threads neither zero a counter nor touch what was saved. -/
theorem RebuildBesideQueries.other (h : RebuildBesideQueries r t a e result) (han : a ≤ n)
    (hne : n < e) (hwho : r.who n ≠ t) :
    events r b n ≠ .zero ∧ (r.states (n + 1)).mem.lastStats = (r.states n).mem.lastStats := by
  have hlength := h.length
  obtain ⟨⟨act, hact⟩, -⟩ := advance_of_stepBy (r.step n (by omega))
  rcases h.others n han hne.le _ hwho with hloc | ⟨left, right, pc, hloc⟩
  · rw [hloc] at hact
    refine ⟨?_, (counters_idle hact).2⟩
    rw [events, hloc]
    simp [Loc.event]
  · rw [hloc] at hact
    simp only [advance, Option.map_eq_some_iff, Prod.mk.injEq] at hact
    obtain ⟨⟨m', next⟩, hstep, hmem, -⟩ := hact
    rw [← hmem]
    refine ⟨?_, (stats_queryStep b hstep).2⟩
    rw [events, hloc]
    exact event_query_ne_zero b left right pc

/-- While nobody is between the exchange and the store that clears it, the flag is free. -/
theorem rebuildFlag_eq_false {s : State (Tid Client) (Mem Client) Loc}
    (hs : (machine cfg Client).Reachable s) (hout : ∀ u, ¬ (s.loc u).InFlag) :
    s.mem.rebuildFlag = false := by
  obtain ⟨own, hflag, howned⟩ := flag_owned hs
  cases own with
  | none => exact hflag
  | some u => exact absurd ((howned u).mp rfl) (hout u)

/-- Beside queries alone the flag is free. -/
theorem RebuildBesideQueries.flag (h : RebuildBesideQueries r t a e result) :
    (r.states a).mem.rebuildFlag = false := by
  have hbefore := h.before
  have hlength := h.length
  refine rebuildFlag_eq_false (r.reachable (by omega)) fun u hin => ?_
  by_cases hu : u = t
  · obtain ⟨caller, old, hloc⟩ := h.enters
    rw [hu, hloc] at hin
    exact hin
  · rcases h.others a le_rfl hbefore.le u hu with hloc | ⟨left, right, pc, hloc⟩
    · rw [hloc] at hin; exact hin
    · rw [hloc] at hin; exact hin

/-- What the call knows of a cell in every state up to the one it returns in. -/
theorem RebuildBesideQueries.harvest (h : RebuildBesideQueries r t a e result)
    (hb : b < cfg.kBlocks) (hne : n ≤ e) (han : a < n) :
    ∃ caller snap pc, (r.states n).loc t = .rebuild caller snap pc ∧ pc.stage ≠ .entering ∧
      (pc.saved = true → (r.states n).mem.lastStats = snap.stats) ∧
        Harvest r t b a n snap (pc.reading b) := by
  have hlength := h.length
  induction n, han using Nat.le_induction with
  | base =>
      obtain ⟨caller, old, hloc⟩ := h.enters
      obtain ⟨⟨act, hact⟩, -⟩ := advance_of_stepBy (r.step a (by omega))
      rw [h.who, hloc] at hact
      rcases advance_rebuild cfg hact with ⟨res, hret, -, -⟩ | ⟨snap, pc, hstep, hloc'⟩
      · contradiction
      · have hpc : pc = .snapStats 0 := by
          rw [stage_of_entering hstep rfl, h.flag]
          rfl
        subst hpc
        refine ⟨caller, snap, _, hloc', by simp [RebuildPc.stage], by simp [RebuildPc.saved], ?_⟩
        rw [RebuildPc.reading, if_pos (Nat.zero_le b)]
        intro i hai hin
        obtain rfl : i = a := by omega
        rw [owes_iff hloc, events, h.who, hloc]
        simp [Loc.event, RebuildPc.zeroes, RebuildPc.reading]
  | succ n han ih =>
      obtain ⟨caller, snap, pc, hloc, hstage, hsaved, hharvest⟩ := ih (by omega)
      by_cases hwho : r.who n = t
      · obtain ⟨⟨act, hact⟩, -⟩ := advance_of_stepBy (r.step n (by omega))
        rw [hwho, hloc] at hact
        rcases advance_rebuild cfg hact with ⟨res, hret, -, -⟩ | ⟨snap', pc', hstep, hloc'⟩
        · obtain ⟨caller', snap', pc', hloc', hnot⟩ := h.inside n han hne
          rw [hloc] at hloc'
          cases hloc'
          exact absurd hret (hnot res)
        · have hexchange : pc ≠ .exchange := by
            rintro rfl
            exact hstage rfl
          exact ⟨caller, snap', pc', hloc', stage_ne_entering hstep,
            saved_rebuildStep hsaved hexchange hstep,
            harvest_self hb han hwho hloc hstage hstep hharvest⟩
      · have hframe := (advance_of_stepBy (r.step n (by omega))).2 t (Ne.symm hwho)
        obtain ⟨hevent, hlast⟩ := h.other (b := b) (by omega) hne hwho
        refine ⟨caller, snap, pc, hframe.trans hloc, hstage, fun hpc => ?_,
          hharvest.skip hevent (owes_iff hloc) fun _ => rfl⟩
        rw [hlast, hsaved hpc]

/-- What is saved when the call returns is what it has loaded, in a step `l` before the step `z` in
which it zeroes the cell. -/
theorem RebuildBesideQueries.account (h : RebuildBesideQueries r t a e result)
    (hb : b < cfg.kBlocks) : ∃ l z, a ≤ l ∧ l < z ∧ z < e ∧ events r b l = .skip ∧
      events r b z = .zero ∧ ((r.states e).mem.lastStats b).toNat = since (events r b) l % 2 ^ 64 ∧
        ∀ i, a ≤ i → i < e →
          (i ≠ z → events r b i ≠ .zero) ∧ (Owes r t b i ↔ l < i ∧ i ≤ z) := by
  have hlength := h.length
  obtain ⟨caller, snap, pc, hloc, -, hsaved, hharvest⟩ := h.harvest hb le_rfl h.before
  obtain ⟨caller', snap', hret⟩ := h.returns
  rw [hret] at hloc
  cases hloc
  obtain ⟨l, z, hal, hlz, hze, hl, hz, hread, hcells⟩ := hharvest
  have hlast : ((r.states e).mem.lastStats b).toNat = since (events r b) l % 2 ^ 64 := by
    rw [hsaved rfl, hread]
    exact stats_run r b (by omega)
  exact ⟨l, z, hal, hlz, hze, hl, hz, hlast, hcells⟩

/-- A hit on a block the call owes is neither saved nor counted any more. -/
theorem RebuildBesideQueries.not_kept (h : RebuildBesideQueries r t a e result)
    (hb : b < cfg.kBlocks) (han : a ≤ n) (hne : n < e) (howes : Owes r t b n)
    (hadd : events r b n = .add) : ¬ ObservationsKept r a e b := by
  obtain ⟨l, z, hal, hlz, hze, hl, hz, hlast, hcells⟩ := h.account hb
  rw [ObservationsKept, hlast, stats_run r b h.length,
    harvest_iff hal hlz hze hl hz fun i hai hie => (hcells i hai hie).1]
  rintro ⟨hnone, -⟩
  obtain ⟨hln, hnz⟩ := (hcells n han hne).2.mp howes
  exact hnone n hln hnz hadd

/-- **Which observations a rebuild keeps**: in every run, a call of `RebuildPartitions` beside any
number of queries has, when it returns, saved or still counts all that was counted for a block since
the last zeroing before the call, exactly if no query counts the block while the call has loaded its
counter and not yet zeroed it, and the count never exceeds a word on the way. -/
theorem observationsKept_iff (r : Program.Run (machine cfg Client)) {t : Tid Client} {a e : ℕ}
    {result : Bool} (hcall : RebuildBesideQueries r t a e result) {b : ℕ} (hb : b < cfg.kBlocks) :
    ObservationsKept r a e b ↔
      (∀ n, a ≤ n → n < e → Owes r t b n → events r b n ≠ .add) ∧
        ∀ n, a ≤ n → n ≤ e → since (events r b) n < 2 ^ 64 := by
  obtain ⟨l, z, hal, hlz, hze, hl, hz, hlast, hcells⟩ := hcall.account hb
  have howed : (∀ n, a ≤ n → n < e → Owes r t b n → events r b n ≠ .add) ↔
      ∀ n, l < n → n ≤ z → events r b n ≠ .add := by
    constructor
    · intro h n hln hnz
      exact h n (by omega) (by omega) ((hcells n (by omega) (by omega)).2.mpr ⟨hln, hnz⟩)
    · intro h n han hne howes
      obtain ⟨hln, hnz⟩ := (hcells n han hne).2.mp howes
      exact h n hln hnz
  rw [howed, ObservationsKept, hlast, stats_run r b hcall.length]
  exact harvest_iff hal hlz hze hl hz fun i hai hie => (hcells i hai hie).1

end Runs

/-- A client rebuilds. Another one counts a hit of block 1 when the rebuild has loaded the first
counter and not yet the second. -/
def queryBeside : List (Tid Bool × Act) :=
  fillStats false ++ (.client false, .call .rebuildNow) :: List.replicate 3 (.client false, .step) ++
    (sampledQuery true 1).take 11 ++ List.replicate 2 (.client false, .step) ++
    (sampledQuery true 1).drop 11 ++ List.replicate 32 (.client false, .step)

theorem isSome_exec_queryBeside :
    ((machine threeBlocks Bool).exec queryBeside (machine threeBlocks Bool).initial).isSome := by
  decide +kernel

def besideRun : Program.Run (machine threeBlocks Bool) :=
  .ofSchedule _ queryBeside .background isSome_exec_queryBeside

/-- Is this thread in a query or between two calls? -/
def Loc.queries : Loc → Bool
  | .idle => true
  | .query _ _ _ => true
  | _ => false

theorem Loc.queries_cases {l : Loc} (h : l.queries) :
    l = .idle ∨ ∃ left right pc, l = .query left right pc := by
  cases l with
  | idle => exact .inl rfl
  | query left right pc => exact .inr ⟨left, right, pc, rfl⟩
  | _ => contradiction

/-- Does the rebuild of this thread owe block `b`? -/
def Loc.owes (b : ℕ) : Loc → Bool
  | .rebuild _ _ pc => decide (pc.reading b = .owed)
  | _ => false

/-- Block 1 is not hit in the run while the rebuild owes it. -/
theorem owes_besideRun : ∀ n < 85, 48 ≤ n →
    ((besideRun.states n).loc (.client false)).owes 1 = false ∨ events besideRun 1 n ≠ .add := by
  decide +kernel

theorem inside_besideRun : ∀ n ≤ 85, 48 ≤ n → ((besideRun.states n).loc .background).queries ∧
    ((besideRun.states n).loc (.client true)).queries ∧
    (n < 85 → ((besideRun.states n).loc (.client false)).midRebuild) := by
  decide +kernel

theorem returned_besideRun : ((besideRun.states 85).loc (.client false)).returned.isSome := by
  decide +kernel

/-- The other client does nothing but query while the first one rebuilds. -/
theorem rebuildBesideQueries_besideRun :
    RebuildBesideQueries besideRun (.client false) 48 85 true where
  before := by decide
  length := by decide
  who := rfl
  enters := ⟨_, _, rfl⟩
  inside n hn hlt := Loc.eq_of_midRebuild ((inside_besideRun n hlt.le hn.le).2.2 hlt)
  returns := by
    obtain ⟨snapshot, hret⟩ := Option.isSome_iff_exists.mp returned_besideRun
    obtain ⟨caller, hloc⟩ := Loc.eq_of_returned hret
    exact ⟨caller, snapshot, hloc⟩
  others n hn hle := by
    obtain ⟨hbackground, htrue, -⟩ := inside_besideRun n hle hn
    exact Tid.forall_iff.mpr ⟨fun _ => Loc.queries_cases hbackground,
      Bool.forall_bool.mpr ⟨fun h => absurd rfl h, fun _ => Loc.queries_cases htrue⟩⟩

/-- The rebuild keeps the hit that was counted before it and the one that is counted beside it. -/
theorem observationsKept_three_blocks :
    ObservationsKept besideRun 48 85 1 ∧ adds (events besideRun 1) 48 85 = 1 := by
  refine ⟨(observationsKept_iff besideRun rebuildBesideQueries_besideRun (by decide)).mpr
    ⟨fun n hn hlt howes => ?_, fun n _ hn => (since_le n).trans_lt (by omega)⟩, by decide +kernel⟩
  obtain ⟨caller, snapshot, pc, hloc, hreading⟩ := howes
  refine (owes_besideRun n hlt hn).resolve_left ?_
  rw [hloc, Loc.owes, hreading]
  exact Bool.noConfusion

/-! ## a hit between the load and the store -/

section Alone

variable [DecidableEq Client] {m : Mem Client}

theorem positionToBlock_zero (cfg : Config) : cfg.positionToBlock 0 = 0 := by
  simp [Config.positionToBlock, positionToBlockOf]

/-- The memory once client `c` holds the first mutex and is about to count a hit. -/
def Mem.atHit (m : Mem Client) (c : Client) : Mem Client :=
  { m.lock 0 (.client c) with operationCount := m.operationCount + 1 }

/-- The memory with one hit more on the first block. -/
def Mem.addHit (m : Mem Client) : Mem Client :=
  { m with counters := { m.counters with stats := fetchAdd m.counters.stats 0 } }

/-- In a lock of one mutex that takes every query as a sample, a query of the first position gets to
its count alone. -/
theorem alone_toHit (c : Client) (hsize : cfg.arraySize ≠ 0) (hrate : cfg.sampleRate ≤ 1)
    (hpause : m.pauseQueries = false) (hepoch : m.partitionEpoch % 2 = 0)
    (htable : m.blockToLock 0 = 0) (hfree : m.locks 0 = none) (hcollect : m.collectStats = true) :
    (machine cfg Client).Alone (.client c) (m, .idle)
      (m.atHit c, .query 0 0 (.inside 0 0 (.addHit 0))) := by
  have hblock := positionToBlock_zero cfg
  have hpos := cfg.kBlocks_pos
  have hcall : (machine cfg Client).advance (.client c) (.call (.writeQuery 0 0)) m .idle =
      some (m, .query 0 0 .pauseLoad) := by
    simp [machine, advance, enter, hsize, clampRange]
  have hpauseLoad : (machine cfg Client).advance (.client c) .step m (.query 0 0 .pauseLoad) =
      some (m, .query 0 0 .epochLoad) := by
    simp [machine, advance, queryStep, afterQuery, hpause]
  have hepochLoad : (machine cfg Client).advance (.client c) .step m (.query 0 0 .epochLoad) =
      some (m, .query 0 0 (.leftLoad m.partitionEpoch)) := by
    simp [machine, advance, queryStep, afterQuery, hepoch]
  have hleftLoad : (machine cfg Client).advance (.client c) .step m
      (.query 0 0 (.leftLoad m.partitionEpoch)) =
      some (m, .query 0 0 (.rightLoad m.partitionEpoch 0)) := by
    simp [machine, advance, queryStep, afterQuery, hblock, htable]
  have hrightLoad : (machine cfg Client).advance (.client c) .step m
      (.query 0 0 (.rightLoad m.partitionEpoch 0)) =
      some (m, .query 0 0 (.acquire m.partitionEpoch 0 0 0)) := by
    simp [machine, advance, queryStep, afterQuery, hblock, htable]
  have hacquire : (machine cfg Client).advance (.client c) .step m
      (.query 0 0 (.acquire m.partitionEpoch 0 0 0)) =
      some (m.lock 0 (.client c), .query 0 0 (.epochCheck m.partitionEpoch 0 0)) := by
    simp [machine, advance, queryStep, afterQuery, hfree]
  have hcheck : (machine cfg Client).advance (.client c) .step (m.lock 0 (.client c))
      (.query 0 0 (.epochCheck m.partitionEpoch 0 0)) =
      some (m.lock 0 (.client c), .query 0 0 (.inside 0 0 .durationLoad)) := by
    simp [machine, advance, queryStep, afterQuery, Mem.lock, hepoch]
  have hduration : (machine cfg Client).advance (.client c) (.elapsed 0 false)
      (m.lock 0 (.client c))
      (.query 0 0 (.inside 0 0 (.durationCas (m.lock 0 (.client c)).totalLockTime))) =
      some (m.lock 0 (.client c), .query 0 0 (.inside 0 0 .countOperation)) := by
    simp [machine, advance, queryStep, afterQuery, afterInside, insideStep]
  have hsample : (machine cfg Client).advance (.client c) .step (m.atHit c)
      (.query 0 0 (.inside 0 0 .sampleLoad)) =
      some (m.atHit c, .query 0 0 (.inside 0 0 (.addHit 0))) := by
    simp [machine, advance, queryStep, afterQuery, afterInside, insideStep, Mem.atHit, Mem.lock,
      hcollect, hrate, hblock, hpos]
  exact .head ⟨_, hcall⟩ (.head ⟨_, hpauseLoad⟩ (.head ⟨_, hepochLoad⟩ (.head ⟨_, hleftLoad⟩ (.head
    ⟨_, hrightLoad⟩ (.head ⟨_, hacquire⟩ (.head ⟨_, hcheck⟩ (.head ⟨.step, rfl⟩ (.head
    ⟨_, hduration⟩ (.head ⟨.step, rfl⟩ (.single ⟨_, hsample⟩))))))))))

/-- The count itself. -/
theorem advance_addHit (c : Client) (m : Mem Client) :
    (machine cfg Client).advance (.client c) .step m (.query 0 0 (.inside 0 0 (.addHit 0))) =
      some (m.addHit, .query 0 0 (.inside 0 0 .func)) := by
  simp [machine, advance, queryStep, afterQuery, afterInside, insideStep, firstCrossing,
    positionToBlock_zero, Mem.addHit]

/-- After its count the query gives back its mutex. -/
theorem advance_func (c : Client) (m : Mem Client) :
    (machine cfg Client).advance (.client c) .step m (.query 0 0 (.inside 0 0 .func)) =
      some (m, .query 0 0 (.release 0 1)) := rfl

theorem advance_release (c : Client) (m : Mem Client) :
    (machine cfg Client).advance (.client c) .step m (.query 0 0 (.release 0 1)) =
      some (m.unlock 0, .idle) := rfl

omit [DecidableEq Client] in
theorem prefixSum_congr {f g : ℕ → UInt64} {n : ℕ} (h : ∀ b < n, f b = g b) :
    prefixSum f n = prefixSum g n := by
  induction n with
  | zero => rfl
  | succ n ih => rw [prefixSum, prefixSum, ih fun b hb => h b (by omega), h n (Nat.lt_succ_self n)]

/-- With something counted, `RebuildNow` asks for a rebuild. -/
theorem alone_rebuildNow (c : Client) (htotal : prefixSum m.counters.stats cfg.kBlocks ≠ 0)
    {i : ℕ} (hi : i < cfg.kBlocks) (snapshot : Counters UInt64)
    (hsnap : ∀ b < i, snapshot.stats b = m.counters.stats b) :
    (machine cfg Client).Alone (.client c) (m, .rebuildNow snapshot i)
      (m, .rebuild .rebuildNow .zero .exchange) := by
  have hsnap' : ∀ b < i + 1, setCounter snapshot.stats i (m.counters.stats i) b =
      m.counters.stats b := by
    intro b hb
    by_cases hbi : b = i
    · rw [hbi]; exact Function.update_self ..
    · exact (Function.update_of_ne hbi ..).trans (hsnap b (by omega))
  induction hleft : cfg.kBlocks - (i + 1) generalizing i snapshot with
  | zero =>
      have hsum : prefixSum (setCounter snapshot.stats i (m.counters.stats i)) cfg.kBlocks ≠ 0 := by
        rwa [prefixSum_congr fun b hb => hsnap' b (by omega)]
      refine Program.Alone.single (a := .step) ?_
      simp only [machine, advance]
      rw [if_neg (by omega), if_neg hsum]
  | succ left ih =>
      refine .head ⟨.step, ?_⟩ (ih (i := i + 1) (by omega)
        { snapshot with stats := setCounter snapshot.stats i (m.counters.stats i) } hsnap' ?_
        (by omega))
      · simp only [machine, advance]
        rw [if_pos (by omega)]
      · intro b hb
        by_cases hbi : b = i + 1
        · rw [hbi]; exact Function.update_self ..
        · exact (Function.update_of_ne hbi ..).trans (hsnap' b (by omega))

omit [DecidableEq Client] in
theorem prefixSum_one {n : ℕ} (hn : 0 < n) : prefixSum (fetchAdd (fun _ => (0 : UInt64)) 0) n = 1 := by
  induction n, hn using Nat.le_induction with
  | base => rfl
  | succ n hn ih =>
      rw [prefixSum, ih, fetchAdd, Function.update_of_ne (by omega)]
      rfl

/-- A query of the first position alone. -/
theorem alone_hit (c : Client) (hsize : cfg.arraySize ≠ 0) (hrate : cfg.sampleRate ≤ 1)
    (hpause : m.pauseQueries = false) (hepoch : m.partitionEpoch % 2 = 0)
    (htable : m.blockToLock 0 = 0) (hfree : m.locks 0 = none) (hcollect : m.collectStats = true) :
    (machine cfg Client).Alone (.client c) (m, .idle) ((m.atHit c).addHit.unlock 0, .idle) :=
  (alone_toHit c hsize hrate hpause hepoch htable hfree hcollect).trans (.head
    ⟨_, advance_addHit c (m.atHit c)⟩ (.head ⟨_, advance_func c (m.atHit c).addHit⟩ (.single
      ⟨_, advance_release c (m.atHit c).addHit⟩)))

/-- Client 1 is at `pc` of a rebuild while client 0 is about to count a hit. -/
structure HitPending (s : State (Tid (Fin 2)) (Mem (Fin 2)) Loc) (snapshot : Counters UInt64)
    (pc : RebuildPc) : Prop where
  rebuild : s.loc (.client 1) = .rebuild .rebuildNow snapshot pc
  query : s.loc (.client 0) = .query 0 0 (.inside 0 0 (.addHit 0))
  background : s.loc .background = .idle

/-- The rebuild is at its first exchange. -/
theorem exists_entering (hk : cfg.kLockCnt = 1) (hsize : cfg.arraySize ≠ 0)
    (hrate : cfg.sampleRate ≤ 1) : ∃ s : State (Tid (Fin 2)) (Mem (Fin 2)) Loc,
      (machine cfg (Fin 2)).Reachable s ∧ HitPending s .zero .exchange := by
  have htable : (initMem cfg : Mem (Fin 2)).blockToLock 0 = 0 := by
    have hlock := lockOfBlock_lt cfg.kLockCnt_pos cfg.initialPartitions 0
    have hcell : (initMem cfg : Mem (Fin 2)).blockToLock 0 =
        lockOfBlock cfg.kLockCnt cfg.initialPartitions 0 := refreshTable_apply _ _ _ cfg.kBlocks_pos
    omega
  -- statistics on
  let on : Mem (Fin 2) :=
    { initMem cfg with
      stopRebuilder := false
      collectStats := true
      rebuilderRunning := true
      rebuildThread := .created 0 0 }
  have hstart : (machine cfg (Fin 2)).Alone (.client 1) (initMem cfg, .idle) (on, .idle) :=
    .head ⟨.call (.startRebuilder 0 0), rfl⟩ (.head ⟨.step, rfl⟩ (.head ⟨.step, rfl⟩ (.head
      ⟨.step, rfl⟩ (.single ⟨.step, rfl⟩))))
  -- a first query goes through, a second one stops before its count
  let counted : Mem (Fin 2) := (on.atHit 0).addHit.unlock 0
  have hfirst : (machine cfg (Fin 2)).Alone (.client 0) (on, .idle) (counted, .idle) :=
    alone_hit 0 hsize hrate rfl rfl htable rfl rfl
  have hsecond : (machine cfg (Fin 2)).Alone (.client 0) (counted, .idle)
      (counted.atHit 0, .query 0 0 (.inside 0 0 (.addHit 0))) :=
    alone_toHit 0 hsize hrate rfl rfl htable rfl rfl
  -- the rebuild up to its exchange
  have htotal : prefixSum (counted.atHit 0).counters.stats cfg.kBlocks ≠ 0 := by
    have hone : prefixSum (counted.atHit 0).counters.stats cfg.kBlocks = 1 :=
      prefixSum_one cfg.kBlocks_pos
    rw [hone]
    decide
  have hcall : (machine cfg (Fin 2)).advance (.client 1) (.call .rebuildNow) (counted.atHit 0) .idle =
      some (counted.atHit 0, .rebuildNow .zero 0) := rfl
  have hrebuild : (machine cfg (Fin 2)).Alone (.client 1) (counted.atHit 0, .idle)
      (counted.atHit 0, .rebuild .rebuildNow .zero .exchange) :=
    .head ⟨_, hcall⟩ (alone_rebuildNow 1 htotal cfg.kBlocks_pos .zero
      fun b hb => absurd hb (Nat.not_lt_zero b))
  have hon := hstart.reachable (s := (machine cfg (Fin 2)).initial) .init
  have hcounted := hfirst.reachable hon
  have hwaiting := hsecond.reachable hcounted
  exact ⟨_, hrebuild.reachable hwaiting, rfl, rfl, rfl⟩

section Lost

variable {s : State (Tid (Fin 2)) (Mem (Fin 2)) Loc} {snapshot : Counters UInt64} {pc : RebuildPc}

theorem othersQuery_of_query (hbackground : s.loc .background = .idle)
    (hquery : s.loc (.client 0) = .idle ∨ ∃ pc, s.loc (.client 0) = .query 0 0 pc) :
    OthersQuery (.client 1) s := by
  unfold OthersQuery
  exact Tid.forall_iff.mpr ⟨fun _ => Or.inl hbackground, Fin.forall_fin_two.mpr
    ⟨fun _ => hquery.imp_right fun hpc => ⟨0, 0, hpc⟩, fun hu => absurd rfl hu⟩⟩

theorem HitPending.othersQuery (h : HitPending s snapshot pc) : OthersQuery (.client 1) s :=
  othersQuery_of_query h.background (.inr ⟨_, h.query⟩)

/-- The rebuild goes on while the hit is pending. -/
theorem HitPending.step (h : HitPending s snapshot pc) {m' : Mem (Fin 2)}
    {snapshot' : Counters UInt64} {pc' : RebuildPc}
    (hstep : rebuildStep cfg (.client 1) s.mem snapshot pc = some (m', snapshot', pc')) :
    ∃ s', (machine cfg (Fin 2)).StepBy (.client 1) s s' ∧ HitPending s' snapshot' pc' := by
  obtain ⟨s', hs', -, hloc, hothers⟩ := Program.exists_stepBy (P := machine cfg (Fin 2)) (s := s)
    (t := .client 1) (a := .step) (by
      rw [h.rebuild]
      exact advance_of_rebuildStep (a := .step) .rebuildNow hstep)
  exact ⟨s', hs', hloc, (hothers _ (by decide)).trans h.query,
    (hothers _ (by decide)).trans h.background⟩

/-- The exchange and the load of the first counter. -/
theorem HitPending.load (hblocks : 1 < cfg.kBlocks) (hs : (machine cfg (Fin 2)).Reachable s)
    (h : HitPending s .zero .exchange) : ∃ s₁ s₂ snapshot,
      (machine cfg (Fin 2)).StepBy (.client 1) s s₁ ∧ HitPending s₁ .zero (.snapStats 0) ∧
        (machine cfg (Fin 2)).StepBy (.client 1) s₁ s₂ ∧ HitPending s₂ snapshot (.snapStats 1) := by
  have hflag : s.mem.rebuildFlag = false := by
    refine rebuildFlag_eq_false hs (Tid.forall_iff.mpr ⟨?_, Fin.forall_fin_two.mpr ⟨?_, ?_⟩⟩)
    · rw [h.background]; exact id
    · rw [h.query]; exact id
    · rw [h.rebuild]; exact id
  have hexchange : rebuildStep cfg (.client 1) s.mem .zero .exchange =
      some ({ s.mem with rebuildFlag := true }, .zero, .snapStats 0) := by
    rw [rebuildStep, hflag]
    rfl
  obtain ⟨s₁, h₁, hpending₁⟩ := h.step hexchange
  obtain ⟨snapshot, hload⟩ : ∃ snapshot, rebuildStep cfg (.client 1) s₁.mem .zero (.snapStats 0) =
      some (s₁.mem, snapshot, .snapStats 1) :=
    ⟨_, by rw [rebuildStep, if_pos hblocks]⟩
  obtain ⟨s₂, h₂, hpending₂⟩ := hpending₁.step hload
  exact ⟨s₁, s₂, snapshot, h₁, hpending₁, h₂, hpending₂⟩

/-- The hit is counted, its query returns, and the rebuild goes on until it returns. -/
theorem HitPending.exists_return (hs : (machine cfg (Fin 2)).Reachable s)
    (h : HitPending s snapshot pc) (hpc : ∀ result, pc ≠ .ret result) : ∃ s₁ s' result,
      (machine cfg (Fin 2)).StepBy (.client 0) s s₁ ∧
        Relation.ReflTransGen (fun s s' => ((s.loc (.client 1)).Rebuilding ∧
          OthersQuery (.client 1) s) ∧ (machine cfg (Fin 2)).Step s s') s₁ s' ∧
        (∃ caller snapshot, s'.loc (.client 1) = .rebuild caller snapshot (.ret result)) ∧
        OthersQuery (.client 1) s' := by
  obtain ⟨s₁, h₁, -, hq₁, ho₁⟩ := Program.exists_stepBy (P := machine cfg (Fin 2)) (s := s)
    (t := .client 0) (a := .step) (by rw [h.query]; exact advance_addHit 0 s.mem)
  obtain ⟨s₂, h₂, -, hq₂, ho₂⟩ := Program.exists_stepBy (P := machine cfg (Fin 2)) (s := s₁)
    (t := .client 0) (a := .step) (by rw [hq₁]; exact advance_func 0 s₁.mem)
  obtain ⟨s₃, h₃, -, hq₃, ho₃⟩ := Program.exists_stepBy (P := machine cfg (Fin 2)) (s := s₂)
    (t := .client 0) (a := .step) (by rw [hq₂]; exact advance_release 0 s₂.mem)
  have hp₁ : s₁.loc (.client 1) = .rebuild .rebuildNow snapshot pc := by
    rw [ho₁ _ (by decide), h.rebuild]
  have hp₂ : s₂.loc (.client 1) = .rebuild .rebuildNow snapshot pc := by
    rw [ho₂ _ (by decide), hp₁]
  have hp₃ : s₃.loc (.client 1) = .rebuild .rebuildNow snapshot pc := by
    rw [ho₃ _ (by decide), hp₂]
  have hb₁ : s₁.loc .background = .idle := by rw [ho₁ _ (by decide), h.background]
  have hb₂ : s₂.loc .background = .idle := by rw [ho₂ _ (by decide), hb₁]
  have hidle₃ : ∀ u, u ≠ .client 1 → s₃.loc u = .idle := by
    refine Tid.forall_iff.mpr
      ⟨fun _ => ?_, Fin.forall_fin_two.mpr ⟨fun _ => hq₃, fun hu => absurd rfl hu⟩⟩
    rw [ho₃ _ (by decide), hb₂]
  have hs₃ := ((hs.step ⟨_, h₁⟩).step ⟨_, h₂⟩).step ⟨_, h₃⟩
  obtain ⟨s', snapshot', result, hret, hothers, hchain⟩ :=
    DynamicLock.exists_return hs₃ hp₃ hidle₃
  refine ⟨s₁, s', result, h₁, ?_, ⟨_, _, hret⟩, fun u hu => Or.inl (hothers u hu)⟩
  refine .head ⟨⟨⟨_, _, _, hp₁, hpc⟩, othersQuery_of_query hb₁ (.inr ⟨_, hq₁⟩)⟩, _, h₂⟩ (.head
    ⟨⟨⟨_, _, _, hp₂, hpc⟩, othersQuery_of_query hb₂ (.inr ⟨_, hq₂⟩)⟩, _, h₃⟩ ?_)
  exact Relation.ReflTransGen.mono
    (fun s s' h => ⟨⟨h.1.1, fun u hu => Or.inl (h.1.2 u hu)⟩, h.2⟩) _ _ hchain

end Lost

end Alone

/-- A call of `RebuildPartitions` and, between its load of the first counter and its store of zero
to it, a hit. -/
theorem exists_lost_hit (hk : cfg.kLockCnt = 1) (hsize : cfg.arraySize ≠ 0)
    (hrate : cfg.sampleRate ≤ 1) (hblocks : 1 < cfg.kBlocks) :
    ∃ (r : Program.Run (machine cfg (Fin 2))) (a e : ℕ) (result : Bool),
      RebuildBesideQueries r (.client 1) a e result ∧
        ∃ n, a ≤ n ∧ n < e ∧ Owes r (.client 1) 0 n ∧ events r 0 n = .add := by
  obtain ⟨s, hs, hpending⟩ := exists_entering hk hsize hrate
  obtain ⟨s₁, s₂, snapshot, h₁, hpending₁, h₂, hpending₂⟩ := hpending.load hblocks hs
  obtain ⟨s₃, s', result, h₃, hrest, hret, hothers⟩ :=
    hpending₂.exists_return ((hs.step ⟨_, h₁⟩).step ⟨_, h₂⟩) (by simp)
  -- the run up to the exchange, and one step more for the exchange, the load and the hit
  obtain ⟨r, rfl⟩ := hs.exists_run .background
  obtain ⟨r1, hlen1, rfl, hwho1, hstates1, -⟩ := r.exists_snoc h₁
  obtain ⟨r2, hlen2, rfl, -, hstates2, hwhos2⟩ := r1.exists_snoc h₂
  obtain ⟨r3, hlen3, rfl, hwho3, hstates3, hwhos3⟩ := r2.exists_snoc h₃
  obtain ⟨r4, hlen4, rfl, hstates4, hwhos4, hrebuilding⟩ := r3.extend hrest
  have hr2 : r4.states r2.length = r2.states r2.length := by
    rw [hstates4 _ (by omega), hstates3 _ le_rfl]
  have hr1 : r4.states r1.length = r1.states r1.length := by
    rw [hstates4 _ (by omega), hstates3 _ (by omega), hstates2 _ le_rfl]
  have hr : r4.states r.length = r.states r.length := by
    rw [hstates4 _ (by omega), hstates3 _ (by omega), hstates2 _ (by omega), hstates1 _ le_rfl]
  refine ⟨r4, r.length, r4.length, result, ⟨by omega, le_rfl, ?_, ?_, ?_, hret, ?_⟩, r2.length,
    by omega, by omega, ?_, ?_⟩
  · rw [hwhos4 _ (by omega), hwhos3 _ (by omega), hwhos2 _ (by omega), hwho1]
  · rw [hr]
    exact ⟨_, _, hpending.rebuild⟩
  · intro n han hne
    obtain rfl | rfl | hn : n = r1.length ∨ n = r2.length ∨ r3.length ≤ n := by omega
    · rw [hr1]; exact ⟨_, _, _, hpending₁.rebuild, by simp⟩
    · rw [hr2]; exact ⟨_, _, _, hpending₂.rebuild, by simp⟩
    · exact (hrebuilding n hn hne).1
  · intro n han hne
    obtain rfl | rfl | rfl | hn | rfl : n = r.length ∨ n = r1.length ∨ n = r2.length ∨
        (r3.length ≤ n ∧ n < r4.length) ∨ n = r4.length := by omega
    · rw [hr]; exact hpending.othersQuery
    · rw [hr1]; exact hpending₁.othersQuery
    · rw [hr2]; exact hpending₂.othersQuery
    · exact (hrebuilding n hn.1 hn.2).2
    · exact hothers
  · rw [Owes, hr2]
    exact ⟨_, _, _, hpending₂.rebuild, by simp [RebuildPc.reading]⟩
  · rw [events, hr2, hwhos4 _ (by omega), hwho3, hpending₂.query]
    simp [Loc.event]

/-- One mutex, and every query is a sample. -/
def oneLock : Config where
  kLockCnt := 1
  arraySize := 1024
  kLockCnt_pos := Nat.one_pos
  kLockCnt_lt := one_lt_size
  kBlocks_pos := kBlocks_default_pos

/-- A call of `RebuildPartitions` loses a hit: it is counted after the counter of its block was
loaded and before zero is stored to it. -/
theorem rebuild_loses_hit : ∃ (r : Program.Run (machine oneLock (Fin 2))) (a e : ℕ) (result : Bool),
    RebuildBesideQueries r (.client 1) a e result ∧ ¬ ObservationsKept r a e 0 := by
  obtain ⟨r, a, e, result, hcall, n, han, hne, howes, hadd⟩ := exists_lost_hit
    (show oneLock.kLockCnt = 1 from rfl) (by decide) (by decide) (by decide)
  exact ⟨r, a, e, result, hcall, hcall.not_kept oneLock.kBlocks_pos han hne howes hadd⟩

end DynamicLock
end DynLocks
