import DynLocks.Genetic.Training

/-!
# DynLocks.Genetic.Wakeup

The wake-ups of the background thread of a `GeneticLock`.

`training_cv_.wait` looks at `stop_training_thread_` and at the length of
`pending_queries_`.  The vector only changes under `pending_mutex_`, so a
notification that its length calls for is never lost.  `StopRebuilder` stores
the flag and notifies without that mutex; its notification is lost if it comes
after the background thread has read the flag and before it sleeps
(`stop_wakes_nobody`).

* `SignalMove` — what a step does to the three variables of the wait;
* `WaitInv.step` — a step that does not store the flag in between loses no
  wake-up;
* `woken_of_storesApart` — and no run of such steps does.
-/

namespace DynLocks
namespace GeneticLock

open Interleaving

variable {Client G : Type} (cfg : Config)

/-! ## the wait -/

/-- What the wait of the background thread depends on. -/
structure Signals where
  stop : Bool
  asleep : Bool
  pending : List Query

def Mem.signals (m : Mem Client G) : Signals where
  stop := m.stopTrainingThread
  asleep := m.asleep
  pending := m.pendingQueries

/-- The thread has found the flag down and is going to sleep. -/
def Loc.waits : Loc → Bool
  | .trainer .predSize => true
  | .trainer .wait => true
  | _ => false

/-- The thread is about to notify because `pending_queries_` is long enough. -/
def Loc.tellsSize : Loc → Bool
  | .sample _ (.unlockPending shouldNotify) => shouldNotify
  | .sample _ .notify => true
  | _ => false

/-- `StopRebuilder` is about to notify. -/
def Loc.tellsStop : Loc → Bool
  | .stop .notify => true
  | _ => false

/-- `StopRebuilder` has stored the flag and has not joined the background thread yet. -/
def Loc.stopping : Loc → Bool
  | .stop .notify => true
  | .stop .join => true
  | _ => false

/-- What one step does to what the wait depends on. -/
inductive SignalMove (l : Loc) (c : Signals) (l' : Loc) : Signals → Prop
  | quiet : l'.waits = false → l.tellsStop = false → (l.tellsSize = true → l'.tellsSize = true) →
      (l'.stopping = true → l.stopping = true) → SignalMove l c l' c
  | insert {queries : List Query} : l.HoldsPending → l'.waits = false → l.tellsStop = false →
      l'.stopping = false →
      (cfg.batchSize ≤ (c.pending ++ queries).length → l'.tellsSize = true) →
      SignalMove l c l' { c with pending := c.pending ++ queries }
  | empty : l.HoldsPending → l'.waits = false → l.tellsStop = false → l'.stopping = false →
      SignalMove l c l' { c with pending := [] }
  | wake : l'.waits = false → (l'.stopping = true → l.stopping = true) →
      SignalMove l c l' { c with asleep := false }
  | setStop : l = .stop .setStop → l'.waits = false → l'.tellsStop = true →
      SignalMove l c l' { c with stop := true }
  | clearStop : l = .start .clearStop → l'.waits = false → l'.stopping = false →
      SignalMove l c l' { c with stop := false }
  | predStop : l = .trainer .predStop → l' = .trainer .predSize → c.stop = false →
      SignalMove l c l' c
  | predSize : l = .trainer .predSize → l' = .trainer .wait → c.pending.length < cfg.batchSize →
      SignalMove l c l' c
  | wait : l = .trainer .wait → l' = .trainer .sleep → SignalMove l c l' { c with asleep := true }

/-! ## the steps -/

section Steps

variable {cfg} {std : GeneticPartitioner.StdLib G} {t : Tid Client} {a : Act} {m m' : Mem Client G}
  {l l' : Loc}

/-- Under its mutexes a query signals nothing. -/
theorem signals_insideStep {pc : InsidePc} {r : Option InsidePc}
    (h : insideStep a m pc = some (m', r)) : m'.signals = m.signals := by
  cases pc with
  | durationCas current => cases a <;> grind [insideStep, Mem.signals]
  | _ => grind [insideStep, Mem.signals]

/-- `publish_partition` signals nothing. -/
theorem signals_publishStep {nextCuts : List ℕ} {pc : PublishPc} {r : Option PublishPc}
    (h : publishStep cfg t m nextCuts pc = some (m', r)) : m'.signals = m.signals := by
  cases pc <;> grind [publishStep, Mem.signals]

variable [DecidableEq Client]

/-- The loop of `WriteQuery` signals nothing. -/
theorem signals_queryStep {left right : ℕ} {pc : QueryPc} {r : Option QueryPc}
    (h : queryStep cfg t a m left right pc = some (m', r)) : m'.signals = m.signals := by
  cases pc with
  | inside firstLock lastLock pc =>
      simp only [queryStep, Option.map_eq_some_iff, Prod.mk.injEq] at h
      obtain ⟨⟨m'', r⟩, hinside, rfl, -⟩ := h
      exact signals_insideStep hinside
  | _ => grind [queryStep, Mem.signals, Mem.lock, Mem.unlock]

/-- A training signals nothing. -/
theorem signals_trainStep {batch : List Query} {pc : TrainPc} {r : Option TrainPc}
    (h : trainStep cfg std t a m batch pc = some (m', r)) : m'.signals = m.signals := by
  cases pc with
  | publish concurrent nextCuts pc =>
      simp only [trainStep, Option.map_eq_some_iff, Prod.mk.injEq] at h
      obtain ⟨⟨m'', r'⟩, hpublish, rfl, -⟩ := h
      exact signals_publishStep hpublish
  | observe previousCuts =>
      simp only [trainStep, Option.map_eq_some_iff, Prod.mk.injEq] at h
      obtain ⟨s, -, rfl, -⟩ := h
      rfl
  | keepDurationCas current => cases a <;> grind [trainStep, Mem.signals]
  | durationCas current => cases a <;> grind [trainStep, Mem.signals]
  | _ => grind [trainStep, Mem.signals, Mem.lock, Mem.unlock]

omit [DecidableEq Client] in
/-- A step that leaves the variables of the wait alone. -/
theorem SignalMove.of_signals (h : m'.signals = m.signals) (hwaits : l'.waits = false)
    (hstop : l.tellsStop = false) (hsize : l.tellsSize = false) (hstopping : l'.stopping = false) :
    SignalMove cfg l m.signals l' m'.signals := by
  rw [h]
  refine .quiet hwaits hstop (fun h => ?_) fun h => ?_
  · simp [hsize] at h
  · simp [hstopping] at h

/-- A flush of enough samples notifies the training thread. -/
theorem signalMove_sampleStep {q : Query} {pc : SamplePc} {r : Option SamplePc}
    (h : sampleStep cfg t m q pc = some (m', r)) :
    SignalMove cfg (.sample q pc) m.signals (afterSample q r) m'.signals := by
  cases pc with
  | insert =>
      cases h
      refine .insert trivial rfl rfl rfl fun hlong => ?_
      exact decide_eq_true hlong
  | notify => cases h; exact .wake rfl (fun h => h)
  | unlockPending shouldNotify =>
      cases h
      cases shouldNotify with
      | true => exact .quiet rfl rfl (fun _ => rfl) id
      | false => exact .of_signals rfl rfl rfl rfl rfl
  | enabledLoad => cases h; split <;> exact .of_signals rfl rfl rfl rfl rfl
  | countLoad => cases h; exact .of_signals rfl rfl rfl rfl rfl
  | probeLoad operations =>
      simp only [sampleStep] at h
      split at h
      · cases h; exact .of_signals rfl rfl rfl rfl rfl
      · cases h; split <;> exact .of_signals rfl rfl rfl rfl rfl
  | enqueue => cases h; split <;> exact .of_signals rfl rfl rfl rfl rfl
  | lockPending =>
      simp only [sampleStep] at h
      split at h
      · cases h; exact .of_signals rfl rfl rfl rfl rfl
      · contradiction
  | clear => cases h; exact .of_signals rfl rfl rfl rfl rfl

omit [DecidableEq Client] in
/-- `FlushTrainingSamples` takes the pending queries away. -/
theorem signalMove_flushStep {pc : FlushPc} (h : flushStep t m pc = some (m', l')) :
    SignalMove cfg (.flush pc) m.signals l' m'.signals := by
  cases pc with
  | lockPending =>
      simp only [flushStep] at h
      split at h
      · cases h; exact .of_signals rfl rfl rfl rfl rfl
      · contradiction
  | swap => cases h; exact .empty trivial rfl rfl rfl
  | unlockPending batch => cases h; split <;> exact .of_signals rfl rfl rfl rfl rfl

omit [DecidableEq Client] in
/-- The training thread tests its predicate before it sleeps, and sleeps as it unlocks. -/
theorem signalMove_trainerStep {pc : TrainerPc} (h : trainerStep cfg t a m pc = some (m', l')) :
    SignalMove cfg (.trainer pc) m.signals l' m'.signals := by
  cases pc with
  | predStop =>
      cases h
      split
      · exact .of_signals rfl rfl rfl rfl rfl
      · next hstop => exact .predStop rfl rfl (by simpa [Mem.signals] using hstop)
  | predSize =>
      cases h
      split
      · exact .of_signals rfl rfl rfl rfl rfl
      · next hshort => exact .predSize rfl rfl (not_le.mp hshort)
  | wait => cases h; exact .wait rfl rfl
  | sleep =>
      cases a with
      | wake => cases h; exact .wake rfl id
      | _ =>
          simp only [trainerStep] at h
          split at h
          · contradiction
          · cases h; exact .of_signals rfl rfl rfl rfl rfl
  | swap => cases h; exact .empty trivial rfl rfl rfl
  | lockPending =>
      simp only [trainerStep] at h
      split at h
      · cases h; exact .of_signals rfl rfl rfl rfl rfl
      · contradiction
  | lockTraining batch =>
      simp only [trainerStep] at h
      split at h
      · cases h; exact .of_signals rfl rfl rfl rfl rfl
      · contradiction
  | stopLoad => cases h; split <;> exact .of_signals rfl rfl rfl rfl rfl
  | unlockPending batch =>
      cases h
      dsimp only [scheduleProbe]
      split
      · exact .of_signals rfl rfl rfl rfl rfl
      · split <;> exact .of_signals rfl rfl rfl rfl rfl
  | _ => cases h; exact .of_signals rfl rfl rfl rfl rfl

omit [DecidableEq Client] in
/-- `StartRebuilder` clears the stop flag before it creates the thread. -/
theorem signalMove_startStep {pc : StartPc} (h : startStep cfg m pc = some (m', l')) :
    SignalMove cfg (.start pc) m.signals l' m'.signals := by
  cases pc with
  | clearStop => cases h; exact .clearStop rfl rfl rfl
  | create =>
      simp only [startStep] at h
      split at h
      · cases h; exact .of_signals rfl rfl rfl rfl rfl
      · contradiction
  | _ => cases h; exact .of_signals rfl rfl rfl rfl rfl

omit [DecidableEq Client] in
/-- `StopRebuilder` sets the stop flag, then notifies, and then joins. -/
theorem signalMove_stopStep {pc : StopPc} (h : stopStep t m pc = some (m', l')) :
    SignalMove cfg (.stop pc) m.signals l' m'.signals := by
  cases pc with
  | setStop => cases h; exact .setStop rfl rfl rfl
  | notify => cases h; exact .wake rfl fun _ => rfl
  | join =>
      simp only [stopStep] at h
      split at h
      · cases h; exact .of_signals rfl rfl rfl rfl rfl
      · split at h
        · cases h; exact .of_signals rfl rfl rfl rfl rfl
        · contradiction
  | lockPending =>
      simp only [stopStep] at h
      split at h
      · cases h; exact .of_signals rfl rfl rfl rfl rfl
      · contradiction
  | clear => cases h; exact .empty trivial rfl rfl rfl
  | _ => cases h; exact .of_signals rfl rfl rfl rfl rfl

omit [DecidableEq Client] in
/-- No call signals in its first step. -/
theorem signalMove_enter {c : Call} (h : enter cfg m c = some (m', l')) :
    SignalMove cfg .idle m.signals l' m'.signals := by
  cases c with
  | writeQuery left right =>
      simp only [enter] at h
      split at h <;> (cases h; exact .of_signals rfl rfl rfl rfl rfl)
  | observeBatch batch => cases h; split <;> exact .of_signals rfl rfl rfl rfl rfl
  | startRebuilder => cases h; split <;> exact .of_signals rfl rfl rfl rfl rfl
  | countLocksForRange left right =>
      simp only [enter] at h
      split at h <;> (cases h; exact .of_signals rfl rfl rfl rfl rfl)
  | _ => cases h; exact .of_signals rfl rfl rfl rfl rfl

omit [DecidableEq Client] in
/-- `CountLocksForRange` signals nothing. -/
theorem signalMove_countStep {left right : ℕ} {pc : CountPc}
    (h : countStep cfg m left right pc = some (m', l')) :
    SignalMove cfg (.count left right pc) m.signals l' m'.signals := by
  cases pc with
  | epochCheck epoch firstLock lastLock =>
      cases h
      split <;> exact .of_signals rfl rfl rfl rfl rfl
  | _ => cases h; exact .of_signals rfl rfl rfl rfl rfl

/-- **What a step does to the wait.** -/
theorem signalMove_of_advance (h : advance cfg std t a m l = some (m', l')) :
    SignalMove cfg l m.signals l' m'.signals := by
  cases l with
  | idle =>
      cases t with
      | client c =>
          cases a with
          | call c => exact signalMove_enter h
          | _ => contradiction
      | background =>
          cases a with
          | step =>
              simp only [advance] at h
              split at h
              · cases h; exact .of_signals rfl rfl rfl rfl rfl
              · contradiction
          | _ => contradiction
  | query left right pc =>
      simp only [advance, Option.map_eq_some_iff, Prod.mk.injEq] at h
      obtain ⟨⟨m'', r⟩, hstep, rfl, rfl⟩ := h
      have hsignals := signals_queryStep hstep
      cases r <;> exact .of_signals hsignals rfl rfl rfl rfl
  | sample q pc =>
      simp only [advance, Option.map_eq_some_iff, Prod.mk.injEq] at h
      obtain ⟨⟨m'', r⟩, hstep, rfl, rfl⟩ := h
      exact signalMove_sampleStep hstep
  | observe batch =>
      simp only [advance] at h
      split at h
      · cases h; exact .of_signals rfl rfl rfl rfl rfl
      · contradiction
  | train caller batch pc =>
      simp only [advance, Option.map_eq_some_iff, Prod.mk.injEq] at h
      obtain ⟨⟨m'', r⟩, hstep, rfl, rfl⟩ := h
      have hsignals := signals_trainStep hstep
      cases r with
      | some pc' => exact .of_signals hsignals rfl rfl rfl rfl
      | none => cases caller <;> exact .of_signals hsignals rfl rfl rfl rfl
  | flush pc => exact signalMove_flushStep h
  | trainer pc => exact signalMove_trainerStep h
  | start pc => exact signalMove_startStep h
  | stop pc => exact signalMove_stopStep h
  | count left right pc => exact signalMove_countStep h
  | cutsLock =>
      simp only [advance] at h
      split at h
      · cases h; exact .of_signals rfl rfl rfl rfl rfl
      · contradiction
  | _ => cases h; exact .of_signals rfl rfl rfl rfl rfl

end Steps

/-! ## over whole runs -/

/-- No wake-up is lost: while the background thread is a waiter, whoever has made its predicate true
is still going to notify, and so is somebody if `StopRebuilder` joins it. -/
structure Woken (cfg : Config) (s : State (Tid Client) (Mem Client G) Loc) : Prop where
  stop : s.mem.asleep = true → s.mem.stopTrainingThread = true → ∃ t, (s.loc t).tellsStop = true
  size : s.mem.asleep = true → cfg.batchSize ≤ s.mem.pendingQueries.length →
    ∃ t, (s.loc t).tellsSize = true
  join : ∀ t, s.loc t = .stop .join → s.mem.asleep = true → ∃ u, (s.loc u).tellsStop = true

/-- What a thread knows of the flag and of `pending_queries_`. -/
def Loc.Knows (cfg : Config) (stop : Bool) (pending : List Query) : Loc → Prop
  | .trainer .predSize => stop = false
  | .trainer .wait => stop = false ∧ pending.length < cfg.batchSize
  | .stop .notify => stop = true
  | .stop .join => stop = true
  | _ => True

/-- `StopRebuilder` is about to store the flag. -/
def Loc.setsStop : Loc → Bool
  | .stop .setStop => true
  | _ => false

/-- `StartRebuilder` is about to clear the flag. -/
def Loc.clearsStop : Loc → Bool
  | .start .clearStop => true
  | _ => false

/-- A step from `l` that stores the flag does so apart: `StopRebuilder` not while the background
thread has read it and does not sleep yet, `StartRebuilder` not while `StopRebuilder` runs. -/
def StoresApart (l : Loc) (loc : Tid Client → Loc) : Prop :=
  (l.setsStop = true → ∀ t, (loc t).waits = false) ∧
    (l.clearsStop = true → ∀ t, (loc t).stopping = false)

section Knowledge

variable {cfg} {l : Loc} {stop : Bool} {pending : List Query}

/-- A thread that does not wait knows the flag in `StopRebuilder` only. -/
theorem Loc.knows_of (hwaits : l.waits = false) (hstopping : l.stopping = true → stop = true) :
    l.Knows cfg stop pending := by
  cases l with
  | trainer pc => cases pc <;> trivial
  | stop pc => cases pc <;> first | trivial | exact hstopping rfl
  | _ => trivial

/-- A thread that stops the training knows the flag set. -/
theorem Loc.Knows.up (h : l.Knows cfg stop pending) (hl : l.stopping = true) : stop = true := by
  cases l with
  | stop pc => cases pc <;> first | exact h | contradiction
  | _ => contradiction

/-- A thread that waits has seen it clear. -/
theorem Loc.Knows.down (h : l.Knows cfg stop pending) (hl : l.waits = true) : stop = false := by
  cases l with
  | trainer pc => cases pc <;> first | exact h | exact h.1 | contradiction
  | _ => contradiction

/-- The vector changes under the mutex. -/
theorem Loc.Knows.of_not_holds (h : l.Knows cfg stop pending) (hl : ¬l.HoldsPending)
    (pending' : List Query) : l.Knows cfg stop pending' := by
  cases l with
  | trainer pc => cases pc <;> first | exact h | exact absurd trivial hl
  | stop pc => cases pc <;> exact h
  | _ => trivial

/-- Who does not run `StopRebuilder` may see the flag go down. -/
theorem Loc.Knows.store_down (h : l.Knows cfg stop pending) (hl : l.stopping = false) :
    l.Knows cfg false pending := by
  cases l with
  | trainer pc => cases pc <;> first | trivial | exact ⟨rfl, h.2⟩
  | stop pc => cases pc <;> trivial
  | _ => trivial

end Knowledge

/-- The clauses about the predicate, and what every thread knows. -/
structure WaitInv (cfg : Config) (c : Signals) (loc : Tid Client → Loc) : Prop where
  stop : c.asleep = true → c.stop = true → ∃ t, (loc t).tellsStop = true
  size : c.asleep = true → cfg.batchSize ≤ c.pending.length → ∃ t, (loc t).tellsSize = true
  knows : ∀ t, (loc t).Knows cfg c.stop c.pending

section Invariant

variable {cfg} {c c' : Signals} {loc loc' : Tid Client → Loc} {t : Tid Client}

/-- What somebody is going to do is not undone by a step. -/
theorem exists_of_frame {p : Loc → Prop} (hframe : ∀ u, u ≠ t → loc' u = loc u)
    (hself : p (loc t) → p (loc' t)) (h : ∃ u, p (loc u)) : ∃ u, p (loc' u) := by
  obtain ⟨u, hu⟩ := h
  by_cases hut : u = t
  · subst hut
    exact ⟨u, hself hu⟩
  · exact ⟨u, by rwa [hframe u hut]⟩

/-- **Step lemma**: a step that stores the flag apart loses no wake-up. -/
theorem WaitInv.step (h : WaitInv cfg c loc) (hmove : SignalMove cfg (loc t) c (loc' t) c')
    (hframe : ∀ u, u ≠ t → loc' u = loc u) (hapart : StoresApart (loc t) loc)
    (hholder : ∀ u, (loc t).HoldsPending → (loc u).HoldsPending → u = t) :
    WaitInv cfg c' loc' := by
  have hall : (loc' t).Knows cfg c'.stop c'.pending →
      (∀ u, u ≠ t → (loc u).Knows cfg c'.stop c'.pending) →
        ∀ u, (loc' u).Knows cfg c'.stop c'.pending := by
    intro hself hothers u
    by_cases hut : u = t
    · rwa [hut]
    · rw [hframe u hut]
      exact hothers u hut
  have htells : (loc t).tellsStop = false → c.asleep = true → c.stop = true →
      ∃ u, (loc' u).tellsStop = true := fun hnot ha hs =>
    exists_of_frame (p := fun l => l.tellsStop = true) hframe (by simp [hnot]) (h.stop ha hs)
  have hsize : ((loc t).tellsSize = true → (loc' t).tellsSize = true) → c.asleep = true →
      cfg.batchSize ≤ c.pending.length → ∃ u, (loc' u).tellsSize = true := fun hkeep ha hs =>
    exists_of_frame (p := fun l => l.tellsSize = true) hframe hkeep (h.size ha hs)
  cases hmove with
  | quiet hwaits hnot hkeep hstopping =>
      exact
        { stop := htells hnot
          size := hsize hkeep
          knows := hall (Loc.knows_of hwaits fun hl => (h.knows t).up (hstopping hl)) fun u _ =>
            h.knows u }
  | insert hholds hwaits hnot hstopping hlong =>
      exact
        { stop := htells hnot
          size := fun _ hle => ⟨t, hlong hle⟩
          knows := hall (Loc.knows_of hwaits (by simp [hstopping])) fun u hut =>
            (h.knows u).of_not_holds (fun hu => hut (hholder u hholds hu)) _ }
  | empty hholds hwaits hnot hstopping =>
      have hpos : 0 < cfg.batchSize := Nat.lt_of_lt_of_le Nat.one_pos (le_max_right _ _)
      exact
        { stop := htells hnot
          size := fun _ hle => absurd hpos (Nat.not_lt.mpr hle)
          knows := hall (Loc.knows_of hwaits (by simp [hstopping])) fun u hut =>
            (h.knows u).of_not_holds (fun hu => hut (hholder u hholds hu)) _ }
  | wake hwaits hstopping =>
      exact
        { stop := by simp
          size := by simp
          knows := hall (Loc.knows_of hwaits fun hl => (h.knows t).up (hstopping hl)) fun u _ =>
            h.knows u }
  | setStop hl hwaits htold =>
      exact
        { stop := fun _ _ => ⟨t, htold⟩
          size := hsize (by simp [hl, Loc.tellsSize])
          knows := hall (Loc.knows_of hwaits fun _ => rfl) fun u _ =>
            Loc.knows_of (hapart.1 (by rw [hl]; rfl) u) fun _ => rfl }
  | clearStop hl hwaits hstopping =>
      exact
        { stop := by simp
          size := hsize (by simp [hl, Loc.tellsSize])
          knows := hall (Loc.knows_of hwaits (by simp [hstopping])) fun u _ =>
            (h.knows u).store_down (hapart.2 (by rw [hl]; rfl) u) }
  | predStop hl hl' hdown =>
      exact
        { stop := htells (by simp [hl, Loc.tellsStop])
          size := hsize (by simp [hl, Loc.tellsSize])
          knows := hall (by rw [hl']; exact hdown) fun u _ => h.knows u }
  | predSize hl hl' hshort =>
      have hdown : c.stop = false := (h.knows t).down (by rw [hl]; rfl)
      exact
        { stop := htells (by simp [hl, Loc.tellsStop])
          size := hsize (by simp [hl, Loc.tellsSize])
          knows := hall (by rw [hl']; exact ⟨hdown, hshort⟩) fun u _ => h.knows u }
  | wait hl hl' =>
      obtain ⟨hdown, hshort⟩ : c.stop = false ∧ c.pending.length < cfg.batchSize := by
        have hknows := h.knows t
        rwa [hl] at hknows
      exact
        { stop := by simp [hdown]
          size := fun _ hle => absurd hshort (Nat.not_lt.mpr hle)
          knows := hall (by rw [hl']; trivial) fun u _ => h.knows u }

end Invariant

section Runs

variable [DecidableEq Client] {cfg} {std : GeneticPartitioner.StdLib G} {seed : G}

/-- **Run lemma**: what every thread knows in a run whose steps store the flag apart. -/
theorem waitInv_of_run (r : Program.Run (machine cfg std seed Client))
    (hapart : ∀ n < r.length, StoresApart ((r.states n).loc (r.who n)) (r.states n).loc) {n : ℕ}
    (hn : n ≤ r.length) : WaitInv cfg (r.states n).mem.signals (r.states n).loc := by
  induction n with
  | zero =>
      rw [r.start]
      exact
        { stop := fun ha => by contradiction
          size := fun ha => by contradiction
          knows := fun _ => trivial }
  | succ n ih =>
      obtain ⟨⟨a, ha⟩, hframe⟩ := (r.step n (by omega)).elim
      have howned : Owned (r.states n).mem.pendingMutex fun t => ((r.states n).loc t).HoldsPending :=
        owned_of_reachable (r.reachable (by omega)) .pending
      exact (ih (by omega)).step (signalMove_of_advance ha) hframe (hapart n (by omega))
        fun u ht hu => howned.unique hu ht

/-- **No lost wake-up**: in a run in which no step stores the stop flag while the background thread
has read it and does not sleep yet. -/
theorem woken_of_storesApart (r : Program.Run (machine cfg std seed Client))
    (hapart : ∀ n < r.length, StoresApart ((r.states n).loc (r.who n)) (r.states n).loc) :
    ∀ n ≤ r.length, Woken cfg (r.states n) := by
  intro n hn
  have h := waitInv_of_run r hapart hn
  refine ⟨h.stop, h.size, fun t ht ha => h.stop ha ?_⟩
  have hknows := h.knows t
  rwa [ht] at hknows

end Runs

/-! ## a thread that is stopped -/

/-- The client starts the background thread, which comes to the test of its predicate. -/
def intoWait : List (Tid Unit × Act) :=
  (.client (), .call .startRebuilder) :: List.replicate 4 (.client (), .step) ++
    List.replicate 3 (.background, .step)

/-- `StopRebuilder` up to its `join`. -/
def stopping : List (Tid Unit × Act) :=
  (.client (), .call .stopRebuilder) :: List.replicate 3 (.client (), .step)

/-- The background thread is asleep when `StopRebuilder` is called. -/
def stopAsleep : List (Tid Unit × Act) :=
  intoWait ++ List.replicate 2 (.background, .step) ++ stopping

/-- It falls asleep after `StopRebuilder` has notified it. -/
def stopAwake : List (Tid Unit × Act) :=
  intoWait ++ stopping ++ List.replicate 2 (.background, .step)

/-- The small lock with one client. -/
abbrev loneClient := machine smallLock GeneticPartitioner.lowestDraws () Unit

theorem isSome_exec_stopAsleep : (loneClient.exec stopAsleep loneClient.initial).isSome := by
  decide

theorem isSome_exec_stopAwake : (loneClient.exec stopAwake loneClient.initial).isSome := by
  decide

def stopAsleepRun : Program.Run loneClient :=
  .ofSchedule _ stopAsleep .background isSome_exec_stopAsleep

def stopAwakeRun : Program.Run loneClient :=
  .ofSchedule _ stopAwake .background isSome_exec_stopAwake

instance (l : Loc) (loc : Tid Unit → Loc) : Decidable (StoresApart l loc) :=
  inferInstanceAs (Decidable (_ ∧ _))

/-- With the flag up and the thread asleep, `StopRebuilder` has its notification still to send. -/
theorem woken_stopAsleep : (stopAsleepRun.states 13).mem.asleep = true ∧
    (stopAsleepRun.states 13).mem.stopTrainingThread = true ∧
    Woken smallLock (stopAsleepRun.states 13) := by
  have hapart : ∀ n < stopAsleepRun.length,
      StoresApart ((stopAsleepRun.states n).loc (stopAsleepRun.who n))
        (stopAsleepRun.states n).loc := by
    decide
  exact ⟨by decide, by decide +kernel,
    woken_of_storesApart stopAsleepRun hapart 13 (by decide)⟩

/-- Does `StopRebuilder` wait for the background thread? -/
def Loc.joins : Loc → Bool
  | .stop .join => true
  | _ => false

/-- The client joins a thread that sleeps, and nobody is left to wake it. -/
theorem joins_stopAwakeRun : ((stopAwakeRun.states 14).loc (.client ())).joins = true ∧
    (stopAwakeRun.states 14).mem.asleep = true ∧
    ((stopAwakeRun.states 14).loc (.client ())).tellsStop = false ∧
    ((stopAwakeRun.states 14).loc .background).tellsStop = false := by
  decide

/-- `StopRebuilder` waits for a thread that nobody wakes. -/
theorem stop_wakes_nobody : ∃ s, loneClient.Reachable s ∧ s.loc (.client ()) = .stop .join ∧
    s.mem.asleep = true ∧ ¬Woken smallLock s := by
  obtain ⟨hjoins, hasleep, hclient, hbackground⟩ := joins_stopAwakeRun
  have hloc : (stopAwakeRun.states 14).loc (.client ()) = .stop .join := by
    generalize (stopAwakeRun.states 14).loc (.client ()) = l at hjoins
    cases l with
    | stop pc => cases pc <;> first | rfl | contradiction
    | _ => contradiction
  refine ⟨_, stopAwakeRun.reachable (show 14 ≤ stopAwakeRun.length by decide), hloc, hasleep, ?_⟩
  intro h
  have hnobody : ∀ t, ((stopAwakeRun.states 14).loc t).tellsStop = false :=
    Tid.forall_iff.mpr ⟨hbackground, fun _ => hclient⟩
  obtain ⟨t, ht⟩ := h.join _ hloc hasleep
  simp [hnobody t] at ht

end GeneticLock
end DynLocks
