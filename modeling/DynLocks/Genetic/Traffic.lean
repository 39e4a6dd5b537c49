import DynLocks.Genetic.Mutexes

/-!
# DynLocks.Genetic.Traffic

What the steps of a thread do with training samples: `EnqueueTrainingSample`
puts one into the thread's buffer, `FlushTrainingSamples` copies the buffer
into `pending_queries_`, `TrainingLoop` and `FlushTraining` swap
`pending_queries_` out and `StopRebuilder` clears it.  `traffic_of_advance`
says that no other step touches them.
-/

namespace DynLocks
namespace GeneticLock

open Interleaving

/-! ## where samples are -/

/-- What a step does with samples. -/
inductive Event
  | quiet
  | enqueue (query : Query)
  | insert
  | clear
  | swap
  | clearPending

/-- What the next step of a thread does with samples. -/
def Loc.event : Loc → Event
  | .sample q .enqueue => .enqueue q
  | .sample _ .insert => .insert
  | .sample _ .clear => .clear
  | .flush .swap => .swap
  | .trainer .swap => .swap
  | .stop .clear => .clearPending
  | _ => .quiet

/-- The batch that a thread has in hand. -/
def Loc.batch : Loc → Option (List Query)
  | .observe batch => some batch
  | .train _ batch _ => some batch
  | .flush (.unlockPending batch) => some batch
  | .trainer (.unlockPending batch) => some batch
  | .trainer (.lockTraining batch) => some batch
  | _ => none

/-- The thread is flushing its buffer. -/
def Loc.flushing : Loc → Bool
  | .sample _ .lockPending => true
  | .sample _ .insert => true
  | .sample _ (.unlockPending _) => true
  | .sample _ .notify => true
  | .sample _ .clear => true
  | _ => false

/-- The thread has copied its buffer into `pending_queries_` and has not emptied it yet. -/
def Loc.flushed : Loc → Bool
  | .sample _ (.unlockPending _) => true
  | .sample _ .notify => true
  | .sample _ .clear => true
  | _ => false

variable {Client G : Type} (cfg : Config)

/-- What one step of thread `t` does with samples. -/
inductive Traffic (t : Tid Client) (m : Mem Client G) (l : Loc) (m' : Mem Client G) (l' : Loc) :
    Event → Prop
  | quiet : m'.localQueries t = m.localQueries t → m'.pendingQueries = m.pendingQueries →
      l'.flushed = l.flushed → l'.batch = none ∨ l'.batch = l.batch →
      (l'.flushing = true → l.flushing = true) → Traffic t m l m' l' .quiet
  | enqueue {query : Query} : m'.localQueries t = m.localQueries t ++ [query] →
      m'.pendingQueries = m.pendingQueries → l.flushed = false → l'.flushed = false →
      l'.batch = none → Traffic t m l m' l' (.enqueue query)
  | insert : m'.localQueries t = m.localQueries t →
      m'.pendingQueries = m.pendingQueries ++ m.localQueries t → l.flushed = false →
      l.flushing = true → l'.flushed = true → l'.batch = none → Traffic t m l m' l' .insert
  | clear : m'.localQueries t = [] → m'.pendingQueries = m.pendingQueries → l.flushed = true →
      l'.flushed = false → l'.flushing = false → l'.batch = none → Traffic t m l m' l' .clear
  | swap : m'.localQueries t = m.localQueries t → m'.pendingQueries = [] → l.flushed = false →
      l'.flushed = false → l'.flushing = false → l'.batch = some m.pendingQueries →
      Traffic t m l m' l' .swap
  | clearPending : m'.localQueries t = m.localQueries t → m'.pendingQueries = [] →
      l.flushed = false → l'.flushed = false → l'.flushing = false → l'.batch = none →
      Traffic t m l m' l' .clearPending

/-! ## the steps -/

section Steps

variable {cfg} {std : GeneticPartitioner.StdLib G} {t : Tid Client} [DecidableEq Client] {a : Act}
  {m m' : Mem Client G}

/-- The queries that are on their way to a training. -/
def Mem.queries (m : Mem Client G) : (Tid Client → List Query) × List Query :=
  (m.localQueries, m.pendingQueries)

omit [DecidableEq Client] in
/-- Under its mutexes a query moves no sample. -/
theorem queries_insideStep {pc : InsidePc} {r : Option InsidePc}
    (h : insideStep a m pc = some (m', r)) : m'.queries = m.queries := by
  cases pc with
  | durationCas current => cases a <;> grind [insideStep, Mem.queries]
  | _ => grind [insideStep, Mem.queries]

/-- The loop of `WriteQuery` moves no sample. -/
theorem queries_queryStep {left right : ℕ} {pc : QueryPc} {r : Option QueryPc}
    (h : queryStep cfg t a m left right pc = some (m', r)) : m'.queries = m.queries := by
  cases pc with
  | inside firstLock lastLock pc =>
      simp only [queryStep, Option.map_eq_some_iff, Prod.mk.injEq] at h
      obtain ⟨⟨m'', r⟩, hinside, rfl, -⟩ := h
      exact queries_insideStep hinside
  | _ => grind [queryStep, Mem.queries, Mem.lock, Mem.unlock]

omit [DecidableEq Client] in
/-- `publish_partition` moves no sample. -/
theorem queries_publishStep {nextCuts : List ℕ} {pc : PublishPc} {r : Option PublishPc}
    (h : publishStep cfg t m nextCuts pc = some (m', r)) : m'.queries = m.queries := by
  cases pc <;> grind [publishStep, Mem.queries]

/-- A training works on a copy of its batch. -/
theorem queries_trainStep {batch : List Query} {pc : TrainPc} {r : Option TrainPc}
    (h : trainStep cfg std t a m batch pc = some (m', r)) : m'.queries = m.queries := by
  cases pc with
  | publish concurrent nextCuts pc =>
      simp only [trainStep, Option.map_eq_some_iff, Prod.mk.injEq] at h
      obtain ⟨⟨m'', r'⟩, hpublish, rfl, -⟩ := h
      exact queries_publishStep hpublish
  | observe previousCuts =>
      simp only [trainStep, Option.map_eq_some_iff, Prod.mk.injEq] at h
      obtain ⟨s, -, rfl, -⟩ := h
      rfl
  | keepDurationCas current => cases a <;> grind [trainStep, Mem.queries]
  | durationCas current => cases a <;> grind [trainStep, Mem.queries]
  | _ => grind [trainStep, Mem.queries, Mem.lock, Mem.unlock]

variable {l' : Loc}

omit [DecidableEq Client] in
/-- A step that leaves the queries alone and hands on no batch but its own. -/
theorem Traffic.of_queries {l : Loc} (h : m'.queries = m.queries) (hl : l.flushed = false)
    (hl' : l'.flushed = false) (hflushing : l'.flushing = false)
    (hbatch : l'.batch = none ∨ l'.batch = l.batch) :
    Traffic t m l m' l' .quiet := by
  obtain ⟨hlocal, hpending⟩ := Prod.mk.inj h
  refine .quiet (congrFun hlocal t) hpending (hl'.trans hl.symm) hbatch fun h => ?_
  rw [hflushing] at h
  contradiction

/-- A sample enters in `EnqueueTrainingSample`, and the buffer is flushed under `pending_mutex_`. -/
theorem traffic_sampleStep {q : Query} {pc : SamplePc} {r : Option SamplePc}
    (h : sampleStep cfg t m q pc = some (m', r)) :
    Traffic t m (.sample q pc) m' (afterSample q r) (Loc.sample q pc).event := by
  cases pc with
  | enqueue =>
      cases h
      refine .enqueue (Function.update_self ..) rfl rfl ?_ ?_ <;> (split <;> rfl)
  | insert =>
      cases h
      exact .insert rfl rfl rfl rfl rfl rfl
  | clear =>
      cases h
      exact .clear (Function.update_self ..) rfl rfl rfl rfl rfl
  | enabledLoad =>
      cases h
      refine .of_queries rfl rfl ?_ ?_ ?_ <;>
        (split <;> simp [afterSample, Loc.flushed, Loc.flushing, Loc.batch])
  | countLoad => cases h; exact .of_queries rfl rfl rfl rfl (.inl rfl)
  | probeLoad operations =>
      simp only [sampleStep] at h
      split at h
      · cases h; exact .of_queries rfl rfl rfl rfl (.inl rfl)
      · cases h
        refine .of_queries rfl rfl ?_ ?_ ?_ <;>
          (split <;> simp [afterSample, Loc.flushed, Loc.flushing, Loc.batch])
  | lockPending =>
      simp only [sampleStep] at h
      split at h
      · cases h; exact .quiet rfl rfl rfl (.inl rfl) fun _ => rfl
      · contradiction
  | unlockPending shouldNotify =>
      cases h
      refine .quiet rfl rfl ?_ ?_ fun _ => rfl <;>
        (split <;> simp [afterSample, Loc.flushed, Loc.batch])
  | notify => cases h; exact .quiet rfl rfl rfl (.inl rfl) fun _ => rfl

omit [DecidableEq Client] in
/-- `FlushTrainingSamples` swaps the pending queries for an empty vector. -/
theorem traffic_flushStep {pc : FlushPc} (h : flushStep t m pc = some (m', l')) :
    Traffic t m (.flush pc) m' l' (Loc.flush pc).event := by
  cases pc with
  | lockPending =>
      simp only [flushStep] at h
      split at h
      · cases h; exact .of_queries rfl rfl rfl rfl (.inl rfl)
      · contradiction
  | swap => cases h; exact .swap rfl rfl rfl rfl rfl rfl
  | unlockPending batch =>
      cases h
      split
      · exact .of_queries rfl rfl rfl rfl (.inl rfl)
      · exact .of_queries rfl rfl rfl rfl (.inr rfl)

omit [DecidableEq Client] in
/-- The training thread swaps them too, once there are enough. -/
theorem traffic_trainerStep {pc : TrainerPc} (h : trainerStep cfg t a m pc = some (m', l')) :
    Traffic t m (.trainer pc) m' l' (Loc.trainer pc).event := by
  cases pc with
  | swap => cases h; exact .swap rfl rfl rfl rfl rfl rfl
  | unlockPending batch =>
      cases h
      dsimp only [scheduleProbe]
      split
      · exact .of_queries rfl rfl rfl rfl (.inr rfl)
      · split <;> exact .of_queries rfl rfl rfl rfl (.inl rfl)
  | lockTraining batch =>
      simp only [trainerStep] at h
      split at h
      · cases h; exact .of_queries rfl rfl rfl rfl (.inr rfl)
      · contradiction
  | lockPending =>
      simp only [trainerStep] at h
      split at h
      · cases h; exact .of_queries rfl rfl rfl rfl (.inl rfl)
      · contradiction
  | sleep =>
      cases a with
      | wake => cases h; exact .of_queries rfl rfl rfl rfl (.inl rfl)
      | _ =>
          simp only [trainerStep] at h
          split at h
          · contradiction
          · cases h; exact .of_queries rfl rfl rfl rfl (.inl rfl)
  | predStop => cases h; split <;> exact .of_queries rfl rfl rfl rfl (.inl rfl)
  | predSize => cases h; split <;> exact .of_queries rfl rfl rfl rfl (.inl rfl)
  | stopLoad => cases h; split <;> exact .of_queries rfl rfl rfl rfl (.inl rfl)
  | _ => cases h; exact .of_queries rfl rfl rfl rfl (.inl rfl)

omit [DecidableEq Client] in
/-- `StartRebuilder` moves no sample. -/
theorem traffic_startStep {pc : StartPc} (h : startStep cfg m pc = some (m', l')) :
    Traffic t m (.start pc) m' l' .quiet := by
  cases pc with
  | create =>
      simp only [startStep] at h
      split at h
      · cases h; exact .of_queries rfl rfl rfl rfl (.inl rfl)
      · contradiction
  | _ => cases h; exact .of_queries rfl rfl rfl rfl (.inl rfl)

omit [DecidableEq Client] in
/-- `StopRebuilder` clears the pending queries. -/
theorem traffic_stopStep {pc : StopPc} (h : stopStep t m pc = some (m', l')) :
    Traffic t m (.stop pc) m' l' (Loc.stop pc).event := by
  cases pc with
  | clear => cases h; exact .clearPending rfl rfl rfl rfl rfl rfl
  | join =>
      simp only [stopStep] at h
      split at h
      · cases h; exact .of_queries rfl rfl rfl rfl (.inl rfl)
      · split at h
        · cases h; exact .of_queries rfl rfl rfl rfl (.inl rfl)
        · contradiction
  | lockPending =>
      simp only [stopStep] at h
      split at h
      · cases h; exact .of_queries rfl rfl rfl rfl (.inl rfl)
      · contradiction
  | _ => cases h; exact .of_queries rfl rfl rfl rfl (.inl rfl)

omit [DecidableEq Client] in
/-- A call hands on the batch of an `ObserveBatch` and no other. -/
theorem traffic_enter {call : Call} (hcall : ∀ batch, call ≠ .observeBatch batch)
    (h : enter cfg m call = some (m', l')) : Traffic t m .idle m' l' .quiet := by
  cases call with
  | observeBatch batch => exact absurd rfl (hcall batch)
  | writeQuery left right =>
      simp only [enter] at h
      split at h <;>
      · cases h
        exact .of_queries rfl rfl rfl rfl (.inl rfl)
  | countLocksForRange left right =>
      simp only [enter] at h
      split at h <;>
      · cases h
        exact .of_queries rfl rfl rfl rfl (.inl rfl)
  | startRebuilder => cases h; split <;> exact .of_queries rfl rfl rfl rfl (.inl rfl)
  | _ => cases h; exact .of_queries rfl rfl rfl rfl (.inl rfl)

/-- What one step of a thread does with samples, but for a call of `ObserveBatch`. -/
theorem traffic_of_advance {l : Loc} (hcall : ∀ batch, a ≠ .call (.observeBatch batch))
    (h : advance cfg std t a m l = some (m', l')) : Traffic t m l m' l' l.event := by
  cases l with
  | idle =>
      cases t with
      | client c =>
          cases a with
          | call call => exact traffic_enter (fun batch hb => hcall batch (hb ▸ rfl)) h
          | _ => contradiction
      | background =>
          cases a with
          | step =>
              simp only [advance] at h
              split at h
              · cases h; exact .of_queries rfl rfl rfl rfl (.inl rfl)
              · contradiction
          | _ => contradiction
  | query left right pc =>
      simp only [advance, Option.map_eq_some_iff, Prod.mk.injEq] at h
      obtain ⟨⟨m'', r⟩, hstep, rfl, rfl⟩ := h
      have hqueries := queries_queryStep hstep
      cases r <;> exact .of_queries hqueries rfl rfl rfl (.inl rfl)
  | sample q pc =>
      simp only [advance, Option.map_eq_some_iff, Prod.mk.injEq] at h
      obtain ⟨⟨m'', r⟩, hstep, rfl, rfl⟩ := h
      exact traffic_sampleStep hstep
  | observe batch =>
      simp only [advance] at h
      split at h
      · cases h; exact .of_queries rfl rfl rfl rfl (.inr rfl)
      · contradiction
  | train caller batch pc =>
      simp only [advance, Option.map_eq_some_iff, Prod.mk.injEq] at h
      obtain ⟨⟨m'', r⟩, hstep, rfl, rfl⟩ := h
      have hqueries := queries_trainStep hstep
      cases r with
      | some pc => exact .of_queries hqueries rfl rfl rfl (.inr rfl)
      | none => cases caller <;> exact .of_queries hqueries rfl rfl rfl (.inl rfl)
  | flush pc => exact traffic_flushStep h
  | trainer pc => exact traffic_trainerStep h
  | start pc => exact traffic_startStep h
  | stop pc => exact traffic_stopStep h
  | count left right pc =>
      cases pc with
      | epochCheck epoch firstLock lastLock =>
          cases h
          split <;> exact .of_queries rfl rfl rfl rfl (.inl rfl)
      | _ => cases h; exact .of_queries rfl rfl rfl rfl (.inl rfl)
  | cutsLock =>
      simp only [advance] at h
      split at h
      · cases h; exact .of_queries rfl rfl rfl rfl (.inl rfl)
      · contradiction
  | _ => cases h; exact .of_queries rfl rfl rfl rfl (.inl rfl)

end Steps

end GeneticLock
end DynLocks
