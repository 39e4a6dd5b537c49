import DynLocks.Lib.Critical
import DynLocks.Genetic.Exclusion

/-!
# DynLocks.Genetic.RangeLock

`GeneticLock` as a lock for ranges of positions, for clients that start the
background thread and leave the training to it.  Then `training_enabled_` is up
in every training (`serving_of_reachable`), so every publication is made under
the range mutexes and never two threads are in `func` on ranges that meet
(`rangeLock_sound`).
-/

namespace DynLocks
namespace GeneticLock

open Interleaving EpochTable

/-- The clamped range of a `WriteQuery` whose `func` has not returned. -/
def Loc.asks : Loc → Option (ℕ × ℕ)
  | .query _ _ (.release _ _) => none
  | .query left right _ => some (left, right)
  | _ => none

theorem Loc.asks_eq_some {l : Loc} {range : ℕ × ℕ} (h : l.asks = some range) :
    ∃ pc, l = .query range.1 range.2 pc := by
  cases l with
  | query left right pc =>
      cases pc with
      | release => cases h
      | _ => cases h; exact ⟨_, rfl⟩
  | _ => cases h

theorem asks_of_inFunc {l : Loc} {range : ℕ × ℕ} (h : l.inFunc = some range) :
    l.asks = some range := by
  obtain ⟨firstLock, lastLock, rfl⟩ := Loc.inFunc_eq_some h
  rfl

/-! ## clients that leave the training alone -/

/-- The operations that neither train nor stop the background thread. -/
def Call.serves : Call → Bool
  | .writeQuery _ _ => true
  | .startRebuilder => true
  | .countLocksForRange _ _ => true
  | .partitionCuts => true
  | _ => false

/-- An idle client calls one of them. -/
def permits : Loc → Act → Bool
  | .idle, .call c => c.serves
  | _, _ => true

/-- Where a thread may stand if clients only call them. -/
def Loc.Serves : Loc → Prop
  | .observe _ => False
  | .flush _ => False
  | .stop _ => False
  | .setEnabled _ => False
  | .train .observeBatch _ _ => False
  | .train .trainingLoop _ (.publish false _ _) => False
  | _ => True

/-- The background thread, or a client that is about to create it. -/
def Loc.Trains : Loc → Prop
  | .train _ _ _ => True
  | .trainer _ => True
  | .start .create => True
  | _ => False

/-- The members that say whether and where trainings run. -/
def Mem.training {Client G : Type} (m : Mem Client G) : Bool × Thread :=
  (m.trainingEnabled, m.trainingThread)

variable {Client G : Type} {cfg : Config} [DecidableEq Client]
  {std : GeneticPartitioner.StdLib G} {seed : G} {t u : Tid Client} {a : Act}
  {m m' : Mem Client G} {s s' : State (Tid Client) (Mem Client G) Loc}

theorem training_queryStep {left right : ℕ} {pc : QueryPc} {r : Option QueryPc}
    (h : queryStep cfg t a m left right pc = some (m', r)) : m'.training = m.training := by
  cases pc with
  | inside firstLock lastLock pc =>
      simp only [queryStep, Option.map_eq_some_iff, Prod.mk.injEq] at h
      obtain ⟨⟨m'', r'⟩, hstep, rfl, -⟩ := h
      cases pc with
      | durationCas current => cases a <;> grind [insideStep, Mem.training]
      | _ => grind [insideStep, Mem.training]
  | _ => grind [queryStep, Mem.training, Mem.lock, Mem.unlock]

theorem training_sampleStep {query : Query} {pc : SamplePc} {r : Option SamplePc}
    (h : sampleStep cfg t m query pc = some (m', r)) : m'.training = m.training := by
  cases pc <;> grind [sampleStep, Mem.training]

omit [DecidableEq Client] in
theorem training_publishStep {nextCuts : List ℕ} {pc : PublishPc} {r : Option PublishPc}
    (h : publishStep cfg t m nextCuts pc = some (m', r)) : m'.training = m.training := by
  cases pc <;> grind [publishStep, Mem.training]

theorem training_trainStep {batch : List Query} {pc : TrainPc} {r : Option TrainPc}
    (h : trainStep cfg std t a m batch pc = some (m', r)) : m'.training = m.training := by
  cases pc with
  | observe previousCuts =>
      simp only [trainStep, Option.map_eq_some_iff, Prod.mk.injEq] at h
      obtain ⟨r', -, rfl, -⟩ := h
      rfl
  | publish concurrent nextCuts pc =>
      simp only [trainStep, Option.map_eq_some_iff, Prod.mk.injEq] at h
      obtain ⟨⟨m'', r'⟩, hstep, rfl, -⟩ := h
      exact training_publishStep hstep
  | keepDurationCas current => cases a <;> grind [trainStep, Mem.training]
  | durationCas current => cases a <;> grind [trainStep, Mem.training]
  | _ => grind [trainStep, Mem.training, Mem.lock, Mem.unlock]

/-- A step that keeps `training_enabled_` up, and leads to where it is up if the thread trains. -/
structure ServesOn (m m' : Mem Client G) (l' : Loc) : Prop where
  serves : l'.Serves
  keeps : m.trainingEnabled = true → m'.trainingEnabled = true
  enabled : l'.Trains → m'.trainingEnabled = true
  thread : m'.trainingThread ≠ .none → m'.trainingEnabled = true

omit [DecidableEq Client] in
/-- A step that is not about the background thread. -/
theorem ServesOn.of_training {l' : Loc} (hthread : m.trainingThread ≠ .none → m.trainingEnabled = true)
    (hsame : m'.training = m.training) (hl' : l'.Serves)
    (henabled : l'.Trains → m.trainingEnabled = true) : ServesOn m m' l' := by
  obtain ⟨hflag, hlife⟩ := Prod.mk.inj hsame
  refine ⟨hl', ?_, ?_, ?_⟩
  · intro h
    rw [hflag, h]
  · intro h
    rw [hflag, henabled h]
  · intro h
    rw [hflag]
    exact hthread (hlife ▸ h)

/-- A training that saw `training_enabled_` up goes on to publish under the range mutexes. -/
theorem serves_trainStep {batch : List Query} {pc : TrainPc} {r : Option TrainPc}
    (hl : (Loc.train .trainingLoop batch pc).Serves) (henabled : m.trainingEnabled = true)
    (h : trainStep cfg std t a m batch pc = some (m', r)) :
    (afterTrain .trainingLoop batch r).Serves := by
  cases pc with
  | observe previousCuts =>
      simp only [trainStep, Option.map_eq_some_iff, Prod.mk.injEq] at h
      obtain ⟨r', -, -, rfl⟩ := h
      dsimp only [afterTrain]
      split <;> trivial
  | keepDurationCas current =>
      cases a with
      | elapsed delta spurious =>
          simp only [trainStep] at h
          split at h
          · cases h
            dsimp only [afterTrain, scheduleProbe]
            split <;> trivial
          · cases h; trivial
      | _ => contradiction
  | durationCas current =>
      cases a with
      | elapsed delta spurious =>
          simp only [trainStep] at h
          split at h <;> (cases h; trivial)
      | _ => contradiction
  | copyLock =>
      simp only [trainStep] at h
      split at h
      · cases h; trivial
      · contradiction
  | enabledLoad nextCuts =>
      simp only [trainStep, henabled, if_true] at h
      cases h
      trivial
  | lockAll nextCuts next =>
      simp only [trainStep] at h
      split at h
      · cases h
        dsimp only [afterTrain]
        split <;> trivial
      · contradiction
  | publish concurrent nextCuts pc =>
      simp only [trainStep, Option.map_eq_some_iff, Prod.mk.injEq] at h
      obtain ⟨⟨m'', r'⟩, -, -, rfl⟩ := h
      cases concurrent with
      | false => exact hl.elim
      | true => cases r' <;> trivial
  | unlockAll count =>
      cases h
      dsimp only [afterTrain]
      split <;> trivial
  | _ => cases h; trivial

/-- **Step lemma**: what an idle client may call keeps `training_enabled_` up. -/
theorem serves_advance {l l' : Loc} (hl : l.Serves)
    (henabled : l.Trains → m.trainingEnabled = true)
    (hthread : m.trainingThread ≠ .none → m.trainingEnabled = true)
    (hpermits : permits l a = true) (h : advance cfg std t a m l = some (m', l')) :
    ServesOn m m' l' := by
  cases l with
  | idle =>
      cases t with
      | client c =>
          cases a with
          | call call =>
              cases call with
              | writeQuery left right =>
                  simp only [advance, enter] at h
                  split at h <;> (cases h; exact .of_training hthread rfl trivial False.elim)
              | startRebuilder =>
                  cases h
                  refine .of_training hthread rfl ?_ ?_
                  · split <;> trivial
                  · split <;> exact False.elim
              | countLocksForRange left right =>
                  simp only [advance, enter] at h
                  split at h <;> (cases h; exact .of_training hthread rfl trivial False.elim)
              | partitionCuts => cases h; exact .of_training hthread rfl trivial False.elim
              | _ => contradiction
          | _ => contradiction
      | background =>
          cases a with
          | step =>
              simp only [advance] at h
              split at h
              · next hcreated =>
                  cases h
                  have hup := hthread (by rw [hcreated]; exact Thread.noConfusion)
                  exact ⟨trivial, id, fun _ => hup, fun _ => hup⟩
              · contradiction
          | _ => contradiction
  | query left right pc =>
      simp only [advance, Option.map_eq_some_iff, Prod.mk.injEq] at h
      obtain ⟨⟨m'', r⟩, hstep, rfl, rfl⟩ := h
      refine .of_training hthread (training_queryStep hstep) ?_ ?_
      · cases r <;> trivial
      · cases r <;> exact False.elim
  | sample query pc =>
      simp only [advance, Option.map_eq_some_iff, Prod.mk.injEq] at h
      obtain ⟨⟨m'', r⟩, hstep, rfl, rfl⟩ := h
      refine .of_training hthread (training_sampleStep hstep) ?_ ?_
      · cases r <;> trivial
      · cases r <;> exact False.elim
  | train caller batch pc =>
      have hup := henabled trivial
      simp only [advance, Option.map_eq_some_iff, Prod.mk.injEq] at h
      obtain ⟨⟨m'', r⟩, hstep, rfl, rfl⟩ := h
      cases caller with
      | observeBatch => exact hl.elim
      | trainingLoop =>
          exact .of_training hthread (training_trainStep hstep) (serves_trainStep hl hup hstep)
            fun _ => hup
  | trainer pc =>
      have hup := henabled trivial
      cases pc with
      | exit =>
          cases h
          exact ⟨trivial, id, False.elim, fun _ => hup⟩
      | sleep =>
          refine .of_training hthread ?_ ?_ fun _ => hup
          · cases a <;> grind [advance, trainerStep, Mem.training]
          · cases a <;> grind [advance, trainerStep, Loc.Serves]
      | _ =>
          refine .of_training hthread ?_ ?_ fun _ => hup
          · grind [advance, trainerStep, Mem.training]
          · grind [advance, trainerStep, scheduleProbe, Loc.Serves]
  | start pc =>
      cases pc with
      | enable => cases h; exact ⟨trivial, fun _ => rfl, fun _ => rfl, fun _ => rfl⟩
      | create =>
          have hup := henabled trivial
          simp only [advance, startStep] at h
          split at h
          · cases h; exact ⟨trivial, id, False.elim, fun _ => hup⟩
          · contradiction
      | _ => cases h; exact .of_training hthread rfl trivial False.elim
  | count left right pc =>
      refine .of_training hthread ?_ ?_ ?_
      · cases pc <;> grind [advance, countStep]
      · cases pc <;> grind [advance, countStep, Loc.Serves]
      · cases pc <;> grind [advance, countStep, Loc.Trains]
  | counted locks => cases h; exact .of_training hthread rfl trivial False.elim
  | cutsLock =>
      simp only [advance] at h
      split at h
      · cases h; exact .of_training hthread rfl trivial False.elim
      · contradiction
  | cutsCopy => cases h; exact .of_training hthread rfl trivial False.elim
  | cutsUnlock cuts => cases h; exact .of_training hthread rfl trivial False.elim
  | cuts cuts => cases h; exact .of_training hthread rfl trivial False.elim
  | _ => exact hl.elim

/-! ## in every state such clients reach -/

/-- Nobody trains with `training_enabled_` down. -/
structure Serving (s : State (Tid Client) (Mem Client G) Loc) : Prop where
  serves : ∀ t, (s.loc t).Serves
  enabled : ∀ t, (s.loc t).Trains → s.mem.trainingEnabled = true
  thread : s.mem.trainingThread ≠ .none → s.mem.trainingEnabled = true

/-- A `GeneticLock` whose clients call `WriteQuery`, `StartRebuilder`, `CountLocksForRange` and
`PartitionCuts`. -/
def served {G : Type} (cfg : Config) (std : GeneticPartitioner.StdLib G) (seed : G) (Client : Type)
    [DecidableEq Client] : Program (Tid Client) Act (Mem Client G) Loc :=
  (machine cfg std seed Client).restrict permits

theorem serving_of_reachable (hs : (served cfg std seed Client).Reachable s) : Serving s := by
  refine hs.invariant (I := Serving) ?_ ?_
  · exact ⟨fun _ => trivial, fun _ => False.elim, fun h => absurd rfl h⟩
  · intro s s' _ hserving ⟨t, ht⟩
    obtain ⟨⟨a, ha⟩, hframe⟩ := ht.elim
    obtain ⟨hpermits, hadvance⟩ := Program.advance_of_restrict ha
    have hstep := serves_advance (hserving.serves t) (hserving.enabled t) hserving.thread hpermits
      hadvance
    refine ⟨fun u => ?_, fun u hu => ?_, hstep.thread⟩
    · by_cases hut : u = t
      · rw [hut]
        exact hstep.serves
      · rw [hframe u hut]
        exact hserving.serves u
    · by_cases hut : u = t
      · rw [hut] at hu
        exact hstep.enabled hu
      · rw [hframe u hut] at hu
        exact hstep.keeps (hserving.enabled u hu)

omit [DecidableEq Client] in
/-- No publication is made without the range mutexes. -/
theorem Loc.Serves.opensUnlocked {l : Loc} (h : l.Serves) : l.opensUnlocked = false := by
  cases l with
  | train caller batch pc =>
      cases caller with
      | observeBatch => exact h.elim
      | trainingLoop =>
          cases pc with
          | publish concurrent nextCuts pc =>
              cases concurrent with
              | false => exact h.elim
              | true => rfl
          | _ => rfl
  | _ => rfl

theorem inv_of_served (hs : (served cfg std seed Client).Reachable s) :
    Inv (layout cfg) (abs cfg s) := by
  refine hs.invariant (I := fun s => Inv (layout cfg) (abs cfg s)) ?_ ?_
  · have hinitial : Inv (layout cfg) (abs cfg (machine cfg std seed Client).initial) := inv_initial
    exact hinitial
  · intro s s' hreach hinv ⟨t, ht⟩
    refine inv_step hreach.of_restrict hinv ht.of_restrict fun hopens => ?_
    rw [((serving_of_reachable hreach).serves t).opensUnlocked] at hopens
    contradiction

/-- A thread in the function holds the mutex that the table names for every position of its
range. -/
theorem holds_of_served (hs : (served cfg std seed Client).Reachable s) {range : ℕ × ℕ} {pos : ℕ}
    (ht : (s.loc t).inFunc = some range) (hlo : range.1 ≤ pos) (hhi : pos ≤ range.2) :
    s.mem.locks (s.mem.blockToLock (cfg.positionToBlock pos)) = some t := by
  obtain ⟨firstLock, lastLock, hloc⟩ := Loc.inFunc_eq_some ht
  have hinside : (abs cfg s).loc t = .inside (cfg.positionToBlock range.1)
      (cfg.positionToBlock range.2) firstLock lastLock := by
    simp only [abs, hloc]
    rfl
  exact (inv_of_served hs).holds hinside (cfg.positionToBlock_mono hlo)
    (cfg.positionToBlock_mono hhi)

/-! ## a lock for ranges -/

/-- A query goes on until `func` has returned. -/
theorem asks_queryStep {left right : ℕ} {pc : QueryPc} {r : Option QueryPc}
    (hasks : (Loc.query left right pc).asks = some (left, right))
    (hfunc : (Loc.query left right pc).inFunc = none)
    (h : queryStep cfg t a m left right pc = some (m', r)) :
    (afterQuery left right r).asks = some (left, right) := by
  cases pc with
  | acquire epoch firstLock lastLock index =>
      simp only [queryStep] at h
      split at h
      · cases h
        dsimp only [afterQuery]
        split <;> rfl
      · contradiction
  | inside firstLock lastLock pc =>
      simp only [queryStep, Option.map_eq_some_iff, Prod.mk.injEq] at h
      obtain ⟨⟨m'', r'⟩, hstep, rfl, rfl⟩ := h
      cases r' with
      | some pc' => rfl
      | none =>
          cases pc with
          | func => contradiction
          | durationCas current =>
              cases a with
              | elapsed delta spurious =>
                  simp only [insideStep] at hstep
                  split at hstep <;> cases hstep
              | _ => contradiction
          | _ => cases hstep
  | release => cases hasks
  | pauseLoad => cases h; dsimp only [afterQuery]; split <;> rfl
  | epochLoad => cases h; dsimp only [afterQuery]; split <;> rfl
  | leftLoad => cases h; rfl
  | rightLoad => cases h; dsimp only [afterQuery]; split <;> rfl
  | epochCheck => cases h; dsimp only [afterQuery]; split <;> rfl
  | retry => cases h; dsimp only [afterQuery]; split <;> rfl

/-- A call goes on until its `func` has returned. -/
theorem asks_advance {l l' : Loc} {range : ℕ × ℕ} (h : advance cfg std t a m l = some (m', l'))
    (hfunc : l.inFunc = none) (hasks : l.asks = some range) : l'.asks = some range := by
  obtain ⟨pc, rfl⟩ := Loc.asks_eq_some hasks
  obtain ⟨⟨m'', r⟩, hstep, heq⟩ := Option.map_eq_some_iff.mp h
  cases heq
  exact asks_queryStep hasks hfunc hstep

/-- Once `func` has returned, it is not called again before the thread is idle. -/
theorem asks_eq_none_of_advance {l l' : Loc} (h : advance cfg std t a m l = some (m', l'))
    (hidle : l.isIdle = false) (hasks : l.asks = none) : l'.asks = none := by
  by_contra hne
  obtain ⟨range, hrange⟩ := Option.ne_none_iff_exists'.mp hne
  obtain ⟨pc', rfl⟩ := Loc.asks_eq_some hrange
  rcases query_of_advance h with rfl | ⟨pc, rfl, hstep⟩
  · contradiction
  · cases pc with
    | release firstLock count =>
        simp only [queryStep, Option.some.injEq, Prod.mk.injEq] at hstep
        obtain ⟨-, hnext⟩ := hstep
        split at hnext
        · cases hnext
        · cases hnext; cases hrange
    | _ => cases hasks

/-- A `GeneticLock` as such clients see it. -/
def rangeLock {G : Type} (cfg : Config) (std : GeneticPartitioner.StdLib G) (seed : G)
    (Client : Type) [DecidableEq Client] : RangeLock (Tid Client) Act (Mem Client G) Loc where
  program := served cfg std seed Client
  isIdle := Loc.isIdle
  writeQuery left right := .call (.writeQuery left right)
  inFunc := Loc.inFunc

theorem rangeLock_sound (hsize : cfg.arraySize ≠ 0) :
    (rangeLock cfg std seed Client).Sound (clampRange cfg.arraySize) Loc.asks where
  call {t left right m l m' l'} hidle h := by
    have hloc := Loc.eq_idle hidle
    subst hloc
    obtain ⟨-, hadvance⟩ := Program.advance_of_restrict h
    cases t with
    | background => contradiction
    | client c =>
        change advance cfg std (.client c) (.call (.writeQuery left right)) m .idle =
          some (m', l') at hadvance
        simp only [advance, enter, hsize, if_false] at hadvance
        cases hadvance
        rfl
  keep h := asks_advance (Program.advance_of_restrict h).2
  func := asks_of_inFunc
  exclusive {s t u r r'} hs hne ht hu := by
    have hreach : (served cfg std seed Client).Reachable s := hs
    exact exclusive_of_inv hreach.of_restrict (inv_of_served hreach) t u r r' hne ht hu

end GeneticLock
end DynLocks
