import DynLocks.Lib.EpochTable
import DynLocks.Genetic.Training

/-!
# DynLocks.Genetic.Exclusion

Mutual exclusion of `GeneticLock`.  A query is a reader of the epoch-validated
table of `EpochTable`.  A training that saw `training_enabled_` up publishes
under all range mutexes; one that saw it down takes none of them, and then two
functions may run on one range (`publication_lets_two_in`).

* `advance_move` — every step is a step of the protocol or leaves it alone,
  provided that nobody is inside when a publication opens without the mutexes;
* `exclusive_of_opensApart` — in a run of such steps no two threads are in
  `func` on ranges that meet.
-/

namespace DynLocks
namespace GeneticLock

open Interleaving EpochTable

variable {Client G : Type} (cfg : Config)

/-! ## the machine as a protocol over blocks -/

/-- The locks and blocks of a `GeneticLock`. -/
def layout : Layout := ⟨cfg.kLockCnt, cfg.kBlocks, cfg.kLockCnt_pos⟩

/-- The part of the memory that the protocol is about. -/
def absMem (m : Mem Client G) : EpochTable.Mem (Tid Client) :=
  ⟨m.locks, m.blockToLock, m.partitionEpoch⟩

/-- A query as a reader of the blocks `lo … hi`. -/
def QueryPc.phase (lo hi : ℕ) : QueryPc → Phase
  | .pauseLoad => .out
  | .epochLoad => .out
  | .leftLoad epoch => .readLeft lo hi epoch
  | .rightLoad epoch firstLock => .readRight lo hi epoch firstLock
  | .acquire epoch firstLock lastLock index => .taking lo hi epoch firstLock lastLock index
  | .epochCheck epoch firstLock lastLock => .taking lo hi epoch firstLock lastLock (lastLock + 1)
  | .retry firstLock count => .dropping firstLock count
  | .inside firstLock lastLock _ => .inside lo hi firstLock lastLock
  | .release firstLock count => .dropping firstLock count

/-- `publish_partition`, with or without the range mutexes. -/
def PublishPc.phase (concurrent : Bool) : PublishPc → Phase
  | .epochOpen => if concurrent then .grabbing cfg.kLockCnt else .out
  | _ => .publishing concurrent

/-- A training takes part while it holds range mutexes or publishes. -/
def TrainPc.phase : TrainPc → Phase
  | .lockAll _ next => .grabbing next
  | .publish concurrent _ pc => pc.phase cfg concurrent
  | .unlockAll count => .dropping 0 count
  | _ => .out

/-- Only queries and trainings take part. -/
def Loc.phase : Loc → Phase
  | .query left right pc => pc.phase (cfg.positionToBlock left) (cfg.positionToBlock right)
  | .train _ _ pc => pc.phase cfg
  | _ => .out

/-- A state of the machine as a state of the protocol. -/
def abs (s : State (Tid Client) (Mem Client G) Loc) :
    State (Tid Client) (EpochTable.Mem (Tid Client)) Phase :=
  ⟨absMem s.mem, fun t => (s.loc t).phase cfg⟩

/-- The range of a query is clamped. -/
def Loc.InArray : Loc → Prop
  | .query left right _ => left ≤ right ∧ right < cfg.arraySize
  | _ => True

/-- The clamped range on which a thread runs `func`. -/
def Loc.inFunc : Loc → Option (ℕ × ℕ)
  | .query left right (.inside _ _ .func) => some (left, right)
  | _ => none

/-- The thread is in the locked part of `WriteQuery`, past the re-check of the epoch. -/
def Loc.inside : Loc → Bool
  | .query _ _ (.inside _ _ _) => true
  | _ => false

/-- The training is about to open a publication without the range mutexes. -/
def TrainPc.opensUnlocked : TrainPc → Bool
  | .publish false _ .epochOpen => true
  | _ => false

def Loc.opensUnlocked : Loc → Bool
  | .train _ _ pc => pc.opensUnlocked
  | _ => false

/-- A step from `l` that opens a publication without the range mutexes finds nobody inside. -/
def OpensApart (l : Loc) (loc : Tid Client → Loc) : Prop :=
  l.opensUnlocked = true → ∀ t, (loc t).inside = false

/-- A thread in `func` is in a query of that range. -/
theorem Loc.inFunc_eq_some {l : Loc} {range : ℕ × ℕ} (h : l.inFunc = some range) :
    ∃ firstLock lastLock, l = .query range.1 range.2 (.inside firstLock lastLock .func) := by
  cases l with
  | query left right pc =>
      cases pc with
      | inside firstLock lastLock pc =>
          cases pc with
          | func => cases h; exact ⟨firstLock, lastLock, rfl⟩
          | _ => contradiction
      | _ => contradiction
  | _ => contradiction

theorem Loc.inside_of_phase {l : Loc} (h : (l.phase cfg).Inside) : l.inside = true := by
  cases l with
  | query left right pc => cases pc <;> first | rfl | exact h.elim
  | train caller batch pc =>
      cases pc with
      | publish concurrent nextCuts pc =>
          cases pc <;> first | exact h.elim | (cases concurrent <;> exact h.elim)
      | _ => exact h.elim
  | _ => exact h.elim

theorem Loc.Other.phase {l : Loc} (hl : l.Other) : l.phase cfg = .out := by
  cases l with
  | query => exact hl.elim
  | train => exact hl.elim
  | _ => rfl

theorem Loc.Starting.phase {l : Loc} (hl : l.Starting) : l.phase cfg = .out := by
  cases l with
  | query left right pc =>
      obtain rfl : pc = .pauseLoad := hl
      rfl
  | train caller batch pc => rcases hl with rfl | rfl <;> rfl
  | _ => rfl

/-- A table that is that of a cut vector is good. -/
theorem good_of_refreshed {c : Core G} (h : c.Refreshed cfg) :
    Good (layout cfg) c.blockToLock := by
  intro b b' hle hlt
  have hlt' : b' < cfg.kBlocks := hlt
  rw [h b (by omega), h b' hlt']
  exact ⟨lockOfBlock_mono _ _ hle, lockOfBlock_lt cfg.kLockCnt_pos _ _⟩

/-! ## every step is a step of the protocol -/

section Steps

variable [DecidableEq Client] {std : GeneticPartitioner.StdLib G} {t : Tid Client} {a : Act}
  {m m' : Mem Client G} (quiet : Prop)

omit [DecidableEq Client] in
/-- Under its range locks a query writes to nothing that the protocol is about. -/
theorem absMem_insideStep {pc : InsidePc} {r : Option InsidePc}
    (h : insideStep a m pc = some (m', r)) : absMem m' = absMem m := by
  cases pc with
  | durationCas current => cases a <;> grind [insideStep, absMem]
  | _ => grind [insideStep, absMem]

/-- A step of a query. -/
theorem queryStep_move {left right : ℕ} {pc : QueryPc} {r : Option QueryPc} (hle : left ≤ right)
    (hbounded : pc.Bounded)
    (hfresh : Fresh (layout cfg) (absMem m) (Loc.phase cfg (.query left right pc)))
    (h : queryStep cfg t a m left right pc = some (m', r)) :
    (absMem m' = absMem m ∧
        (afterQuery left right r).phase cfg = Loc.phase cfg (.query left right pc)) ∨
      Move (layout cfg) quiet t (absMem m) (Loc.phase cfg (.query left right pc)) (absMem m')
        ((afterQuery left right r).phase cfg) := by
  have hblocks := cfg.positionToBlock_mono hle
  have hlt : cfg.positionToBlock right < (layout cfg).nBlocks := cfg.positionToBlock_lt right
  cases pc with
  | pauseLoad =>
      cases h
      left
      dsimp only [afterQuery]
      split <;> exact ⟨rfl, rfl⟩
  | epochLoad =>
      cases h
      dsimp only [afterQuery]
      split
      · exact Or.inl ⟨rfl, rfl⟩
      · next heven => exact Or.inr (.start hblocks hlt (not_not.mp heven))
  | leftLoad epoch =>
      cases h
      exact Or.inr .left
  | rightLoad epoch firstLock =>
      cases h
      right
      dsimp only [afterQuery]
      split
      · next hgt => exact .giveUp hgt
      · next hge => exact .right (Nat.not_lt.mp hge)
  | acquire epoch firstLock lastLock index =>
      obtain ⟨-, hindex⟩ := hbounded
      simp only [queryStep] at h
      split at h
      · next hfree =>
          cases h
          right
          dsimp only [afterQuery]
          split
          · next heq => subst heq; exact .take hindex hfree
          · exact .take hindex hfree
      · contradiction
  | epochCheck epoch firstLock lastLock =>
      cases h
      obtain ⟨-, -, heven, -⟩ := hfresh
      right
      dsimp only [afterQuery]
      split
      · next hne => exact .stale (by simp only [absMem]; omega)
      · next heq =>
          obtain rfl : epoch = m.partitionEpoch := by omega
          exact .enter
  | retry firstLock count =>
      cases h
      exact Or.inr (.unlock hfresh (by split <;> rfl))
  | inside firstLock lastLock pc =>
      simp only [queryStep, Option.map_eq_some_iff, Prod.mk.injEq] at h
      obtain ⟨⟨m'', pc'⟩, hstep, rfl, rfl⟩ := h
      dsimp only
      rw [absMem_insideStep hstep]
      cases pc' with
      | some pc' => exact Or.inl ⟨rfl, rfl⟩
      | none => exact Or.inr .leave
  | release firstLock count =>
      cases h
      exact Or.inr (.unlock hfresh (by split <;> rfl))

/-- A step of a publication. -/
theorem publishStep_move {concurrent : Bool} {nextCuts : List ℕ} {pc : PublishPc}
    {r : Option PublishPc} (hat : pc.At cfg m.core concurrent nextCuts)
    (hquiet : (TrainPc.publish concurrent nextCuts pc).opensUnlocked = true → quiet)
    (h : publishStep cfg t m nextCuts pc = some (m', r)) :
    (absMem m' = absMem m ∧
        (afterPublish cfg concurrent nextCuts r).phase cfg = pc.phase cfg concurrent) ∨
      Move (layout cfg) quiet t (absMem m) (pc.phase cfg concurrent) (absMem m')
        ((afterPublish cfg concurrent nextCuts r).phase cfg) := by
  cases pc with
  | epochOpen =>
      cases h
      have hepoch : m.partitionEpoch = 2 * m.trainingCount := hat.epoch
      have heven : (absMem m).epoch % 2 = 0 := by simp only [absMem]; omega
      right
      cases concurrent with
      | true => exact .openAll heven
      | false => exact .openQuiet (hquiet rfl) heven
  | lockCuts =>
      simp only [publishStep] at h
      split at h
      · cases h; exact Or.inl ⟨rfl, rfl⟩
      · contradiction
  | assign => cases h; exact Or.inl ⟨rfl, rfl⟩
  | refresh block lockIndex =>
      cases h
      right
      split <;> exact .write _ _
  | unlockCuts => cases h; exact Or.inl ⟨rfl, rfl⟩
  | epochClose =>
      cases h
      obtain ⟨-, -, htable⟩ := hat
      have hgood := good_of_refreshed cfg htable
      right
      cases concurrent with
      | true => exact .closeAll hgood
      | false => exact .closeQuiet hgood

/-- A step of a training. -/
theorem trainStep_move {caller : Caller} {batch : List Query} {pc : TrainPc} {r : Option TrainPc}
    (hbounded : pc.Bounded cfg) (hat : pc.At cfg m.core)
    (hquiet : pc.opensUnlocked = true → quiet)
    (h : trainStep cfg std t a m batch pc = some (m', r)) :
    (absMem m' = absMem m ∧ (afterTrain caller batch r).phase cfg = pc.phase cfg) ∨
      Move (layout cfg) quiet t (absMem m) (pc.phase cfg) (absMem m')
        ((afterTrain caller batch r).phase cfg) := by
  cases pc with
  | copyLock =>
      simp only [trainStep] at h
      split at h
      · cases h; exact Or.inl ⟨rfl, rfl⟩
      · contradiction
  | observe previousCuts =>
      simp only [trainStep, Option.map_eq_some_iff, Prod.mk.injEq] at h
      obtain ⟨s, -, rfl, rfl⟩ := h
      refine Or.inl ⟨rfl, ?_⟩
      dsimp only [afterTrain]
      split <;> rfl
  | keepDurationCas current =>
      cases a with
      | elapsed delta spurious =>
          simp only [trainStep] at h
          split at h
          · cases h
            refine Or.inl ⟨rfl, ?_⟩
            dsimp only [afterTrain, scheduleProbe]
            split <;> rfl
          · cases h; exact Or.inl ⟨rfl, rfl⟩
      | _ => contradiction
  | durationCas current =>
      cases a with
      | elapsed delta spurious =>
          simp only [trainStep] at h
          split at h
          · cases h; exact Or.inl ⟨rfl, rfl⟩
          · cases h; exact Or.inl ⟨rfl, rfl⟩
      | _ => contradiction
  | enabledLoad nextCuts =>
      cases h
      refine Or.inl ⟨rfl, ?_⟩
      dsimp only [afterTrain]
      split <;> rfl
  | pauseStore nextCuts => cases h; exact Or.inr .startGrab
  | lockAll nextCuts next =>
      simp only [trainStep] at h
      split at h
      · next hfree =>
          cases h
          right
          dsimp only [afterTrain]
          split
          · exact .grab hbounded hfree
          · next hlast =>
              have hnext : next + 1 = cfg.kLockCnt := by
                have : next < cfg.kLockCnt := hbounded
                omega
              show Move _ _ _ _ (.grabbing next) _ (.grabbing cfg.kLockCnt)
              rw [← hnext]
              exact .grab hbounded hfree
      · contradiction
  | publish concurrent nextCuts pc =>
      simp only [trainStep, Option.map_eq_some_iff, Prod.mk.injEq] at h
      obtain ⟨⟨m'', r'⟩, hstep, rfl, rfl⟩ := h
      exact publishStep_move cfg quiet hat hquiet hstep
  | unlockAll count =>
      cases h
      right
      rw [show m.unlock (count - 1) = m.unlock (0 + (count - 1)) by rw [Nat.zero_add]]
      exact .unlock hbounded (by split <;> rfl)
  | unlockTraining => cases h; exact Or.inl ⟨rfl, by cases caller <;> rfl⟩
  | _ => cases h; exact Or.inl ⟨rfl, rfl⟩

/-- The other operations leave the range mutexes alone. -/
theorem locks_of_other {l l' : Loc} (hl : l.Other) (h : advance cfg std t a m l = some (m', l')) :
    m'.locks = m.locks := by
  funext i
  have hnot : ¬l.Holds cfg (.range i) := by
    cases l with
    | query => exact hl.elim
    | train => exact hl.elim
    | _ => exact id
  have hnot' : ¬l'.Holds cfg (.range i) := by
    have hstarting := starting_of_advance cfg hl h
    cases l' with
    | query left right pc =>
        obtain rfl : pc = .pauseLoad := hstarting
        exact id
    | train caller batch pc => rcases hstarting with rfl | rfl <;> exact id
    | _ => exact id
  have hmove := advance_owner cfg (hl.bounded cfg) h (.range i)
  change LockMove t (m.locks i) _ (m'.locks i) _ at hmove
  generalize m.locks i = own at *
  generalize m'.locks i = own' at *
  cases hmove with
  | keep => rfl
  | take htaken => exact absurd htaken hnot'
  | give hheld => exact absurd hheld hnot

/-- **Every step is a step of the protocol or leaves it alone**, if nobody is inside when a
publication opens without the range mutexes. -/
theorem advance_move {l l' : Loc} (hrange : l.InArray cfg) (hbounded : l.Bounded cfg)
    (hat : l.At cfg m.core) (hfresh : Fresh (layout cfg) (absMem m) (l.phase cfg))
    (hquiet : l.opensUnlocked = true → quiet) (h : advance cfg std t a m l = some (m', l')) :
    (absMem m' = absMem m ∧ l'.phase cfg = l.phase cfg) ∨
      Move (layout cfg) quiet t (absMem m) (l.phase cfg) (absMem m') (l'.phase cfg) := by
  cases l with
  | query left right pc =>
      simp only [advance, Option.map_eq_some_iff, Prod.mk.injEq] at h
      obtain ⟨⟨m'', r⟩, hstep, rfl, rfl⟩ := h
      exact queryStep_move cfg quiet hrange.1 hbounded hfresh hstep
  | train caller batch pc =>
      simp only [advance, Option.map_eq_some_iff, Prod.mk.injEq] at h
      obtain ⟨⟨m'', r⟩, hstep, rfl, rfl⟩ := h
      exact trainStep_move cfg quiet hbounded hat hquiet hstep
  | _ =>
      have hcore := core_advance cfg (by exact id) h
      have hlocks := locks_of_other cfg (by trivial) h
      have hphase := (starting_of_advance cfg (by trivial) h).phase cfg
      have htable : m'.blockToLock = m.blockToLock := congrArg Core.blockToLock hcore
      have hepoch : m'.partitionEpoch = m.partitionEpoch := congrArg Core.partitionEpoch hcore
      exact Or.inl ⟨by simp only [absMem, hlocks, htable, hepoch], hphase⟩

end Steps

/-! ## mutual exclusion -/

section Runs

variable {cfg} [DecidableEq Client] {std : GeneticPartitioner.StdLib G} {seed : G}
  {t u : Tid Client} {a : Act} {m m' : Mem Client G} {s s' : State (Tid Client) (Mem Client G) Loc}

omit [DecidableEq Client] in
theorem inArray_enter {c : Call} {l' : Loc} (h : enter cfg m c = some (m', l')) :
    l'.InArray cfg := by
  cases c with
  | writeQuery left right =>
      simp only [enter] at h
      split at h
      · cases h; trivial
      · next hne =>
          cases h
          exact ⟨clampRange_le _ _ _, clampRange_lt (Nat.pos_of_ne_zero hne) _ _⟩
  | countLocksForRange left right =>
      simp only [enter] at h
      split at h <;> (cases h; trivial)
  | observeBatch batch => cases h; split <;> trivial
  | startRebuilder => cases h; split <;> trivial
  | _ => cases h; trivial

/-- A thread comes to a query from `idle` only. -/
theorem idle_of_query {l : Loc} {left right : ℕ} {pc : QueryPc} (hl : l.Other)
    (h : advance cfg std t a m l = some (m', .query left right pc)) : l = .idle := by
  cases l with
  | query => exact hl.elim
  | train => exact hl.elim
  | idle => rfl
  | sample query pc =>
      simp only [advance, Option.map_eq_some_iff, Prod.mk.injEq] at h
      obtain ⟨⟨m'', r⟩, -, -, hr⟩ := h
      cases r <;> contradiction
  | flush pc => cases pc <;> grind [advance, flushStep]
  | trainer pc =>
      cases pc with
      | sleep => cases a <;> grind [advance, trainerStep]
      | _ => grind [advance, trainerStep, scheduleProbe]
  | start pc => cases pc <;> grind [advance, startStep]
  | stop pc => cases pc <;> grind [advance, stopStep]
  | count left right pc => cases pc <;> grind [advance, countStep]
  | _ => grind [advance]

/-- A thread in the loop of `WriteQuery` has just called it, or got there by a step of the loop. -/
theorem query_of_advance {l : Loc} {left right : ℕ} {pc' : QueryPc}
    (h : advance cfg std t a m l = some (m', .query left right pc')) :
    l = .idle ∨
      ∃ pc, l = .query left right pc ∧ queryStep cfg t a m left right pc = some (m', some pc') := by
  cases l with
  | query left' right' pc =>
      simp only [advance, Option.map_eq_some_iff, Prod.mk.injEq] at h
      obtain ⟨⟨m'', r⟩, hstep, rfl, hr⟩ := h
      cases r with
      | some pc'' => cases hr; exact Or.inr ⟨pc, rfl, hstep⟩
      | none => contradiction
  | train caller batch pc =>
      simp only [advance, Option.map_eq_some_iff, Prod.mk.injEq] at h
      obtain ⟨⟨m'', r⟩, -, -, hr⟩ := h
      cases r with
      | some pc'' => contradiction
      | none => cases caller <;> contradiction
  | _ => exact Or.inl (idle_of_query (by trivial) h)

/-- **Run lemma**: the range of a query lies in the array. -/
theorem inArray_of_reachable (hs : (machine cfg std seed Client).Reachable s) (t : Tid Client) :
    (s.loc t).InArray cfg := by
  refine hs.localInvariant (Q := fun _ _ l => l.InArray cfg) (fun _ => trivial) ?_
    (fun _ _ _ _ _ _ _ _ hl _ => hl) t
  intro s t a m' l' _ hl ha
  change advance cfg std t a s.mem (s.loc t) = some (m', l') at ha
  generalize s.loc t = l at *
  cases l' with
  | query left right pc =>
      rcases query_of_advance ha with rfl | ⟨pc', rfl, -⟩
      · cases t with
        | client c =>
            cases a with
            | call call => exact inArray_enter ha
            | _ => contradiction
        | background =>
            cases a with
            | step =>
                simp only [advance] at ha
                split at ha <;> cases ha
            | _ => contradiction
      · exact hl
  | _ => trivial

/-- No two threads are inside `func` on ranges that meet. -/
def Exclusive (s : State (Tid Client) (Mem Client G) Loc) : Prop :=
  ∀ t u range range', t ≠ u → (s.loc t).inFunc = some range → (s.loc u).inFunc = some range' →
    range.2 < range'.1 ∨ range'.2 < range.1

/-- A new lock satisfies the invariant of the protocol. -/
theorem inv_initial : Inv (layout cfg) (abs cfg (machine cfg std seed Client).initial) := by
  apply Init.inv
  have htable : (initMem cfg seed : Mem Client G).core.Refreshed cfg :=
    fun _ hb => refreshTable_apply _ _ _ hb
  exact ⟨fun i => rfl, good_of_refreshed cfg htable, rfl, fun t => rfl⟩

/-- **Step lemma**: a step that opens a publication apart is one of the protocol. -/
theorem inv_step (hs : (machine cfg std seed Client).Reachable s)
    (hinv : Inv (layout cfg) (abs cfg s)) (hstep : (machine cfg std seed Client).StepBy t s s')
    (hapart : OpensApart (s.loc t) s.loc) : Inv (layout cfg) (abs cfg s') := by
  obtain ⟨⟨a, ha⟩, hframe⟩ := hstep.elim
  have hquiet : (s.loc t).opensUnlocked = true → EpochTable.Quiet (abs cfg s) := by
    intro hopens u hu
    have hinside := Loc.inside_of_phase cfg hu
    rw [hapart hopens u] at hinside
    contradiction
  have hmove := advance_move cfg (EpochTable.Quiet (abs cfg s)) (inArray_of_reachable hs t)
    (bounded_of_reachable hs t) ((inStep_of_reachable hs).training t) (hinv.fresh t) hquiet ha
  have habs : abs cfg s' = abs cfg s ∨ EpochTable.Step (layout cfg) (abs cfg s) (abs cfg s') :=
    step_of_move hmove hframe
  rcases habs with heq | hstep
  · rw [heq]
    exact hinv
  · exact hinv.step hstep

/-- **Run lemma**: the invariant of the protocol in a run whose steps open publications apart. -/
theorem inv_of_run (r : Program.Run (machine cfg std seed Client))
    (hapart : ∀ n < r.length, OpensApart ((r.states n).loc (r.who n)) (r.states n).loc) {n : ℕ}
    (hn : n ≤ r.length) : Inv (layout cfg) (abs cfg (r.states n)) := by
  induction n with
  | zero =>
      rw [r.start]
      exact inv_initial
  | succ n ih =>
      exact inv_step (r.reachable (by omega)) (ih (by omega)) (r.step n (by omega))
        (hapart n (by omega))

/-- A position that two ranges share lies in a block that both threads would hold. -/
theorem exclusive_of_inv (hs : (machine cfg std seed Client).Reachable s)
    (hinv : Inv (layout cfg) (abs cfg s)) : Exclusive s := by
  have hphase : ∀ {t range}, (s.loc t).inFunc = some range → range.1 ≤ range.2 ∧
      ∃ first last, (abs cfg s).loc t =
        .inside (cfg.positionToBlock range.1) (cfg.positionToBlock range.2) first last := by
    intro t range ht
    obtain ⟨first, last, hloc⟩ := Loc.inFunc_eq_some ht
    have hrange := inArray_of_reachable hs t
    rw [hloc] at hrange
    exact ⟨hrange.1, first, last, by simp only [abs, hloc]; rfl⟩
  intro t u range range' hne ht hu
  obtain ⟨hle, first, last, ht'⟩ := hphase ht
  obtain ⟨hle', first', last', hu'⟩ := hphase hu
  exact hinv.disjoint cfg.positionToBlock_mono ht' hu' hle hle' hne

/-- **Mutual exclusion**: in a run in which nobody is inside whenever a publication opens without
the range mutexes, no two threads are in `func` on ranges that meet. -/
theorem exclusive_of_opensApart (r : Program.Run (machine cfg std seed Client))
    (hapart : ∀ n < r.length, OpensApart ((r.states n).loc (r.who n)) (r.states n).loc) :
    ∀ n ≤ r.length, Exclusive (r.states n) := by
  intro n hn
  have hinv : Inv (layout cfg) (abs cfg (r.states n)) := inv_of_run r hapart hn
  exact exclusive_of_inv (r.reachable hn) hinv

end Runs

/-! ## three clients -/

/-- Client `c` calls `WriteQuery(pos, pos)` and goes as far as `func`. -/
def intoFunc (c : Fin 3) (pos : ℕ) : List (Tid (Fin 3) × Act) :=
  (.client c, .call (.writeQuery pos pos)) :: List.replicate 7 (.client c, .step) ++
    [(.client c, .elapsed 0 false), (.client c, .step)]

/-- The small lock with three clients. -/
abbrev threeClients := machine smallLock GeneticPartitioner.lowestDraws () (Fin 3)

/-- Client 0 moves the cut while nobody trains in the background; then clients 1 and 2 query the
two sides of it. -/
def trainedBefore : List (Tid (Fin 3) × Act) :=
  observing 0 rightBatch ++ intoFunc 1 1 ++ intoFunc 2 2

/-- Client 0 starts the background thread.  Client 1 is in `func` when client 0 observes a batch,
client 2 calls `StopRebuilder` before the training looks at `training_enabled_`, and client 0 calls
`WriteQuery` after it. -/
def stoppedBetween : List (Tid (Fin 3) × Act) :=
  (.client 0, .call .startRebuilder) :: List.replicate 4 (.client 0, .step) ++ intoFunc 1 1 ++
    (observing 0 rightBatch).take 6 ++ [(.client 2, .call .stopRebuilder), (.client 2, .step)] ++
    (observing 0 rightBatch).drop 6 ++ intoFunc 0 1

theorem isSome_exec_trainedBefore :
    (threeClients.exec trainedBefore threeClients.initial).isSome := by
  decide +kernel

theorem isSome_exec_stoppedBetween :
    (threeClients.exec stoppedBetween threeClients.initial).isSome := by
  decide +kernel

def trainedBeforeRun : Program.Run threeClients :=
  .ofSchedule _ trainedBefore .background isSome_exec_trainedBefore

def stoppedBetweenRun : Program.Run threeClients :=
  .ofSchedule _ stoppedBetween .background isSome_exec_stoppedBetween

instance (l : Loc) (loc : Tid (Fin 3) → Loc) : Decidable (OpensApart l loc) :=
  inferInstanceAs (Decidable (_ → _))

/-- Two clients are in `func` on the two sides of a cut that was published without the mutexes. -/
theorem exclusive_trainedBefore :
    ((trainedBeforeRun.states 40).loc (.client 1)).inFunc = some (1, 1) ∧
      ((trainedBeforeRun.states 40).loc (.client 2)).inFunc = some (2, 2) ∧
      Exclusive (trainedBeforeRun.states 40) := by
  have hapart : ∀ n < trainedBeforeRun.length,
      OpensApart ((trainedBeforeRun.states n).loc (trainedBeforeRun.who n))
        (trainedBeforeRun.states n).loc := by
    decide +kernel
  exact ⟨by decide +kernel, by decide +kernel,
    exclusive_of_opensApart trainedBeforeRun hapart 40 (by decide)⟩

/-- Two functions run on one position. -/
theorem inFunc_stoppedBetweenRun :
    ((stoppedBetweenRun.states 47).loc (.client 0)).inFunc = some (1, 1) ∧
      ((stoppedBetweenRun.states 47).loc (.client 1)).inFunc = some (1, 1) := by
  decide +kernel

/-- Two clients are in `func` on one position: the training published between their calls, without
the mutexes, because `StopRebuilder` had taken `training_enabled_` back. -/
theorem publication_lets_two_in : ∃ s, threeClients.Reachable s ∧ ¬Exclusive s := by
  obtain ⟨hzero, hone⟩ := inFunc_stoppedBetweenRun
  refine ⟨_, stoppedBetweenRun.reachable (show 47 ≤ stoppedBetweenRun.length by decide), ?_⟩
  intro h
  have hdisjoint := h (.client 0) (.client 1) _ _ (by decide) hzero hone
  omega

end GeneticLock
end DynLocks
