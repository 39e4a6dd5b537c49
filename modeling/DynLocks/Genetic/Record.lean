import DynLocks.Genetic.Hits
import DynLocks.Genetic.Machine
import DynLocks.Genetic.Validity

/-!
# DynLocks.Genetic.Record

The record of a sampled `WriteQuery` against the range whose mutexes it held.

* `sampled_spec` — the record is the clamped range, with both ends cut to 32 bits, and `func` has
  run on that range before;
* `sampled_of_one` — a lock with one mutex samples any call;
* `namesBlocks_iff` — every record of every lock for arrays of a given size names the blocks
  that were locked exactly if the size is at most `2 ^ 32`.
-/

namespace DynLocks
namespace GeneticLock

open Interleaving

/-! ## what a record is to be -/

/-- `WriteQuery` has been entered and has not returned. -/
def Loc.Writing : Loc → Prop
  | .query _ _ _ => True
  | .sample _ _ => True
  | _ => False

section Runs

variable {Client G : Type} [DecidableEq Client] (cfg : Config)
  {std : GeneticPartitioner.StdLib G} {seed : G}

/-- From step `a` to state `b` thread `t` is in one call of `WriteQuery`, and is about to enqueue
`query` for it. -/
abbrev Sampled (r : (machine cfg std seed Client).Run) (t : Tid Client) (a b left right : ℕ)
    (query : Query) : Prop :=
  r.Call t a b .idle (fun m => enter cfg m (.writeQuery left right)) Loc.Writing
    (.sample query .enqueue)

/-- In between, `func` has run with the mutexes of the clamped range held. -/
def HeldRange (r : (machine cfg std seed Client).Run) (t : Tid Client) (a b lo hi : ℕ) : Prop :=
  ∃ n firstLock lastLock, a < n ∧ n < b ∧
    (r.states n).loc t = .query lo hi (.inside firstLock lastLock .func)

/-- The record names the blocks of the range. -/
structure NamesBlocks (query : Query) (lo hi : ℕ) : Prop where
  ordered : query.left ≤ query.right
  left : cfg.positionToBlock query.left.toNat = cfg.positionToBlock lo
  right : cfg.positionToBlock query.right.toNat = cfg.positionToBlock hi

/-- What the histograms of `BuildBlockProfile`, `HasEnoughSkew` and `Evaluate` run over. -/
theorem NamesBlocks.blocksOf {cfg : Config} {query : Query} {lo hi : ℕ}
    (h : NamesBlocks cfg query lo hi) :
    cfg.blocksOf query = List.range' (cfg.positionToBlock lo)
      (cfg.positionToBlock hi + 1 - cfg.positionToBlock lo) := by
  unfold GeneticPartitioner.Config.blocksOf
  rw [h.left, h.right]

/-! ## what a record is -/

variable {cfg}

/-- The mutexes are given back after `func`. -/
theorem pc_of_queryStep {t : Tid Client} {a : Act} {m m' : Mem Client G} {left right : ℕ}
    {pc : QueryPc} {r : Option QueryPc}
    (h : queryStep cfg t a m left right pc = some (m', r))
    (hr : ∀ pc', r = some pc' → ∃ firstLock count, pc' = .release firstLock count) :
    (∃ firstLock lastLock, pc = .inside firstLock lastLock .func) ∨
      ∃ firstLock count, pc = .release firstLock count := by
  cases pc with
  | inside firstLock lastLock pc =>
      simp only [queryStep, Option.map_eq_some_iff, Prod.mk.injEq] at h
      obtain ⟨⟨m'', r'⟩, hinside, rfl, rfl⟩ := h
      cases r' with
      | some pc' =>
          obtain ⟨_, _, heq⟩ := hr _ rfl
          cases heq
      | none =>
          cases pc with
          | func => exact Or.inl ⟨_, _, rfl⟩
          | durationCas current =>
              cases a with
              | elapsed delta spurious =>
                  simp only [insideStep] at hinside
                  split at hinside <;> cases hinside
              | _ => contradiction
          | _ => cases hinside
  | release firstLock count => exact Or.inr ⟨_, _, rfl⟩
  | acquire epoch firstLock lastLock index =>
      simp only [queryStep] at h
      split at h
      · cases h
        obtain ⟨_, _, heq⟩ := hr _ rfl
        split at heq <;> cases heq
      · contradiction
  | _ =>
      cases h
      obtain ⟨_, _, heq⟩ := hr _ rfl
      first
        | cases heq
        | split at heq <;> cases heq

/-- Where the call stands: before `func` has run on the range, or after it. -/
def Along (r : (machine cfg std seed Client).Run) (t : Tid Client) (a lo hi n : ℕ) : Prop :=
  (∃ pc, (r.states n).loc t = .query lo hi pc ∧
    ((∃ firstLock count, pc = .release firstLock count) → HeldRange cfg r t a n lo hi)) ∨
  ∃ pc, (r.states n).loc t = .sample (sampleOf lo hi) pc ∧ HeldRange cfg r t a n lo hi

theorem HeldRange.mono {r : (machine cfg std seed Client).Run}
    {t : Tid Client} {a n n' lo hi : ℕ} (h : HeldRange cfg r t a n lo hi) (hle : n ≤ n') :
    HeldRange cfg r t a n' lo hi := by
  obtain ⟨k, firstLock, lastLock, hak, hkn, hloc⟩ := h
  exact ⟨k, firstLock, lastLock, hak, hkn.trans_le hle, hloc⟩

/-- A step takes the call on, unless it ends it. -/
theorem Along.step {r : (machine cfg std seed Client).Run} {t : Tid Client} {a lo hi n : ℕ}
    (h : Along r t a lo hi n) (han : a < n) (hn : n < r.length)
    (hwriting : ((r.states (n + 1)).loc t).Writing) : Along r t a lo hi (n + 1) := by
  by_cases hsame : (r.states (n + 1)).loc t = (r.states n).loc t
  · unfold Along
    rw [hsame]
    rcases h with ⟨pc, hloc, hheld⟩ | ⟨pc, hloc, hheld⟩
    · exact Or.inl ⟨pc, hloc, fun hpc => (hheld hpc).mono n.le_succ⟩
    · exact Or.inr ⟨pc, hloc, hheld.mono n.le_succ⟩
  · obtain ⟨⟨act, hact⟩, -⟩ := (r.stepBy_of_ne hn hsame).elim
    rcases h with ⟨pc, hloc, hheld⟩ | ⟨pc, hloc, hheld⟩
    · rw [hloc] at hact
      simp only [machine, advance, Option.map_eq_some_iff, Prod.mk.injEq] at hact
      obtain ⟨⟨m', next⟩, hstep, -, hnext⟩ := hact
      -- the last step before the mutexes are given back is that of `func`
      have hrun : (∀ pc', next = some pc' → ∃ firstLock count, pc' = .release firstLock count) →
          HeldRange cfg r t a (n + 1) lo hi := by
        intro hlast
        rcases pc_of_queryStep hstep hlast with ⟨firstLock, lastLock, rfl⟩ | hrelease
        · exact ⟨n, firstLock, lastLock, han, n.lt_succ_self, hloc⟩
        · exact (hheld hrelease).mono n.le_succ
      cases next with
      | some pc' =>
          refine Or.inl ⟨pc', hnext.symm, fun hrelease => hrun fun pc'' heq => ?_⟩
          cases heq
          exact hrelease
      | none => exact Or.inr ⟨.enabledLoad, hnext.symm, hrun (by simp)⟩
    · rw [hloc] at hact
      simp only [machine, advance, Option.map_eq_some_iff, Prod.mk.injEq] at hact
      obtain ⟨⟨m', next⟩, -, -, hnext⟩ := hact
      cases next with
      | some pc' => exact Or.inr ⟨pc', hnext.symm, hheld.mono n.le_succ⟩
      | none =>
          rw [← hnext] at hwriting
          exact hwriting.elim

/-- The record is that of the clamped range, and `func` has run on it. -/
theorem sampled_spec {r : (machine cfg std seed Client).Run} {t : Tid Client}
    {a b left right : ℕ} {query : Query} (h : Sampled cfg r t a b left right query) :
    let range := clampRange cfg.arraySize left right
    0 < cfg.arraySize ∧ query = sampleOf range.1 range.2 ∧
      HeldRange cfg r t a b range.1 range.2 := by
  intro range
  have hbefore := h.before
  have hlength := h.length
  have hlast : b ≠ a + 1 ∧ cfg.arraySize ≠ 0 ∧
      (r.states (a + 1)).loc t = .query range.1 range.2 .pauseLoad := by
    have henters := h.enters
    simp only [enter] at henters
    split at henters
    · -- an empty array is left at once
      simp only [Option.some.injEq, Prod.mk.injEq] at henters
      rcases Nat.lt_or_eq_of_le (Nat.succ_le_of_lt hbefore) with hlt | heq
      · have hinside := h.inside (a + 1) (Nat.lt_succ_self a) hlt
        rw [← henters.2] at hinside
        exact hinside.elim
      · have hreturns := h.returns
        rw [← heq, ← henters.2] at hreturns
        cases hreturns
    · next hne =>
        simp only [Option.some.injEq, Prod.mk.injEq] at henters
        refine ⟨?_, hne, henters.2.symm⟩
        rintro rfl
        have hreturns := h.returns
        rw [← henters.2] at hreturns
        cases hreturns
  obtain ⟨hb, hne, hstart⟩ := hlast
  have halong : ∀ n, a < n → n ≤ b → Along r t a range.1 range.2 n := by
    intro n han
    induction n, han using Nat.le_induction with
    | base =>
        intro _
        refine Or.inl ⟨.pauseLoad, hstart, ?_⟩
        rintro ⟨_, _, hpc⟩
        cases hpc
    | succ n han ih =>
        intro hnb
        refine (ih (by omega)).step han (by omega) ?_
        rcases Nat.lt_or_eq_of_le hnb with hlt | rfl
        · exact h.inside _ (by omega) hlt
        · rw [h.returns]
          trivial
  have hend := halong b hbefore le_rfl
  rcases hend with ⟨pc, hloc, -⟩ | ⟨pc, hloc, hheld⟩
  · rw [h.returns] at hloc
    cases hloc
  · rw [h.returns] at hloc
    cases hloc
    exact ⟨Nat.pos_of_ne_zero hne, rfl, hheld⟩

end Runs

/-! ## a call that is sampled -/

section Alone

variable {Client G : Type} [DecidableEq Client] {cfg : Config} {std : GeneticPartitioner.StdLib G}
  {seed : G}

theorem reachable_enabled {s : State (Tid Client) (Mem Client G) Loc} {c : Client}
    (hs : (machine cfg std seed Client).Reachable s) (hidle : s.loc (.client c) = .idle) :
    (machine cfg std seed Client).Reachable
      ⟨{ s.mem with trainingEnabled := true }, Function.update s.loc (.client c) .idle⟩ := by
  have hexec : (machine cfg std seed Client).exec
      [(.client c, .call (.setTrainingEnabled true)), (.client c, .step)] s =
        some ⟨{ s.mem with trainingEnabled := true }, Function.update s.loc (.client c) .idle⟩ := by
    rw [Program.exec_cons hidle rfl, Program.exec_cons_update _ rfl]
    rfl
  exact Program.reachable_exec hs hexec

/-- Thread `t` gets from one memory and program counter of `WriteQuery` to another alone. -/
abbrev WritesAlone (cfg : Config) (std : GeneticPartitioner.StdLib G) (seed : G) (t : Tid Client) :
    Mem Client G × Loc → Mem Client G × Loc → Prop :=
  Relation.ReflTransGen fun x y => Loc.Writing x.2 ∧
    ∃ a, (machine cfg std seed Client).advance t a x.1 x.2 = some y

/-- A query on one free mutex goes through alone. -/
theorem alone_query {m : Mem Client G} {left right lock : ℕ} (t : Tid Client)
    (hpause : m.pauseQueries = false) (hepoch : m.partitionEpoch % 2 = 0)
    (hleft : m.blockToLock (cfg.positionToBlock left) = lock)
    (hright : m.blockToLock (cfg.positionToBlock right) = lock) (hfree : m.locks lock = none) :
    WritesAlone cfg std seed t (m, .query left right .pauseLoad)
      ({ m with operationCount := m.operationCount + 1 },
        .sample (sampleOf left right) .enabledLoad) := by
  have hpauseLoad : (machine cfg std seed Client).advance t .step m (.query left right .pauseLoad) =
      some (m, .query left right .epochLoad) := by
    simp [machine, advance, queryStep, afterQuery, hpause]
  have hepochLoad : (machine cfg std seed Client).advance t .step m (.query left right .epochLoad) =
      some (m, .query left right (.leftLoad m.partitionEpoch)) := by
    simp [machine, advance, queryStep, afterQuery, hepoch]
  have hleftLoad : (machine cfg std seed Client).advance t .step m
      (.query left right (.leftLoad m.partitionEpoch)) =
      some (m, .query left right (.rightLoad m.partitionEpoch lock)) := by
    simp [machine, advance, queryStep, afterQuery, hleft]
  have hrightLoad : (machine cfg std seed Client).advance t .step m
      (.query left right (.rightLoad m.partitionEpoch lock)) =
      some (m, .query left right (.acquire m.partitionEpoch lock lock lock)) := by
    simp [machine, advance, queryStep, afterQuery, hright]
  have hacquire : (machine cfg std seed Client).advance t .step m
      (.query left right (.acquire m.partitionEpoch lock lock lock)) =
      some (m.lock lock t, .query left right (.epochCheck m.partitionEpoch lock lock)) := by
    simp [machine, advance, queryStep, afterQuery, hfree]
  have hcheck : (machine cfg std seed Client).advance t .step (m.lock lock t)
      (.query left right (.epochCheck m.partitionEpoch lock lock)) =
      some (m.lock lock t, .query left right (.inside lock lock .durationLoad)) := by
    simp [machine, advance, queryStep, afterQuery, Mem.lock, hepoch]
  have hduration : (machine cfg std seed Client).advance t (.elapsed 0 false) (m.lock lock t)
      (.query left right (.inside lock lock (.durationCas (m.lock lock t).totalLockTime))) =
      some (m.lock lock t, .query left right (.inside lock lock .countOperation)) := by
    simp [machine, advance, queryStep, afterQuery, afterInside, insideStep]
  have hrelease : (machine cfg std seed Client).advance t .step
      { m.lock lock t with operationCount := m.operationCount + 1 }
      (.query left right (.release lock (lock + 1 - lock))) =
      some ({ m with operationCount := m.operationCount + 1 },
        .sample (sampleOf left right) .enabledLoad) := by
    have hunlock : Function.update (Function.update m.locks lock (some t)) lock none = m.locks := by
      rw [Function.update_idem, ← hfree, Function.update_eq_self]
    simp [machine, advance, queryStep, afterQuery, Mem.lock, Mem.unlock, hunlock]
  exact .head ⟨trivial, _, hpauseLoad⟩ (.head ⟨trivial, _, hepochLoad⟩ (.head
    ⟨trivial, _, hleftLoad⟩ (.head ⟨trivial, _, hrightLoad⟩ (.head ⟨trivial, _, hacquire⟩ (.head
    ⟨trivial, _, hcheck⟩ (.head ⟨trivial, .step, rfl⟩ (.head ⟨trivial, _, hduration⟩ (.head
    ⟨trivial, .step, rfl⟩ (.head ⟨trivial, .step, rfl⟩ (.single ⟨trivial, _, hrelease⟩))))))))))

/-- Where every operation is a sample, the one after it is enqueued. -/
theorem alone_sample {m : Mem Client G} {query : Query} (t : Tid Client)
    (henabled : m.trainingEnabled = true)
    (hprobe : ¬ m.operationCount < m.nextTrainingProbeOperation) (hrate : cfg.sampleRate ≤ 1) :
    WritesAlone cfg std seed t (m, .sample query .enabledLoad) (m, .sample query .enqueue) := by
  have henabledLoad : (machine cfg std seed Client).advance t .step m
      (.sample query .enabledLoad) = some (m, .sample query .countLoad) := by
    simp [machine, advance, sampleStep, afterSample, henabled]
  have hprobeLoad : (machine cfg std seed Client).advance t .step m
      (.sample query (.probeLoad m.operationCount)) = some (m, .sample query .enqueue) := by
    simp [machine, advance, sampleStep, afterSample, hprobe, sampleCall, hrate]
  exact .head ⟨trivial, _, henabledLoad⟩
    (.head ⟨trivial, .step, rfl⟩ (.single ⟨trivial, _, hprobeLoad⟩))

/-- The memory after `SetTrainingEnabled(true)`. -/
def enabledMem (cfg : Config) (seed : G) : Mem Client G :=
  { initMem cfg seed with trainingEnabled := true }

omit [DecidableEq Client] in
theorem blockToLock_of_one (hk : cfg.kLockCnt = 1) (pos : ℕ) :
    (enabledMem cfg seed : Mem Client G).blockToLock (cfg.positionToBlock pos) = 0 := by
  have hlock := lockOfBlock_lt cfg.kLockCnt_pos cfg.initState.current.cuts
    (cfg.positionToBlock pos)
  have htable : (enabledMem cfg seed : Mem Client G).blockToLock (cfg.positionToBlock pos) =
      lockOfBlock cfg.kLockCnt cfg.initState.current.cuts (cfg.positionToBlock pos) :=
    refreshTable_apply _ _ _ (cfg.positionToBlock_lt pos)
  omega

/-- After `SetTrainingEnabled(true)` a lock of one mutex that takes every operation as a sample
takes the first. -/
theorem sampled_of_one (std : GeneticPartitioner.StdLib G) (seed : G) (hk : cfg.kLockCnt = 1)
    (hrate : cfg.sampleRate ≤ 1) {left right : ℕ} (c : Client) (hle : left ≤ right)
    (hlt : right < cfg.arraySize) :
    ∃ (r : (machine cfg std seed Client).Run) (a : ℕ),
      Sampled cfg r (.client c) a r.length left right (sampleOf left right) := by
  have hreach : (machine cfg std seed Client).Reachable ⟨enabledMem cfg seed,
      Function.update (machine cfg std seed Client).initial.loc (.client c) .idle⟩ :=
    reachable_enabled .init rfl
  have henter : enter cfg (enabledMem cfg seed : Mem Client G) (.writeQuery left right) =
      some (enabledMem cfg seed, .query left right .pauseLoad) := by
    rw [enter, if_neg (by omega), clampRange_eq_self hle hlt]
  have hquery : WritesAlone cfg std seed (.client c)
      (enabledMem cfg seed, .query left right .pauseLoad)
      ({ enabledMem cfg seed with operationCount := 1 },
        .sample (sampleOf left right) .enabledLoad) :=
    alone_query _ rfl rfl (blockToLock_of_one hk left) (blockToLock_of_one hk right) rfl
  have hsample : WritesAlone cfg std seed (.client c)
      ({ enabledMem cfg seed with operationCount := 1 },
        .sample (sampleOf left right) .enabledLoad)
      ({ enabledMem cfg seed with operationCount := 1 }, .sample (sampleOf left right) .enqueue) :=
    alone_sample _ rfl (by simp [enabledMem, initMem]) hrate
  have hadvance : (machine cfg std seed Client).advance (.client c)
      (.call (.writeQuery left right)) (enabledMem cfg seed) .idle =
        some (enabledMem cfg seed, .query left right .pauseLoad) :=
    henter
  exact hreach.exists_call (Function.update_self _ _ _) henter hadvance (hquery.trans hsample)

end Alone

/-! ## 32 bits -/

theorem one_lt_limit : 1 + 1 < GeneticPartitioner.vectorLimit :=
  Nat.lt_trans (Nat.lt_succ_self 2) GeneticPartitioner.two_lt_limit

/-- One mutex, and every operation is a sample. -/
def loneLock (arraySize : ℕ) : Config where
  kLockCnt := 1
  arraySize := arraySize
  trainingSampleRate := 1
  kLockCnt_pos := Nat.one_pos
  kLockCnt_lt := one_lt_limit
  kBlocks_pos := kBlocks_default_pos
  kBlocks_lt := kBlocks_default_lt

/-- **Every record of `GeneticLock` names the blocks that were locked exactly for arrays of at most
`2 ^ 32` positions.**  Over every lock for such an array, every interleaving and every sampled call:
`func` ran with the mutexes of the clamped range held, and the record is ordered and has its ends
in the blocks of that range. -/
theorem namesBlocks_iff (arraySize : ℕ) :
    (∀ (cfg : Config), cfg.arraySize = arraySize →
      ∀ (Client G : Type) [DecidableEq Client] (std : GeneticPartitioner.StdLib G) (seed : G)
        (r : (machine cfg std seed Client).Run) (t : Tid Client) (a b left right : ℕ)
        (query : Query), Sampled cfg r t a b left right query →
        HeldRange cfg r t a b (clampRange arraySize left right).1 (clampRange arraySize left right).2 ∧
          NamesBlocks cfg query (clampRange arraySize left right).1
            (clampRange arraySize left right).2) ↔
    arraySize ≤ 2 ^ 32 := by
  constructor
  · intro h
    by_contra hlarge
    have hlt : 2 ^ 32 < (loneLock arraySize).arraySize := Nat.lt_of_not_le hlarge
    obtain ⟨r, a, hsampled⟩ := sampled_of_one GeneticPartitioner.lowestDraws () rfl
      (le_of_eq (max_self 1)) () (show 2 ^ 32 - 1 ≤ 2 ^ 32 by omega) hlt
    have hordered := (h (loneLock arraySize) rfl Unit Unit GeneticPartitioner.lowestDraws () r _ _ _
      _ _ _ hsampled).2.ordered
    exact absurd hordered (by decide)
  · rintro hsmall cfg rfl Client G _ std seed r t a b left right query hsampled
    obtain ⟨hpos, rfl, hheld⟩ := sampled_spec hsampled
    have hle := clampRange_le cfg.arraySize left right
    have hlt := clampRange_lt hpos left right
    refine ⟨hheld, ?_⟩
    have hleft : (sampleOf (clampRange cfg.arraySize left right).1
        (clampRange cfg.arraySize left right).2).left.toNat =
        (clampRange cfg.arraySize left right).1 := UInt32.toNat_ofNat_of_lt' (by
      rw [show UInt32.size = 2 ^ 32 from rfl]
      omega)
    have hright : (sampleOf (clampRange cfg.arraySize left right).1
        (clampRange cfg.arraySize left right).2).right.toNat =
        (clampRange cfg.arraySize left right).2 := UInt32.toNat_ofNat_of_lt' (by
      rw [show UInt32.size = 2 ^ 32 from rfl]
      omega)
    refine ⟨UInt32.le_iff_toNat_le.mpr ?_, ?_, ?_⟩
    · rwa [hleft, hright]
    · rw [hleft]
    · rw [hright]

/-- One position more: the record of the range `[2 ^ 32 - 1, 2 ^ 32]` is `[2 ^ 32 - 1, 0]`, which
the histograms take for no block at all. -/
theorem record_wraps :
    ∃ (r : (machine (loneLock (2 ^ 32 + 1)) GeneticPartitioner.lowestDraws () Unit).Run) (a : ℕ)
      (query : Query),
      Sampled (loneLock (2 ^ 32 + 1)) r (.client ()) a r.length (2 ^ 32 - 1) (2 ^ 32) query ∧
      query.left = 4294967295 ∧ query.right = 0 ∧
      ¬ NamesBlocks (loneLock (2 ^ 32 + 1)) query (2 ^ 32 - 1) (2 ^ 32) := by
  have hlt : 2 ^ 32 < (loneLock (2 ^ 32 + 1)).arraySize := Nat.lt_succ_self _
  obtain ⟨r, a, hsampled⟩ := sampled_of_one GeneticPartitioner.lowestDraws () rfl
    (le_of_eq (max_self 1)) () (show 2 ^ 32 - 1 ≤ 2 ^ 32 by omega) hlt
  exact ⟨r, a, _, hsampled, by decide, by decide, fun h => absurd h.ordered (by decide)⟩

end GeneticLock
end DynLocks
