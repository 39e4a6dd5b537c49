import DynLocks.Lib.Workload
import DynLocks.Dynamic.RangeLock

/-!
# DynLocks.Dynamic.Workload

Threads that update an array inside `WriteQuery` of a `DynamicLock`: the lock
runs each `func` on the clamped range of its call and never two at once on ranges
that meet, so no update is lost (`sound`).
-/

namespace DynLocks
namespace DynamicLock

open Interleaving

variable {Client : Type} (cfg : Config)

/-! ## calls and functions -/

/-- A client calls `WriteQuery` with the arguments of its next query, and nothing else. -/
def permits {Q : Type} (args : Q → ℕ × ℕ) : Tid Client → List Q → Loc → Act → Bool
  | .client _, q :: _, .idle, .call (.writeQuery left right) => (left, right) = args q
  | .client _, _, .idle, _ => false
  | _, _, _, _ => true

/-- Inside the closed range. -/
def InRange (range : ℕ × ℕ) (pos : ℕ) : Prop := range.1 ≤ pos ∧ pos ≤ range.2

/-- Threads that work through their queries on an array. -/
def workload {Q : Type} (data : ℕ → ℤ) (queries : Tid Client → List Q) (args : Q → ℕ × ℕ)
    (body : Q → ℕ × ℕ → List (ℕ × ℤ)) : Workload (Tid Client) Act Loc Q (ℕ × ℕ) where
  data := data
  queries := queries
  permits := permits args
  inFunc := Loc.inFunc
  body := body

variable {cfg} [DecidableEq Client] {t u : Tid Client} {a : Act} {m m' : Mem Client}

/-- A thread in `WriteQuery` has just called it, or got there by a step of the query. -/
theorem query_of_advance {l : Loc} {left right : ℕ} {pc' : QueryPc}
    (h : advance cfg t a m l = some (m', .query left right pc')) :
    (∃ c left' right', t = .client c ∧ l = .idle ∧ a = .call (.writeQuery left' right') ∧
        (left, right) = clampRange cfg.arraySize left' right') ∨
      ∃ pc, l = .query left right pc ∧
        queryStep cfg t a m left right pc = some (m', some pc') := by
  cases l with
  | idle =>
      cases t with
      | client c =>
          cases a with
          | call call =>
              cases call with
              | writeQuery left' right' =>
                  simp only [advance, enter] at h
                  split at h
                  · cases h
                  · cases h; exact Or.inl ⟨c, left', right', rfl, rfl, rfl, rfl⟩
              | startRebuilder interval changeThreshold =>
                  simp only [advance, enter] at h
                  split at h <;> cases h
              | countLocksForRange left' right' =>
                  simp only [advance, enter] at h
                  split at h <;> cases h
              | _ => cases h
          | _ => contradiction
      | background =>
          cases a with
          | step =>
              simp only [advance] at h
              split at h <;> cases h
          | _ => contradiction
  | query left' right' pc =>
      simp only [advance, Option.map_eq_some_iff, Prod.mk.injEq] at h
      obtain ⟨⟨m'', r⟩, hstep, rfl, hloc⟩ := h
      cases r with
      | none => cases hloc
      | some pc'' => cases hloc; exact Or.inr ⟨pc, rfl, hstep⟩
  | rebuild caller snapshot pc =>
      rcases advance_rebuild cfg h with ⟨result, -, -, hloc⟩ | ⟨snapshot'', pc'', -, hloc⟩
      · cases result with
        | true => cases hloc
        | false => cases caller <;> cases hloc
      · cases hloc
  | countRebuild caller => cases caller <;> cases h
  | rebuildNow snapshot i =>
      simp only [advance] at h
      split at h
      · cases h
      · split at h <;> cases h
  | rebuilder interval changeThreshold pc =>
      cases pc with
      | should snapshot pc =>
          simp only [advance, rebuilderStep, Option.map_eq_some_iff, Prod.mk.injEq] at h
          obtain ⟨r, -, -, hloc⟩ := h
          split at hloc <;> cases hloc
      | _ => cases h
  | start interval changeThreshold stage =>
      simp only [advance, startStep] at h
      split at h
      · cases h
      · cases h
      · cases h
      · split at h <;> cases h
  | stop stage =>
      simp only [advance, stopStep] at h
      split at h
      · cases h
      · split at h
        · cases h
        · split at h <;> cases h
      · cases h
      · cases h
  | forceLock =>
      simp only [advance] at h
      split at h <;> cases h
  | forceStats i => cases h
  | forceCrossings i =>
      simp only [advance] at h
      split at h <;> cases h
  | count left right pc =>
      cases pc with
      | lockPartitions =>
          simp only [advance, countStep] at h
          split at h <;> cases h
      | _ => cases h
  | cutsLock =>
      simp only [advance] at h
      split at h <;> cases h
  | _ => cases h

/-- Once `func` has returned, it is not called again before the thread is idle. -/
theorem asks_eq_none_of_advance {l l' : Loc}
    (h : (machine cfg Client).advance t a m l = some (m', l')) (hidle : l.isIdle = false)
    (hasks : l.asks = none) : l'.asks = none := by
  by_contra hne
  obtain ⟨range, hrange⟩ := Option.ne_none_iff_exists'.mp hne
  obtain ⟨pc', rfl⟩ := Loc.asks_eq_some hrange
  rcases query_of_advance h with ⟨c, left', right', rfl, rfl, rfl, -⟩ | ⟨pc, rfl, hstep⟩
  · contradiction
  · cases pc with
    | release lockStart count =>
        simp only [queryStep, Option.some.injEq, Prod.mk.injEq] at hstep
        obtain ⟨-, hnext⟩ := hstep
        split at hnext
        · cases hnext
        · cases hnext; cases hrange
    | _ => cases hasks

/-! ## no update is lost -/

/-- A `DynamicLock` serves any workload whose functions stay in the range they run on. -/
theorem sound {Q : Type} (data : ℕ → ℤ) (queries : Tid Client → List Q) (args : Q → ℕ × ℕ)
    (body : Q → ℕ × ℕ → List (ℕ × ℤ))
    (hwithin : ∀ t, ∀ q ∈ queries t, ∀ u ∈ body q (clampRange cfg.arraySize (args q).1 (args q).2),
      InRange (clampRange cfg.arraySize (args q).1 (args q).2) u.1) :
    (workload data queries args body).Sound (machine cfg Client)
      (fun q => clampRange cfg.arraySize (args q).1 (args q).2) Loc.asks InRange where
  start _ := rfl
  call {t a m l m' l' todo range} h hpermits hasks hasks' := by
    obtain ⟨pc', rfl⟩ := Loc.asks_eq_some hasks'
    rcases query_of_advance h with ⟨c, left', right', rfl, rfl, rfl, hrange⟩ | ⟨pc, rfl, hstep⟩
    · cases todo with
      | nil => contradiction
      | cons q rest =>
          have hargs : (left', right') = args q := of_decide_eq_true hpermits
          refine ⟨q, rest, rfl, ?_⟩
          rw [← hargs]
          exact hrange
    · have hnone := asks_eq_none_of_advance h rfl hasks
      rw [hnone] at hasks'
      contradiction
  keep := asks_advance
  func := asks_of_inFunc
  leave {t a m l m' l' range} hfunc h := by
    obtain ⟨lockStart, lockEnd, rfl⟩ := Loc.inFunc_eq_some hfunc
    cases h
    rfl
  within := hwithin
  exclusive {s t u r r'} hs hne ht hu pos hpos hpos' := by
    have hdisjoint := disjoint_of_inFunc hs hne ht hu
    obtain ⟨hlo, hhi⟩ := hpos
    obtain ⟨hlo', hhi'⟩ := hpos'
    omega

/-! ## a query alone -/

variable (cfg) in
/-- Nothing goes on in the lock, and its table ascends. -/
structure Calm (m : Mem Client) : Prop where
  pause : m.pauseQueries = false
  epoch : m.partitionEpoch % 2 = 0
  stats : m.collectStats = false
  free : ∀ i, m.locks i = none
  table : ∀ b b', b ≤ b' → b' < cfg.kBlocks → m.blockToLock b ≤ m.blockToLock b'

omit [DecidableEq Client] in
theorem calm_initMem : Calm cfg (initMem cfg : Mem Client) where
  pause := rfl
  epoch := rfl
  stats := rfl
  free _ := rfl
  table b b' hle hb' := by
    have hcell : ∀ b < cfg.kBlocks, (initMem cfg : Mem Client).blockToLock b =
        lockOfBlock cfg.kLockCnt cfg.initialPartitions b := fun b hb => refreshTable_apply _ _ _ hb
    rw [hcell b (by omega), hcell b' hb']
    exact lockOfBlock_mono _ _ hle

section Alone

variable (cfg) {Q : Type} {W : Workload (Tid Client) Act Loc Q (ℕ × ℕ)} {args : Q → ℕ × ℕ}
  (hpermits : W.permits = permits args) (hfunc : W.inFunc = Loc.inFunc) (c : Client)
  (left right : ℕ) (data : ℕ → ℤ) (todo : List Q)

include hpermits hfunc

/-- A step of a query outside of `func`. -/
theorem alone_step {pc : QueryPc} {l' : Loc} (hout : (Loc.query left right pc).inFunc = none)
    (h : advance cfg (.client c) a m (.query left right pc) = some (m', l')) :
    (W.program (machine cfg Client)).Alone (.client c)
      (⟨m, data⟩, ⟨.query left right pc, todo, none⟩) (⟨m', data⟩, ⟨l', todo, none⟩) := by
  have hstep : (machine cfg Client).advance (.client c) a m (.query left right pc) =
      some (m', l') := h
  exact Workload.alone_lock (by rw [hfunc]; exact hout)
    (by rw [hpermits]; cases todo <;> rfl) hstep data none

/-- A step inside the loop of a query. -/
theorem alone_walk {pc pc' : QueryPc} (hout : (Loc.query left right pc).inFunc = none)
    (h : queryStep cfg (.client c) a m left right pc = some (m', some pc')) :
    (W.program (machine cfg Client)).Alone (.client c)
      (⟨m, data⟩, ⟨.query left right pc, todo, none⟩)
      (⟨m', data⟩, ⟨.query left right pc', todo, none⟩) :=
  alone_step cfg hpermits hfunc c left right data todo hout (by rw [advance, h]; rfl)

/-- All locks that are still missing can be taken. -/
theorem alone_acquire (epoch lockStart lockEnd room index : ℕ) (m : Mem Client)
    (hroom : index + room = lockEnd) (hfree : ∀ i, index ≤ i → m.locks i = none) :
    ∃ locks, (∀ i, ¬(index ≤ i ∧ i ≤ lockEnd) → locks i = m.locks i) ∧
      (W.program (machine cfg Client)).Alone (.client c)
        (⟨m, data⟩, ⟨.query left right (.acquire epoch lockStart lockEnd index), todo, none⟩)
        (⟨{ m with locks }, data⟩,
          ⟨.query left right (.epochCheck epoch lockStart lockEnd), todo, none⟩) := by
  have hstep : ∀ index (m : Mem Client), m.locks index = none →
      (W.program (machine cfg Client)).Alone (.client c)
        (⟨m, data⟩, ⟨.query left right (.acquire epoch lockStart lockEnd index), todo, none⟩)
        (⟨m.lock index (.client c), data⟩, ⟨.query left right
          (if index = lockEnd then .epochCheck epoch lockStart lockEnd
            else .acquire epoch lockStart lockEnd (index + 1)), todo, none⟩) := fun index m hm =>
    alone_step (a := .step) cfg hpermits hfunc c left right data todo rfl
      (by simp only [advance, queryStep, hm, if_true, Option.map_some, afterQuery])
  induction room generalizing index m with
  | zero =>
      have hlast := hstep index m (hfree index le_rfl)
      rw [if_pos (by omega)] at hlast
      exact ⟨_, fun i hi => Function.update_of_ne (by omega) _ _, hlast⟩
  | succ room ih =>
      have hfirst := hstep index m (hfree index le_rfl)
      rw [if_neg (by omega)] at hfirst
      have hother : ∀ i, i ≠ index → (m.lock index (.client c)).locks i = m.locks i :=
        fun i hi => Function.update_of_ne hi _ _
      obtain ⟨locks, hlocks, hrest⟩ := ih (index + 1) (m.lock index (.client c)) (by omega)
        fun i hi => by
          rw [hother i (by omega)]
          exact hfree i (by omega)
      refine ⟨locks, fun i hi => ?_, hfirst.trans hrest⟩
      rw [hlocks i (by omega), hother i (by omega)]

/-- All locks are given back. -/
theorem alone_release (lockStart count : ℕ) (m : Mem Client) :
    ∃ locks, (∀ i, locks i =
        if lockStart ≤ i ∧ i < lockStart + (count + 1) then none else m.locks i) ∧
      (W.program (machine cfg Client)).Alone (.client c)
        (⟨m, data⟩, ⟨.query left right (.release lockStart (count + 1)), todo, none⟩)
        (⟨{ m with locks }, data⟩, ⟨.idle, todo, none⟩) := by
  have hstep : ∀ count (m : Mem Client), (W.program (machine cfg Client)).Alone (.client c)
      (⟨m, data⟩, ⟨.query left right (.release lockStart (count + 1)), todo, none⟩)
      (⟨m.unlock (lockStart + count), data⟩, ⟨afterQuery left right
        (if count + 1 ≤ 1 then none else some (.release lockStart count)), todo, none⟩) :=
    fun count m => alone_step (a := .step) cfg hpermits hfunc c left right data todo rfl rfl
  induction count generalizing m with
  | zero =>
      refine ⟨_, fun i => ?_, hstep 0 m⟩
      by_cases hi : i = lockStart
      · simp [hi]
      · simp only [Nat.add_zero, Function.update_of_ne hi]
        rw [if_neg (by omega)]
  | succ count ih =>
      have hfirst := hstep (count + 1) m
      rw [if_neg (by omega)] at hfirst
      obtain ⟨locks, hlocks, hrest⟩ := ih (m.unlock (lockStart + (count + 1)))
      refine ⟨locks, fun i => ?_, hfirst.trans hrest⟩
      rw [hlocks i]
      by_cases hi : i = lockStart + (count + 1)
      · simp [hi, Mem.unlock]
      · have hsame : (m.unlock (lockStart + (count + 1))).locks i = m.locks i :=
          Function.update_of_ne hi _ _
        rw [hsame]
        congr 1
        simp only [eq_iff_iff]
        omega

/-- In a calm lock a call gets to the first of its locks. -/
theorem alone_call (hm : Calm cfg m) (hsize : cfg.arraySize ≠ 0) (q : Q) (rest : List Q)
    (hclamp : clampRange cfg.arraySize (args q).1 (args q).2 = (left, right)) :
    m.blockToLock (cfg.positionToBlock left) ≤ m.blockToLock (cfg.positionToBlock right) ∧
    (W.program (machine cfg Client)).Alone (.client c)
      (⟨m, data⟩, ⟨.idle, q :: rest, none⟩)
      (⟨m, data⟩, ⟨.query left right (.acquire m.partitionEpoch
        (m.blockToLock (cfg.positionToBlock left)) (m.blockToLock (cfg.positionToBlock right))
        (m.blockToLock (cfg.positionToBlock left))), q :: rest, none⟩) := by
  have hle : left ≤ right := by
    have := clampRange_le cfg.arraySize (args q).1 (args q).2
    rwa [hclamp] at this
  have hlocks := hm.table _ _ (cfg.positionToBlock_mono hle) (cfg.positionToBlock_lt right)
  have hcall : (W.program (machine cfg Client)).Alone (.client c)
      (⟨m, data⟩, ⟨.idle, q :: rest, none⟩)
      (⟨m, data⟩, ⟨.query left right .pauseLoad, q :: rest, none⟩) := by
    have hstep : (machine cfg Client).advance (.client c)
        (.call (.writeQuery (args q).1 (args q).2)) m .idle =
          some (m, .query left right .pauseLoad) := by
      change advance cfg (.client c) (.call (.writeQuery (args q).1 (args q).2)) m .idle = _
      simp only [advance, enter, hsize, if_false, hclamp]
    exact Workload.alone_lock (by rw [hfunc]; rfl) (by rw [hpermits]; exact decide_eq_true rfl)
      hstep data none
  have walk : ∀ (pc pc' : QueryPc), (Loc.query left right pc).inFunc = none →
      queryStep cfg (.client c) .step m left right pc = some (m, some pc') →
      (W.program (machine cfg Client)).Alone (.client c)
        (⟨m, data⟩, ⟨.query left right pc, q :: rest, none⟩)
        (⟨m, data⟩, ⟨.query left right pc', q :: rest, none⟩) :=
    fun _ _ hout h => alone_walk cfg hpermits hfunc c left right data (q :: rest) hout h
  have hpause := walk .pauseLoad .epochLoad rfl (by simp [queryStep, hm.pause])
  have hepoch := walk .epochLoad (.leftLoad m.partitionEpoch) rfl (by simp [queryStep, hm.epoch])
  have hleft := walk (.leftLoad m.partitionEpoch) _ rfl rfl
  have hright := walk (.rightLoad m.partitionEpoch (m.blockToLock (cfg.positionToBlock left)))
    (.acquire m.partitionEpoch
      (m.blockToLock (cfg.positionToBlock left)) (m.blockToLock (cfg.positionToBlock right))
      (m.blockToLock (cfg.positionToBlock left))) rfl (by simp [queryStep, hlocks])
  exact ⟨hlocks, ((((hcall.trans hpause).trans hepoch).trans hleft).trans hright)⟩

/-- With its locks taken under the epoch it read, a query gets to `func`. -/
theorem alone_inside (heven : m.partitionEpoch % 2 = 0) (hstats : m.collectStats = false)
    (lockStart lockEnd : ℕ) :
    (W.program (machine cfg Client)).Alone (.client c)
      (⟨m, data⟩, ⟨.query left right (.epochCheck m.partitionEpoch lockStart lockEnd), todo, none⟩)
      (⟨{ m with
          totalLockTime := m.totalLockTime + 0
          operationCount := m.operationCount + 1 }, data⟩,
        ⟨.query left right (.inside lockStart lockEnd .func), todo, none⟩) := by
  have walk : ∀ {a : Act} {m m' : Mem Client} {pc pc' : QueryPc},
      (Loc.query left right pc).inFunc = none →
      queryStep cfg (.client c) a m left right pc = some (m', some pc') →
      (W.program (machine cfg Client)).Alone (.client c)
        (⟨m, data⟩, ⟨.query left right pc, todo, none⟩)
        (⟨m', data⟩, ⟨.query left right pc', todo, none⟩) :=
    fun hout h => alone_walk cfg hpermits hfunc c left right data todo hout h
  have hcheck : queryStep cfg (.client c) .step m left right
      (.epochCheck m.partitionEpoch lockStart lockEnd) =
        some (m, some (.inside lockStart lockEnd .durationLoad)) := by
    simp [queryStep, heven]
  have hload : queryStep cfg (.client c) .step m left right (.inside lockStart lockEnd .durationLoad) =
      some (m, some (.inside lockStart lockEnd (.durationCas m.totalLockTime))) := rfl
  have hcas : queryStep cfg (.client c) (.elapsed 0 false) m left right
      (.inside lockStart lockEnd (.durationCas m.totalLockTime)) =
        some ({ m with totalLockTime := m.totalLockTime + 0 },
          some (.inside lockStart lockEnd .countOperation)) := by
    simp [queryStep, insideStep, afterInside]
  have hcount : queryStep cfg (.client c) .step { m with totalLockTime := m.totalLockTime + 0 } left
      right (.inside lockStart lockEnd .countOperation) =
        some ({ m with
          totalLockTime := m.totalLockTime + 0
          operationCount := m.operationCount + 1 },
          some (.inside lockStart lockEnd .sampleLoad)) := rfl
  have hsample : queryStep cfg (.client c) .step
      { m with
        totalLockTime := m.totalLockTime + 0
        operationCount := m.operationCount + 1 } left right
      (.inside lockStart lockEnd .sampleLoad) =
        some ({ m with
          totalLockTime := m.totalLockTime + 0
          operationCount := m.operationCount + 1 },
          some (.inside lockStart lockEnd .func)) := by
    simp [queryStep, insideStep, afterInside, hstats]
  exact ((((walk rfl hcheck).trans (walk rfl hload)).trans (walk rfl hcas)).trans
    (walk rfl hcount)).trans (walk rfl hsample)

/-- In a calm lock a thread alone runs its next query to the end. -/
theorem alone_query (hm : Calm cfg m) (hsize : cfg.arraySize ≠ 0) (q : Q) (rest : List Q) :
    ∃ m' data', Calm cfg m' ∧ (W.program (machine cfg Client)).Alone (.client c)
      (⟨m, data⟩, ⟨.idle, q :: rest, none⟩) (⟨m', data'⟩, ⟨.idle, rest, none⟩) := by
  cases hclamp : clampRange cfg.arraySize (args q).1 (args q).2 with
  | mk left right =>
      obtain ⟨hle, hcall⟩ := alone_call cfg hpermits hfunc c left right data hm hsize q rest hclamp
      obtain ⟨room, hroom⟩ := Nat.exists_eq_add_of_le hle
      generalize m.blockToLock (cfg.positionToBlock left) = lockStart at *
      generalize m.blockToLock (cfg.positionToBlock right) = lockEnd at *
      obtain ⟨locks, hlocks, hacquire⟩ := alone_acquire cfg hpermits hfunc c left right data
        (q :: rest) m.partitionEpoch lockStart lockEnd room lockStart m hroom.symm
          fun i _ => hm.free i
      have hinside := alone_inside (m := { m with locks }) cfg hpermits hfunc c left right data
        (q :: rest) hm.epoch hm.stats lockStart lockEnd
      generalize hm' : ({ m with
        locks
        totalLockTime := m.totalLockTime + 0
        operationCount := m.operationCount + 1 } : Mem Client) = m' at hinside
      have hfuncLoc : W.inFunc (.query left right (.inside lockStart lockEnd .func)) =
          some (left, right) := by
        rw [hfunc]
        rfl
      have hleave : (machine cfg Client).advance (.client c) .step m'
          (.query left right (.inside lockStart lockEnd .func)) =
            some (m', .query left right (.release lockStart (lockEnd + 1 - lockStart))) := rfl
      obtain ⟨data', hbody⟩ := Workload.alone_func hfuncLoc hleave q rest data
      rw [show lockEnd + 1 - lockStart = room + 1 by omega] at hbody
      obtain ⟨locks', hlocks', hrelease⟩ := alone_release cfg hpermits hfunc c left right data' rest
        lockStart room m'
      subst hm'
      refine ⟨_, data', ?_, (((hcall.trans hacquire).trans hinside).trans hbody).trans hrelease⟩
      have hfree : ∀ i, locks' i = none := fun i => by
        rw [hlocks' i]
        split
        · rfl
        · exact (hlocks i (by omega)).trans (hm.free i)
      exact ⟨hm.pause, hm.epoch, hm.stats, hfree, hm.table⟩

end Alone

end DynamicLock
end DynLocks
