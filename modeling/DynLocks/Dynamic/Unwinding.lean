import DynLocks.Lib.Attempts
import DynLocks.Dynamic.Failure
import DynLocks.Dynamic.LockOrder

/-!
# DynLocks.Dynamic.Unwinding

Exceptions of `DynamicLock::WriteQuery`: every `lock()` may throw, and so may
`func`.  They come on top of those of `RebuildPartitions`.

* `advance_owner` — every step takes a mutex that is free, gives back one the
  thread holds, or leaves it alone, whatever exceptions have left of the epoch
  and of the flags;
* `neutral_of_calling` — every call of `WriteQuery` is neutral on the mutexes.
-/

namespace DynLocks
namespace DynamicLock

open Interleaving EpochTable Attempts

variable {Client : Type} (cfg : Config)

/-! ## the loops over the range mutexes -/

def QueryPc.InLoop : QueryPc → Prop
  | .acquire _ lockStart lockEnd index => lockStart ≤ index ∧ index ≤ lockEnd
  | .epochCheck _ lockStart lockEnd => lockStart ≤ lockEnd
  | .retry _ count => 0 < count
  | .inside lockStart lockEnd _ => lockStart ≤ lockEnd
  | .release _ count => 0 < count
  | _ => True

def RebuildPc.InLoop : RebuildPc → Prop
  | .lockAll next => next < cfg.kLockCnt
  | .unlockAll count => 0 < count
  | _ => True

/-- The loops that lock stop at the last mutex, those that unlock have a mutex left to unlock. -/
def Loc.InLoop : Loc → Prop
  | .query _ _ pc => pc.InLoop
  | .rebuild _ _ pc => pc.InLoop cfg
  | _ => True

theorem Loc.inLoop_of_out {l : Loc} (h : l.phase cfg = .out) : l.InLoop cfg := by
  cases l with
  | query left right pc =>
      cases pc with
      | pauseLoad => trivial
      | epochLoad => trivial
      | _ => contradiction
  | rebuild caller snapshot pc =>
      cases pc with
      | lockAll => contradiction
      | unlockAll => contradiction
      | _ => trivial
  | _ => trivial

section Steps

variable [DecidableEq Client] {t : Tid Client} {a : Act} {m m' : Mem Client}

/-- The loops of an attempt stay between its first and its last lock. -/
theorem inLoop_queryStep {left right : ℕ} {pc : QueryPc} {r : Option QueryPc} (hpc : pc.InLoop)
    (h : queryStep cfg t a m left right pc = some (m', r)) :
    (afterQuery left right r).InLoop cfg := by
  cases pc with
  | pauseLoad => cases h; dsimp only [afterQuery]; split <;> trivial
  | epochLoad => cases h; dsimp only [afterQuery]; split <;> trivial
  | leftLoad epoch => cases h; trivial
  | rightLoad epoch lockStart =>
      cases h
      dsimp only [afterQuery]
      split
      · trivial
      · next hge => exact ⟨Nat.le_refl _, Nat.not_lt.mp hge⟩
  | acquire epoch lockStart lockEnd index =>
      obtain ⟨hfirst, hlast⟩ := hpc
      simp only [queryStep] at h
      split at h
      · cases h
        dsimp only [afterQuery]
        split
        · exact Nat.le_trans hfirst hlast
        · next hne => exact ⟨Nat.le_succ_of_le hfirst, Nat.lt_of_le_of_ne hlast hne⟩
      · contradiction
  | epochCheck epoch lockStart lockEnd =>
      have hle : lockStart ≤ lockEnd := hpc
      cases h
      dsimp only [afterQuery]
      split
      · exact Nat.sub_pos_of_lt (Nat.lt_succ_of_le hle)
      · exact hle
  | retry lockStart count =>
      cases h
      dsimp only [afterQuery]
      split
      · trivial
      · next hmore => exact Nat.sub_pos_of_lt (Nat.not_le.mp hmore)
  | inside lockStart lockEnd pc =>
      have hle : lockStart ≤ lockEnd := hpc
      simp only [queryStep, Option.map_eq_some_iff, Prod.mk.injEq] at h
      obtain ⟨⟨m'', r'⟩, -, rfl, rfl⟩ := h
      cases r' with
      | some pc' => exact hle
      | none => exact Nat.sub_pos_of_lt (Nat.lt_succ_of_le hle)
  | release lockStart count =>
      cases h
      split
      · trivial
      · next hmore => exact Nat.sub_pos_of_lt (Nat.not_le.mp hmore)

/-- The loops of a rebuild stay below `kLockCnt`. -/
theorem inLoop_rebuildStep {snapshot snapshot' : Counters UInt64} {pc pc' : RebuildPc}
    (h : rebuildStep cfg t m snapshot pc = some (m', snapshot', pc')) : pc'.InLoop cfg := by
  cases pc with
  | keep pc =>
      simp only [rebuildStep, Option.map_eq_some_iff, Prod.mk.injEq] at h
      obtain ⟨⟨m'', r⟩, hstep, -, -, rfl⟩ := h
      exact Loc.inLoop_of_out cfg (l := .rebuild .rebuildNow snapshot r)
        (keepStep_frame cfg hstep).2.2
  | exchange => cases h; split <;> trivial
  | snapStats i => cases h; split <;> trivial
  | snapCrossings i => cases h; split <;> trivial
  | gainLock =>
      simp only [rebuildStep] at h
      split at h
      · cases h; trivial
      · contradiction
  | gainTest => cases h; split <;> trivial
  | unlockGain => cases h; trivial
  | pauseStore => cases h; exact cfg.kLockCnt_pos
  | lockAll next =>
      simp only [rebuildStep] at h
      split at h
      · cases h
        split
        · next hlt => exact hlt
        · trivial
      · contradiction
  | publish pc =>
      simp only [rebuildStep, Option.map_eq_some_iff, Prod.mk.injEq] at h
      obtain ⟨⟨m'', r⟩, hstep, -, -, rfl⟩ := h
      cases pc with
      | lockPartitions =>
          simp only [publishStep] at hstep
          split at hstep
          · cases hstep; trivial
          · contradiction
      | lockStats =>
          simp only [publishStep] at hstep
          split at hstep
          · cases hstep; trivial
          · contradiction
      | clearPause => cases hstep; exact cfg.kLockCnt_pos
      | _ => cases hstep; trivial
  | unlockAll count =>
      cases h
      split
      · trivial
      · next hmore => exact Nat.sub_pos_of_lt (Nat.not_le.mp hmore)
  | ret result => contradiction

/-- So every step keeps the loops in their bounds. -/
theorem advance_inLoop {l l' : Loc} (hl : l.InLoop cfg) (h : advance cfg t a m l = some (m', l')) :
    l'.InLoop cfg := by
  cases l with
  | query left right pc =>
      simp only [advance, Option.map_eq_some_iff, Prod.mk.injEq] at h
      obtain ⟨⟨m'', r⟩, hstep, rfl, rfl⟩ := h
      exact inLoop_queryStep cfg hl hstep
  | rebuild caller snapshot pc =>
      rcases advance_rebuild cfg h with ⟨result, rfl, rfl, rfl⟩ | ⟨snapshot', pc', hstep, rfl⟩
      · exact Loc.inLoop_of_out cfg (caller.aside_returned cfg m' result).phase
      · exact inLoop_rebuildStep cfg hstep
  | _ => exact Loc.inLoop_of_out cfg (advance_aside cfg (by trivial) h).phase

/-! ## every step takes a free mutex or gives back a held one -/

/-- What one step does to the range mutexes. -/
def RangeMove (t : Tid Client) (m : Mem Client) (l : Loc) (m' : Mem Client) (l' : Loc) : Prop :=
  ∀ i, LockMove t (m.locks i) ((l.phase cfg).Holds (layout cfg) i) (m'.locks i)
    ((l'.phase cfg).Holds (layout cfg) i)

omit [DecidableEq Client] in
/-- A step that touches none of them. -/
theorem RangeMove.of_eq {l l' : Loc} (hlocks : m'.locks = m.locks)
    (hholds : ∀ i, (l'.phase cfg).Holds (layout cfg) i ↔ (l.phase cfg).Holds (layout cfg) i) :
    RangeMove cfg t m l m' l' := by
  intro i
  rw [hlocks]
  exact .keep (hholds i)

omit [DecidableEq Client] in
/-- The last of the mutexes that are still held is given back. -/
theorem RangeMove.drop {l l' : Loc} {first count : ℕ} (hcount : 0 < count)
    (hl : l.phase cfg = .dropping first count)
    (hl' : l'.phase cfg = if count ≤ 1 then .out else .dropping first (count - 1)) :
    RangeMove cfg t m l (m.unlock (first + (count - 1))) l' := by
  intro i
  have hholds : ∀ i, (l'.phase cfg).Holds (layout cfg) i ↔
      first ≤ i ∧ i < first + (count - 1) := by
    intro i
    rw [hl']
    split
    · exact iff_of_false id (by omega)
    · exact Iff.rfl
  rw [hl]
  refine .update_none ⟨by omega, by omega⟩ (fun hh => ?_) fun hi => ?_
  · have := (hholds _).mp hh
    omega
  · rw [hholds]
    simp only [Phase.Holds]
    omega

/-- A step of a query locks one range mutex, unlocks one, or leaves them alone. -/
theorem rangeMove_queryStep {left right : ℕ} {pc : QueryPc} {r : Option QueryPc} (hpc : pc.InLoop)
    (h : queryStep cfg t a m left right pc = some (m', r)) :
    RangeMove cfg t m (.query left right pc) m' (afterQuery left right r) := by
  cases pc with
  | pauseLoad =>
      cases h
      refine .of_eq cfg rfl fun i => ?_
      dsimp only [afterQuery]
      split <;> exact Iff.rfl
  | epochLoad =>
      cases h
      refine .of_eq cfg rfl fun i => ?_
      dsimp only [afterQuery]
      split <;> exact Iff.rfl
  | leftLoad epoch => cases h; exact .of_eq cfg rfl fun i => Iff.rfl
  | rightLoad epoch lockStart =>
      cases h
      refine .of_eq cfg rfl fun i => ?_
      dsimp only [afterQuery]
      split
      · exact Iff.rfl
      · exact ⟨fun hh => absurd hh.2 (Nat.not_lt.mpr hh.1), False.elim⟩
  | acquire epoch lockStart lockEnd index =>
      obtain ⟨hfirst, hlast⟩ := hpc
      simp only [queryStep] at h
      split at h
      · next hfree =>
          cases h
          intro i
          dsimp only [afterQuery]
          split
          · next heq =>
              subst heq
              refine .update_some hfree ⟨hfirst, Nat.lt_succ_self _⟩ fun hi => ?_
              simp only [Loc.phase, QueryPc.phase, Phase.Holds]
              omega
          · refine .update_some hfree ⟨hfirst, Nat.lt_succ_self _⟩ fun hi => ?_
            simp only [Loc.phase, QueryPc.phase, Phase.Holds]
            omega
      · contradiction
  | epochCheck epoch lockStart lockEnd =>
      have hle : lockStart ≤ lockEnd := hpc
      cases h
      refine .of_eq cfg rfl fun i => ?_
      dsimp only [afterQuery]
      split
      · simp only [Loc.phase, QueryPc.phase, Phase.Holds]
        omega
      · simp only [Loc.phase, QueryPc.phase, Phase.Holds]
        omega
  | retry lockStart count =>
      cases h
      refine .drop cfg hpc rfl ?_
      dsimp only [afterQuery]
      split <;> rfl
  | inside lockStart lockEnd pc =>
      have hle : lockStart ≤ lockEnd := hpc
      simp only [queryStep, Option.map_eq_some_iff, Prod.mk.injEq] at h
      obtain ⟨⟨m'', r'⟩, hstep, rfl, rfl⟩ := h
      refine .of_eq cfg (congrArg (fun core => core.1.owner) (core_insideStep cfg hstep))
        fun i => ?_
      cases r' with
      | some pc' => exact Iff.rfl
      | none =>
          simp only [Loc.phase, afterQuery, afterInside, QueryPc.phase, Phase.Holds]
          omega
  | release lockStart count =>
      cases h
      refine .drop cfg hpc rfl ?_
      split <;> rfl

omit [DecidableEq Client] in
/-- Publication runs under every range mutex. -/
theorem holds_publish (pc : PublishPc) (i : ℕ) :
    (pc.phase cfg).Holds (layout cfg) i ↔ i < cfg.kLockCnt := by
  have hall : ∀ i, (Phase.dropping 0 cfg.kLockCnt).Holds (layout cfg) i ↔ i < cfg.kLockCnt := by
    intro i
    simp only [Phase.Holds]
    omega
  cases pc with
  | reset => exact hall i
  | unlockStats => exact hall i
  | unlockPartitions => exact hall i
  | clearFlag => exact hall i
  | clearPause => exact hall i
  | _ => exact Iff.rfl

omit [DecidableEq Client] in
/-- So does a step of a publication. -/
theorem rangeMove_publishStep {caller : Caller} {snapshot : Counters UInt64} {pc : PublishPc}
    {r : RebuildPc} (h : publishStep cfg t snapshot m pc = some (m', r)) :
    RangeMove cfg t m (.rebuild caller snapshot (.publish pc)) m' (.rebuild caller snapshot r) := by
  have hstays : ∀ pc', m'.locks = m.locks → RangeMove cfg t m
      (.rebuild caller snapshot (.publish pc)) m' (.rebuild caller snapshot (.publish pc')) :=
    fun pc' hlocks => .of_eq cfg hlocks fun i =>
      (holds_publish cfg pc' i).trans (holds_publish cfg pc i).symm
  cases pc with
  | lockPartitions =>
      simp only [publishStep] at h
      split at h
      · cases h; exact hstays _ rfl
      · contradiction
  | lockStats =>
      simp only [publishStep] at h
      split at h
      · cases h; exact hstays _ rfl
      · contradiction
  | reset pc =>
      cases h
      exact hstays _ (congrArg (fun core => core.1.owner) (core_resetStep cfg snapshot.stats m pc))
  | clearPause => cases h; exact .of_eq cfg rfl fun i => Iff.rfl
  | _ => cases h; exact hstays _ rfl

/-- And so does a step of a rebuild. -/
theorem rangeMove_rebuildStep {caller : Caller} {snapshot snapshot' : Counters UInt64}
    {pc pc' : RebuildPc} (hpc : pc.InLoop cfg)
    (h : rebuildStep cfg t m snapshot pc = some (m', snapshot', pc')) :
    RangeMove cfg t m (.rebuild caller snapshot pc) m' (.rebuild caller snapshot' pc') := by
  cases pc with
  | exchange => cases h; exact .of_eq cfg rfl fun i => by split <;> exact Iff.rfl
  | snapStats j => cases h; exact .of_eq cfg rfl fun i => by split <;> exact Iff.rfl
  | snapCrossings j => cases h; exact .of_eq cfg rfl fun i => by split <;> exact Iff.rfl
  | gainLock =>
      simp only [rebuildStep] at h
      split at h
      · cases h; exact .of_eq cfg rfl fun i => Iff.rfl
      · contradiction
  | gainTest => cases h; exact .of_eq cfg rfl fun i => by split <;> exact Iff.rfl
  | keep pc =>
      simp only [rebuildStep, Option.map_eq_some_iff, Prod.mk.injEq] at h
      obtain ⟨⟨m'', r⟩, hstep, rfl, rfl, rfl⟩ := h
      obtain ⟨hmem, -, hout⟩ := keepStep_frame cfg hstep
      refine .of_eq cfg (congrArg EpochTable.Mem.owner hmem) fun i => ?_
      dsimp only [Loc.phase]
      rw [hout]
      exact Iff.rfl
  | unlockGain => cases h; exact .of_eq cfg rfl fun i => Iff.rfl
  | pauseStore =>
      cases h
      exact .of_eq cfg rfl fun i => iff_of_false (Nat.not_lt_zero i) id
  | lockAll next =>
      have hnext : next < cfg.kLockCnt := hpc
      simp only [rebuildStep] at h
      split at h
      · next hfree =>
          cases h
          have hholds : ∀ i, (Loc.phase cfg (.rebuild caller snapshot
              (if next + 1 < cfg.kLockCnt then .lockAll (next + 1)
                else .publish .lockPartitions))).Holds (layout cfg) i ↔ i < next + 1 := by
            intro i
            split
            · exact Iff.rfl
            · rw [show next + 1 = cfg.kLockCnt by omega]
              exact Iff.rfl
          intro i
          refine .update_some hfree ((hholds _).mpr (Nat.lt_succ_self _)) fun hi => ?_
          rw [hholds]
          simp only [Loc.phase, RebuildPc.phase, Phase.Holds]
          omega
      · contradiction
  | publish pc =>
      simp only [rebuildStep, Option.map_eq_some_iff, Prod.mk.injEq] at h
      obtain ⟨⟨m'', r⟩, hstep, rfl, rfl, rfl⟩ := h
      exact rangeMove_publishStep cfg hstep
  | unlockAll count =>
      cases h
      have hmove : RangeMove cfg t m (.rebuild caller snapshot (.unlockAll count))
          (m.unlock (0 + (count - 1)))
          (.rebuild caller snapshot (if count ≤ 1 then .ret true else .unlockAll (count - 1))) :=
        .drop cfg hpc rfl (by dsimp only [Loc.phase]; split <;> rfl)
      rwa [Nat.zero_add] at hmove
  | ret result => contradiction

/-- Every step takes a mutex that is free, gives back one the thread holds, or leaves it alone. -/
theorem advance_owner {l l' : Loc} (hl : l.InLoop cfg) (h : advance cfg t a m l = some (m', l'))
    (x : Mutex) : LockMove t (m.owner x) (l.Holds cfg x) (m'.owner x) (l'.Holds cfg x) := by
  cases x with
  | partitions => exact (advance_guards cfg h).partitions
  | stats => exact (advance_guards cfg h).stats
  | range i =>
      have haside : ∀ {m m' : Mem Client} {l' : Loc}, l.phase cfg = .out → Aside cfg m m' l' →
          RangeMove cfg t m l m' l' := by
        intro m m' l' hout haside
        refine .of_eq cfg (congrArg (fun core => core.1.owner) haside.core) fun i => ?_
        rw [haside.phase, hout]
      cases l with
      | query left right pc =>
          simp only [advance, Option.map_eq_some_iff, Prod.mk.injEq] at h
          obtain ⟨⟨m'', r⟩, hstep, rfl, rfl⟩ := h
          exact rangeMove_queryStep cfg hl hstep i
      | rebuild caller snapshot pc =>
          rcases advance_rebuild cfg h with ⟨result, rfl, rfl, rfl⟩ | ⟨snapshot', pc', hstep, rfl⟩
          · exact haside rfl (caller.aside_returned cfg m' result) i
          · exact rangeMove_rebuildStep cfg hl hstep i
      | _ => exact haside rfl (advance_aside cfg (by trivial) h) i

end Steps

/-! ## where exceptions are raised -/

/-- The mutexes that the guard of `WriteQuery` unlocks when a `lock()` of its constructor, or `func`
under it, throws. -/
def QueryPc.throws : QueryPc → Option (List ℕ)
  | .acquire _ lockStart _ index => some (unlockAll lockStart (index - lockStart))
  | .inside lockStart lockEnd .func => some (unlockAll lockStart (lockEnd + 1 - lockStart))
  | _ => none

/-- The exceptions of `WriteQuery`, and those of `RebuildNow` in the threads around it. -/
def queryExceptions : Exceptions (Mem Client) Loc Unit Mutex where
  throws d m l :=
    match l with
    | .query _ _ pc => pc.throws.map fun held => (m, held.map .range)
    | l => (exceptions cfg).throws d m l
  unlock := (exceptions cfg).unlock

/-- What a step does that does not throw. -/
def Loc.acts : Loc → Loc → List Event
  | .query _ _ (.rightLoad _ _), .query _ _ (.acquire _ lockStart lockEnd _) =>
      [.segment lockStart lockEnd]
  | .query _ _ (.acquire _ _ _ index), _ => [.lock index]
  | .query _ _ (.retry lockStart locked), _ => [.unlock (lockStart + (locked - 1))]
  | .query _ _ (.inside _ _ .func), _ => [.call]
  | .query _ _ (.release lockStart locked), _ => [.unlock (lockStart + (locked - 1))]
  | _, _ => []

/-- What a step has done that throws. -/
def Loc.raises : Loc → List Event
  | .query _ _ (.acquire _ _ _ _) => [.raise]
  | .query _ _ (.inside _ _ .func) => [.call, .raise]
  | _ => []

/-- What the guard of a mutex does to the range mutexes. -/
def Mutex.unlocks : Mutex → List Event
  | .range i => [.unlock i]
  | _ => []

/-- What a thread does to the range mutexes and to `func`. -/
def queryEvents : ExcLoc Loc Mutex → ExcLoc Loc Mutex → List Event :=
  ExcLoc.events Loc.acts Loc.raises Mutex.unlocks

/-- A `DynamicLock` whose clients may handle exceptions and go on. -/
abbrev throwing (Client : Type) [DecidableEq Client] :
    Program (Tid Client) (Option (ExcAct Act Unit)) (Mem Client) (ExcLoc Loc Mutex) :=
  (queryExceptions cfg).handled (machine cfg Client)

/-- Call `WriteQuery`. -/
def enterQuery (left right : ℕ) (m : Mem Client) : Option (Mem Client × ExcLoc Loc Mutex) :=
  (enter cfg m (.writeQuery left right)).map fun x => (x.1, .run x.2)

/-! ## the points of the operation -/

/-- Where a query is. -/
def QueryPc.point : QueryPc → Point
  | .acquire _ lockStart lockEnd index => .taking lockStart lockEnd index
  | .epochCheck _ lockStart lockEnd => .taking lockStart lockEnd (lockEnd + 1)
  | .retry lockStart count => .dropping .retried lockStart count
  | .inside lockStart lockEnd _ => .taking lockStart lockEnd (lockEnd + 1)
  | .release lockStart count => .dropping .returned lockStart count
  | _ => .between

def Loc.AtPoint : Loc → Point → Prop
  | .idle, p => p = .finished .returned ∨ cfg.arraySize = 0 ∧ p = .between
  | .query _ _ pc, p => pc.Bounded ∧ p = pc.point
  | _, _ => False

variable {cfg}

/-- A query that starts has not picked a segment. -/
theorem at_enter {left right : ℕ} {m m' : Mem Client} {l' : Loc}
    (h : enter cfg m (.writeQuery left right) = some (m', l')) :
    ∃ p, l'.AtPoint cfg p ∧ Point.Step .between (Loc.acts .idle l') p := by
  simp only [enter] at h
  split at h
  · next hsize =>
      cases h
      exact ⟨.between, .inr ⟨hsize, rfl⟩, .stay⟩
  · cases h
    exact ⟨.between, ⟨trivial, rfl⟩, .stay⟩

/-- The locked part of a query ends with `func`. -/
theorem insideStep_next [DecidableEq Client] {t : Tid Client} {a : Act} {m m' : Mem Client}
    {left right : ℕ} {pc : InsidePc} {r : Option InsidePc}
    (h : insideStep cfg t a m left right pc = some (m', r)) :
    pc = .func ∧ r = none ∨ pc ≠ .func ∧ ∃ pc', r = some pc' := by
  cases pc with
  | func => cases h; exact .inl ⟨rfl, rfl⟩
  | durationCas current =>
      cases a with
      | elapsed delta spurious =>
          simp only [insideStep] at h
          split at h
          · cases h; exact .inr ⟨by simp, _, rfl⟩
          · cases h; exact .inr ⟨by simp, _, rfl⟩
      | _ => contradiction
  | sampleLoad =>
      simp only [insideStep] at h
      split at h
      · cases h; exact .inr ⟨by simp, _, rfl⟩
      · split at h
        · cases h; exact .inr ⟨by simp, _, rfl⟩
        · cases h; exact .inr ⟨by simp, _, rfl⟩
  | _ => cases h; exact .inr ⟨by simp, _, rfl⟩

/-- A step of a query is one of the operation. -/
theorem at_advance [DecidableEq Client] {t : Tid Client} {a : Act} {m m' : Mem Client} {l l' : Loc}
    {p : Point} (hl : l.isIdle = false) (hp : l.AtPoint cfg p) (hbounded : p.Bounded)
    (h : advance cfg t a m l = some (m', l')) :
    ∃ p', l'.AtPoint cfg p' ∧ p.Step (l.acts l') p' := by
  cases l with
  | idle => contradiction
  | query left right pc =>
      obtain ⟨hpc, rfl⟩ := hp
      simp only [advance, Option.map_eq_some_iff, Prod.mk.injEq] at h
      obtain ⟨⟨m'', r⟩, hstep, rfl, rfl⟩ := h
      cases pc with
      | pauseLoad =>
          cases hstep
          dsimp only [afterQuery]
          split <;> exact ⟨.between, ⟨trivial, rfl⟩, .stay⟩
      | epochLoad =>
          cases hstep
          dsimp only [afterQuery]
          split <;> exact ⟨.between, ⟨trivial, rfl⟩, .stay⟩
      | leftLoad epoch => cases hstep; exact ⟨.between, ⟨trivial, rfl⟩, .stay⟩
      | rightLoad epoch lockStart =>
          cases hstep
          dsimp only [afterQuery]
          split
          · exact ⟨.between, ⟨trivial, rfl⟩, .stay⟩
          · next hge => exact ⟨_, ⟨Nat.not_lt.mp hge, rfl⟩, .pick (Nat.not_lt.mp hge)⟩
      | acquire epoch lockStart lockEnd index =>
          have hlast : index ≤ lockEnd := hpc
          simp only [queryStep] at hstep
          split at hstep
          · cases hstep
            dsimp only [afterQuery]
            split
            · next heq => exact ⟨_, ⟨trivial, rfl⟩, by rw [← heq]; exact .take (Nat.le_refl _)⟩
            · next hne => exact ⟨_, ⟨Nat.lt_of_le_of_ne hlast hne, rfl⟩, .take hlast⟩
          · contradiction
      | epochCheck epoch lockStart lockEnd =>
          obtain ⟨hle, -, -⟩ := hbounded
          cases hstep
          dsimp only [afterQuery]
          split
          · exact ⟨_, ⟨trivial, rfl⟩, .retried hle⟩
          · exact ⟨_, ⟨trivial, rfl⟩, .stay⟩
      | retry lockStart count =>
          obtain ⟨n, rfl⟩ := Nat.exists_eq_succ_of_ne_zero (Nat.ne_of_gt hbounded)
          cases hstep
          refine ⟨Point.drop .retried lockStart n, ?_, .unlock⟩
          cases n with
          | zero => exact ⟨trivial, rfl⟩
          | succ n => exact ⟨trivial, rfl⟩
      | inside lockStart lockEnd pc =>
          obtain ⟨hle, -, -⟩ := hbounded
          simp only [queryStep, Option.map_eq_some_iff, Prod.mk.injEq] at hstep
          obtain ⟨⟨m'', r'⟩, hinside, rfl, rfl⟩ := hstep
          rcases insideStep_next hinside with ⟨rfl, rfl⟩ | ⟨hne, pc', rfl⟩
          · exact ⟨_, ⟨trivial, rfl⟩, .returned hle⟩
          · refine ⟨_, ⟨trivial, rfl⟩, ?_⟩
            cases pc with
            | func => contradiction
            | _ => exact .stay
      | release lockStart count =>
          obtain ⟨n, rfl⟩ := Nat.exists_eq_succ_of_ne_zero (Nat.ne_of_gt hbounded)
          cases hstep
          refine ⟨Point.drop .returned lockStart n, ?_, .unlock⟩
          cases n with
          | zero => exact .inl rfl
          | succ n => exact ⟨trivial, rfl⟩
  | _ => exact hp.elim

/-- An exception of a query is one of the operation. -/
theorem at_throws {d : Unit} {m m' : Mem Client} {l : Loc} {held : List Mutex} {p : Point}
    (hp : l.AtPoint cfg p) (h : (queryExceptions cfg).throws d m l = some (m', held)) :
    ∃ outcome first count, outcome.Throws ∧
      held = (List.range' first count).reverse.map .range ∧
        p.Step l.raises (.drop outcome first count) := by
  cases l with
  | idle => contradiction
  | query left right pc =>
      obtain ⟨hpc, rfl⟩ := hp
      cases pc with
      | acquire epoch lockStart lockEnd index =>
          cases h
          refine ⟨.lockThrew, lockStart, index - lockStart, .inl rfl, ?_, .fail hpc⟩
          rw [unlockAll_eq]
      | inside lockStart lockEnd pc =>
          cases pc with
          | func =>
              cases h
              refine ⟨.callThrew, lockStart, lockEnd + 1 - lockStart, .inr rfl, ?_, .callThrew ..⟩
              rw [unlockAll_eq]
          | _ => contradiction
      | _ => contradiction
  | _ => exact hp.elim

/-- A query holds what the abstract operation holds at its point. -/
theorem holds_iff_of_at (l : Loc) (p : Point) (i : ℕ) (hp : l.AtPoint cfg p)
    (hbounded : p.Bounded) : l.Holds cfg (.range i) ↔ i ∈ p.held := by
  cases l with
  | idle =>
      rcases hp with rfl | ⟨-, rfl⟩
      · exact iff_of_false id List.not_mem_nil
      · exact iff_of_false id List.not_mem_nil
  | query left right pc =>
      obtain ⟨-, rfl⟩ := hp
      cases pc with
      | acquire epoch lockStart lockEnd index =>
          obtain ⟨-, hfirst, -⟩ := hbounded
          rw [QueryPc.point, Point.held, List.mem_range'_1]
          simp only [Loc.Holds, Loc.phase, QueryPc.phase, Phase.Holds]
          omega
      | epochCheck epoch lockStart lockEnd =>
          obtain ⟨hle, -, -⟩ := hbounded
          rw [QueryPc.point, Point.held, List.mem_range'_1]
          simp only [Loc.Holds, Loc.phase, QueryPc.phase, Phase.Holds]
          omega
      | retry lockStart count =>
          rw [QueryPc.point, Point.held, List.mem_range'_1]
          exact Iff.rfl
      | inside lockStart lockEnd pc =>
          obtain ⟨hle, -, -⟩ := hbounded
          rw [QueryPc.point, Point.held, List.mem_range'_1]
          simp only [Loc.Holds, Loc.phase, QueryPc.phase, Phase.Holds]
          omega
      | release lockStart count =>
          rw [QueryPc.point, Point.held, List.mem_range'_1]
          exact Iff.rfl
      | _ => exact iff_of_false id List.not_mem_nil
  | _ => exact hp.elim

/-! ## the guards -/

/-- The guards of a rebuild name the first range mutexes. -/
theorem mem_rangesBelow {n : ℕ} {x : Mutex} : x ∈ rangesBelow n ↔ ∃ i < n, x = .range i := by
  simp [rangesBelow, eq_comm]

/-- They name none of them twice. -/
theorem nodup_rangesBelow (n : ℕ) : (rangesBelow n).Nodup :=
  List.nodup_reverse.mpr (List.nodup_range.map fun _ _ h => Mutex.range.inj h)

/-- The guards an exception of a rebuild passes are those of the mutexes the thread holds. -/
theorem RebuildPc.throws_held {pc : RebuildPc} {held : List Mutex} (h : pc.throws cfg = some held)
    (caller : Caller) (snapshot : Counters UInt64) :
    held.Nodup ∧ ∀ x, x ∈ held ↔ (Loc.rebuild caller snapshot pc).Holds cfg x := by
  cases pc with
  | gainLock =>
      cases h
      refine ⟨List.nodup_nil, fun x => ?_⟩
      cases x <;> exact iff_of_false List.not_mem_nil id
  | keep pc =>
      cases pc with
      | lockStats =>
          cases h
          refine ⟨List.nodup_singleton _, fun x => ?_⟩
          cases x <;> simp [Loc.Holds, Loc.phase, RebuildPc.phase, Phase.Holds, Loc.HoldsPartitions,
            RebuildPc.HoldsPartitions, Loc.HoldsStats, RebuildPc.HoldsStats]
      | _ => contradiction
  | lockAll next =>
      cases h
      refine ⟨nodup_rangesBelow next, fun x => ?_⟩
      rw [mem_rangesBelow]
      cases x <;> simp [Loc.Holds, Loc.phase, RebuildPc.phase, Phase.Holds, Loc.HoldsPartitions,
        RebuildPc.HoldsPartitions, Loc.HoldsStats, RebuildPc.HoldsStats]
  | publish pc =>
      cases pc with
      | lockPartitions =>
          cases h
          refine ⟨nodup_rangesBelow cfg.kLockCnt, fun x => ?_⟩
          rw [mem_rangesBelow]
          cases x <;> simp [Loc.Holds, Loc.phase, RebuildPc.phase, PublishPc.phase, Phase.Holds,
            Loc.HoldsPartitions, RebuildPc.HoldsPartitions, Loc.HoldsStats, RebuildPc.HoldsStats]
      | lockStats =>
          cases h
          refine ⟨List.nodup_cons.mpr ⟨?_, nodup_rangesBelow cfg.kLockCnt⟩, fun x => ?_⟩
          · rw [mem_rangesBelow]
            rintro ⟨i, -, hi⟩
            exact Mutex.noConfusion hi
          · rw [List.mem_cons, mem_rangesBelow]
            cases x <;> simp [Loc.Holds, Loc.phase, RebuildPc.phase, PublishPc.phase, Phase.Holds,
              Loc.HoldsPartitions, RebuildPc.HoldsPartitions, Loc.HoldsStats, RebuildPc.HoldsStats]
      | _ => contradiction
  | _ => contradiction

/-- Those of a query are those of its segment. -/
theorem QueryPc.throws_held {pc : QueryPc} {held : List ℕ} (h : pc.throws = some held)
    (left right : ℕ) :
    (held.map Mutex.range).Nodup ∧
      ∀ x, x ∈ held.map Mutex.range ↔ (Loc.query left right pc).Holds cfg x := by
  have hsegment : ∀ first count, ((unlockAll first count).map Mutex.range).Nodup := fun _ _ =>
    (nodup_unlockAll ..).map fun _ _ heq => Mutex.range.inj heq
  cases pc with
  | acquire epoch lockStart lockEnd index =>
      cases h
      refine ⟨hsegment .., fun x => ?_⟩
      cases x with
      | range i =>
          rw [List.mem_map_of_injective fun _ _ heq => Mutex.range.inj heq, mem_unlockAll]
          simp only [Loc.Holds, Loc.phase, QueryPc.phase, Phase.Holds]
          omega
      | _ => simp [Loc.Holds, Loc.HoldsPartitions, Loc.HoldsStats]
  | inside lockStart lockEnd pc =>
      cases pc with
      | func =>
          cases h
          refine ⟨hsegment .., fun x => ?_⟩
          cases x with
          | range i =>
              rw [List.mem_map_of_injective fun _ _ heq => Mutex.range.inj heq, mem_unlockAll]
              simp only [Loc.Holds, Loc.phase, QueryPc.phase, Phase.Holds]
              omega
          | _ => simp [Loc.Holds, Loc.HoldsPartitions, Loc.HoldsStats]
      | _ => contradiction
  | _ => contradiction

/-- A guard that is destroyed unlocks its mutex. -/
theorem owner_release (m : Mem Client) (x : Mutex) :
    (m.release x).owner = Function.update m.owner x none := by
  funext y
  cases x with
  | range i =>
      cases y with
      | range j => simp [Mem.release, Mem.unlock, Mem.owner, Function.update_apply]
      | _ => rfl
  | _ => cases y <;> rfl

section Runs

variable [DecidableEq Client]

/-- An exception gives back the mutexes of its thread. -/
theorem guarded : (queryExceptions cfg).Guarded (machine cfg Client) Mem.owner
    (fun l => l.Holds cfg) (Loc.InLoop cfg) where
  free x := by cases x <;> rfl
  start _ := ⟨trivial, fun x => by cases x <;> exact id⟩
  keep := advance_inLoop cfg
  move := advance_owner cfg
  throws {d m l m' held} h := by
    cases l with
    | query left right pc =>
        obtain ⟨held', hpc, heq⟩ := Option.map_eq_some_iff.mp h
        cases heq
        exact ⟨rfl, QueryPc.throws_held hpc left right⟩
    | rebuild caller snapshot pc =>
        cases caller with
        | rebuildNow =>
            obtain ⟨held', hpc, heq⟩ := Option.map_eq_some_iff.mp h
            cases heq
            exact ⟨rfl, RebuildPc.throws_held hpc .rebuildNow snapshot⟩
        | rebuilder => contradiction
    | _ => contradiction
  unlock x m := owner_release m x

/-! ## neutrality -/

theorem implements : Implements (queryExceptions cfg) (machine cfg Client) Mutex.range Loc.isIdle
    Loc.acts Loc.raises Mutex.unlocks (Loc.AtPoint cfg) where
  act := at_advance
  raise _ hp _ h := .inl (at_throws hp h)
  unlocks_range _ := rfl
  unlocks_other {x} h := by
    cases x with
    | range i => exact absurd rfl (h i)
    | _ => rfl

/-- Every call of `WriteQuery` is neutral. -/
theorem neutral_of_calling {r : Program.Run (throwing cfg Client)} {t : Tid Client}
    {a n left right : ℕ}
    (h : r.Calling t a n (.run .idle) (enterQuery cfg left right)
      fun l => l.inOperation Loc.isIdle) :
    Neutral (r.log queryEvents t a n) (fun i => (r.states n).mem.locks i = some t)
      ((r.states n).loc t = .run .idle ∨ (r.states n).loc t = .thrown ∨
        ∃ l, (r.states n).loc t = .run l ∧ l.Spins)
      ((r.states n).loc t = .run .idle ∧ 1 ≤ cfg.arraySize) := by
  have hrest : ∀ l p, Loc.AtPoint cfg l p → l = .idle ∨ l.Spins → p.AtRest := by
    rintro l p hp (rfl | hspins)
    · rcases hp with rfl | ⟨-, rfl⟩ <;> trivial
    · cases l with
      | query left right pc =>
          obtain ⟨-, rfl⟩ := hp
          cases pc with
          | pauseLoad => trivial
          | epochLoad => trivial
          | _ => exact hspins.elim
      | _ => exact hspins.elim
  have hreturned : ∀ l p, Loc.AtPoint cfg l p → l = .idle ∧ 1 ≤ cfg.arraySize →
      p = .finished .returned := by
    rintro l p hp ⟨rfl, hsize⟩
    exact hp.resolve_right fun hempty => by omega
  refine (implements.neutral guarded (fun _ _ heq => Mutex.range.inj heq) holds_iff_of_at hrest
    hreturned (fun _ _ _ => at_enter) h).imp ?_ fun hend => ⟨.idle, hend.1, rfl, hend.2⟩
  rintro (hend | hend | ⟨l, hend, hspins⟩)
  · rw [hend]
    exact .inl rfl
  · rw [hend]
    trivial
  · rw [hend]
    exact .inr hspins

end Runs

end DynamicLock
end DynLocks
