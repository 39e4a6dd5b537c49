import DynLocks.Lib.Attempts
import DynLocks.Genetic.Failure
import DynLocks.Genetic.LockOrder

/-!
# DynLocks.Genetic.Unwinding

Exceptions of `GeneticLock::WriteQuery`: every `lock()` may throw, and so may
`func`; once the range mutexes are unlocked, so may the sampling of the query.
They come on top of those of `ObserveBatch`.

Every call of `WriteQuery` is neutral on the range mutexes
(`neutral_of_calling`).
-/

namespace DynLocks
namespace GeneticLock

open Interleaving Attempts

variable {Client G : Type} (cfg : Config)

/-! ## where exceptions are raised -/

/-- The mutexes that the guard of `WriteQuery` unlocks when a `lock()` of its constructor, or `func`
under it, throws. -/
def QueryPc.throws : QueryPc → Option (List ℕ)
  | .acquire _ firstLock _ index => some (unlockAll firstLock (index - firstLock))
  | .inside firstLock lastLock .func => some (unlockAll firstLock (lastLock + 1 - firstLock))
  | _ => none

/-- `EnqueueTrainingSample` locks `pending_mutex_` and lets two vectors grow, the second under
it. -/
def SamplePc.throws : SamplePc → Option (List Mutex)
  | .enqueue => some []
  | .lockPending => some []
  | .insert => some [.pending]
  | _ => none

/-- The exceptions of `WriteQuery`, and those of `ObserveBatch` in the threads around it. -/
def queryExceptions : Exceptions (Mem Client G) Loc (GeneticPartitioner.State × G) Mutex where
  throws d m l :=
    match l with
    | .query _ _ pc => pc.throws.map fun held => (m, held.map .range)
    | .sample _ pc => pc.throws.map fun held => (m, held)
    | l => (exceptions cfg).throws d m l
  unlock := (exceptions cfg).unlock

/-- What a step does that does not throw. -/
def Loc.acts : Loc → Loc → List Attempts.Event
  | .query _ _ (.rightLoad _ _), .query _ _ (.acquire _ firstLock lastLock _) =>
      [.segment firstLock lastLock]
  | .query _ _ (.acquire _ _ _ index), _ => [.lock index]
  | .query _ _ (.retry firstLock locked), _ => [.unlock (firstLock + (locked - 1))]
  | .query _ _ (.inside _ _ .func), _ => [.call]
  | .query _ _ (.release firstLock locked), _ => [.unlock (firstLock + (locked - 1))]
  | _, _ => []

/-- What a step has done that throws; the sampling has nothing to do with the range mutexes. -/
def Loc.raises : Loc → List Attempts.Event
  | .query _ _ (.acquire _ _ _ _) => [.raise]
  | .query _ _ (.inside _ _ .func) => [.call, .raise]
  | _ => []

/-- What the guard of a mutex does to the range mutexes. -/
def Mutex.unlocks : Mutex → List Attempts.Event
  | .range i => [.unlock i]
  | _ => []

/-- What a thread does to the range mutexes and to `func`. -/
def queryEvents : ExcLoc Loc Mutex → ExcLoc Loc Mutex → List Attempts.Event :=
  ExcLoc.events Loc.acts Loc.raises Mutex.unlocks

/-- A `GeneticLock` whose clients may handle exceptions and go on. -/
abbrev throwing (std : GeneticPartitioner.StdLib G) (seed : G) (Client : Type)
    [DecidableEq Client] :
    Program (Tid Client) (Option (ExcAct Act (GeneticPartitioner.State × G))) (Mem Client G)
      (ExcLoc Loc Mutex) :=
  (queryExceptions cfg).handled (machine cfg std seed Client)

/-- Call `WriteQuery`. -/
def enterQuery (left right : ℕ) (m : Mem Client G) : Option (Mem Client G × ExcLoc Loc Mutex) :=
  (enter cfg m (.writeQuery left right)).map fun x => (x.1, .run x.2)

/-! ## the points of the operation -/

/-- Where a query is. -/
def QueryPc.point : QueryPc → Point
  | .acquire _ firstLock lastLock index => .taking firstLock lastLock index
  | .epochCheck _ firstLock lastLock => .taking firstLock lastLock (lastLock + 1)
  | .retry firstLock count => .dropping .retried firstLock count
  | .inside firstLock lastLock _ => .taking firstLock lastLock (lastLock + 1)
  | .release firstLock count => .dropping .returned firstLock count
  | _ => .between

def Loc.AtPoint : Loc → Point → Prop
  | .idle, p => p = .finished .returned ∨ cfg.arraySize = 0 ∧ p = .between
  | .query _ _ pc, p => pc.Bounded ∧ p = pc.point
  | .sample _ _, p => p = .finished .returned
  | _, _ => False

variable {cfg}

/-- A query that starts has not picked a segment. -/
theorem at_enter {left right : ℕ} {m m' : Mem Client G} {l' : Loc}
    (h : enter cfg m (.writeQuery left right) = some (m', l')) :
    ∃ p, l'.AtPoint cfg p ∧ Point.Step .between (Loc.acts .idle l') p := by
  simp only [enter] at h
  split at h
  · next hsize =>
      cases h
      exact ⟨.between, .inr ⟨hsize, rfl⟩, .stay⟩
  · cases h
    exact ⟨.between, ⟨trivial, rfl⟩, .stay⟩

/-- The locked part of a query ends with `func`. -/
theorem insideStep_next {a : Act} {m m' : Mem Client G} {pc : InsidePc} {r : Option InsidePc}
    (h : insideStep a m pc = some (m', r)) :
    pc = .func ∧ r = none ∨ pc ≠ .func ∧ ∃ pc', r = some pc' := by
  cases pc with
  | func => cases h; exact .inl ⟨rfl, rfl⟩
  | durationCas current =>
      cases a with
      | elapsed delta spurious =>
          simp only [insideStep] at h
          split at h
          · cases h; exact .inr ⟨by simp, _, rfl⟩
          · cases h; exact .inr ⟨by simp, _, rfl⟩
      | _ => contradiction
  | _ => cases h; exact .inr ⟨by simp, _, rfl⟩

/-- A step of a query is one of the operation. -/
theorem at_queryStep [DecidableEq Client] {t : Tid Client} {a : Act} {m m' : Mem Client G}
    {left right : ℕ} {pc : QueryPc} {r : Option QueryPc} (hpc : pc.Bounded)
    (h : queryStep cfg t a m left right pc = some (m', r)) :
    ∃ p', (afterQuery left right r).AtPoint cfg p' ∧
      pc.point.Step (Loc.acts (.query left right pc) (afterQuery left right r)) p' := by
  cases pc with
  | pauseLoad =>
      cases h
      dsimp only [afterQuery]
      split <;> exact ⟨.between, ⟨trivial, rfl⟩, .stay⟩
  | epochLoad =>
      cases h
      dsimp only [afterQuery]
      split <;> exact ⟨.between, ⟨trivial, rfl⟩, .stay⟩
  | leftLoad epoch => cases h; exact ⟨.between, ⟨trivial, rfl⟩, .stay⟩
  | rightLoad epoch firstLock =>
      cases h
      dsimp only [afterQuery]
      split
      · exact ⟨.between, ⟨trivial, rfl⟩, .stay⟩
      · next hge => exact ⟨_, ⟨⟨Nat.le_refl _, Nat.not_lt.mp hge⟩, rfl⟩, .pick (Nat.not_lt.mp hge)⟩
  | acquire epoch firstLock lastLock index =>
      obtain ⟨hfirst, hlast⟩ := hpc
      simp only [queryStep] at h
      split at h
      · cases h
        dsimp only [afterQuery]
        split
        · next heq =>
            refine ⟨_, ⟨Nat.le_trans hfirst hlast, rfl⟩, ?_⟩
            rw [← heq]
            exact .take (Nat.le_refl _)
        · next hne =>
            exact ⟨_, ⟨⟨Nat.le_succ_of_le hfirst, Nat.lt_of_le_of_ne hlast hne⟩, rfl⟩,
              .take hlast⟩
      · contradiction
  | epochCheck epoch firstLock lastLock =>
      have hle : firstLock ≤ lastLock := hpc
      cases h
      dsimp only [afterQuery]
      split
      · exact ⟨_, ⟨Nat.sub_pos_of_lt (Nat.lt_succ_of_le hle), rfl⟩, .retried hle⟩
      · exact ⟨_, ⟨hle, rfl⟩, .stay⟩
  | retry firstLock count =>
      obtain ⟨n, rfl⟩ := Nat.exists_eq_succ_of_ne_zero (Nat.ne_of_gt hpc)
      cases h
      refine ⟨Point.drop .retried firstLock n, ?_, .unlock⟩
      cases n with
      | zero => exact ⟨trivial, rfl⟩
      | succ n => exact ⟨Nat.succ_pos n, rfl⟩
  | inside firstLock lastLock pc =>
      have hle : firstLock ≤ lastLock := hpc
      simp only [queryStep, Option.map_eq_some_iff, Prod.mk.injEq] at h
      obtain ⟨⟨m'', r'⟩, hinside, rfl, rfl⟩ := h
      rcases insideStep_next hinside with ⟨rfl, rfl⟩ | ⟨hne, pc', rfl⟩
      · exact ⟨_, ⟨Nat.sub_pos_of_lt (Nat.lt_succ_of_le hle), rfl⟩, .returned hle⟩
      · refine ⟨_, ⟨hle, rfl⟩, ?_⟩
        cases pc with
        | func => contradiction
        | _ => exact .stay
  | release firstLock count =>
      obtain ⟨n, rfl⟩ := Nat.exists_eq_succ_of_ne_zero (Nat.ne_of_gt hpc)
      cases h
      refine ⟨Point.drop .returned firstLock n, ?_, .unlock⟩
      cases n with
      | zero => exact rfl
      | succ n => exact ⟨Nat.succ_pos n, rfl⟩

/-- A step of a call is one of the operation. -/
theorem at_advance [DecidableEq Client] {std : GeneticPartitioner.StdLib G} {t : Tid Client}
    {a : Act} {m m' : Mem Client G} {l l' : Loc} {p : Point} (hl : l.isIdle = false)
    (hp : l.AtPoint cfg p) (h : advance cfg std t a m l = some (m', l')) :
    ∃ p', l'.AtPoint cfg p' ∧ p.Step (l.acts l') p' := by
  cases l with
  | idle => contradiction
  | query left right pc =>
      obtain ⟨hpc, rfl⟩ := hp
      simp only [advance, Option.map_eq_some_iff, Prod.mk.injEq] at h
      obtain ⟨⟨m'', r⟩, hstep, rfl, rfl⟩ := h
      exact at_queryStep hpc hstep
  | sample query pc =>
      obtain rfl : p = _ := hp
      simp only [advance, Option.map_eq_some_iff, Prod.mk.injEq] at h
      obtain ⟨⟨m'', r⟩, -, rfl, rfl⟩ := h
      refine ⟨.finished .returned, ?_, .stay⟩
      cases r with
      | none => exact .inl rfl
      | some pc' => exact rfl
  | _ => exact hp.elim

/-- An exception of a call is one of the operation, or comes after it. -/
theorem at_throws {d : GeneticPartitioner.State × G} {m m' : Mem Client G} {l : Loc}
    {held : List Mutex} {p : Point} (hl : l.isIdle = false) (hp : l.AtPoint cfg p)
    (h : (queryExceptions cfg).throws d m l = some (m', held)) :
    (∃ outcome first count, outcome.Throws ∧
      held = (List.range' first count).reverse.map .range ∧
        p.Step l.raises (.drop outcome first count)) ∨
    (∀ i, Mutex.range i ∉ held) ∧ l.raises = [] ∧ p = .finished .returned := by
  cases l with
  | idle => contradiction
  | query left right pc =>
      obtain ⟨hpc, rfl⟩ := hp
      cases pc with
      | acquire epoch firstLock lastLock index =>
          cases h
          refine .inl ⟨.lockThrew, firstLock, index - firstLock, .inl rfl, ?_, .fail hpc.2⟩
          rw [unlockAll_eq]
      | inside firstLock lastLock pc =>
          cases pc with
          | func =>
              cases h
              refine .inl ⟨.callThrew, firstLock, lastLock + 1 - firstLock, .inr rfl, ?_,
                .callThrew ..⟩
              rw [unlockAll_eq]
          | _ => contradiction
      | _ => contradiction
  | sample query pc =>
      obtain rfl : p = _ := hp
      refine .inr ⟨fun i => ?_, rfl, rfl⟩
      cases pc with
      | enqueue => cases h; exact List.not_mem_nil
      | lockPending => cases h; exact List.not_mem_nil
      | insert => cases h; simp
      | _ => contradiction
  | _ => exact hp.elim

theorem holds_iff_of_at (l : Loc) (p : Point) (i : ℕ) (hp : l.AtPoint cfg p)
    (hbounded : p.Bounded) : l.Holds cfg (.range i) ↔ i ∈ p.held := by
  cases l with
  | idle =>
      rcases hp with rfl | ⟨-, rfl⟩
      · exact iff_of_false id List.not_mem_nil
      · exact iff_of_false id List.not_mem_nil
  | query left right pc =>
      obtain ⟨-, rfl⟩ := hp
      cases pc with
      | acquire epoch firstLock lastLock index =>
          obtain ⟨-, hfirst, -⟩ := hbounded
          rw [QueryPc.point, Point.held, List.mem_range'_1]
          simp only [Loc.Holds, Loc.HoldsRange, QueryPc.Holds]
          omega
      | epochCheck epoch firstLock lastLock =>
          obtain ⟨hle, -, -⟩ := hbounded
          rw [QueryPc.point, Point.held, List.mem_range'_1]
          simp only [Loc.Holds, Loc.HoldsRange, QueryPc.Holds]
          omega
      | retry firstLock count =>
          rw [QueryPc.point, Point.held, List.mem_range'_1]
          exact Iff.rfl
      | inside firstLock lastLock pc =>
          obtain ⟨hle, -, -⟩ := hbounded
          rw [QueryPc.point, Point.held, List.mem_range'_1]
          simp only [Loc.Holds, Loc.HoldsRange, QueryPc.Holds]
          omega
      | release firstLock count =>
          rw [QueryPc.point, Point.held, List.mem_range'_1]
          exact Iff.rfl
      | _ => exact iff_of_false id List.not_mem_nil
  | sample query pc =>
      obtain rfl : p = _ := hp
      exact iff_of_false id List.not_mem_nil
  | _ => exact hp.elim

/-! ## the guards -/

/-- The guards an exception of a query passes are those of its segment. -/
theorem QueryPc.throws_held {pc : QueryPc} {held : List ℕ} (h : pc.throws = some held)
    (left right : ℕ) :
    (held.map Mutex.range).Nodup ∧
      ∀ x, x ∈ held.map Mutex.range ↔ (Loc.query left right pc).Holds cfg x := by
  have hsegment : ∀ first count, ((unlockAll first count).map Mutex.range).Nodup := fun _ _ =>
    (nodup_unlockAll ..).map fun _ _ heq => Mutex.range.inj heq
  cases pc with
  | acquire epoch firstLock lastLock index =>
      cases h
      refine ⟨hsegment .., fun x => ?_⟩
      cases x with
      | range i =>
          rw [List.mem_map_of_injective fun _ _ heq => Mutex.range.inj heq, mem_unlockAll]
          simp only [Loc.Holds, Loc.HoldsRange, QueryPc.Holds]
          omega
      | _ => simp [Loc.Holds, Loc.HoldsPending, Loc.HoldsTraining, Loc.HoldsCuts]
  | inside firstLock lastLock pc =>
      cases pc with
      | func =>
          cases h
          refine ⟨hsegment .., fun x => ?_⟩
          cases x with
          | range i =>
              rw [List.mem_map_of_injective fun _ _ heq => Mutex.range.inj heq, mem_unlockAll]
              simp only [Loc.Holds, Loc.HoldsRange, QueryPc.Holds]
              omega
          | _ => simp [Loc.Holds, Loc.HoldsPending, Loc.HoldsTraining, Loc.HoldsCuts]
      | _ => contradiction
  | _ => contradiction

/-- Those an exception of the sampling passes are at most the one of `pending_mutex_`. -/
theorem SamplePc.throws_held {pc : SamplePc} {held : List Mutex} (h : pc.throws = some held)
    (query : Query) : held.Nodup ∧ ∀ x, x ∈ held ↔ (Loc.sample query pc).Holds cfg x := by
  cases pc with
  | enqueue =>
      cases h
      refine ⟨List.nodup_nil, fun x => ?_⟩
      cases x <;> exact iff_of_false List.not_mem_nil id
  | lockPending =>
      cases h
      refine ⟨List.nodup_nil, fun x => ?_⟩
      cases x <;> exact iff_of_false List.not_mem_nil id
  | insert =>
      cases h
      refine ⟨List.nodup_singleton _, fun x => ?_⟩
      cases x <;> simp [Loc.Holds, Loc.HoldsRange, Loc.HoldsPending, SamplePc.HoldsPending,
        Loc.HoldsTraining, Loc.HoldsCuts]
  | _ => contradiction

section Runs

variable [DecidableEq Client] {std : GeneticPartitioner.StdLib G} {seed : G}

/-- An exception gives back the mutexes of its thread. -/
theorem guarded_query : (queryExceptions cfg).Guarded (machine cfg std seed Client) Mem.owner
    (fun l => l.Holds cfg) (Loc.Bounded cfg) := by
  have hbase : (exceptions cfg).Guarded (machine cfg std seed Client) Mem.owner
    (fun l => l.Holds cfg) (Loc.Bounded cfg) := guarded
  refine ⟨hbase.free, hbase.start, hbase.keep, hbase.move, ?_, hbase.unlock⟩
  intro d m l m' held h
  cases l with
  | query left right pc =>
      obtain ⟨held', hpc, heq⟩ := Option.map_eq_some_iff.mp h
      cases heq
      exact ⟨rfl, QueryPc.throws_held hpc left right⟩
  | sample query pc =>
      obtain ⟨held', hpc, heq⟩ := Option.map_eq_some_iff.mp h
      cases heq
      exact ⟨rfl, SamplePc.throws_held hpc query⟩
  | _ => exact hbase.throws (d := d) h

/-! ## neutrality -/

theorem implements : Implements (queryExceptions cfg) (machine cfg std seed Client) Mutex.range
    Loc.isIdle Loc.acts Loc.raises Mutex.unlocks (Loc.AtPoint cfg) where
  act hl hp _ h := at_advance hl hp h
  raise hl hp _ h := at_throws hl hp h
  unlocks_range _ := rfl
  unlocks_other {x} h := by
    cases x with
    | range i => exact absurd rfl (h i)
    | _ => rfl

/-- Every call of `WriteQuery` is neutral on the range mutexes. -/
theorem neutral_of_calling {r : Program.Run (throwing cfg std seed Client)} {t : Tid Client}
    {a n left right : ℕ}
    (h : r.Calling t a n (.run .idle) (enterQuery cfg left right)
      fun l => l.inOperation Loc.isIdle) :
    Neutral (r.log queryEvents t a n) (fun i => (r.states n).mem.locks i = some t)
      ((r.states n).loc t = .run .idle ∨ (r.states n).loc t = .thrown ∨
        ∃ l, (r.states n).loc t = .run l ∧ l.Spins)
      ((r.states n).loc t = .run .idle ∧ 1 ≤ cfg.arraySize) := by
  have hrest : ∀ l p, Loc.AtPoint cfg l p → l = .idle ∨ l.Spins → p.AtRest := by
    rintro l p hp (rfl | hspins)
    · rcases hp with rfl | ⟨-, rfl⟩ <;> trivial
    · cases l with
      | query left right pc =>
          obtain ⟨-, rfl⟩ := hp
          cases pc with
          | pauseLoad => trivial
          | epochLoad => trivial
          | _ => exact hspins.elim
      | count => exact hp.elim
      | _ => exact hspins.elim
  have hreturned : ∀ l p, Loc.AtPoint cfg l p → l = .idle ∧ 1 ≤ cfg.arraySize →
      p = .finished .returned := by
    rintro l p hp ⟨rfl, hsize⟩
    exact hp.resolve_right fun hempty => by omega
  refine (implements.neutral guarded_query (fun _ _ heq => Mutex.range.inj heq) holds_iff_of_at
    hrest hreturned (fun _ _ _ => at_enter) h).imp ?_ fun hend => ⟨.idle, hend.1, rfl, hend.2⟩
  rintro (hend | hend | ⟨l, hend, hspins⟩)
  · rw [hend]
    exact .inl rfl
  · rw [hend]
    trivial
  · rw [hend]
    exact .inr hspins

end Runs

end GeneticLock
end DynLocks
