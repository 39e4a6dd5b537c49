import DynLocks.Lib.Exceptions
import DynLocks.Dynamic.Mutexes
import DynLocks.Dynamic.Rebuild

/-!
# DynLocks.Dynamic.Failure

Exceptions in `RebuildPartitions`.  Everything that may throw comes after the
exchange of `rebuild_flag_`, which no guard takes back: once an exception has
left it, the flag stays up (`rebuildFlag_of_thrown`).
-/

namespace DynLocks
namespace DynamicLock

open Interleaving

variable {Client : Type} (cfg : Config)

/-! ## where exceptions are raised -/

/-- The range mutexes below `n`, in the order in which `UnlockAll` gives them back. -/
def rangesBelow (n : ℕ) : List Mutex := ((List.range n).map .range).reverse

/-- Give a mutex back. -/
def Mem.release (m : Mem Client) : Mutex → Mem Client
  | .range i => m.unlock i
  | .partitions => { m with partitionsMutex := none }
  | .stats => { m with statsMutex := none }

/-- Every `lock()` of `RebuildPartitions` may throw, and so may the allocations of its tables, which
are made before the first of them; no guard stands around those. -/
def RebuildPc.throws : RebuildPc → Option (List Mutex)
  | .gainLock => some []
  | .keep .lockStats => some [.partitions]
  | .lockAll next => some (rangesBelow next)
  | .publish .lockPartitions => some (rangesBelow cfg.kLockCnt)
  | .publish .lockStats => some (.partitions :: rangesBelow cfg.kLockCnt)
  | _ => none

/-- The exceptions of `RebuildNow`. -/
def exceptions : Exceptions (Mem Client) Loc Unit Mutex where
  throws _ m
    | .rebuild .rebuildNow _ pc => (pc.throws cfg).map fun held => (m, held)
    | _ => none
  unlock x m := m.release x

/-- Inside the call of `RebuildPartitions` that `RebuildNow` makes. -/
def Loc.InRebuildNow : Loc → Prop
  | .rebuild .rebuildNow _ _ => True
  | _ => False

/-- The lock is as usable after a failed rebuild of thread `t` as it was before. -/
structure Usable (t : Tid Client) (before after : Mem Client) : Prop where
  mutexes : ∀ x, after.owner x ≠ some t
  pause : after.pauseQueries = false
  flag : after.rebuildFlag = false
  epoch : after.partitionEpoch % 2 = 0
  table : after.blockToLock = before.blockToLock
  cuts : after.partitions = before.partitions

/-! ## the flag -/

/-- Between the exchange and the store that clears the flag, or thrown out from there. -/
def InFlagOrThrown : ExcLoc Loc Mutex → Prop
  | .run l => l.InFlag
  | _ => True

variable {cfg}

/-- Everything that throws is inside the flag. -/
theorem RebuildPc.inFlag_of_throws {pc : RebuildPc} {held : List Mutex}
    (h : pc.throws cfg = some held) : pc.InFlag := by
  cases pc with
  | keep pc =>
      cases pc with
      | lockStats => trivial
      | _ => contradiction
  | publish pc =>
      cases pc with
      | lockPartitions => trivial
      | lockStats => trivial
      | _ => contradiction
  | exchange => contradiction
  | unlockAll => contradiction
  | ret => contradiction
  | _ => trivial

theorem rebuildFlag_release (m : Mem Client) (x : Mutex) :
    (m.release x).rebuildFlag = m.rebuildFlag := by
  cases x <;> rfl

variable [DecidableEq Client] {s : State (Tid Client) (Mem Client) (ExcLoc Loc Mutex)}

/-- The flag is up exactly while one thread is inside it, or has been thrown out of it. -/
theorem flag_owned_thrown
    (hs : ((exceptions cfg).program (machine cfg Client)).Reachable s) :
    FlagOwned s.mem.rebuildFlag fun t => InFlagOrThrown (s.loc t) := by
  refine hs.invariant (P := (exceptions cfg).program (machine cfg Client))
    (I := fun s => FlagOwned s.mem.rebuildFlag fun t => InFlagOrThrown (s.loc t))
    (flag_owned (.init : (machine cfg Client).Reachable _)) ?_
  intro s s' _ howned ⟨t, ht⟩
  obtain ⟨⟨a, ha⟩, hframe⟩ := ht.elim
  refine howned.move ?_ fun u hu => by rw [hframe u hu]
  have hmove := Exceptions.move_of_advance ha
  generalize s.loc t = l at hmove ⊢
  generalize s'.loc t = l' at hmove ⊢
  generalize s.mem = m at hmove ⊢
  generalize s'.mem = m' at hmove ⊢
  cases hmove with
  | act hadvance => exact flagMove_advance hadvance
  | @raise _ _ _ l held hthrows =>
      cases l with
      | rebuild caller snapshot pc =>
          cases caller with
          | rebuildNow =>
              obtain ⟨held', hpc, heq⟩ := Option.map_eq_some_iff.mp hthrows
              cases heq
              have hin : pc.InFlag := RebuildPc.inFlag_of_throws hpc
              exact .keep ⟨fun _ => hin, fun _ => by cases held <;> trivial⟩
          | rebuilder => contradiction
      | _ => contradiction
  | @unlock m x held =>
      change FlagMove m.rebuildFlag True (m.release x).rebuildFlag _
      rw [rebuildFlag_release]
      exact .keep ⟨fun _ => trivial, fun _ => by cases held <;> trivial⟩

/-- Once an exception has left `RebuildPartitions`, the flag is up for good. -/
theorem rebuildFlag_of_thrown
    (hs : ((exceptions cfg).program (machine cfg Client)).Reachable s) {t : Tid Client}
    (ht : s.loc t = .thrown) : s.mem.rebuildFlag = true := by
  obtain ⟨own, hflag, howned⟩ := flag_owned_thrown hs
  have hin : InFlagOrThrown (s.loc t) := by rw [ht]; trivial
  rw [hflag, (howned t).mpr hin]
  rfl

end DynamicLock
end DynLocks
