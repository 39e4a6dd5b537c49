import DynLocks.Dynamic.Protocol

/-!
# DynLocks.Dynamic.Exclusion

Mutual exclusion of `DynamicLock` over repartitioning: the machine simulates
the protocol (`Safe.simulates`), so the protocol's invariant holds in every
reachable state, and with it what `writeQuery_exclusive` says.
-/

namespace DynLocks
namespace DynamicLock

open Interleaving EpochTable

variable {Client : Type} (cfg : Config)

/-! ## the invariant of the machine -/

/-- No publisher works without the range locks. -/
theorem Loc.phase_ne (l : Loc) : l.phase cfg ≠ .publishing false := by
  cases l with
  | query left right pc => cases pc <;> exact Phase.noConfusion
  | rebuild caller snapshot pc =>
      cases pc with
      | publish pc => cases pc <;> simp [Loc.phase, RebuildPc.phase, PublishPc.phase]
      | _ => exact Phase.noConfusion
  | _ => exact Phase.noConfusion

/-- What a thread knows depends on the memory only while it rewrites the table. -/
theorem Local.frame {m m' : Mem Client} {l : Loc} (h : Local cfg m l)
    (hsame : (l.phase cfg).Publishing →
      m'.partitions = m.partitions ∧ m'.blockToLock = m.blockToLock) : Local cfg m' l := by
  cases l with
  | rebuild caller snapshot pc =>
      cases pc with
      | publish pc =>
          cases pc with
          | refresh block lockIndex =>
              obtain ⟨hpartitions, htable⟩ := hsame trivial
              simpa only [Local, hpartitions, htable] using h
          | epochClose =>
              obtain ⟨hpartitions, htable⟩ := hsame trivial
              simpa only [Local, hpartitions, htable] using h
          | _ => trivial
      | lockAll next => exact h
      | _ => trivial
  | query left right pc => exact h
  | _ => trivial

/-- The invariant of the protocol, and what each thread knows. -/
structure Safe (s : State (Tid Client) (Mem Client) Loc) : Prop where
  inv : Inv (layout cfg) (abs cfg s)
  locals : ∀ t, Local cfg s.mem (s.loc t)

section Facts

variable {cfg} {s : State (Tid Client) (Mem Client) Loc} {t u : Tid Client}

/-- The thread that holds every range lock starts from an even epoch. -/
theorem Safe.even (h : Safe cfg s)
    (ht : (s.loc t).phase cfg = .grabbing cfg.kLockCnt) : s.mem.partitionEpoch % 2 = 0 :=
  h.inv.even_of_grabbing ht fun u => (s.loc u).phase_ne cfg

/-- Two threads that both hold every range lock are one. -/
theorem Safe.unique (h : Safe cfg s)
    (ht : ∀ i < cfg.kLockCnt, ((s.loc t).phase cfg).Holds (layout cfg) i)
    (hu : ∀ i < cfg.kLockCnt, ((s.loc u).phase cfg).Holds (layout cfg) i) : t = u :=
  (h.inv.owned 0).unique (ht 0 cfg.kLockCnt_pos) (hu 0 cfg.kLockCnt_pos)

theorem holds_of_publishing {l : Loc} (h : (l.phase cfg).Publishing) :
    ∀ i < cfg.kLockCnt, (l.phase cfg).Holds (layout cfg) i := by
  intro i hi
  have hne := l.phase_ne cfg
  cases hphase : l.phase cfg with
  | publishing locked =>
      cases locked with
      | true => exact hi
      | false => exact absurd hphase hne
  | _ => rw [hphase] at h; exact h.elim

end Facts

section Machine

variable [DecidableEq Client]

theorem safe_initial : Safe cfg (machine cfg Client).initial where
  inv := by
    apply Init.inv
    have htable : ∀ b < cfg.kBlocks, (initMem cfg : Mem Client).blockToLock b =
        lockOfBlock cfg.kLockCnt cfg.initialPartitions b := fun b hb => refreshTable_apply _ _ _ hb
    exact ⟨fun i => rfl, good_of_lockOfBlock cfg htable, rfl, fun t => rfl⟩
  locals _ := trivial

variable {cfg} {s s' : State (Tid Client) (Mem Client) Loc}

/-- A step of the machine is a step of the protocol or leaves it alone. -/
theorem Safe.simulates (h : Safe cfg s) {t : Tid Client}
    (hstep : (machine cfg Client).StepBy t s s') :
    abs cfg s' = abs cfg s ∨ EpochTable.Step (layout cfg) (abs cfg s) (abs cfg s') := by
  obtain ⟨⟨a, ha⟩, hframe⟩ := advance_of_stepBy hstep
  have hmove := advance_move cfg (EpochTable.Quiet (abs cfg s)) (h.locals t) (h.inv.fresh t) h.even
    ha
  exact step_of_move hmove hframe

/-- While a thread rewrites the table, no other thread touches the partition. -/
theorem Safe.same_partition (h : Safe cfg s) {t u : Tid Client} (hu : u ≠ t)
    (hstep : (machine cfg Client).StepBy u s s') (ht : ((s.loc t).phase cfg).Publishing) :
    s'.mem.partitions = s.mem.partitions ∧ s'.mem.blockToLock = s.mem.blockToLock := by
  obtain ⟨⟨a, ha⟩, -⟩ := advance_of_stepBy hstep
  have hother : ¬((s.loc u).phase cfg).Publishing := fun hpub => hu (h.inv.unique u t hpub ht)
  constructor
  · rcases advance_partitions cfg ha with hsame | ⟨caller, snapshot, hloc, -, -⟩
    · exact hsame
    · have hut : u = t := h.unique (by rw [hloc]; exact fun i hi => hi) (holds_of_publishing ht)
      exact absurd hut hu
  · rcases advance_move cfg (EpochTable.Quiet (abs cfg s)) (h.locals u) (h.inv.fresh u) h.even ha
      with ⟨hmem, -⟩ | hmove
    · exact congrArg EpochTable.Mem.table hmem
    · exact hmove.table_eq hother

theorem Safe.step (h : Safe cfg s) (hstep : (machine cfg Client).Step s s') : Safe cfg s' := by
  obtain ⟨t, ht⟩ := hstep
  obtain ⟨⟨a, ha⟩, hframe⟩ := advance_of_stepBy ht
  refine ⟨?_, fun u => ?_⟩
  · rcases h.simulates ht with heq | hmove
    · rw [heq]; exact h.inv
    · exact h.inv.step hmove
  · by_cases hu : u = t
    · rw [hu]; exact advance_local cfg (h.locals t) ha
    · rw [hframe u hu]
      exact (h.locals u).frame cfg (h.same_partition (Ne.symm hu) ht)

theorem safe_of_reachable (h : (machine cfg Client).Reachable s) : Safe cfg s :=
  h.invariant (safe_initial cfg) fun _ _ _ hsafe hstep => hsafe.step hstep

/-! ## mutual exclusion -/

/-- Thread `t` is inside `func`, called on the clamped range `[left, right]`. -/
def InFunc (s : State (Tid Client) (Mem Client) Loc) (t : Tid Client) (left right : ℕ) : Prop :=
  ∃ lockStart lockEnd, s.loc t = .query left right (.inside lockStart lockEnd .func)

omit [DecidableEq Client] in
theorem InFunc.inside (cfg : Config) {t : Tid Client} {left right : ℕ} (h : InFunc s t left right) :
    ∃ lockStart lockEnd, (abs cfg s).loc t =
      .inside (cfg.positionToBlock left) (cfg.positionToBlock right) lockStart lockEnd := by
  obtain ⟨lockStart, lockEnd, hloc⟩ := h
  exact ⟨lockStart, lockEnd, by simp only [abs, hloc]; rfl⟩

omit [DecidableEq Client] in
/-- `func` runs on a range of the array. -/
theorem Safe.range (hsafe : Safe cfg s) {t : Tid Client} {left right : ℕ}
    (h : InFunc s t left right) : left ≤ right ∧ right < cfg.arraySize := by
  obtain ⟨lockStart, lockEnd, hloc⟩ := h
  have hlocal := hsafe.locals t
  rw [hloc] at hlocal
  exact ⟨hlocal.1, hlocal.2.1⟩

omit [DecidableEq Client] in
/-- Two threads inside `func` work on disjoint ranges: a shared position would lie in a shared
block. -/
theorem Safe.disjoint (hsafe : Safe cfg s) {t u : Tid Client} {left right left' right' : ℕ}
    (ht : InFunc s t left right) (hu : InFunc s u left' right') (hne : t ≠ u) :
    right < left' ∨ right' < left := by
  obtain ⟨first, last, ht'⟩ := ht.inside cfg
  obtain ⟨first', last', hu'⟩ := hu.inside cfg
  exact hsafe.inv.disjoint cfg.positionToBlock_mono ht' hu' (hsafe.range ht).1 (hsafe.range hu).1
    hne

/-- **Mutual exclusion over repartitioning**: in every reachable state two threads inside `func`
work on disjoint ranges; a thread inside `func` holds the lock that the table names for each
block of its range, and no step changes the table meanwhile. -/
theorem writeQuery_exclusive (hs : (machine cfg Client).Reachable s) :
    (∀ t u left right left' right', InFunc s t left right → InFunc s u left' right' → t ≠ u →
        right < left' ∨ right' < left) ∧
      ∀ t left right, InFunc s t left right →
        left ≤ right ∧ right < cfg.arraySize ∧
          (∀ b, cfg.positionToBlock left ≤ b → b ≤ cfg.positionToBlock right →
            s.mem.locks (s.mem.blockToLock b) = some t) ∧
          ∀ s', (machine cfg Client).Step s s' → s'.mem.blockToLock = s.mem.blockToLock := by
  have hsafe := safe_of_reachable hs
  constructor
  · intro t u left right left' right' ht hu hne
    exact hsafe.disjoint ht hu hne
  · intro t left right ht
    obtain ⟨first, last, ht'⟩ := ht.inside cfg
    obtain ⟨hle, hlt⟩ := hsafe.range ht
    refine ⟨hle, hlt, fun b hlo hhi => hsafe.inv.holds ht' hlo hhi, ?_⟩
    rintro s' ⟨u, hu⟩
    rcases hsafe.simulates hu with heq | hstep
    · exact congrArg (fun x => x.mem.table) heq
    · exact hsafe.inv.table_eq hstep (by rw [ht']; trivial)

end Machine

/-- A small lock: two blocks of one position each. -/
def twoBlocks : Config := { twoLocks with kBlocks := 2, arraySize := 2, kBlocks_pos := Nat.two_pos }

/-- A client calls `WriteQuery(pos, pos)` and goes as far as `func`. -/
def intoFunc {Client : Type} (c : Client) (pos : ℕ) : List (Tid Client × Act) :=
  (.client c, .call (.writeQuery pos pos)) :: List.replicate 7 (.client c, .step) ++
    [(.client c, .elapsed 0 false), (.client c, .step), (.client c, .step)]

theorem isSome_exec_intoFunc :
    ((machine twoBlocks (Fin 2)).exec (intoFunc 0 0 ++ intoFunc 1 1)
      (machine twoBlocks (Fin 2)).initial).isSome :=
  rfl

/-- Two clients inside `func` at the same time, each on a block of its own. -/
theorem writeQuery_exclusive_two_clients :
    let s := ((machine twoBlocks (Fin 2)).exec (intoFunc 0 0 ++ intoFunc 1 1)
      (machine twoBlocks (Fin 2)).initial).get isSome_exec_intoFunc
    (InFunc s (.client 0) 0 0 ∧ InFunc s (.client 1) 1 1 ∧ (0 < 1 ∨ 1 < 0)) ∧
      s.mem.locks (s.mem.blockToLock 1) = some (.client 1) := by
  intro s
  have hs : (machine twoBlocks (Fin 2)).Reachable s :=
    Program.reachable_exec .init (Option.some_get isSome_exec_intoFunc).symm
  have h0 : InFunc s (.client 0) 0 0 := ⟨0, 0, rfl⟩
  have h1 : InFunc s (.client 1) 1 1 := ⟨1, 1, rfl⟩
  obtain ⟨hdisjoint, hholds⟩ := writeQuery_exclusive hs
  exact ⟨⟨h0, h1, hdisjoint _ _ _ _ _ _ h0 h1 (by decide)⟩,
    (hholds _ _ _ h1).2.2.1 1 (by decide) (by decide)⟩

end DynamicLock
end DynLocks
