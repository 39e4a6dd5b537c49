import DynLocks.Lib.Critical
import DynLocks.Lib.Drain

/-!
# DynLocks.Lib.MutexImpl

Mutexes made of smaller steps.  A program locks a mutex in one step, from free to
held; an implementation has a cell of memory for it, which `lock` visits until it
finds it free.

* `Guards` — where a program locks and unlocks its mutexes;
* `MutexImpl` — a cell, the steps of `lock`, and `unlock`;
* `Guards.upon` — the program with the implementation in place of the mutexes;
* `Guards.abstracts` — its reachable states are those of the program, and a cell is
  held while its mutex is;
* `RangeLock.Sound.upon`, `Program.Ranking.upon` — what is known of the program holds
  over the implementation.
-/

namespace Interleaving

variable {Tid Act Mem Loc X Cell Pc : Type}

/-- The holders after a step of thread `t` that locks the first mutex, or else unlocks the second. -/
def nextOwner [DecidableEq X] (t : Tid) (wants gives : Option X) (owner : X → Option Tid) :
    X → Option Tid :=
  match wants, gives with
  | some x, _ => Function.update owner x (some t)
  | none, some x => Function.update owner x none
  | none, none => owner

/-- The recorded holders of the mutexes of a program, and which mutex the next step of a thread
locks or unlocks.  `free` forgets a holder, for a step that does not depend on it. -/
structure Guards (P : Program Tid Act Mem Loc) (X : Type) [DecidableEq X] where
  owner : Mem → X → Option Tid
  free : Mem → X → Mem
  wants : Loc → Option X
  gives : Loc → Option X
  init : ∀ x, owner P.init x = none
  free_eq : ∀ {m x}, owner m x = none → free m x = m
  lock : ∀ {t a m l m' l' x}, wants l = some x → P.advance t a m l = some (m', l') →
    owner m x = none ∧ l' ≠ l
  step : ∀ {t a m l m' l'}, P.advance t a m l = some (m', l') →
    owner m' = nextOwner t (wants l) (gives l) (owner m)

/-- An implementation of a mutex.  `lock` makes one access to the cell a step, and returns with
`none`; the flag of a step is what a weak exchange may do for no reason.  While the cell is free
`lock` gets nearer to its end, unless its last access fails for no reason. -/
structure MutexImpl (Cell Pc : Type) where
  init : Cell
  held : Cell → Bool
  lock : Pc
  step : Bool → Cell → Pc → Cell × Option Pc
  unlock : Cell → Cell
  rank : Pc → ℕ
  init_free : held init = false
  unlock_free : ∀ v, held (unlock v) = false
  wait : ∀ {spurious v pc v' pc'}, step spurious v pc = (v', some pc') → held v' = held v
  enter : ∀ {spurious v pc v'}, step spurious v pc = (v', none) → held v = false ∧ held v' = true
  progress : ∀ {spurious v pc v' pc'}, held v = false → (spurious = true → rank pc ≠ 0) →
    step spurious v pc = (v', some pc') → rank pc' < rank pc

/-- The memory of a program, and the cells of its mutexes. -/
structure CellMem (Mem X Cell : Type) where
  mem : Mem
  cells : X → Cell

/-- A thread: where it is in its program, and in the `lock` that comes next. -/
structure CellLoc (Loc Pc : Type) where
  loc : Loc
  pc : Pc

namespace Guards

variable [DecidableEq X] {P : Program Tid Act Mem Loc}

/-- With some of the actions only. -/
def restrict (U : Guards P X) (permits : Loc → Act → Bool) : Guards (P.restrict permits) X where
  owner := U.owner
  free := U.free
  wants := U.wants
  gives := U.gives
  init := U.init
  free_eq := U.free_eq
  lock hl h := U.lock hl (Program.advance_of_restrict h).2
  step h := U.step (Program.advance_of_restrict h).2

/-- The cells after a step that locks nothing. -/
def afterUnlock (U : Guards P X) (I : MutexImpl Cell Pc) (l : Loc) (cells : X → Cell) : X → Cell :=
  match U.gives l with
  | some x => Function.update cells x (I.unlock (cells x))
  | none => cells

/-- The program over an implementation of its mutexes.  What is recorded of the holders of a mutex
decides nothing where it is locked. -/
def upon (U : Guards P X) (I : MutexImpl Cell Pc) :
    Program Tid (Act × Bool) (CellMem Mem X Cell) (CellLoc Loc Pc) where
  init := ⟨P.init, fun _ => I.init⟩
  start t := ⟨P.start t, I.lock⟩
  advance t a m l :=
    match U.wants l.loc with
    | some x =>
        match I.step a.2 (m.cells x) l.pc with
        | (v, some pc) => some (⟨m.mem, Function.update m.cells x v⟩, ⟨l.loc, pc⟩)
        | (v, none) =>
            (P.advance t a.1 (U.free m.mem x) l.loc).map fun r =>
              (⟨r.1, Function.update m.cells x v⟩, ⟨r.2, I.lock⟩)
    | none =>
        (P.advance t a.1 m.mem l.loc).map fun r =>
          (⟨r.1, U.afterUnlock I l.loc m.cells⟩, ⟨r.2, I.lock⟩)

/-- Does the next access to the cell leave the thread in `lock`? -/
def waiting (U : Guards P X) (I : MutexImpl Cell Pc) (m : CellMem Mem X Cell) (l : CellLoc Loc Pc)
    (a : Act × Bool) : Bool :=
  match U.wants l.loc with
  | some x => (I.step a.2 (m.cells x) l.pc).2.isSome
  | none => false

/-- What one step of thread `t` does. -/
inductive Move (U : Guards P X) (I : MutexImpl Cell Pc) (t : Tid) (a : Act × Bool) :
    CellMem Mem X Cell → CellLoc Loc Pc → CellMem Mem X Cell → CellLoc Loc Pc → Prop
  | wait {m : CellMem Mem X Cell} {l : Loc} {x : X} {v : Cell} {pc pc' : Pc} :
      U.wants l = some x → I.step a.2 (m.cells x) pc = (v, some pc') →
      Move U I t a m ⟨l, pc⟩ ⟨m.mem, Function.update m.cells x v⟩ ⟨l, pc'⟩
  | lock {m : CellMem Mem X Cell} {m' : Mem} {l l' : Loc} {x : X} {v : Cell} {pc : Pc} :
      U.wants l = some x → I.step a.2 (m.cells x) pc = (v, none) →
      P.advance t a.1 (U.free m.mem x) l = some (m', l') →
      Move U I t a m ⟨l, pc⟩ ⟨m', Function.update m.cells x v⟩ ⟨l', I.lock⟩
  | rest {m : CellMem Mem X Cell} {m' : Mem} {l l' : Loc} {pc : Pc} :
      U.wants l = none → P.advance t a.1 m.mem l = some (m', l') →
      Move U I t a m ⟨l, pc⟩ ⟨m', U.afterUnlock I l m.cells⟩ ⟨l', I.lock⟩

variable {U : Guards P X} {I : MutexImpl Cell Pc} {t : Tid} {a : Act × Bool}
  {m m' : CellMem Mem X Cell} {l l' : CellLoc Loc Pc}

theorem move_of_advance (h : (U.upon I).advance t a m l = some (m', l')) :
    U.Move I t a m l m' l' := by
  obtain ⟨l, pc⟩ := l
  simp only [upon] at h
  split at h
  · next x hwants =>
      split at h
      · next v pc' hstep =>
          cases h
          exact .wait hwants hstep
      · next v hstep =>
          obtain ⟨⟨m'', l''⟩, hadvance, heq⟩ := Option.map_eq_some_iff.mp h
          cases heq
          exact .lock hwants hstep hadvance
  · next hwants =>
      obtain ⟨⟨m'', l''⟩, hadvance, heq⟩ := Option.map_eq_some_iff.mp h
      cases heq
      exact .rest hwants hadvance

theorem advance_of_move (h : U.Move I t a m l m' l') :
    (U.upon I).advance t a m l = some (m', l') := by
  cases h with
  | wait hwants hstep => simp only [upon, hwants, hstep]
  | lock hwants hstep hadvance => simp only [upon, hwants, hstep, hadvance, Option.map_some]
  | rest hwants hadvance => simp only [upon, hwants, hadvance, Option.map_some]

/-! ## the program is seen through the implementation -/

/-- The state of the program. -/
def inner (s : State Tid (CellMem Mem X Cell) (CellLoc Loc Pc)) : State Tid Mem Loc :=
  ⟨s.mem.mem, fun t => (s.loc t).loc⟩

/-- A cell is held while its mutex is. -/
def Agrees (U : Guards P X) (I : MutexImpl Cell Pc) (m : CellMem Mem X Cell) : Prop :=
  ∀ x, I.held (m.cells x) = (U.owner m.mem x).isSome

/-- Where a mutex is locked nobody is recorded as its holder. -/
theorem Agrees.free_eq (h : U.Agrees I m) {x : X} (hfree : I.held (m.cells x) = false) :
    U.free m.mem x = m.mem := by
  refine U.free_eq ?_
  rw [← Option.not_isSome_iff_eq_none, ← h x, hfree]
  exact Bool.false_ne_true

/-- **Step lemma**: a step over the implementation that does not wait is one of the program. -/
theorem Agrees.move (h : U.Agrees I m) (hmove : U.Move I t a m l m' l') :
    U.Agrees I m' ∧ ((U.waiting I m l a = true ∧ m'.mem = m.mem ∧ l'.loc = l.loc) ∨
      U.waiting I m l a = false ∧
        P.advance t a.1 m.mem l.loc = some (m'.mem, l'.loc)) := by
  cases hmove with
  | @wait _ x v pc pc' hwants hstep =>
      refine ⟨fun y => ?_, Or.inl ⟨by simp [waiting, hwants, hstep], rfl, rfl⟩⟩
      by_cases hy : y = x
      · subst hy
        dsimp only
        rw [Function.update_self, I.wait hstep]
        exact h y
      · dsimp only
        rw [Function.update_of_ne hy]
        exact h y
  | @lock _ _ _ x v pc hwants hstep hadvance =>
      obtain ⟨hfree, hheld⟩ := I.enter hstep
      rw [h.free_eq hfree] at hadvance
      refine ⟨fun y => ?_, Or.inr ⟨by simp [waiting, hwants, hstep], hadvance⟩⟩
      dsimp only
      rw [U.step hadvance, hwants]
      dsimp only [nextOwner]
      by_cases hy : y = x
      · subst hy
        rw [Function.update_self, Function.update_self, hheld]
        rfl
      · rw [Function.update_of_ne hy, Function.update_of_ne hy]
        exact h y
  | @rest _ l l' pc hwants hadvance =>
      refine ⟨fun y => ?_, Or.inr ⟨by simp [waiting, hwants], hadvance⟩⟩
      dsimp only [afterUnlock]
      rw [U.step hadvance, hwants]
      cases U.gives l with
      | none => exact h y
      | some x =>
          dsimp only [nextOwner]
          by_cases hy : y = x
          · subst hy
            rw [Function.update_self, Function.update_self, I.unlock_free]
            rfl
          · rw [Function.update_of_ne hy, Function.update_of_ne hy]
            exact h y

/-- A thread waits in `lock` only. -/
theorem wants_of_waiting (h : U.waiting I m l a = true) : U.wants l.loc ≠ none := by
  intro hwants
  simp [waiting, hwants] at h

/-- An attempt on a free cell gets nearer to the end of `lock`, unless it fails for no reason there. -/
theorem Move.rank_lt {x : X} (h : U.Move I t a m l m' l') (hwants : U.wants l.loc = some x)
    (hfree : I.held (m.cells x) = false) (hhonest : a.2 = true → I.rank l.pc ≠ 0)
    (hwait : U.waiting I m l a = true) : I.rank l'.pc < I.rank l.pc := by
  cases h with
  | wait hwants' hstep =>
      obtain rfl : x = _ := Option.some.inj (hwants.symm.trans hwants')
      exact I.progress hfree hhonest hstep
  | lock hwants' hstep => simp [waiting, hwants', hstep] at hwait
  | rest hwants' => simp [waiting, hwants'] at hwait

variable [DecidableEq Tid] {s s' : State Tid (CellMem Mem X Cell) (CellLoc Loc Pc)}

theorem agrees_of_reachable (hs : (U.upon I).Reachable s) : U.Agrees I s.mem := by
  refine hs.invariant (I := fun s => U.Agrees I s.mem) ?_ ?_
  · intro x
    show I.held I.init = (U.owner P.init x).isSome
    rw [I.init_free, U.init]
    rfl
  · rintro s s' _ hagrees ⟨t, ht⟩
    obtain ⟨⟨a, ha⟩, -⟩ := ht.elim
    exact (hagrees.move (move_of_advance ha)).1

omit [DecidableEq X] in
/-- The program after a step of thread `t`. -/
theorem inner_eq {m' : Mem} {l' : Loc} (hmem : s'.mem.mem = m') (hloc : (s'.loc t).loc = l')
    (hframe : ∀ u, u ≠ t → s'.loc u = s.loc u) :
    inner s' = ⟨m', Function.update (inner s).loc t l'⟩ := by
  have hfun : (fun u => (s'.loc u).loc) = Function.update (inner s).loc t l' := by
    funext u
    by_cases hu : u = t
    · rw [hu, Function.update_self, hloc]
    · rw [Function.update_of_ne hu]
      exact congrArg CellLoc.loc (hframe u hu)
  rw [inner, hmem, hfun]

/-- The program takes part in a step, or the thread waits in `lock`. -/
theorem next_inner (hs : (U.upon I).Reachable s) (h : (U.upon I).next t a s = some s') :
    (U.waiting I s.mem (s.loc t) a = true ∧ inner s' = inner s) ∨
      U.waiting I s.mem (s.loc t) a = false ∧ P.next t a.1 (inner s) = some (inner s') := by
  obtain ⟨⟨m', l'⟩, hadvance, heq⟩ := Option.map_eq_some_iff.mp h
  have hmem : s'.mem = m' := by rw [← heq]
  have hloc : s'.loc t = l' := by
    rw [← heq]
    exact Function.update_self ..
  have hframe : ∀ u, u ≠ t → s'.loc u = s.loc u := fun u hu => by
    rw [← heq]
    exact Function.update_of_ne hu ..
  rw [inner_eq rfl rfl hframe, hmem, hloc]
  obtain ⟨-, ⟨hwait, hsame, hstays⟩ | ⟨hwait, hinner⟩⟩ :=
    (agrees_of_reachable hs).move (move_of_advance hadvance)
  · refine Or.inl ⟨hwait, ?_⟩
    rw [hsame, hstays]
    exact congrArg (State.mk _) (Function.update_eq_self ..)
  · refine Or.inr ⟨hwait, ?_⟩
    rw [Program.next, show P.advance t a.1 (inner s).mem ((inner s).loc t) =
      some (m'.mem, l'.loc) from hinner, Option.map_some]

/-- **Refinement**: over the implementation the program is where it gets on its own, and every cell
is held while its mutex is. -/
theorem abstracts (hs : (U.upon I).Reachable s) :
    P.Reachable (inner s) ∧ ∀ x, I.held (s.mem.cells x) = (U.owner s.mem.mem x).isSome := by
  refine ⟨?_, agrees_of_reachable hs⟩
  refine hs.invariant (I := fun s => P.Reachable (inner s)) .init ?_
  rintro s s' hs hreach ⟨t, a, ha⟩
  rcases next_inner hs ha with ⟨-, heq⟩ | ⟨-, hnext⟩
  · rw [heq]
    exact hreach
  · exact hreach.step ⟨t, a.1, hnext⟩

end Guards

/-! ## range locks -/

/-- A lock over an implementation of its mutexes. -/
def RangeLock.upon [DecidableEq X] (L : RangeLock Tid Act Mem Loc) (U : Guards L.program X)
    (I : MutexImpl Cell Pc) :
    RangeLock Tid (Act × Bool) (CellMem Mem X Cell) (CellLoc Loc Pc) where
  program := U.upon I
  isIdle l := L.isIdle l.loc
  writeQuery left right := (L.writeQuery left right, false)
  inFunc l := L.inFunc l.loc

/-- What is sound over mutexes is sound over an implementation, if no call begins with a mutex. -/
theorem RangeLock.Sound.upon [DecidableEq Tid] [DecidableEq X] {L : RangeLock Tid Act Mem Loc}
    {clamp : ℕ → ℕ → ℕ × ℕ} {asks : Loc → Option (ℕ × ℕ)} (h : L.Sound clamp asks)
    (U : Guards L.program X) (I : MutexImpl Cell Pc)
    (hidle : ∀ {l}, L.isIdle l = true → U.wants l = none) :
    (L.upon U I).Sound clamp fun l => asks l.loc where
  call hl hadvance := by
    cases Guards.move_of_advance hadvance with
    | rest _ hinner => exact h.call hl hinner
    | wait hwants => rw [hidle hl] at hwants; contradiction
    | lock hwants => rw [hidle hl] at hwants; contradiction
  keep hadvance hfunc hasks := by
    cases Guards.move_of_advance hadvance with
    | rest _ hinner => exact h.keep hinner hfunc hasks
    | wait => exact hasks
    | lock hwants hstep hinner => exact h.keep hinner hfunc hasks
  func hfunc := h.func hfunc
  exclusive hs hne ht hu := h.exclusive (Guards.abstracts hs).1 hne ht hu

/-! ## coming to rest -/

namespace Program.Ranking

variable [DecidableEq Tid] [DecidableEq X] {P : Program Tid Act Mem Loc} {U : Guards P X}
  {I : MutexImpl Cell Pc} {permits : Loc → Act → Bool} {Rests : Loc → Prop}
  {Waits : Loc → Loc → Prop} {A : Type} [AddCommMonoid A] [LinearOrder A]
  {s : State Tid (CellMem Mem X Cell) (CellLoc Loc Pc)} {s₁ s₂ : State Tid Mem Loc} {t : Tid}

/-- What is permitted over an implementation. -/
def PermitsUpon (permits : Loc → Act → Bool) (l : CellLoc Loc Pc) (a : Act × Bool) : Bool :=
  permits l.loc a.1

/-- A step that waits, or an access of `lock` that does not return. -/
def WaitsUpon (U : Guards P X) (Waits : Loc → Loc → Prop) (l l' : CellLoc Loc Pc) : Prop :=
  Waits l.loc l'.loc ∨ U.wants l.loc ≠ none ∧ l'.loc = l.loc

/-- Over an implementation there is as much to do. -/
def upon (R : Ranking P permits Rests Waits A) (U : Guards P X) (I : MutexImpl Cell Pc) :
    Ranking (U.upon I) (PermitsUpon permits) (fun l => Rests l.loc) (WaitsUpon U Waits) A where
  budget l := R.budget l.loc
  todo m l := R.todo m.mem l.loc
  start := R.start
  zero hl := ⟨(R.zero hl).1, fun m => (R.zero hl).2 m.mem⟩
  waits hl := Or.inl (R.waits hl)
  keep hs hpermits h hl := by
    obtain ⟨-, ⟨-, -, hsame⟩ | ⟨-, hadvance⟩⟩ :=
      (Guards.agrees_of_reachable hs).move (Guards.move_of_advance h)
    · rw [hsame]
      exact hl
    · exact R.keep (Guards.abstracts hs).1 hpermits hadvance hl
  own hs hpermits h hl := by
    obtain ⟨-, ⟨hwait, hmem, hsame⟩ | ⟨-, hadvance⟩⟩ :=
      (Guards.agrees_of_reachable hs).move (Guards.move_of_advance h)
    · rw [hmem, hsame]
      exact Or.inr ⟨rfl, Or.inr ⟨Or.inr ⟨Guards.wants_of_waiting hwait, hsame⟩, le_rfl⟩⟩
    · rcases R.own (Guards.abstracts hs).1 hpermits hadvance hl with hlt | ⟨heq, hlt | ⟨hwaits, hle⟩⟩
      · exact Or.inl hlt
      · exact Or.inr ⟨heq, Or.inl hlt⟩
      · exact Or.inr ⟨heq, Or.inr ⟨Or.inl hwaits, hle⟩⟩
  other hs hpermits h hu := by
    obtain ⟨-, ⟨-, hmem, -⟩ | ⟨-, hadvance⟩⟩ :=
      (Guards.agrees_of_reachable hs).move (Guards.move_of_advance h)
    · rw [hmem]
      exact Or.inr le_rfl
    · exact R.other (Guards.abstracts hs).1 hpermits hadvance hu

theorem exists_next_of_move {a : Act × Bool} {m' : CellMem Mem X Cell} {l' : CellLoc Loc Pc}
    (hpermits : permits (s.loc t).loc a.1 = true) (h : U.Move I t a s.mem (s.loc t) m' l') :
    ∃ s', ((U.upon I).restrict (PermitsUpon permits)).next t a s = some s' ∧ s'.mem = m' ∧
      s'.loc t = l' ∧ ∀ u, u ≠ t → s'.loc u = s.loc u := by
  refine ⟨⟨m', Function.update s.loc t l'⟩, ?_, rfl, Function.update_self ..,
    fun _ hu => Function.update_of_ne hu ..⟩
  rw [next]
  simp only [restrict, PermitsUpon, hpermits, if_true]
  rw [Guards.advance_of_move h, Option.map_some]

/-- Where the program can step, the thread can, and it makes the step or gets nearer to it. -/
theorem exists_next_upon {a : Act} (hs : (U.upon I).Reachable s)
    (h : (P.restrict permits).next t a (Guards.inner s) = some s₂) :
    ∃ s', ((U.upon I).restrict (PermitsUpon permits)).next t (a, false) s = some s' ∧
      ((Guards.inner s' = Guards.inner s ∧ I.rank (s'.loc t).pc < I.rank (s.loc t).pc) ∨
        Guards.inner s' = s₂ ∧ (U.wants (s.loc t).loc ≠ none → (s'.loc t).loc ≠ (s.loc t).loc)) := by
  obtain ⟨⟨m', l'⟩, hnext, rfl⟩ := Option.map_eq_some_iff.mp h
  obtain ⟨hpermits, hadvance⟩ := advance_of_restrict hnext
  replace hpermits : permits (s.loc t).loc a = true := hpermits
  replace hadvance : P.advance t a s.mem.mem (s.loc t).loc = some (m', l') := hadvance
  cases hwants : U.wants (s.loc t).loc with
  | none =>
      obtain ⟨s', hnext, hmem, hloc, hframe⟩ := exists_next_of_move (I := I) (a := (a, false))
        hpermits (.rest hwants hadvance)
      refine ⟨s', hnext, Or.inr ⟨Guards.inner_eq ?_ ?_ hframe, fun hne => absurd rfl hne⟩⟩
      · rw [hmem]
      · rw [hloc]
  | some x =>
      -- the mutex is free, and so is its cell
      obtain ⟨hfree, hne⟩ := U.lock hwants hadvance
      have hagrees := Guards.agrees_of_reachable hs
      have hheld : I.held (s.mem.cells x) = false := by
        rw [hagrees x, hfree]
        rfl
      cases hlock : I.step false (s.mem.cells x) (s.loc t).pc with
      | mk v r =>
          cases r with
          | none =>
              rw [← hagrees.free_eq hheld] at hadvance
              obtain ⟨s', hnext, hmem, hloc, hframe⟩ := exists_next_of_move (a := (a, false))
                hpermits (.lock hwants hlock hadvance)
              refine ⟨s', hnext, Or.inr ⟨Guards.inner_eq ?_ ?_ hframe, fun _ => ?_⟩⟩
              · rw [hmem]
              · rw [hloc]
              · rw [hloc]
                exact hne
          | some pc' =>
              obtain ⟨s', hnext, hmem, hloc, hframe⟩ := exists_next_of_move (a := (a, false))
                hpermits (.wait hwants hlock)
              refine ⟨s', hnext, Or.inl ⟨?_, ?_⟩⟩
              · rw [Guards.inner_eq rfl rfl hframe, hmem, hloc]
                exact congrArg (State.mk _) (Function.update_eq_self ..)
              · rw [hloc]
                exact I.progress hheld (fun h => absurd h Bool.false_ne_true) hlock

/-- A step of the program is made over the implementation too, after some that wait. -/
theorem exists_stepBy_upon (hs : (U.upon I).Reachable s) (hinner : Guards.inner s = s₁)
    (h : (P.restrict permits).StepBy t s₁ s₂) : ∃ s' s'',
      Relation.ReflTransGen ((U.upon I).restrict (PermitsUpon permits)).Step s s' ∧
        Guards.inner s' = s₁ ∧
        ((U.upon I).restrict (PermitsUpon permits)).StepBy t s' s'' ∧ Guards.inner s'' = s₂ ∧
          (U.wants (s'.loc t).loc ≠ none → (s''.loc t).loc ≠ (s'.loc t).loc) := by
  obtain ⟨a, ha⟩ := h
  generalize hrank : I.rank (s.loc t).pc = n
  induction n using Nat.strong_induction_on generalizing s with
  | _ n ih =>
      obtain ⟨s', hnext, ⟨hsame, hlt⟩ | ⟨hlast, hmoves⟩⟩ := exists_next_upon hs (hinner ▸ ha)
      · have hstep : ((U.upon I).restrict (PermitsUpon permits)).StepBy t s s' := ⟨_, hnext⟩
        obtain ⟨s₁', s₂', hpath, hrest⟩ :=
          ih _ (hrank ▸ hlt) (hs.step ⟨t, hstep.of_restrict⟩) (hsame.trans hinner) rfl
        exact ⟨s₁', s₂', .head ⟨t, hstep⟩ hpath, hrest⟩
      · exact ⟨s, s', .refl, hinner, ⟨_, hnext⟩, hlast, hmoves⟩

/-- A run of the program is made over the implementation too. -/
theorem exists_path_upon (hs : (U.upon I).Reachable s)
    (h : Relation.ReflTransGen (P.restrict permits).Step (Guards.inner s) s₂) :
    ∃ s', Relation.ReflTransGen ((U.upon I).restrict (PermitsUpon permits)).Step s s' ∧
      (U.upon I).Reachable s' ∧ Guards.inner s' = s₂ := by
  induction h with
  | refl => exact ⟨s, .refl, hs, rfl⟩
  | tail _ hstep ih =>
      obtain ⟨t, ht⟩ := hstep
      obtain ⟨s', hpath, hreach, hinner⟩ := ih
      obtain ⟨s₁', s₂', hpath', -, hstep, hinner', -⟩ := exists_stepBy_upon hreach hinner ht
      have hnext := hpath'.tail ⟨t, hstep⟩
      exact ⟨s₂', hpath.trans hnext, hreach.path hnext, hinner'⟩

variable [IsOrderedCancelAddMonoid A] [WellFoundedLT A]

/-- **No deadlock**: a program that comes to rest does so over the implementation. -/
theorem drains_upon (R : Ranking P permits Rests Waits A)
    (hprogress : ∀ s, P.Reachable s → (∃ t, ¬Rests (s.loc t)) → ∃ s₁ t s₂,
      Relation.ReflTransGen (P.restrict permits).Step s s₁ ∧
        (P.restrict permits).StepBy t s₁ s₂ ∧ ¬Waits (s₁.loc t) (s₂.loc t))
    (hs : (U.upon I).Reachable s) :
    ∃ s', Relation.ReflTransGen ((U.upon I).restrict (PermitsUpon permits)).Step s s' ∧
      (U.upon I).Reachable s' ∧ ∀ t, Rests (s'.loc t).loc := by
  refine (R.upon U I).drains (fun s hs hrests => ?_) hs
  obtain ⟨s₁, t, s₂, hpath, hstep, hnot⟩ := hprogress _ (Guards.abstracts hs).1 hrests
  obtain ⟨s', hpath', hreach, hinner⟩ := exists_path_upon hs hpath
  obtain ⟨s₁', s₂', hpath'', hinner₁, hstep', hinner₂, hmoves⟩ :=
    exists_stepBy_upon hreach hinner hstep
  refine ⟨s₁', t, s₂', hpath'.trans hpath'', hstep', ?_⟩
  subst hinner₁ hinner₂
  rintro (hwaits | ⟨hwants, hsame⟩)
  · exact hnot hwaits
  · exact hmoves hwants hsame

end Program.Ranking

/-! ## fair runs -/

namespace Program.Endless

variable [DecidableEq Tid] [DecidableEq X] {P : Program Tid Act Mem Loc} {U : Guards P X}
  {I : MutexImpl Cell Pc} {permits : Loc → Act → Bool}
  (r : ((U.upon I).restrict (Ranking.PermitsUpon permits)).Endless)
  (hs : (U.upon I).Reachable (r.states 0))

/-- In tick `m` thread `t` makes the last access of a `lock`. -/
def Tries (t : Tid) (m : ℕ) (a : Act × Bool) : Prop :=
  r.moves m = some (t, a) ∧ I.rank ((r.states m).loc t).pc = 0

/-- A `lock` that does not return, and makes its last access again and again, does not fail there for
no reason every time. -/
def LocksFairly : Prop :=
  ∀ t n, (∀ m ≥ n, U.wants ((r.states m).loc t).loc ≠ none) →
    (∀ k ≥ n, ∃ m ≥ k, ∃ a, r.Tries t m a) → ∃ m ≥ n, ∃ a, r.Tries t m (a, false)

include hs in
theorem reachable_upon (n : ℕ) : (U.upon I).Reachable (r.states n) :=
  r.invariant (I := (U.upon I).Reachable) hs
    (fun _ _ t a _ hI hnext =>
      have hstep : ((U.upon I).restrict (Ranking.PermitsUpon permits)).StepBy t _ _ := ⟨a, hnext⟩
      hI.step ⟨t, hstep.of_restrict⟩) (Nat.zero_le n)

/-- What the program does in a tick. -/
def innerMove (n : ℕ) : Option (Tid × Act) :=
  (r.moves n).bind fun move =>
    if U.waiting I (r.states n).mem ((r.states n).loc move.1) move.2 then none
    else some (move.1, move.2.1)

theorem next_of_tick {n : ℕ} {t : Tid} {a : Act × Bool} (hmove : r.moves n = some (t, a)) :
    permits ((r.states n).loc t).loc a.1 = true ∧
      (U.upon I).next t a (r.states n) = some (r.states (n + 1)) := by
  have htick := r.tick n
  rw [hmove] at htick
  cases htick with
  | act hnext =>
      obtain ⟨⟨m', l'⟩, hrestrict, heq⟩ := Option.map_eq_some_iff.mp hnext
      obtain ⟨hpermits, hadvance⟩ := advance_of_restrict hrestrict
      refine ⟨hpermits, ?_⟩
      rw [next, hadvance, Option.map_some, ← heq]

/-- The program in a run over the implementation. -/
def inner : (P.restrict permits).Endless where
  states n := Guards.inner (r.states n)
  moves := r.innerMove
  tick n := by
    have hreach := r.reachable_upon hs n
    cases hmove : r.moves n with
    | none =>
        have htick := r.tick n
        rw [hmove] at htick
        have hidle : r.innerMove n = none := by rw [innerMove, hmove, Option.bind_none]
        rw [hidle]
        generalize r.states (n + 1) = s' at htick
        cases htick
        exact .idle
    | some move =>
        obtain ⟨t, a⟩ := move
        obtain ⟨hpermits, hnext⟩ := r.next_of_tick hmove
        rcases Guards.next_inner hreach hnext with ⟨hwait, hsame⟩ | ⟨hwait, hinner⟩
        · have hidle : r.innerMove n = none := by simp [innerMove, hmove, hwait]
          rw [hidle, hsame]
          exact .idle
        · have hact : r.innerMove n = some (t, a.1) := by simp [innerMove, hmove, hwait]
          rw [hact]
          refine .act ?_
          obtain ⟨⟨m', l'⟩, hadvance, heq⟩ := Option.map_eq_some_iff.mp hinner
          have hpermits' : permits ((Guards.inner (r.states n)).loc t) a.1 = true := hpermits
          rw [next, ← heq]
          simp only [restrict, hpermits', if_true, hadvance, Option.map_some]

variable {t : Tid} {n : ℕ}

/-- Where a thread of the program stands still, its next steps wait. -/
theorem waiting_of_innerMove (h : ∀ m ≥ n, ∀ a, r.innerMove m ≠ some (t, a)) {m : ℕ} (hm : m ≥ n)
    {a : Act × Bool} (hmove : r.moves m = some (t, a)) :
    U.waiting I (r.states m).mem ((r.states m).loc t) a = true := by
  by_contra hwait
  exact h m hm a.1 (by simp [innerMove, hmove, hwait])

/-- There it stays where it is. -/
theorem stays_of_innerMove (hs : (U.upon I).Reachable (r.states 0))
    (h : ∀ m ≥ n, ∀ a, r.innerMove m ≠ some (t, a)) {m : ℕ} (hm : m ≥ n) :
    ((r.states m).loc t).loc = ((r.states n).loc t).loc := by
  have hreach := r.reachable_upon hs
  induction m, hm using Nat.le_induction with
  | base => rfl
  | succ m hm ih =>
      rw [← ih]
      cases hmove : r.moves m with
      | none =>
          have htick := r.tick m
          rw [hmove] at htick
          generalize r.states (m + 1) = s' at htick ⊢
          cases htick
          rfl
      | some move =>
          obtain ⟨u, a⟩ := move
          obtain ⟨-, hnext⟩ := r.next_of_tick hmove
          by_cases hu : t = u
          · subst hu
            have hwait := r.waiting_of_innerMove h hm hmove
            rcases Guards.next_inner (hreach m) hnext with ⟨-, hsame⟩ | ⟨hnot, -⟩
            · exact congrFun (congrArg State.loc hsame) t
            · rw [hwait] at hnot
              contradiction
          · have hstep : (U.upon I).StepBy u (r.states m) (r.states (m + 1)) := ⟨a, hnext⟩
            rw [hstep.elim.2 t hu]

omit hs in
/-- A thread that moves again and again, and gets nearer to the last access of `lock` whenever it is
not there, comes to it. -/
theorem exists_tries {k : ℕ} (hmoves : ∀ m ≥ k, ∃ m' ≥ m, ∃ a, r.moves m' = some (t, a))
    (hsink : ∀ m ≥ k, ∀ a, r.moves m = some (t, a) → I.rank ((r.states m).loc t).pc ≠ 0 →
      I.rank ((r.states (m + 1)).loc t).pc < I.rank ((r.states m).loc t).pc) :
    ∃ m ≥ k, ∃ a, r.Tries t m a := by
  by_contra hnone
  have hrank : ∀ m ≥ k, ∀ a, r.moves m = some (t, a) → I.rank ((r.states m).loc t).pc ≠ 0 :=
    fun m hm a hmove hzero => hnone ⟨m, hm, a, hmove, hzero⟩
  have hend : ∀ j, ∀ m ≥ k, I.rank ((r.states m).loc t).pc = j → False := by
    intro j
    induction j using Nat.strong_induction_on with
    | _ j ih =>
        intro m hm hj
        obtain ⟨m', hm', a, hmove⟩ := hmoves m hm
        have hle : I.rank ((r.states m').loc t).pc ≤ j := by
          refine r.invariant (I := fun s => I.rank (s.loc t).pc ≤ j) hj.le ?_ hm'
          intro i hi u b hmove hle hnext
          by_cases hu : t = u
          · subst hu
            exact (hsink i (by omega) b hmove (hrank i (by omega) b hmove)).le.trans hle
          · have hstep : ((U.upon I).restrict (Ranking.PermitsUpon permits)).StepBy u
                (r.states i) (r.states (i + 1)) := ⟨b, hnext⟩
            rw [hstep.elim.2 t hu]
            exact hle
        have hlt := hsink m' (by omega) a hmove (hrank m' (by omega) a hmove)
        exact ih _ (hlt.trans_le hle) (m' + 1) (by omega) rfl
  exact hend _ k le_rfl rfl

/-- **A fair run over the implementation is a fair run of the program**: whoever could lock a mutex
all the time would have got to the end of `lock`. -/
theorem fair_inner (hfair : r.Fair) (hlocks : r.LocksFairly) : (r.inner hs).Fair := by
  intro t n hcan
  by_contra hnone
  push Not at hnone
  have hnone : ∀ m ≥ n, ∀ a, r.innerMove m ≠ some (t, a) := hnone
  have hreach := r.reachable_upon hs
  have hact : ∀ m ≥ n, ∃ a s', ((U.upon I).restrict (Ranking.PermitsUpon permits)).next t a
      (r.states m) = some s' := by
    intro m hm
    obtain ⟨a, s', hs'⟩ := hcan m hm
    obtain ⟨s'', hnext, -⟩ := Ranking.exists_next_upon (hreach m) hs'
    exact ⟨_, s'', hnext⟩
  have hstays : ∀ m ≥ n, ((r.states m).loc t).loc = ((r.states n).loc t).loc :=
    fun m hm => r.stays_of_innerMove hs hnone hm
  cases hwants : U.wants ((r.states n).loc t).loc with
  | none =>
      obtain ⟨m, hm, a, hmove⟩ := hfair t n hact
      refine Guards.wants_of_waiting (r.waiting_of_innerMove hnone hm hmove) ?_
      rw [hstays m hm, hwants]
  | some x =>
      have hwants : ∀ m ≥ n, U.wants ((r.states m).loc t).loc = some x := fun m hm => by
        rw [hstays m hm, hwants]
      have hfree : ∀ m ≥ n, I.held ((r.states m).mem.cells x) = false := by
        intro m hm
        obtain ⟨a, s', hs'⟩ := hcan m hm
        obtain ⟨⟨m', l'⟩, hnext, -⟩ := Option.map_eq_some_iff.mp hs'
        obtain ⟨hfree, -⟩ := U.lock (hwants m hm) (advance_of_restrict hnext).2
        rw [Guards.agrees_of_reachable (hreach m) x]
        exact Option.isSome_eq_false_iff.mpr (Option.isNone_iff_eq_none.mpr hfree)
      -- what is left of `lock` shrinks at every turn but one that fails for no reason
      have hsink : ∀ m ≥ n, ∀ a, r.moves m = some (t, a) →
          (a.2 = true → I.rank ((r.states m).loc t).pc ≠ 0) →
          I.rank ((r.states (m + 1)).loc t).pc < I.rank ((r.states m).loc t).pc := by
        intro m hm a hmove hhonest
        obtain ⟨-, hnext⟩ := r.next_of_tick hmove
        obtain ⟨⟨m', l'⟩, hadvance, heq⟩ := Option.map_eq_some_iff.mp hnext
        rw [← heq]
        dsimp only
        rw [Function.update_self]
        exact (Guards.move_of_advance hadvance).rank_lt (hwants m hm) (hfree m hm) hhonest
          (r.waiting_of_innerMove hnone hm hmove)
      have htries : ∀ k ≥ n, ∃ m ≥ k, ∃ a, r.Tries t m a := fun k hk =>
        r.exists_tries (fun m hm => hfair t m fun i hi => hact i (by omega))
          (fun m hm a hmove hrank => hsink m (by omega) a hmove fun _ => hrank)
      obtain ⟨m, hm, a, hmove, hrank⟩ := hlocks t n
        (fun m hm => by rw [hwants m hm]; exact Option.some_ne_none x) htries
      have hlt := hsink m hm _ hmove fun hspurious => by contradiction
      omega

end Program.Endless

end Interleaving
