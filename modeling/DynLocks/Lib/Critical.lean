import DynLocks.Lib.Interleaving
import Mathlib.Data.Nat.Init

/-!
# DynLocks.Lib.Critical

An object whose operations each run one function under a lock for ranges of
positions: the function step by step on the data of the object, while other
threads run theirs, and what is left of the operation after the lock is given
back.

* `RangeLock.Sound` — what the lock guarantees;
* `Object.program` — the threads that use the object, as one program;
* `Object.disjoint` — functions that run at the same time have disjoint ranges;
* `Protects.invariant` — what holds of a position whenever no function runs on it, and what each
  function knows, checked one function at a time;
* `Rules` — each operation takes effect in one step of its function;
* `Rules.linearized` — then the operations take effect one after the other, each
  between its call and its return, and each returns what it returns in this order:
  an operation that has returned has a result.
-/

namespace Interleaving

/-! ## the lock -/

/-- A lock as its users see it: whether a thread is between two calls, the action that calls
`WriteQuery`, and the range on which a thread is to run its function. -/
structure RangeLock (Tid Act Mem Loc : Type) where
  program : Program Tid Act Mem Loc
  isIdle : Loc → Bool
  writeQuery : ℕ → ℕ → Act
  inFunc : Loc → Option (ℕ × ℕ)

variable {Tid Act Mem Loc : Type}

/-- A call of the lock gets to the function on the clamped range of the call, and no two functions
run at once on ranges that meet.  `asks` is the range of a call whose function has not returned. -/
structure RangeLock.Sound [DecidableEq Tid] (L : RangeLock Tid Act Mem Loc)
    (clamp : ℕ → ℕ → ℕ × ℕ) (asks : Loc → Option (ℕ × ℕ)) : Prop where
  call : ∀ {t left right m l m' l'}, L.isIdle l = true →
    L.program.advance t (L.writeQuery left right) m l = some (m', l') →
    asks l' = some (clamp left right)
  keep : ∀ {t a m l m' l' r}, L.program.advance t a m l = some (m', l') → L.inFunc l = none →
    asks l = some r → asks l' = some r
  func : ∀ {l r}, L.inFunc l = some r → asks l = some r
  exclusive : ∀ {s t u r r'}, L.program.Reachable s → t ≠ u → L.inFunc (s.loc t) = some r →
    L.inFunc (s.loc u) = some r' → r.2 < r'.1 ∨ r'.2 < r.1

/-! ## the object -/

/-- An object: its data at the start, the range an operation asks the lock for, where its function
begins on the range it is given, one step of the function (`none` where it returns), one step of
what follows the call of the lock (`none` where the operation returns), and what the operation
returns there. -/
structure Object (Op Data Pc V : Type) where
  data : Data
  args : Op → ℕ × ℕ
  begins : Op → ℕ × ℕ → Pc
  func : Op → Data → Pc → Option (Data × Pc)
  rest : Op → Data → Pc → Option (Data × Pc)
  result : Pc → Option V

/-- Where an operation stands: on the way to its function, in it, or behind it. -/
inductive Stage (Pc : Type)
  | waiting
  | body (pc : Pc)
  | after (pc : Pc)

/-- The memory of the lock and the data of the object. -/
structure ObjMem (Mem Data : Type) where
  lock : Mem
  data : Data

/-- A thread: where it is in the lock, and the operation it is in. -/
structure ObjLoc (Loc Op Pc : Type) where
  lock : Loc
  job : Option (Op × Stage Pc)

/-- A step of the lock, or the call of an operation. -/
inductive ObjAct (Act Op : Type)
  | lock (a : Act)
  | call (op : Op)

variable {Op Data Pc V : Type}

namespace Object

/-- A step of the lock. -/
def lockStep (L : RangeLock Tid Act Mem Loc) (t : Tid) (a : Act) (m : ObjMem Mem Data) (l : Loc)
    (job : Option (Op × Stage Pc)) : Option (ObjMem Mem Data × ObjLoc Loc Op Pc) :=
  (L.program.advance t a m.lock l).map fun r => (⟨r.1, m.data⟩, ⟨r.2, job⟩)

variable (O : Object Op Data Pc V) (L : RangeLock Tid Act Mem Loc)

/-- The threads that use the object.  Between two operations a thread may call the lock. -/
def program : Program Tid (ObjAct Act Op) (ObjMem Mem Data) (ObjLoc Loc Op Pc) where
  init := ⟨L.program.init, O.data⟩
  start t := ⟨L.program.start t, none⟩
  advance t a m l :=
    match l.job, a with
    | none, .lock a => lockStep L t a m l.lock none
    | none, .call op =>
        if L.isIdle l.lock then
          lockStep L t (L.writeQuery (O.args op).1 (O.args op).2) m l.lock (some (op, .waiting))
        else none
    | some (op, .waiting), .lock a =>
        match L.inFunc l.lock with
        | some range => some (m, ⟨l.lock, some (op, .body (O.begins op range))⟩)
        | none => lockStep L t a m l.lock (some (op, .waiting))
    | some (op, .body pc), .lock a =>
        match O.func op m.data pc with
        | some (data, pc) => some (⟨m.lock, data⟩, ⟨l.lock, some (op, .body pc)⟩)
        | none => lockStep L t a m l.lock (some (op, .after pc))
    | some (op, .after pc), .lock a =>
        if L.isIdle l.lock then
          match O.rest op m.data pc with
          | some (data, pc) => some (⟨m.lock, data⟩, ⟨l.lock, some (op, .after pc)⟩)
          | none => some (m, ⟨l.lock, none⟩)
        else lockStep L t a m l.lock (some (op, .after pc))
    | some _, .call _ => none

/-- What one step of thread `t` does. -/
inductive Move (t : Tid) :
    ObjMem Mem Data → ObjLoc Loc Op Pc → ObjMem Mem Data → ObjLoc Loc Op Pc → Prop
  | lock {a : Act} {m : ObjMem Mem Data} {m' : Mem} {l l' : Loc} :
      L.program.advance t a m.lock l = some (m', l') → Move t m ⟨l, none⟩ ⟨m', m.data⟩ ⟨l', none⟩
  | call {op : Op} {m : ObjMem Mem Data} {m' : Mem} {l l' : Loc} : L.isIdle l = true →
      L.program.advance t (L.writeQuery (O.args op).1 (O.args op).2) m.lock l = some (m', l') →
      Move t m ⟨l, none⟩ ⟨m', m.data⟩ ⟨l', some (op, .waiting)⟩
  | wait {a : Act} {op : Op} {m : ObjMem Mem Data} {m' : Mem} {l l' : Loc} : L.inFunc l = none →
      L.program.advance t a m.lock l = some (m', l') →
      Move t m ⟨l, some (op, .waiting)⟩ ⟨m', m.data⟩ ⟨l', some (op, .waiting)⟩
  | enter {op : Op} {m : ObjMem Mem Data} {l : Loc} {range : ℕ × ℕ} : L.inFunc l = some range →
      Move t m ⟨l, some (op, .waiting)⟩ m ⟨l, some (op, .body (O.begins op range))⟩
  | func {op : Op} {m : ObjMem Mem Data} {data : Data} {l : Loc} {pc pc' : Pc} :
      O.func op m.data pc = some (data, pc') →
      Move t m ⟨l, some (op, .body pc)⟩ ⟨m.lock, data⟩ ⟨l, some (op, .body pc')⟩
  | leave {a : Act} {op : Op} {m : ObjMem Mem Data} {m' : Mem} {l l' : Loc} {pc : Pc} :
      O.func op m.data pc = none → L.program.advance t a m.lock l = some (m', l') →
      Move t m ⟨l, some (op, .body pc)⟩ ⟨m', m.data⟩ ⟨l', some (op, .after pc)⟩
  | release {a : Act} {op : Op} {m : ObjMem Mem Data} {m' : Mem} {l l' : Loc} {pc : Pc} :
      L.isIdle l = false → L.program.advance t a m.lock l = some (m', l') →
      Move t m ⟨l, some (op, .after pc)⟩ ⟨m', m.data⟩ ⟨l', some (op, .after pc)⟩
  | rest {op : Op} {m : ObjMem Mem Data} {data : Data} {l : Loc} {pc pc' : Pc} :
      L.isIdle l = true → O.rest op m.data pc = some (data, pc') →
      Move t m ⟨l, some (op, .after pc)⟩ ⟨m.lock, data⟩ ⟨l, some (op, .after pc')⟩
  | returns {op : Op} {m : ObjMem Mem Data} {l : Loc} {pc : Pc} :
      L.isIdle l = true → O.rest op m.data pc = none →
      Move t m ⟨l, some (op, .after pc)⟩ m ⟨l, none⟩

variable {O L} {t u : Tid}

theorem lockStep_eq_some {a : Act} {m m' : ObjMem Mem Data} {l : Loc}
    {job : Option (Op × Stage Pc)} {l' : ObjLoc Loc Op Pc}
    (h : lockStep L t a m l job = some (m', l')) :
    ∃ mem loc, L.program.advance t a m.lock l = some (mem, loc) ∧ m' = ⟨mem, m.data⟩ ∧
      l' = ⟨loc, job⟩ := by
  obtain ⟨⟨mem, loc⟩, hadvance, heq⟩ := Option.map_eq_some_iff.mp h
  simp only [Prod.mk.injEq] at heq
  exact ⟨mem, loc, hadvance, heq.1.symm, heq.2.symm⟩

theorem move_of_advance {a : ObjAct Act Op} {m m' : ObjMem Mem Data} {l l' : ObjLoc Loc Op Pc}
    (h : (O.program L).advance t a m l = some (m', l')) : O.Move L t m l m' l' := by
  obtain ⟨l, job⟩ := l
  cases job with
  | none =>
      cases a with
      | lock a =>
          obtain ⟨mem, loc, hadvance, rfl, rfl⟩ := lockStep_eq_some h
          exact .lock hadvance
      | call op =>
          simp only [program] at h
          split at h
          · next hidle =>
              obtain ⟨mem, loc, hadvance, rfl, rfl⟩ := lockStep_eq_some h
              exact .call hidle hadvance
          · contradiction
  | some job =>
      obtain ⟨op, stage⟩ := job
      cases a with
      | call => cases stage <;> contradiction
      | lock a =>
          cases stage with
          | waiting =>
              simp only [program] at h
              split at h
              · next hfunc => cases h; exact .enter hfunc
              · next hfunc =>
                  obtain ⟨mem, loc, hadvance, rfl, rfl⟩ := lockStep_eq_some h
                  exact .wait hfunc hadvance
          | body pc =>
              simp only [program] at h
              split at h
              · next hfunc => cases h; exact .func hfunc
              · next hfunc =>
                  obtain ⟨mem, loc, hadvance, rfl, rfl⟩ := lockStep_eq_some h
                  exact .leave hfunc hadvance
          | after pc =>
              simp only [program] at h
              split at h
              · next hidle =>
                  split at h
                  · next hrest => cases h; exact .rest hidle hrest
                  · next hrest => cases h; exact .returns hidle hrest
              · next hidle =>
                  obtain ⟨mem, loc, hadvance, rfl, rfl⟩ := lockStep_eq_some h
                  exact .release (Bool.eq_false_iff.mpr hidle) hadvance

variable [DecidableEq Tid]

/-- The lock of a state of the program. -/
def lockState (s : State Tid (ObjMem Mem Data) (ObjLoc Loc Op Pc)) : State Tid Mem Loc :=
  ⟨s.mem.lock, fun t => (s.loc t).lock⟩

/-- The lock of an object is a lock that some program uses. -/
theorem lockState_reachable {s : State Tid (ObjMem Mem Data) (ObjLoc Loc Op Pc)}
    (hs : (O.program L).Reachable s) : L.program.Reachable (lockState s) := by
  refine hs.project ObjMem.lock ObjLoc.lock rfl (fun _ => rfl) fun h => ?_
  cases move_of_advance h with
  | lock hadvance => exact Or.inr ⟨_, hadvance⟩
  | call _ hadvance => exact Or.inr ⟨_, hadvance⟩
  | wait _ hadvance => exact Or.inr ⟨_, hadvance⟩
  | leave _ hadvance => exact Or.inr ⟨_, hadvance⟩
  | release _ hadvance => exact Or.inr ⟨_, hadvance⟩
  | _ => exact Or.inl ⟨rfl, rfl⟩

/-! ## mutual exclusion -/

/-- On its way to the function a thread asks for the range of its operation; in the function it has
this range. -/
def Asked (O : Object Op Data Pc V) (L : RangeLock Tid Act Mem Loc) (clamp : ℕ → ℕ → ℕ × ℕ)
    (asks : Loc → Option (ℕ × ℕ)) (l : ObjLoc Loc Op Pc) : Prop :=
  match l.job with
  | some (op, .waiting) => asks l.lock = some (clamp (O.args op).1 (O.args op).2)
  | some (op, .body _) => L.inFunc l.lock = some (clamp (O.args op).1 (O.args op).2)
  | _ => True

/-- A thread is in the function of `op`. -/
def InBody (s : State Tid (ObjMem Mem Data) (ObjLoc Loc Op Pc)) (t : Tid) (op : Op) : Prop :=
  ∃ pc, (s.loc t).job = some (op, .body pc)

variable {clamp : ℕ → ℕ → ℕ × ℕ} {asks : Loc → Option (ℕ × ℕ)}
  {s : State Tid (ObjMem Mem Data) (ObjLoc Loc Op Pc)} {op op' : Op}

theorem Asked.move (hsound : L.Sound clamp asks) {m m' : ObjMem Mem Data}
    {l l' : ObjLoc Loc Op Pc} (h : Asked O L clamp asks l) (hmove : O.Move L t m l m' l') :
    Asked O L clamp asks l' := by
  cases hmove with
  | call hidle hadvance => exact hsound.call hidle hadvance
  | wait hfunc hadvance => exact hsound.keep hadvance hfunc h
  | enter hfunc =>
      have hasks := hsound.func hfunc
      have hrange := hasks.symm.trans h
      exact hfunc.trans hrange
  | func => exact h
  | _ => trivial

theorem asked_of_reachable (hsound : L.Sound clamp asks) (hs : (O.program L).Reachable s)
    (t : Tid) : Asked O L clamp asks (s.loc t) :=
  hs.localInvariant (P := O.program L) (Q := fun _ _ l => Asked O L clamp asks l)
    (fun _ => (trivial : Asked O L clamp asks ⟨_, none⟩))
    (fun _ _ _ _ _ _ hasked h => hasked.move hsound (move_of_advance h))
    (fun _ _ _ _ _ _ _ _ hasked _ => hasked) t

/-- In its function a thread has the range of its operation. -/
theorem inFunc_of_inBody (hsound : L.Sound clamp asks) (hs : (O.program L).Reachable s)
    (ht : InBody s t op) :
    L.inFunc (s.loc t).lock = some (clamp (O.args op).1 (O.args op).2) := by
  obtain ⟨pc, hjob⟩ := ht
  have hasked := asked_of_reachable hsound hs t
  rw [Asked, hjob] at hasked
  exact hasked

/-- **Mutual exclusion**: functions that run at the same time have disjoint ranges. -/
theorem disjoint (hsound : L.Sound clamp asks) (hs : (O.program L).Reachable s) (hne : t ≠ u)
    (ht : InBody s t op) (hu : InBody s u op') :
    (clamp (O.args op).1 (O.args op).2).2 < (clamp (O.args op').1 (O.args op').2).1 ∨
      (clamp (O.args op').1 (O.args op').2).2 < (clamp (O.args op).1 (O.args op).2).1 :=
  hsound.exclusive (lockState_reachable hs) hne (inFunc_of_inBody hsound hs ht)
    (inFunc_of_inBody hsound hs hu)

/-! ## what the lock protects -/

/-- The positions of a range. -/
def Covers (range : ℕ × ℕ) (i : ℕ) : Prop := range.1 ≤ i ∧ i ≤ range.2

/-- The range on which the function of `op` runs. -/
def range (O : Object Op Data Pc V) (clamp : ℕ → ℕ → ℕ × ℕ) (op : Op) : ℕ × ℕ :=
  clamp (O.args op).1 (O.args op).2

/-- The ranges of two operations have no position in common. -/
def Apart (O : Object Op Data Pc V) (clamp : ℕ → ℕ → ℕ × ℕ) (op op' : Op) : Prop :=
  ∀ i, Covers (O.range clamp op) i → ¬Covers (O.range clamp op') i

/-- `cell i` holds of the data unless a function runs on position `i`, and `Known` inside the
functions: a function finds the cells of its range as it may expect them, leaves them so, and does
not disturb what others know of theirs. -/
structure Protects (O : Object Op Data Pc V) (clamp : ℕ → ℕ → ℕ × ℕ) (cell : ℕ → Data → Prop)
    (Known : Op → Data → Pc → Prop) : Prop where
  init : ∀ i, cell i O.data
  begins : ∀ {op d}, (∀ i, Covers (O.range clamp op) i → cell i d) →
    Known op d (O.begins op (O.range clamp op))
  func : ∀ {op d pc d' pc'}, Known op d pc → O.func op d pc = some (d', pc') → Known op d' pc'
  returns : ∀ {op d pc}, Known op d pc → O.func op d pc = none →
    ∀ i, Covers (O.range clamp op) i → cell i d
  frameCell : ∀ {op d pc d' pc'}, O.func op d pc = some (d', pc') →
    ∀ i, ¬Covers (O.range clamp op) i → cell i d → cell i d'
  frameKnown : ∀ {op d pc d' pc'}, O.func op d pc = some (d', pc') →
    ∀ op' pc', O.Apart clamp op op' → Known op' d pc' → Known op' d' pc'
  rest : ∀ {op d pc d' pc'}, O.rest op d pc = some (d', pc') →
    (∀ i, cell i d → cell i d') ∧ ∀ op' pc', Known op' d pc' → Known op' d' pc'

/-- Functions that run at the same time have no position in common. -/
theorem apart (hsound : L.Sound clamp asks) (hs : (O.program L).Reachable s) (hne : t ≠ u)
    (ht : InBody s t op) (hu : InBody s u op') : O.Apart clamp op op' := by
  intro i hi hi'
  obtain ⟨hlo, hhi⟩ := hi
  obtain ⟨hlo', hhi'⟩ := hi'
  rcases disjoint hsound hs hne ht hu with h | h
  · exact absurd (Nat.lt_of_le_of_lt hhi (Nat.lt_of_lt_of_le h hlo')) (Nat.lt_irrefl i)
  · exact absurd (Nat.lt_of_le_of_lt hhi' (Nat.lt_of_lt_of_le h hlo)) (Nat.lt_irrefl i)

variable {cell : ℕ → Data → Prop} {Known : Op → Data → Pc → Prop}

/-- Every function knows what it may know, and a position without a function is in order. -/
structure InOrder (O : Object Op Data Pc V) (clamp : ℕ → ℕ → ℕ × ℕ) (cell : ℕ → Data → Prop)
    (Known : Op → Data → Pc → Prop) (s : State Tid (ObjMem Mem Data) (ObjLoc Loc Op Pc)) :
    Prop where
  known : ∀ t op pc, (s.loc t).job = some (op, .body pc) → Known op s.mem.data pc
  cell : ∀ i, (∀ t op, InBody s t op → ¬Covers (O.range clamp op) i) → cell i s.mem.data

omit [DecidableEq Tid] in
/-- What a step means for the functions: it begins one, makes a step of one, ends one, or is outside
of them. -/
theorem Move.bodies {m m' : ObjMem Mem Data} {l l' : ObjLoc Loc Op Pc}
    (h : O.Move L t m l m' l') :
    (∃ op range, l.job = some (op, .waiting) ∧ l'.job = some (op, .body (O.begins op range)) ∧
        m'.data = m.data ∧ L.inFunc l'.lock = some range) ∨
      (∃ op pc pc', l.job = some (op, .body pc) ∧ l'.job = some (op, .body pc') ∧
        O.func op m.data pc = some (m'.data, pc')) ∨
      (∃ op pc, l.job = some (op, .body pc) ∧ l'.job = some (op, .after pc) ∧
        m'.data = m.data ∧ O.func op m.data pc = none) ∨
      (∀ op pc, l.job ≠ some (op, .body pc)) ∧ (∀ op pc, l'.job ≠ some (op, .body pc)) ∧
        (m'.data = m.data ∨ ∃ op pc pc', O.rest op m.data pc = some (m'.data, pc')) := by
  cases h with
  | @enter op _ _ range hfunc => exact Or.inl ⟨op, range, rfl, rfl, rfl, hfunc⟩
  | func hstep => exact Or.inr (Or.inl ⟨_, _, _, rfl, rfl, hstep⟩)
  | leave hnone => exact Or.inr (Or.inr (Or.inl ⟨_, _, rfl, rfl, rfl, hnone⟩))
  | rest _ hstep => exact Or.inr (Or.inr (Or.inr ⟨by simp, by simp, Or.inr ⟨_, _, _, hstep⟩⟩))
  | _ => exact Or.inr (Or.inr (Or.inr ⟨by simp, by simp, Or.inl rfl⟩))

/-- **The rule for what the lock protects**: positions and functions are in order in every reachable
state. -/
theorem Protects.invariant (h : Protects O clamp cell Known) (hsound : L.Sound clamp asks)
    (hs : (O.program L).Reachable s) : InOrder O clamp cell Known s := by
  have hinit : InOrder O clamp cell Known (O.program L).initial := by
    refine ⟨fun t op pc hjob => ?_, fun i _ => h.init i⟩
    contradiction
  refine hs.invariant (I := InOrder O clamp cell Known) hinit ?_
  intro s s' hreach hI hstep
  have hreach' := hreach.step hstep
  obtain ⟨t, ht⟩ := hstep
  obtain ⟨⟨a, ha⟩, hframe⟩ := ht.elim
  have hother : ∀ u, u ≠ t → ∀ op, InBody s' u op ↔ InBody s u op := by
    intro u hu op
    rw [InBody, InBody, hframe u hu]
  have hjobs : ∀ u, u ≠ t → ∀ {op pc}, (s'.loc u).job = some (op, .body pc) →
      (s.loc u).job = some (op, .body pc) := by
    intro u hu op pc hjob
    rw [← hframe u hu]
    exact hjob
  rcases (move_of_advance ha).bodies with ⟨op, range, hjob, hjob', hdata, hfunc⟩ |
    ⟨op, pc, pc', hjob, hjob', hfunc⟩ | ⟨op, pc, hjob, hjob', hdata, hnone⟩ | ⟨hnot, hnot', hdata⟩
  · -- `t` begins a function: no other one runs on its range
    have hin : InBody s' t op := ⟨_, hjob'⟩
    have hrange : range = O.range clamp op :=
      Option.some.inj (hfunc.symm.trans (inFunc_of_inBody hsound hreach' hin))
    have hfree : ∀ u op', InBody s u op' → u ≠ t := by
      rintro u op' ⟨pc, hpc⟩ rfl
      rw [hjob] at hpc
      cases hpc
    refine ⟨fun u op' pc hpc => ?_, fun i hi => ?_⟩
    · rw [hdata]
      by_cases hu : u = t
      · subst hu
        rw [hjob'] at hpc
        cases hpc
        rw [hrange]
        refine h.begins fun i hi => hI.cell i fun u op' hu hcovers => ?_
        have hne := hfree u op' hu
        exact apart hsound hreach' hne.symm hin ((hother u hne op').mpr hu) i hi hcovers
      · exact hI.known u op' pc (hjobs u hu hpc)
    · rw [hdata]
      exact hI.cell i fun u op' hu => hi u op' ((hother u (hfree u op' hu) op').mpr hu)
  · -- `t` goes on with its function, which disturbs nothing outside of its range
    have hin : InBody s t op := ⟨_, hjob⟩
    refine ⟨fun u op' pc'' hpc => ?_, fun i hi => ?_⟩
    · by_cases hu : u = t
      · subst hu
        rw [hjob'] at hpc
        cases hpc
        exact h.func (hI.known u op pc hjob) hfunc
      · have hpc' := hjobs u hu hpc
        exact h.frameKnown hfunc op' pc'' (apart hsound hreach (Ne.symm hu) hin ⟨_, hpc'⟩)
          (hI.known u op' pc'' hpc')
    · refine h.frameCell hfunc i (hi t op ⟨_, hjob'⟩) (hI.cell i fun u op' hu => ?_)
      by_cases hut : u = t
      · obtain ⟨pc'', hpc⟩ := hu
        rw [hut, hjob] at hpc
        cases hpc
        exact hi t op ⟨_, hjob'⟩
      · exact hi u op' ((hother u hut op').mpr hu)
  · -- `t` leaves its function, with its cells in order
    refine ⟨fun u op' pc' hpc => ?_, fun i hi => ?_⟩
    · rw [hdata]
      by_cases hu : u = t
      · rw [hu, hjob'] at hpc
        cases hpc
      · exact hI.known u op' pc' (hjobs u hu hpc)
    · rw [hdata]
      by_cases hcovers : Covers (O.range clamp op) i
      · exact h.returns (hI.known t op pc hjob) hnone i hcovers
      · refine hI.cell i fun u op' hu => ?_
        by_cases hut : u = t
        · obtain ⟨pc', hpc⟩ := hu
          rw [hut, hjob] at hpc
          cases hpc
          exact hcovers
        · exact hi u op' ((hother u hut op').mpr hu)
  · -- `t` is outside of every function
    have hrest : (∀ i, cell i s.mem.data → cell i s'.mem.data) ∧
        ∀ op pc, Known op s.mem.data pc → Known op s'.mem.data pc := by
      rcases hdata with hdata | ⟨op, pc, pc', hstep⟩
      · rw [hdata]
        exact ⟨fun _ => id, fun _ _ => id⟩
      · exact h.rest hstep
    refine ⟨fun u op pc hpc => ?_, fun i hi => ?_⟩
    · by_cases hu : u = t
      · exact absurd (hu ▸ hpc) (hnot' op pc)
      · exact hrest.2 op pc (hI.known u op pc (hjobs u hu hpc))
    · refine hrest.1 i (hI.cell i fun u op hu => ?_)
      by_cases hut : u = t
      · obtain ⟨pc, hpc⟩ := hu
        exact absurd (hut ▸ hpc) (hnot op pc)
      · exact hi u op ((hother u hut op).mpr hu)

/-! ## operations that take effect in one step -/

/-- The operation a thread is in and what it will return, once that is settled. -/
def settled (effect : Pc → Option V) (l : ObjLoc Loc Op Pc) : Option (Op × V) :=
  match l.job with
  | some (op, .body pc) => (effect pc).map (op, ·)
  | some (op, .after pc) => (effect pc).map (op, ·)
  | _ => none

/-- The operations of an object that change `abs` as `spec` says, each in the one step of its
function in which `effect` becomes known.  `Known` is what is known of the data inside the
function, `Behind` is where an operation may stand behind it; it has a result when it returns. -/
structure Rules {A : Type} (O : Object Op Data Pc V) (abs : Data → A) (effect : Pc → Option V)
    (spec : Op → A → V → A → Prop) (Known : Op → Data → Pc → Prop) (Behind : Op → Pc → Prop) :
    Prop where
  begins : ∀ op range, effect (O.begins op range) = none
  func : ∀ {op d pc d' pc'}, Known op d pc → O.func op d pc = some (d', pc') →
    (abs d' = abs d ∧ effect pc' = effect pc) ∨
      (effect pc = none ∧ ∃ v, effect pc' = some v ∧ spec op (abs d) v (abs d'))
  rest : ∀ {op d pc d' pc'}, O.rest op d pc = some (d', pc') →
    abs d' = abs d ∧ effect pc' = effect pc
  result : ∀ {pc v}, O.result pc = some v → effect pc = some v
  leaves : ∀ {op d pc}, Known op d pc → O.func op d pc = none → Behind op pc
  behind : ∀ {op d pc d' pc'}, Behind op pc → O.rest op d pc = some (d', pc') → Behind op pc'
  returns : ∀ {op d pc}, Behind op pc → O.rest op d pc = none → ∃ v, O.result pc = some v

variable {A : Type} {abs : Data → A} {effect : Pc → Option V} {spec : Op → A → V → A → Prop}
  {Known : Op → Data → Pc → Prop} {Behind : Op → Pc → Prop}

omit [DecidableEq Tid] in
/-- A step either changes nothing, whether or not it ends the operation, or lets it take effect. -/
theorem Rules.move (h : Rules O abs effect spec Known Behind) {m m' : ObjMem Mem Data}
    {l l' : ObjLoc Loc Op Pc} (hknown : ∀ op pc, l.job = some (op, .body pc) → Known op m.data pc)
    (hmove : O.Move L t m l m' l') :
    (abs m'.data = abs m.data ∧ (settled effect l' = settled effect l ∨ l'.job = none)) ∨
      ∃ op v, (∃ pc, l.job = some (op, .body pc)) ∧ settled effect l = none ∧
        settled effect l' = some (op, v) ∧ spec op (abs m.data) v (abs m'.data) := by
  cases hmove with
  | lock => exact Or.inl ⟨rfl, Or.inl rfl⟩
  | call => exact Or.inl ⟨rfl, Or.inl rfl⟩
  | wait => exact Or.inl ⟨rfl, Or.inl rfl⟩
  | @enter op _ _ range =>
      refine Or.inl ⟨rfl, Or.inl ?_⟩
      simp only [settled, h.begins op range, Option.map_none]
  | @func op _ _ _ pc pc' hstep =>
      rcases h.func (hknown op pc rfl) hstep with ⟨habs, heffect⟩ | ⟨hnone, v, hsome, hspec⟩
      · refine Or.inl ⟨habs, Or.inl ?_⟩
        simp only [settled, heffect]
      · refine Or.inr ⟨op, v, ⟨pc, rfl⟩, ?_, ?_, hspec⟩
        · simp only [settled, hnone, Option.map_none]
        · simp only [settled, hsome, Option.map_some]
  | leave => exact Or.inl ⟨rfl, Or.inl rfl⟩
  | release => exact Or.inl ⟨rfl, Or.inl rfl⟩
  | rest _ hstep =>
      obtain ⟨habs, heffect⟩ := h.rest hstep
      refine Or.inl ⟨habs, Or.inl ?_⟩
      simp only [settled, heffect]
  | returns => exact Or.inl ⟨rfl, Or.inr rfl⟩

/-! ## the order of the operations in a run -/

/-- The operation that takes effect in step `n` of a run, the thread that runs it and what it
returns. -/
def point (effect : Pc → Option V) (r : Program.Run (O.program L)) (n : ℕ) :
    Option (Tid × Op × V) :=
  match settled effect ((r.states n).loc (r.who n)) with
  | some _ => none
  | none => (settled effect ((r.states (n + 1)).loc (r.who n))).map (r.who n, ·)

/-- Thread `t` is behind the function of `op`, with the result `v`. -/
def HasResult (O : Object Op Data Pc V) (s : State Tid (ObjMem Mem Data) (ObjLoc Loc Op Pc))
    (t : Tid) (op : Op) (v : V) : Prop :=
  ∃ pc, (s.loc t).job = some (op, .after pc) ∧ O.result pc = some v

/-- Thread `t` calls `op` in step `i` of the run and is about to return in state `j`. -/
structure Completed (r : Program.Run (O.program L)) (t : Tid) (i j : ℕ) (op : Op) : Prop where
  before : i < j
  length : j ≤ r.length
  idle : ((r.states i).loc t).job = none
  called : ((r.states (i + 1)).loc t).job = some (op, .waiting)
  inside : ∀ n, i < n → n ≤ j → ((r.states n).loc t).job ≠ none
  returns : ∃ pc, ((r.states j).loc t).job = some (op, .after pc) ∧
    L.isIdle ((r.states j).loc t).lock = true ∧ O.rest op (r.states j).mem.data pc = none

/-- The same from tests that can be run. -/
theorem Completed.of_tests {r : Program.Run (O.program L)} {i j : ℕ} {pc : Pc} (hij : i < j)
    (hj : j ≤ r.length) (hidle : ((r.states i).loc t).job = none)
    (hcalled : ((r.states (i + 1)).loc t).job = some (op, .waiting))
    (hinside : ∀ n ≤ j, i < n → ((r.states n).loc t).job.isSome)
    (hjob : ((r.states j).loc t).job = some (op, .after pc))
    (hlock : L.isIdle ((r.states j).loc t).lock = true)
    (hrest : O.rest op (r.states j).mem.data pc = none) : Completed r t i j op where
  before := hij
  length := hj
  idle := hidle
  called := hcalled
  inside n hin hnj := Option.isSome_iff_ne_none.mp (hinside n hnj hin)
  returns := ⟨pc, hjob, hlock, hrest⟩

/-- The operations of a run take effect one after the other: each in its function, as `spec` says;
nothing happens in between; and an operation that returns has a result and takes effect once between
its call and its return, with this result. -/
structure Linearized (L : RangeLock Tid Act Mem Loc) (abs : Data → A)
    (spec : Op → A → V → A → Prop) (r : Program.Run (O.program L))
    (point : ℕ → Option (Tid × Op × V)) : Prop where
  effective : ∀ n < r.length, ∀ t op v, point n = some (t, op, v) →
    r.who n = t ∧ InBody (r.states n) t op ∧
      spec op (abs (r.states n).mem.data) v (abs (r.states (n + 1)).mem.data)
  quiet : ∀ n < r.length, point n = none →
    abs (r.states (n + 1)).mem.data = abs (r.states n).mem.data
  once : ∀ t i j op, Completed r t i j op →
    ∃ v n, O.HasResult (r.states j) t op v ∧ i < n ∧ n < j ∧ point n = some (t, op, v) ∧
      ∀ n' op' v', i ≤ n' → n' < j → point n' = some (t, op', v') → n' = n

theorem point_eq_some {r : Program.Run (O.program L)} {n : ℕ} {op : Op} {v : V}
    (h : point effect r n = some (t, op, v)) :
    r.who n = t ∧ settled effect ((r.states n).loc t) = none ∧
      settled effect ((r.states (n + 1)).loc t) = some (op, v) := by
  rw [point] at h
  split at h
  · contradiction
  · next hnone =>
      obtain ⟨x, hsome, heq⟩ := Option.map_eq_some_iff.mp h
      cases heq
      exact ⟨rfl, hnone, hsome⟩

section Run

variable {r : Program.Run (O.program L)} {n m i j : ℕ} {v : V}
  (hrules : Rules O abs effect spec Known Behind)
  (hknown : ∀ {s}, (O.program L).Reachable s → ∀ t op pc,
    (s.loc t).job = some (op, .body pc) → Known op s.mem.data pc)

include hrules hknown

/-- A step of a run that does not end an operation of `t` settles one or leaves it as it is. -/
theorem settled_step (hn : n < r.length) (hjob : ((r.states (n + 1)).loc t).job ≠ none) :
    settled effect ((r.states (n + 1)).loc t) = settled effect ((r.states n).loc t) ∨
      ∃ x, settled effect ((r.states (n + 1)).loc t) = some x ∧ point effect r n = some (t, x) := by
  obtain ⟨⟨a, ha⟩, hframe⟩ := (r.step n hn).elim
  by_cases ht : t = r.who n
  · subst ht
    rcases hrules.move (hknown (r.reachable (Nat.le_of_lt hn)) _) (move_of_advance ha) with
      ⟨-, hsame | hnone⟩ | ⟨op, v, -, hnone, hsome, -⟩
    · exact Or.inl hsame
    · exact absurd hnone hjob
    · refine Or.inr ⟨(op, v), hsome, ?_⟩
      simp only [point, hnone, hsome, Option.map_some]
  · exact Or.inl (by rw [hframe t ht])

/-- Once settled, an operation stays so until it returns. -/
theorem settled_stays {x : Op × V} (hj : j ≤ r.length) (hmn : m ≤ n) (hnj : n ≤ j)
    (hinside : ∀ n, m < n → n ≤ j → ((r.states n).loc t).job ≠ none)
    (hm : settled effect ((r.states m).loc t) = some x) :
    settled effect ((r.states n).loc t) = some x := by
  induction n, hmn using Nat.le_induction with
  | base => exact hm
  | succ n hmn ih =>
      have hn := ih (by omega)
      rcases settled_step hrules hknown (t := t) (show n < r.length by omega)
        (hinside (n + 1) (by omega) hnj) with hsame | ⟨y, -, hpoint⟩
      · rw [hsame, hn]
      · obtain ⟨-, hnone, -⟩ := point_eq_some hpoint
        rw [hn] at hnone
        contradiction

/-- An operation that is settled took effect in some step after its call. -/
theorem exists_point (hij : i < j) (hj : j ≤ r.length)
    (hinside : ∀ n, i < n → n ≤ j → ((r.states n).loc t).job ≠ none)
    (hcalled : settled effect ((r.states (i + 1)).loc t) = none) :
    settled effect ((r.states j).loc t) = none ∨
      ∃ n x, i < n ∧ n < j ∧ settled effect ((r.states j).loc t) = some x ∧
        point effect r n = some (t, x) := by
  induction j, hij using Nat.le_induction with
  | base => exact Or.inl hcalled
  | succ j hij ih =>
      rcases settled_step hrules hknown (t := t) (show j < r.length by omega)
        (hinside (j + 1) (by omega) (Nat.le_refl _)) with hsame | ⟨x, hsome, hpoint⟩
      · rw [hsame]
        rcases ih (by omega) fun n hin hnj => hinside n hin (by omega) with
          hnone | ⟨n, x, hin, hnj, hsome, hpoint⟩
        · exact Or.inl hnone
        · exact Or.inr ⟨n, x, hin, by omega, hsome, hpoint⟩
      · exact Or.inr ⟨j, x, hij, Nat.lt_succ_self j, hsome, hpoint⟩

/-- Behind its function an operation stands where it may. -/
theorem behind_of_reachable {s : State Tid (ObjMem Mem Data) (ObjLoc Loc Op Pc)}
    (hs : (O.program L).Reachable s) (t : Tid) {op : Op} {pc : Pc}
    (hjob : (s.loc t).job = some (op, .after pc)) : Behind op pc := by
  refine hs.localInvariant (P := O.program L)
    (Q := fun _ _ l => ∀ op pc, l.job = some (op, .after pc) → Behind op pc) ?_ ?_ ?_ t op pc hjob
  · intro t op pc hjob
    contradiction
  · intro s t a m' l' hreach hbehind h op pc hjob
    have hmove := move_of_advance h
    have hin := hknown hreach t
    generalize s.loc t = l at hmove hbehind hin
    generalize s.mem = m at hmove hin
    cases hmove with
    | leave hnone =>
        cases hjob
        exact hrules.leaves (hin op pc rfl) hnone
    | release =>
        cases hjob
        exact hbehind op pc rfl
    | rest _ hstep =>
        cases hjob
        exact hrules.behind (hbehind op _ rfl) hstep
    | _ => cases hjob
  · intro s t u a m' l' _ _ hbehind _
    exact hbehind

/-- **An operation that returns has a result.** -/
theorem Completed.hasResult {r : Program.Run (O.program L)} (hcall : Completed r t i j op) :
    ∃ v, O.HasResult (r.states j) t op v := by
  obtain ⟨pc, hjob, -, hrest⟩ := hcall.returns
  have hbehind := behind_of_reachable hrules hknown (r.reachable hcall.length) t hjob
  obtain ⟨v, hv⟩ := hrules.returns hbehind hrest
  exact ⟨v, pc, hjob, hv⟩

/-- **Operations that take effect one after the other**: if the data are always as the functions
know them, then every run of the object is ordered by the steps in which its operations take
effect. -/
theorem Rules.linearized (r : Program.Run (O.program L)) :
    Linearized L abs spec r (point effect r) where
  effective n hn t op v hpoint := by
    obtain ⟨hwho, hnone, hsome⟩ := point_eq_some hpoint
    obtain ⟨⟨a, ha⟩, -⟩ := (r.step n hn).elim
    rw [hwho] at ha
    rcases hrules.move (hknown (r.reachable (Nat.le_of_lt hn)) t) (move_of_advance ha) with
      ⟨-, hsame | hend⟩ | ⟨op', v', hbody, -, hsome', hspec⟩
    · rw [hsame, hnone] at hsome
      contradiction
    · rw [settled, hend] at hsome
      contradiction
    · rw [hsome'] at hsome
      cases hsome
      exact ⟨hwho, hbody, hspec⟩
  quiet n hn hpoint := by
    obtain ⟨⟨a, ha⟩, -⟩ := (r.step n hn).elim
    rcases hrules.move (hknown (r.reachable (Nat.le_of_lt hn)) _) (move_of_advance ha) with
      ⟨habs, -⟩ | ⟨op, v, -, hnone, hsome, -⟩
    · exact habs
    · simp only [point, hnone, hsome, Option.map_some] at hpoint
      contradiction
  once t i j op hcall := by
    have hcalled : settled effect ((r.states (i + 1)).loc t) = none := by
      simp only [settled, hcall.called]
    obtain ⟨v, hv⟩ := hcall.hasResult hrules hknown
    have hreturned : settled effect ((r.states j).loc t) = some (op, v) := by
      obtain ⟨pc, hjob, hresult⟩ := hv
      simp only [settled, hjob, hrules.result hresult, Option.map_some]
    rcases exists_point hrules hknown hcall.before hcall.length hcall.inside hcalled with
      hnone | ⟨n, x, hin, hnj, hsome, hpoint⟩
    · rw [hnone] at hreturned
      contradiction
    · rw [hsome] at hreturned
      cases hreturned
      refine ⟨v, n, hv, hin, hnj, hpoint, fun n' op' v' hin' hnj' hpoint' => ?_⟩
      obtain ⟨-, hnone, hset⟩ := point_eq_some hpoint
      obtain ⟨-, hnone', hset'⟩ := point_eq_some hpoint'
      have hne : n' ≠ i := by
        rintro rfl
        rw [hcalled] at hset'
        contradiction
      -- the first of the two leaves nothing to settle for the other
      rcases Nat.lt_trichotomy n' n with hlt | rfl | hlt
      · have hstays := settled_stays hrules hknown hcall.length hlt (Nat.le_of_lt hnj)
          (fun k hk hkj => hcall.inside k (by omega) hkj) hset'
        rw [hnone] at hstays
        contradiction
      · rfl
      · have hstays := settled_stays hrules hknown hcall.length hlt (Nat.le_of_lt hnj')
          (fun k hk hkj => hcall.inside k (by omega) hkj) hset
        rw [hnone'] at hstays
        contradiction

end Run

/-! ## the sequential history -/

/-- The operations of a list, made one after the other. -/
inductive Serial (spec : Op → A → V → A → Prop) : A → List (Tid × Op × V) → A → Prop
  | nil {x : A} : Serial spec x [] x
  | snoc {x y z : A} {history : List (Tid × Op × V)} {t : Tid} {op : Op} {v : V} :
      Serial spec x history y → spec op y v z → Serial spec x (history ++ [(t, op, v)]) z

/-- The operations in the order in which they take effect lead to the present state. -/
theorem Linearized.serial {r : Program.Run (O.program L)} {point : ℕ → Option (Tid × Op × V)}
    (h : Linearized L abs spec r point) {n : ℕ} (hn : n ≤ r.length) :
    Serial spec (abs O.data) ((List.range n).filterMap point) (abs (r.states n).mem.data) := by
  induction n with
  | zero =>
      rw [r.start]
      exact .nil
  | succ n ih =>
      rw [List.range_succ, List.filterMap_append]
      cases hpoint : point n with
      | none =>
          rw [h.quiet n hn hpoint, List.filterMap_cons_none hpoint, List.filterMap_nil,
            List.append_nil]
          exact ih (Nat.le_of_lt hn)
      | some x =>
          obtain ⟨t, op, v⟩ := x
          rw [List.filterMap_cons_some hpoint, List.filterMap_nil]
          exact .snoc (ih (Nat.le_of_lt hn)) (h.effective n hn t op v hpoint).2.2

end Object

end Interleaving
