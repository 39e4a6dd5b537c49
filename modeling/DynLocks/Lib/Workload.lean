import DynLocks.Lib.Interleaving
import Mathlib.Algebra.BigOperators.Group.Finset.Basic
import Mathlib.Algebra.BigOperators.Group.List.Basic
import Mathlib.Algebra.Group.Int.Defs
import Mathlib.Tactic.Linarith
import Mathlib.Tactic.Ring

/-!
# DynLocks.Lib.Workload

Threads that work through lists of queries: each query is a call of a lock,
which runs a function under mutual exclusion, and the function adds to cells of
an array, one load and one store for each addition.

* `Workload.program` — the lock, the array and the threads as one program;
* `Workload.Sound` — what the lock and the queries have to do with each other:
  functions that run at the same time have disjoint cells;
* `Sound.conserved` — then what the array holds and what is still owed to it add
  up in every reachable state, so no addition is lost or made twice
  (`Sound.data_of_done`).
-/

namespace Interleaving

/-! ## the program -/

/-- A thread inside the function: the additions it has still to make, and the value of the first
cell between its load and its store. -/
structure Work where
  pending : List (ℕ × ℤ)
  loaded : Option ℤ

/-- A thread: where it is in the lock, the queries whose function has not returned, and where it is
in the function. -/
structure WorkLoc (Loc Q : Type) where
  lock : Loc
  todo : List Q
  work : Option Work

/-- The memory of the lock and the array. -/
structure WorkMem (Mem : Type) where
  lock : Mem
  data : ℕ → ℤ

/-- The array at the start, the queries of each thread, the actions of the lock a thread may take
with these queries ahead, the range on which the function runs at a point of the lock, and the
additions it makes. -/
structure Workload (Tid Act Loc Q R : Type) where
  data : ℕ → ℤ
  queries : Tid → List Q
  permits : Tid → List Q → Loc → Act → Bool
  inFunc : Loc → Option R
  body : Q → R → List (ℕ × ℤ)

variable {Tid Act Mem Loc Q R : Type}

namespace Workload

variable (W : Workload Tid Act Loc Q R) (P : Program Tid Act Mem Loc)

/-- The threads that work through their queries. -/
def program : Program Tid Act (WorkMem Mem) (WorkLoc Loc Q) where
  init := ⟨P.init, W.data⟩
  start t := ⟨P.start t, W.queries t, none⟩
  advance t a m l :=
    match W.inFunc l.lock, l.todo, l.work with
    | some range, q :: _, none => some (m, { l with work := some ⟨W.body q range, none⟩ })
    | some _, _ :: rest, some ⟨[], _⟩ =>
        (P.advance t a m.lock l.lock).map fun r => ({ m with lock := r.1 }, ⟨r.2, rest, none⟩)
    | some _, _ :: _, some ⟨(cell, delta) :: more, none⟩ =>
        some (m, { l with work := some ⟨(cell, delta) :: more, some (m.data cell)⟩ })
    | some _, _ :: _, some ⟨(cell, delta) :: more, some value⟩ =>
        some ({ m with data := Function.update m.data cell (value + delta) },
          { l with work := some ⟨more, none⟩ })
    | _, _, _ =>
        if W.permits t l.todo l.lock a then
          (P.advance t a m.lock l.lock).map fun r => ({ m with lock := r.1 }, { l with lock := r.2 })
        else none

/-- What one step of thread `t` does. -/
inductive Move (t : Tid) : WorkMem Mem → WorkLoc Loc Q → WorkMem Mem → WorkLoc Loc Q → Prop
  | lock {a : Act} {m : WorkMem Mem} {m' : Mem} {l : WorkLoc Loc Q} {l' : Loc} :
      W.inFunc l.lock = none ∨ l.todo = [] → W.permits t l.todo l.lock a = true →
      P.advance t a m.lock l.lock = some (m', l') →
      Move t m l { m with lock := m' } { l with lock := l' }
  | enter {m : WorkMem Mem} {l : Loc} {q : Q} {rest : List Q} {range : R} :
      W.inFunc l = some range →
      Move t m ⟨l, q :: rest, none⟩ m ⟨l, q :: rest, some ⟨W.body q range, none⟩⟩
  | load {m : WorkMem Mem} {l : Loc} {q : Q} {rest : List Q} {range : R} {cell : ℕ} {delta : ℤ}
      {more : List (ℕ × ℤ)} : W.inFunc l = some range →
      Move t m ⟨l, q :: rest, some ⟨(cell, delta) :: more, none⟩⟩ m
        ⟨l, q :: rest, some ⟨(cell, delta) :: more, some (m.data cell)⟩⟩
  | store {m : WorkMem Mem} {l : Loc} {q : Q} {rest : List Q} {range : R} {cell : ℕ}
      {delta value : ℤ} {more : List (ℕ × ℤ)} : W.inFunc l = some range →
      Move t m ⟨l, q :: rest, some ⟨(cell, delta) :: more, some value⟩⟩
        { m with data := Function.update m.data cell (value + delta) }
        ⟨l, q :: rest, some ⟨more, none⟩⟩
  | leave {a : Act} {m : WorkMem Mem} {m' : Mem} {l l' : Loc} {q : Q} {rest : List Q} {range : R}
      {loaded : Option ℤ} : W.inFunc l = some range → P.advance t a m.lock l = some (m', l') →
      Move t m ⟨l, q :: rest, some ⟨[], loaded⟩⟩ { m with lock := m' } ⟨l', rest, none⟩

variable {W P} {t : Tid}

theorem move_of_advance {a : Act} {m m' : WorkMem Mem} {l l' : WorkLoc Loc Q}
    (h : (W.program P).advance t a m l = some (m', l')) : W.Move P t m l m' l' := by
  have hlock : (W.inFunc l.lock = none ∨ l.todo = []) →
      (if W.permits t l.todo l.lock a then
        (P.advance t a m.lock l.lock).map fun r =>
          (({ m with lock := r.1 } : WorkMem Mem), ({ l with lock := r.2 } : WorkLoc Loc Q))
      else none) = some (m', l') → W.Move P t m l m' l' := by
    intro hout h
    split at h
    · next hpermits =>
        obtain ⟨r, hadvance, heq⟩ := Option.map_eq_some_iff.mp h
        cases heq
        exact .lock hout hpermits hadvance
    · contradiction
  obtain ⟨l, todo, work⟩ := l
  simp only [program] at h
  cases hfunc : W.inFunc l with
  | none =>
      simp only [hfunc] at h
      exact hlock (Or.inl hfunc) h
  | some range =>
      simp only [hfunc] at h
      cases todo with
      | nil => exact hlock (Or.inr rfl) h
      | cons q rest =>
          cases work with
          | none => cases h; exact .enter hfunc
          | some work =>
              obtain ⟨pending, loaded⟩ := work
              cases pending with
              | nil =>
                  obtain ⟨r, hadvance, heq⟩ := Option.map_eq_some_iff.mp h
                  cases heq
                  exact .leave hfunc hadvance
              | cons addition more =>
                  cases loaded with
                  | none => cases h; exact .load hfunc
                  | some value => cases h; exact .store hfunc

/-- The state of the lock. -/
def lockState (s : State Tid (WorkMem Mem) (WorkLoc Loc Q)) : State Tid Mem Loc :=
  ⟨s.mem.lock, fun t => (s.loc t).lock⟩

/-- The lock of a workload is a lock that some program uses. -/
theorem lockState_reachable [DecidableEq Tid] {s : State Tid (WorkMem Mem) (WorkLoc Loc Q)}
    (hs : (W.program P).Reachable s) : P.Reachable (lockState s) := by
  refine hs.project WorkMem.lock WorkLoc.lock rfl (fun _ => rfl) fun h => ?_
  cases move_of_advance h with
  | lock _ _ hadvance => exact Or.inr ⟨_, hadvance⟩
  | enter => exact Or.inl ⟨rfl, rfl⟩
  | load => exact Or.inl ⟨rfl, rfl⟩
  | store => exact Or.inl ⟨rfl, rfl⟩
  | leave _ hadvance => exact Or.inr ⟨_, hadvance⟩

/-! ## a thread alone -/

/-- A step of the lock outside of the function. -/
theorem alone_lock {a : Act} {m m' : Mem} {l l' : Loc} {todo : List Q} (hout : W.inFunc l = none)
    (hpermits : W.permits t todo l a = true) (h : P.advance t a m l = some (m', l'))
    (data : ℕ → ℤ) (work : Option Work) :
    (W.program P).Alone t (⟨m, data⟩, ⟨l, todo, work⟩) (⟨m', data⟩, ⟨l', todo, work⟩) := by
  refine Program.Alone.single (a := a) ?_
  simp only [program, hout, hpermits, h, if_true, Option.map_some]

/-- The additions that are left can all be made. -/
theorem alone_pending {m : Mem} {l : Loc} {range : R} (hfunc : W.inFunc l = some range)
    (a : Act) (q : Q) (rest : List Q) (pending : List (ℕ × ℤ)) (data : ℕ → ℤ) :
    ∃ data', (W.program P).Alone t (⟨m, data⟩, ⟨l, q :: rest, some ⟨pending, none⟩⟩)
      (⟨m, data'⟩, ⟨l, q :: rest, some ⟨[], none⟩⟩) := by
  induction pending generalizing data with
  | nil => exact ⟨data, Relation.ReflTransGen.refl⟩
  | cons u more ih =>
      obtain ⟨cell, delta⟩ := u
      obtain ⟨data', hrest⟩ := ih (Function.update data cell (data cell + delta))
      have hload : (W.program P).Alone t
          (⟨m, data⟩, ⟨l, q :: rest, some ⟨(cell, delta) :: more, none⟩⟩)
          (⟨m, data⟩, ⟨l, q :: rest, some ⟨(cell, delta) :: more, some (data cell)⟩⟩) :=
        Program.Alone.single (a := a) (by simp only [program, hfunc])
      have hstore : (W.program P).Alone t
          (⟨m, data⟩, ⟨l, q :: rest, some ⟨(cell, delta) :: more, some (data cell)⟩⟩)
          (⟨m, Function.update data cell (data cell + delta)⟩,
            ⟨l, q :: rest, some ⟨more, none⟩⟩) :=
        Program.Alone.single (a := a) (by simp only [program, hfunc])
      exact ⟨data', (hload.trans hstore).trans hrest⟩

/-- The function runs to its end. -/
theorem alone_func {a : Act} {m m' : Mem} {l l' : Loc} {range : R} (hfunc : W.inFunc l = some range)
    (h : P.advance t a m l = some (m', l')) (q : Q) (rest : List Q) (data : ℕ → ℤ) :
    ∃ data', (W.program P).Alone t (⟨m, data⟩, ⟨l, q :: rest, none⟩)
      (⟨m', data'⟩, ⟨l', rest, none⟩) := by
  have henter : (W.program P).Alone t (⟨m, data⟩, ⟨l, q :: rest, none⟩)
      (⟨m, data⟩, ⟨l, q :: rest, some ⟨W.body q range, none⟩⟩) :=
    Program.Alone.single (a := a) (by simp only [program, hfunc])
  obtain ⟨data', hbody⟩ := alone_pending (t := t) (P := P) (m := m) hfunc a q rest
    (W.body q range) data
  have hleave : (W.program P).Alone t (⟨m, data'⟩, ⟨l, q :: rest, some ⟨[], none⟩⟩)
      (⟨m', data'⟩, ⟨l', rest, none⟩) :=
    Program.Alone.single (a := a) (by simp only [program, hfunc, h, Option.map_some])
  exact ⟨data', (henter.trans hbody).trans hleave⟩

/-! ## what the lock guarantees -/

/-- The lock runs the function of the query that the thread asks for, on the range of the query, and
never runs two functions at once that share a cell.  `asks` is the range of a call whose function
has not returned, `cells` the cells of a range. -/
structure Sound [DecidableEq Tid] (W : Workload Tid Act Loc Q R) (P : Program Tid Act Mem Loc)
    (range : Q → R) (asks : Loc → Option R) (cells : R → ℕ → Prop) : Prop where
  start : ∀ t, asks (P.start t) = none
  call : ∀ {t a m l m' l' todo r}, P.advance t a m l = some (m', l') →
    W.permits t todo l a = true → asks l = none → asks l' = some r →
    ∃ q rest, todo = q :: rest ∧ r = range q
  keep : ∀ {t a m l m' l' r}, P.advance t a m l = some (m', l') → W.inFunc l = none →
    asks l = some r → asks l' = some r
  func : ∀ {l r}, W.inFunc l = some r → asks l = some r
  leave : ∀ {t a m l m' l' r}, W.inFunc l = some r → P.advance t a m l = some (m', l') →
    asks l' = none
  within : ∀ t, ∀ q ∈ W.queries t, ∀ u ∈ W.body q (range q), cells (range q) u.1
  exclusive : ∀ {s t u r r'}, P.Reachable s → t ≠ u → W.inFunc (s.loc t) = some r →
    W.inFunc (s.loc u) = some r' → ∀ j, cells r j → ¬cells r' j

variable [DecidableEq Tid] {range : Q → R} {asks : Loc → Option R} {cells : R → ℕ → Prop}

/-- What a thread that works through its queries knows. -/
structure Consistent (W : Workload Tid Act Loc Q R) (range : Q → R) (asks : Loc → Option R)
    (t : Tid) (data : ℕ → ℤ) (l : WorkLoc Loc Q) : Prop where
  suffix : l.todo <:+ W.queries t
  asked : ∀ r, asks l.lock = some r → ∃ q rest, l.todo = q :: rest ∧ r = range q
  working : ∀ w, l.work = some w → (∃ r, W.inFunc l.lock = some r) ∧
    ∃ q rest made, l.todo = q :: rest ∧ W.body q (range q) = made ++ w.pending
  loaded : ∀ w v, l.work = some w → w.loaded = some v →
    ∃ cell delta more, w.pending = (cell, delta) :: more ∧ v = data cell

/-- The cell a thread is about to store to is one of the range it runs on. -/
theorem Consistent.cells_pending (hsound : W.Sound P range asks cells) {data : ℕ → ℤ}
    {l : WorkLoc Loc Q} (h : Consistent W range asks t data l) {w : Work} (hwork : l.work = some w)
    {cell : ℕ} {delta : ℤ} {more : List (ℕ × ℤ)} (hpending : w.pending = (cell, delta) :: more) :
    ∃ r, W.inFunc l.lock = some r ∧ cells r cell := by
  obtain ⟨⟨r, hfunc⟩, q, rest, made, htodo, hbody⟩ := h.working w hwork
  obtain ⟨q', rest', htodo', hr⟩ := h.asked r (hsound.func hfunc)
  rw [htodo] at htodo'
  cases htodo'
  have hmem : q ∈ W.queries t := h.suffix.subset (by rw [htodo]; exact List.mem_cons_self ..)
  refine ⟨r, hfunc, hr ▸ hsound.within t q hmem (cell, delta) ?_⟩
  rw [hbody, hpending]
  simp

/-- A step keeps what the moving thread knows. -/
theorem Consistent.move (hsound : W.Sound P range asks cells) {m m' : WorkMem Mem}
    {l l' : WorkLoc Loc Q} (h : Consistent W range asks t m.data l) (hmove : W.Move P t m l m' l') :
    Consistent W range asks t m'.data l' := by
  cases hmove with
  | @lock a _ _ _ _ hout hpermits hadvance =>
      have hnot : ∀ r, asks l.lock = some r → W.inFunc l.lock = none := fun r hr => by
        obtain ⟨q, rest, htodo, -⟩ := h.asked r hr
        exact hout.resolve_right (by rw [htodo]; simp)
      refine ⟨h.suffix, fun r hr => ?_, fun w hw => ?_, h.loaded⟩
      · cases hasks : asks l.lock with
        | none => exact hsound.call hadvance hpermits hasks hr
        | some r' =>
            have hkeep := hsound.keep hadvance (hnot r' hasks) hasks
            obtain rfl : r = r' := Option.some.inj (hr.symm.trans hkeep)
            exact h.asked r hasks
      · obtain ⟨⟨r, hfunc⟩, -⟩ := h.working w hw
        have hnone := hnot r (hsound.func hfunc)
        rw [hfunc] at hnone
        contradiction
  | @enter _ _ q rest r hfunc =>
      obtain ⟨q', rest', htodo, hr⟩ := h.asked r (hsound.func hfunc)
      cases htodo
      exact ⟨h.suffix, h.asked, fun w hw => by cases hw; exact ⟨⟨r, hfunc⟩, q, rest, [], rfl, hr ▸ rfl⟩,
        fun w v hw hv => by cases hw; contradiction⟩
  | load hfunc =>
      refine ⟨h.suffix, h.asked, fun w hw => ?_, fun w v hw hv => ?_⟩
      · cases hw
        exact h.working ⟨_, none⟩ rfl
      · cases hw
        cases hv
        exact ⟨_, _, _, rfl, rfl⟩
  | store hfunc =>
      refine ⟨h.suffix, h.asked, fun w hw => ?_, fun w v hw hv => ?_⟩
      · cases hw
        obtain ⟨hin, q, rest, made, htodo, hbody⟩ := h.working _ rfl
        exact ⟨hin, q, rest, made ++ [_], htodo, by rw [hbody, List.append_assoc]; rfl⟩
      · cases hw
        contradiction
  | @leave a _ _ _ _ q rest r _ hfunc hadvance =>
      have hnone := hsound.leave hfunc hadvance
      refine ⟨(List.suffix_cons q rest).trans h.suffix, fun r' hr' => ?_,
        fun w hw => by contradiction, fun w v hw => by contradiction⟩
      rw [hnone] at hr'
      contradiction

/-- In every reachable state every thread is consistent: nobody else stores to a cell between its
load and its store. -/
theorem Sound.consistent (hsound : W.Sound P range asks cells)
    {s : State Tid (WorkMem Mem) (WorkLoc Loc Q)} (hs : (W.program P).Reachable s) (t : Tid) :
    Consistent W range asks t s.mem.data (s.loc t) := by
  refine hs.invariant (P := W.program P)
    (I := fun s => ∀ t, Consistent W range asks t s.mem.data (s.loc t)) ?_ ?_ t
  · intro t
    refine ⟨List.suffix_refl _, fun r hr => ?_, fun w hw => by contradiction,
      fun w v hw => by contradiction⟩
    have hnone := hsound.start t
    change asks (P.start t) = some r at hr
    rw [hnone] at hr
    contradiction
  · intro s s' hreach hall ⟨u, hu⟩ t
    obtain ⟨⟨a, ha⟩, hframe⟩ := hu.elim
    have hmove := move_of_advance ha
    by_cases ht : t = u
    · rw [ht]
      exact (hall u).move hsound hmove
    · rw [hframe t ht]
      have hmine := hall t
      have hhis := hall u
      refine ⟨hmine.suffix, hmine.asked, hmine.working, fun w v hw hv => ?_⟩
      obtain ⟨cell, delta, more, hpending, hvalue⟩ := hmine.loaded w v hw hv
      refine ⟨cell, delta, more, hpending, ?_⟩
      have hlock : P.Reachable (lockState s) := lockState_reachable hreach
      -- a store of the other thread goes to a cell of its own range
      have hother : ∀ {l : WorkLoc Loc Q} {cell' : ℕ} {delta' : ℤ} {more' : List (ℕ × ℤ)}
          {value : Option ℤ}, s.loc u = l → l.work = some ⟨(cell', delta') :: more', value⟩ →
          cell ≠ cell' := by
        intro l cell' delta' more' value hl hwork heq
        rw [← hl] at hwork
        obtain ⟨r, hr, hcell⟩ := hmine.cells_pending hsound hw hpending
        obtain ⟨r', hr', hcell'⟩ := hhis.cells_pending hsound hwork rfl
        exact hsound.exclusive hlock ht hr hr' cell hcell (heq ▸ hcell')
      generalize hl : s.loc u = l at hmove hother
      generalize s'.loc u = l' at hmove
      generalize s.mem = m at hmove hvalue
      generalize s'.mem = m' at hmove ⊢
      cases hmove with
      | store hfunc => exact hvalue.trans (Function.update_of_ne (hother rfl rfl) _ _).symm
      | _ => exact hvalue

/-! ## conservation -/

/-- What the additions add to one cell. -/
def amount (additions : List (ℕ × ℤ)) (cell : ℕ) : ℤ :=
  (additions.map fun u => if u.1 = cell then u.2 else 0).sum

@[simp] theorem amount_nil (cell : ℕ) : amount [] cell = 0 := rfl

@[simp] theorem amount_cons (u : ℕ × ℤ) (additions : List (ℕ × ℤ)) (cell : ℕ) :
    amount (u :: additions) cell = (if u.1 = cell then u.2 else 0) + amount additions cell :=
  List.sum_cons

@[simp] theorem amount_append (additions more : List (ℕ × ℤ)) (cell : ℕ) :
    amount (additions ++ more) cell = amount additions cell + amount more cell := by
  simp [amount]

/-- The additions of a list of queries. -/
def additions (W : Workload Tid Act Loc Q R) (range : Q → R) (queries : List Q) : List (ℕ × ℤ) :=
  queries.flatMap fun q => W.body q (range q)

omit [DecidableEq Tid] in
@[simp] theorem additions_nil (W : Workload Tid Act Loc Q R) (range : Q → R) :
    W.additions range [] = [] := rfl

/-- The additions a thread has still to make. -/
def outstanding (W : Workload Tid Act Loc Q R) (range : Q → R) (l : WorkLoc Loc Q) :
    List (ℕ × ℤ) :=
  match l.work, l.todo with
  | some work, _ :: rest => work.pending ++ W.additions range rest
  | _, todo => W.additions range todo

/-- A step moves what it adds to the array from what the thread owes. -/
theorem Consistent.amount_move (hsound : W.Sound P range asks cells) {m m' : WorkMem Mem}
    {l l' : WorkLoc Loc Q} (h : Consistent W range asks t m.data l) (hmove : W.Move P t m l m' l')
    (cell : ℕ) : m'.data cell + amount (W.outstanding range l') cell =
      m.data cell + amount (W.outstanding range l) cell := by
  cases hmove with
  | lock => rfl
  | @enter _ _ q rest r hfunc =>
      obtain ⟨q', rest', htodo, hr⟩ := h.asked r (hsound.func hfunc)
      cases htodo
      simp [outstanding, additions, hr]
  | load => rfl
  | @store _ _ q rest r c delta value more hfunc =>
      obtain ⟨c', delta', more', hpending, rfl⟩ := h.loaded _ value rfl rfl
      cases hpending
      by_cases hc : c = cell
      · subst hc
        simp [outstanding]
        ring
      · simp [outstanding, hc, Function.update_of_ne (Ne.symm hc)]
  | leave => rfl

variable [Fintype Tid]

/-- **Conservation**: what a cell holds and what the threads still owe to it add up. -/
theorem Sound.conserved (hsound : W.Sound P range asks cells)
    {s : State Tid (WorkMem Mem) (WorkLoc Loc Q)} (hs : (W.program P).Reachable s) (cell : ℕ) :
    s.mem.data cell + ∑ t, amount (W.outstanding range (s.loc t)) cell =
      W.data cell + ∑ t, amount (W.additions range (W.queries t)) cell := by
  refine hs.invariant (P := W.program P) (I := fun s =>
    s.mem.data cell + ∑ t, amount (W.outstanding range (s.loc t)) cell =
      W.data cell + ∑ t, amount (W.additions range (W.queries t)) cell) rfl ?_
  intro s s' hreach hsum ⟨t, ht⟩
  obtain ⟨⟨a, ha⟩, hframe⟩ := ht.elim
  have hamount := (hsound.consistent hreach t).amount_move hsound (move_of_advance ha) cell
  have hrest : ∑ u ∈ Finset.univ.erase t, amount (W.outstanding range (s'.loc u)) cell =
      ∑ u ∈ Finset.univ.erase t, amount (W.outstanding range (s.loc u)) cell :=
    Finset.sum_congr rfl fun u hu => by rw [hframe u (Finset.ne_of_mem_erase hu)]
  rw [← Finset.add_sum_erase _ _ (Finset.mem_univ t)] at hsum ⊢
  rw [hrest]
  linarith

/-- Once all queries are done, every cell holds what it held at the start and all that the queries
add to it. -/
theorem Sound.data_of_done (hsound : W.Sound P range asks cells)
    {s : State Tid (WorkMem Mem) (WorkLoc Loc Q)} (hs : (W.program P).Reachable s)
    (hdone : ∀ t, (s.loc t).todo = []) (cell : ℕ) :
    s.mem.data cell = W.data cell + ∑ t, amount (W.additions range (W.queries t)) cell := by
  have hzero : ∀ t, amount (W.outstanding range (s.loc t)) cell = 0 := fun t => by
    have := hdone t
    generalize s.loc t = l at this
    obtain ⟨lock, todo, work⟩ := l
    obtain rfl : todo = [] := this
    cases work <;> rfl
  have hsum := hsound.conserved hs cell
  simpa [hzero] using hsum

end Workload

end Interleaving
