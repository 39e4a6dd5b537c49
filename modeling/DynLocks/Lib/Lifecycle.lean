import DynLocks.Lib.Interleaving

/-!
# DynLocks.Lib.Lifecycle

An object that owns a background thread: its owner starts and stops the thread
and does whatever else it likes in between.  The handle of the thread, the
thread's body, the flag that asks it to leave and the owner's place in its calls
are four pieces of state that change one at a time.

* `Script.program` — a program one thread of which makes a given sequence of calls;
* `Script.reachable_spec` — an invariant over what has been called so far;
* `Move` — what a step may do to the life of the thread; `Inv.move` — what it keeps;
* `Inv.sound` — there is at most one thread, none while the last call was to stop it,
  and one that is not asked to leave while the last call was to start it;
* `inv_of_reachable` — the same for every object whose steps are such moves.
-/

namespace Interleaving

/-! ## an owner with a script -/

/-- The thread that makes the calls, where it can make one, and the action of a call. -/
structure Script (Tid Act Loc Call : Type) where
  owner : Tid
  idle : Loc → Bool
  act : Call → Act

/-- The memory of the object and the calls that are still to be made. -/
structure ScriptMem (Mem Call : Type) where
  object : Mem
  todo : List Call

namespace Script

variable {Tid Act Mem Loc Call : Type} [DecidableEq Tid] (S : Script Tid Act Loc Call)
  (P : Program Tid Act Mem Loc) (calls : List Call)

/-- The program whose owner makes the calls, one after the other. -/
def program : Program Tid Act (ScriptMem Mem Call) Loc where
  init := ⟨P.init, calls⟩
  start := P.start
  advance t a m l :=
    if t = S.owner ∧ S.idle l then
      match m.todo with
      | [] => none
      | c :: rest => (P.advance t (S.act c) m.object l).map fun r => (⟨r.1, rest⟩, r.2)
    else (P.advance t a m.object l).map fun r => (⟨r.1, m.todo⟩, r.2)

variable {S P calls}

/-- The owner has returned from its last call: in this state the object is destroyed. -/
def Over (S : Script Tid Act Loc Call) (s : State Tid (ScriptMem Mem Call) Loc) : Prop :=
  s.mem.todo = [] ∧ S.idle (s.loc S.owner)

/-- The object of a state of the program. -/
def object (s : State Tid (ScriptMem Mem Call) Loc) : State Tid Mem Loc := ⟨s.mem.object, s.loc⟩

/-- An assertion about the calls made so far and the object holds in every reachable state if the
calls and all other steps keep it. -/
theorem reachable_spec {I : List Call → State Tid Mem Loc → Prop} (hinit : I [] P.initial)
    (hcall : ∀ made c s s', I made s → S.idle (s.loc S.owner) →
      P.advance S.owner (S.act c) s.mem (s.loc S.owner) = some (s'.mem, s'.loc S.owner) →
      (∀ u, u ≠ S.owner → s'.loc u = s.loc u) → I (made ++ [c]) s')
    (hstep : ∀ made s s' t a, I made s → (t = S.owner → S.idle (s.loc t) = false) →
      P.advance t a s.mem (s.loc t) = some (s'.mem, s'.loc t) →
      (∀ u, u ≠ t → s'.loc u = s.loc u) → I made s')
    {s : State Tid (ScriptMem Mem Call) Loc} (hs : (S.program P calls).Reachable s) :
    ∃ made, calls = made ++ s.mem.todo ∧ I made (object s) := by
  have hstart : ∃ made, calls = made ++ (S.program P calls).initial.mem.todo ∧
      I made (object (S.program P calls).initial) := ⟨[], rfl, hinit⟩
  refine hs.invariant (I := fun s => ∃ made, calls = made ++ s.mem.todo ∧ I made (object s))
    hstart ?_
  rintro s s' - ⟨made, hcalls, hI⟩ ⟨t, ht⟩
  obtain ⟨⟨a, ha⟩, hframe⟩ := ht.elim
  simp only [program] at ha
  by_cases howner : t = S.owner ∧ S.idle (s.loc t)
  · obtain ⟨rfl, hidle⟩ := howner
    rw [if_pos ⟨rfl, hidle⟩] at ha
    cases htodo : s.mem.todo with
    | nil => rw [htodo] at ha; contradiction
    | cons c rest =>
        rw [htodo] at ha hcalls
        obtain ⟨⟨m', l'⟩, hadvance, heq⟩ := Option.map_eq_some_iff.mp ha
        simp only [Prod.mk.injEq] at heq
        obtain ⟨hmem, hloc⟩ := heq
        have hobject : s'.mem.object = m' := by rw [← hmem]
        have hrest : s'.mem.todo = rest := by rw [← hmem]
        refine ⟨made ++ [c], by rw [hrest, hcalls, List.append_assoc]; rfl, ?_⟩
        refine hcall made c (object s) (object s') hI hidle ?_ hframe
        change P.advance S.owner (S.act c) s.mem.object (s.loc S.owner) =
          some (s'.mem.object, s'.loc S.owner)
        rw [hobject, ← hloc]
        exact hadvance
  · rw [if_neg howner] at ha
    obtain ⟨⟨m', l'⟩, hadvance, heq⟩ := Option.map_eq_some_iff.mp ha
    simp only [Prod.mk.injEq] at heq
    obtain ⟨hmem, hloc⟩ := heq
    have hobject : s'.mem.object = m' := by rw [← hmem]
    have hrest : s'.mem.todo = s.mem.todo := by rw [← hmem]
    refine ⟨made, by rw [hrest]; exact hcalls, ?_⟩
    refine hstep made (object s) (object s') t a hI (fun heq => ?_) ?_ hframe
    · exact Bool.eq_false_iff.mpr fun hidle => howner ⟨heq, hidle⟩
    · change P.advance t a s.mem.object (s.loc t) = some (s'.mem.object, s'.loc t)
      rw [hobject, ← hloc]
      exact hadvance

end Script

end Interleaving

namespace Lifecycle

/-! ## the life of a thread -/

/-- A `std::thread` and the thread it stands for: not joinable, created but not yet running,
running, or finished and not yet joined. -/
inductive Thread
  | none
  | created
  | running
  | finished
  deriving DecidableEq

/-- The calls that bear on the thread. -/
inductive Call
  | start
  | stop
  deriving DecidableEq

/-- Where the owner stands: in a call that starts the thread, before the flag is cleared and before
the thread is created; in one that stops it, before the flag is set, before the join and after it;
or elsewhere. -/
inductive Owner
  | out
  | clearing
  | creating
  | asking
  | joining
  | joined
  deriving DecidableEq

/-- The body of the thread: not under way, in its loop, or leaving it because of the flag. -/
inductive Body
  | absent
  | looping
  | leaving
  deriving DecidableEq

structure State where
  thread : Thread
  stopFlag : Bool
  owner : Owner
  body : Body

/-- The threads that exist: one that was created and has not come to its body, and one in its
body. -/
def State.threads (s : State) : ℕ :=
  (if s.thread = .created then 1 else 0) + (if s.body = .absent then 0 else 1)

/-- One step, and the call it makes. -/
inductive Move : State → Option Call → State → Prop
  | startFirst {s : State} : s.owner = .out → s.thread = .none →
      Move s (some .start) { s with owner := .clearing }
  | startAgain {s : State} : s.owner = .out → s.thread ≠ .none → Move s (some .start) s
  | clear {s : State} : s.owner = .clearing →
      Move s none { s with stopFlag := false, owner := .creating }
  | create {s : State} : s.owner = .creating → s.thread = .none →
      Move s none { s with thread := .created, owner := .out }
  | stop {s : State} : s.owner = .out → Move s (some .stop) { s with owner := .asking }
  | ask {s : State} : s.owner = .asking →
      Move s none { s with stopFlag := true, owner := .joining }
  | join {s : State} : s.owner = .joining → s.thread = .none ∨ s.thread = .finished →
      Move s none { s with thread := .none, owner := .joined }
  | returned {s : State} : s.owner = .joined → Move s none { s with owner := .out }
  | begin {s : State} : s.thread = .created → s.body = .absent →
      Move s none { s with thread := .running, body := .looping }
  | leave {s : State} : s.body = .looping → s.stopFlag = true →
      Move s none { s with body := .leaving }
  | finish {s : State} : s.body = .leaving →
      Move s none { s with thread := .finished, body := .absent }
  | stay {s : State} : Move s none s

/-- What the place of the owner says, given its last call that bears on the thread. -/
def Owner.Knows (last : Option Call) (thread : Thread) (stopFlag : Bool) : Owner → Prop
  | .out => thread = .none ↔ last ≠ some .start
  | .clearing => thread = .none ∧ last = some .start
  | .creating => thread = .none ∧ stopFlag = false ∧ last = some .start
  | .asking => last = some .stop
  | .joining => last = some .stop
  | .joined => thread = .none ∧ last = some .stop

/-- The four pieces of state agree. -/
structure Inv (last : Option Call) (s : State) : Prop where
  body : s.body ≠ .absent ↔ s.thread = .running
  leaving : s.body = .leaving → s.owner = .joining
  finished : s.thread = .finished → s.owner = .joining
  flag : s.thread = .created ∨ s.thread = .running → s.owner ≠ .joining → s.stopFlag = false
  owner : s.owner.Knows last s.thread s.stopFlag

/-- Every step keeps the agreement. -/
theorem Inv.move {last call : Option Call} {s s' : State} (h : Inv last s) (hmove : Move s call s') :
    Inv (call.or last) s' := by
  obtain ⟨hbody, hleaving, hfinished, hflag, howner⟩ := h
  cases hmove with
  | startFirst hout hnone =>
      rw [hout] at howner hleaving hfinished
      refine ⟨hbody, fun hl => ?_, fun hf => ?_, fun hlive _ => ?_, hnone, rfl⟩
      · exact absurd (hleaving hl) (by simp)
      · simp [hnone] at hf
      · simp [hnone] at hlive
  | startAgain hout hsome =>
      rw [hout] at howner
      refine ⟨hbody, hleaving, hfinished, hflag, ?_⟩
      rw [hout]
      simp [Owner.Knows, hsome]
  | clear hclearing =>
      rw [hclearing] at howner hleaving
      obtain ⟨hnone, hlast⟩ := howner
      refine ⟨hbody, fun hl => ?_, fun hf => ?_, fun _ _ => rfl, hnone, rfl, hlast⟩
      · exact absurd (hleaving hl) (by simp)
      · simp [hnone] at hf
  | create hcreating hnone =>
      rw [hcreating] at howner hleaving
      obtain ⟨-, hclear, hlast⟩ := howner
      have habsent : s.body = .absent := by simpa [hnone] using hbody
      refine ⟨by simp [habsent], fun hl => ?_, fun hf => ?_, fun _ _ => hclear, ?_⟩
      · simp [habsent] at hl
      · simp at hf
      · simp [Owner.Knows, hlast]
  | stop hout =>
      rw [hout] at hleaving hfinished hflag
      refine ⟨hbody, fun hl => ?_, fun hf => ?_, fun hlive _ => hflag hlive (by simp), rfl⟩
      · exact absurd (hleaving hl) (by simp)
      · exact absurd (hfinished hf) (by simp)
  | ask hasking =>
      rw [hasking] at howner
      exact ⟨hbody, fun _ => rfl, fun _ => rfl, fun _ hne => absurd rfl hne, howner⟩
  | join hjoining hthread =>
      rw [hjoining] at howner
      have habsent : s.body = .absent := by
        rcases hthread with hthread | hthread <;> simpa [hthread] using hbody
      refine ⟨by simp [habsent], fun hl => ?_, fun hf => ?_, fun hlive _ => ?_, rfl, howner⟩
      · simp [habsent] at hl
      · simp at hf
      · simp at hlive
  | returned hjoined =>
      rw [hjoined] at howner hleaving hfinished hflag
      obtain ⟨hnone, hlast⟩ := howner
      refine ⟨hbody, fun hl => ?_, fun hf => ?_, fun hlive _ => hflag hlive (by simp), ?_⟩
      · exact absurd (hleaving hl) (by simp)
      · exact absurd (hfinished hf) (by simp)
      · simp [Owner.Knows, hnone, hlast]
  | begin hcreated habsent =>
      refine ⟨by simp, fun hl => by simp at hl, fun hf => by simp at hf,
        fun _ hne => hflag (Or.inl hcreated) hne, ?_⟩
      cases hphase : s.owner with
      | out => rw [hphase] at howner; simpa [Owner.Knows, hcreated] using howner
      | asking => rw [hphase] at howner; exact howner
      | joining => rw [hphase] at howner; exact howner
      | _ => rw [hphase] at howner; simp [Owner.Knows, hcreated] at howner
  | leave hlooping hset =>
      have hrunning : s.thread = .running := hbody.mp (by simp [hlooping])
      have hjoining : s.owner = .joining := by
        by_contra hne
        simp [hflag (Or.inr hrunning) hne] at hset
      exact ⟨by simp [hrunning], fun _ => hjoining, hfinished, hflag, howner⟩
  | finish hleaves =>
      have hjoining := hleaving hleaves
      rw [hjoining] at howner
      refine ⟨by simp, fun hl => by simp at hl, fun _ => hjoining, fun hlive => by simp at hlive, ?_⟩
      simp only [hjoining]
      exact howner
  | stay => exact ⟨hbody, hleaving, hfinished, hflag, howner⟩

theorem inv_initial : Inv none ⟨.none, false, .out, .absent⟩ := by
  refine ⟨by simp, ?_, ?_, ?_, ?_⟩ <;> simp [Owner.Knows]

/-- What the owner can rely on, given its last call that bears on the thread. -/
structure Sound (last : Option Call) (s : State) : Prop where
  atMostOne : s.threads ≤ 1
  stopped : s.owner = .out → last ≠ some .start → s.thread = .none ∧ s.threads = 0
  live : s.owner = .out → last = some .start →
    s.thread ≠ .none ∧ s.threads = 1 ∧ s.stopFlag = false
  fresh : s.owner = .creating → s.thread = .none ∧ s.threads = 0 ∧ s.stopFlag = false

theorem Inv.sound {last : Option Call} {s : State} (h : Inv last s) : Sound last s := by
  obtain ⟨hbody, hleaving, hfinished, hflag, howner⟩ := h
  have habsent : s.thread ≠ .running → s.body = .absent := by
    intro hne
    by_contra hpresent
    exact hne (hbody.mp hpresent)
  have hzero : s.thread = .none → s.threads = 0 := by
    intro hnone
    simp [State.threads, hnone, habsent (by simp [hnone])]
  refine ⟨?_, fun hout hlast => ?_, fun hout hlast => ?_, fun hcreating => ?_⟩
  · unfold State.threads
    by_cases hcreated : s.thread = .created
    · simp [hcreated, habsent (by simp [hcreated])]
    · rw [if_neg hcreated]
      split <;> simp
  · rw [hout] at howner
    have hnone := howner.mpr hlast
    exact ⟨hnone, hzero hnone⟩
  · rw [hout] at howner hfinished hflag
    have hsome : s.thread ≠ .none := fun hnone => howner.mp hnone hlast
    cases hthread : s.thread with
    | none => exact absurd hthread hsome
    | created =>
        refine ⟨by simp, ?_, hflag (Or.inl hthread) (by simp)⟩
        simp [State.threads, hthread, habsent (by simp [hthread])]
    | running =>
        have hpresent := hbody.mpr hthread
        refine ⟨by simp, ?_, hflag (Or.inr hthread) (by simp)⟩
        simp [State.threads, hthread, hpresent]
    | finished => exact absurd (hfinished hthread) (by simp)
  · rw [hcreating] at howner
    obtain ⟨hnone, hclear, -⟩ := howner
    exact ⟨hnone, hzero hnone, hclear⟩

/-- Outside of these calls the handle is joinable exactly if the last of them was to start. -/
theorem Inv.thread_of_out {last : Option Call} {s : State} (h : Inv last s)
    (hout : s.owner = .out) : s.thread = .none ↔ last ≠ some .start := by
  have howner := h.owner
  rw [hout] at howner
  exact howner

/-! ## a program whose owner has a script -/

open Interleaving

variable {Tid Act Mem Loc C : Type} [DecidableEq Tid] {S : Script Tid Act Loc C}
  {P : Program Tid Act Mem Loc} {calls : List C}

/-- The last of the calls that bears on the thread. -/
def lastCall (label : C → Option Call) (calls : List C) : Option Call :=
  (calls.filterMap label).getLast?

theorem lastCall_snoc (label : C → Option Call) (calls : List C) (c : C) :
    lastCall label (calls ++ [c]) = (label c).or (lastCall label calls) := by
  unfold lastCall
  rw [List.filterMap_append, List.getLast?_append]
  cases hc : label c with
  | none => simp [hc]
  | some call => simp [hc]

/-- If the steps of an object are steps in the life of its thread, then after any calls of its owner
the four pieces of state agree. -/
theorem inv_of_reachable {life : Interleaving.State Tid Mem Loc → State} {label : C → Option Call}
    {Roles : Interleaving.State Tid Mem Loc → Prop}
    (hinit : life P.initial = ⟨.none, false, .out, .absent⟩) (hroles : Roles P.initial)
    (hcall : ∀ c s s', Roles s → S.idle (s.loc S.owner) →
      P.advance S.owner (S.act c) s.mem (s.loc S.owner) = some (s'.mem, s'.loc S.owner) →
      (∀ u, u ≠ S.owner → s'.loc u = s.loc u) → Move (life s) (label c) (life s') ∧ Roles s')
    (hstep : ∀ s s' t a, Roles s → (t = S.owner → S.idle (s.loc t) = false) →
      P.advance t a s.mem (s.loc t) = some (s'.mem, s'.loc t) →
      (∀ u, u ≠ t → s'.loc u = s.loc u) → Move (life s) none (life s') ∧ Roles s')
    {s : Interleaving.State Tid (ScriptMem Mem C) Loc} (hs : (S.program P calls).Reachable s) :
    ∃ made, calls = made ++ s.mem.todo ∧ Inv (lastCall label made) (life (Script.object s)) := by
  have hspec : ∃ made, calls = made ++ s.mem.todo ∧
      Inv (lastCall label made) (life (Script.object s)) ∧ Roles (Script.object s) := by
    refine Script.reachable_spec
      (I := fun made s => Inv (lastCall label made) (life s) ∧ Roles s) ?_ ?_ ?_ hs
    · rw [hinit]
      exact ⟨inv_initial, hroles⟩
    · rintro made c s s' ⟨hinv, hrole⟩ hidle hadvance hframe
      obtain ⟨hmove, hrole'⟩ := hcall c s s' hrole hidle hadvance hframe
      rw [lastCall_snoc]
      exact ⟨hinv.move hmove, hrole'⟩
    · rintro made s s' t a ⟨hinv, hrole⟩ hbusy hadvance hframe
      obtain ⟨hmove, hrole'⟩ := hstep s s' t a hrole hbusy hadvance hframe
      exact ⟨hinv.move hmove, hrole'⟩
  obtain ⟨made, hcalls, hinv, -⟩ := hspec
  exact ⟨made, hcalls, hinv⟩

end Lifecycle
