import DynLocks.Lib.Interleaving

/-!
# DynLocks.Lib.EpochTable

Range locks behind a table that is validated by an epoch.

`nBlocks` blocks are mapped to `nLocks` locks by a table.  A reader that wants
the blocks `lo … hi` notes an even epoch, reads the two table cells one after
the other, takes the locks between them one by one, and goes in only if the
epoch is still the one it noted.  A publisher makes the epoch odd, rewrites the
table cell by cell and makes the epoch even again; before it starts it either
takes every lock (`openAll`) or finds no reader inside (`openQuiet`).

* `Inv` — the invariant that ties locks, epoch parity and table together, kept
  by every step (`Inv.step`);
* `Inv.exclusive` — two threads inside share no block;
* `Inv.holds` — a thread inside holds the lock of each of its blocks;
* `Inv.table_eq` — the table stands still while a thread is inside.
-/

namespace EpochTable

open Interleaving

variable {Tid : Type}

/-! ## the protocol -/

/-- Number of locks and blocks; there is at least one lock. -/
structure Layout where
  nLocks : ℕ
  nBlocks : ℕ
  nLocks_pos : 0 < nLocks

/-- The shared memory: who holds each lock, the table and the epoch. -/
structure Mem (Tid : Type) where
  owner : ℕ → Option Tid
  table : ℕ → ℕ
  epoch : ℕ

/-- Where a thread stands. -/
inductive Phase
  | out
  | readLeft (lo hi epoch : ℕ)
  | readRight (lo hi epoch first : ℕ)
  | taking (lo hi epoch first last next : ℕ)
  | inside (lo hi first last : ℕ)
  | dropping (first count : ℕ)
  | grabbing (next : ℕ)
  | publishing (locked : Bool)

/-- The table is monotone and names locks only. -/
def Good (p : Layout) (table : ℕ → ℕ) : Prop :=
  ∀ b b', b ≤ b' → b' < p.nBlocks → table b ≤ table b' ∧ table b' < p.nLocks

/-- The lock `i` is taken by `t`. -/
def Mem.lock [DecidableEq Tid] (m : Mem Tid) (i : ℕ) (t : Tid) : Mem Tid :=
  { m with owner := Function.update m.owner i (some t) }

/-- The lock `i` is given back. -/
def Mem.unlock (m : Mem Tid) (i : ℕ) : Mem Tid :=
  { m with owner := Function.update m.owner i none }

@[simp] theorem Mem.lock_owner [DecidableEq Tid] (m : Mem Tid) (i : ℕ) (t : Tid) :
    (m.lock i t).owner = Function.update m.owner i (some t) := rfl

@[simp] theorem Mem.unlock_owner (m : Mem Tid) (i : ℕ) :
    (m.unlock i).owner = Function.update m.owner i none := rfl

/-- One step of thread `t`; `quiet` says that no thread is inside. -/
inductive Move [DecidableEq Tid] (p : Layout) (quiet : Prop) (t : Tid) :
    Mem Tid → Phase → Mem Tid → Phase → Prop
  | start {m : Mem Tid} {lo hi : ℕ} : lo ≤ hi → hi < p.nBlocks → m.epoch % 2 = 0 →
      Move p quiet t m .out m (.readLeft lo hi m.epoch)
  | left {m : Mem Tid} {lo hi e : ℕ} :
      Move p quiet t m (.readLeft lo hi e) m (.readRight lo hi e (m.table lo))
  | right {m : Mem Tid} {lo hi e first : ℕ} : first ≤ m.table hi →
      Move p quiet t m (.readRight lo hi e first) m (.taking lo hi e first (m.table hi) first)
  | giveUp {m : Mem Tid} {lo hi e first : ℕ} : m.table hi < first →
      Move p quiet t m (.readRight lo hi e first) m .out
  | take {m : Mem Tid} {lo hi e first last next : ℕ} : next ≤ last → m.owner next = none →
      Move p quiet t m (.taking lo hi e first last next) (m.lock next t)
        (.taking lo hi e first last (next + 1))
  | enter {m : Mem Tid} {lo hi first last : ℕ} :
      Move p quiet t m (.taking lo hi m.epoch first last (last + 1)) m (.inside lo hi first last)
  | stale {m : Mem Tid} {lo hi e first last : ℕ} : m.epoch ≠ e →
      Move p quiet t m (.taking lo hi e first last (last + 1)) m
        (.dropping first (last + 1 - first))
  | leave {m : Mem Tid} {lo hi first last : ℕ} :
      Move p quiet t m (.inside lo hi first last) m (.dropping first (last + 1 - first))
  | drop {m : Mem Tid} {first count : ℕ} : 0 < count →
      Move p quiet t m (.dropping first (count + 1)) (m.unlock (first + count))
        (.dropping first count)
  | dropLast {m : Mem Tid} {first : ℕ} :
      Move p quiet t m (.dropping first 1) (m.unlock first) .out
  | startGrab {m : Mem Tid} : Move p quiet t m .out m (.grabbing 0)
  | grab {m : Mem Tid} {next : ℕ} : next < p.nLocks → m.owner next = none →
      Move p quiet t m (.grabbing next) (m.lock next t) (.grabbing (next + 1))
  | openAll {m : Mem Tid} : m.epoch % 2 = 0 →
      Move p quiet t m (.grabbing p.nLocks) { m with epoch := m.epoch + 1 } (.publishing true)
  | openQuiet {m : Mem Tid} : quiet → m.epoch % 2 = 0 →
      Move p quiet t m .out { m with epoch := m.epoch + 1 } (.publishing false)
  | write {m : Mem Tid} {locked : Bool} (block lock : ℕ) :
      Move p quiet t m (.publishing locked)
        { m with table := Function.update m.table block lock } (.publishing locked)
  | closeAll {m : Mem Tid} : Good p m.table →
      Move p quiet t m (.publishing true) { m with epoch := m.epoch + 1 } (.dropping 0 p.nLocks)
  | closeQuiet {m : Mem Tid} : Good p m.table →
      Move p quiet t m (.publishing false) { m with epoch := m.epoch + 1 } .out

/-- Who gives back a segment from its last lock on is out after the first. -/
theorem Move.unlock [DecidableEq Tid] {p : Layout} {quiet : Prop} {t : Tid} {m : Mem Tid}
    {first count : ℕ} {ph : Phase} (hcount : 0 < count)
    (hph : ph = if count ≤ 1 then .out else .dropping first (count - 1)) :
    Move p quiet t m (.dropping first count) (m.unlock (first + (count - 1))) ph := by
  rw [hph]
  cases count with
  | zero => contradiction
  | succ n =>
      cases n with
      | zero => exact .dropLast
      | succ n =>
          rw [if_neg (by omega)]
          exact .drop (Nat.succ_pos n)

/-- A thread inside. -/
def Phase.Inside : Phase → Prop
  | .inside _ _ _ _ => True
  | _ => False

/-- Nobody is inside. -/
def Quiet (s : State Tid (Mem Tid) Phase) : Prop := ∀ t, ¬(s.loc t).Inside

/-- A step of the protocol. -/
def Step [DecidableEq Tid] (p : Layout) (s s' : State Tid (Mem Tid) Phase) : Prop :=
  ∃ t, Move p (Quiet s) t s.mem (s.loc t) s'.mem (s'.loc t) ∧ ∀ u, u ≠ t → s'.loc u = s.loc u

/-- A program whose threads are seen through `phase`: where one thread makes a move of the protocol
or none, the program makes a step of it or none. -/
theorem step_of_move [DecidableEq Tid] {p : Layout} {Mem' Loc' : Type} {mem : Mem' → Mem Tid}
    {phase : Loc' → Phase} {s s' : State Tid Mem' Loc'} {t : Tid}
    (h : (mem s'.mem = mem s.mem ∧ phase (s'.loc t) = phase (s.loc t)) ∨
      Move p (Quiet ⟨mem s.mem, fun t => phase (s.loc t)⟩) t (mem s.mem) (phase (s.loc t))
        (mem s'.mem) (phase (s'.loc t)))
    (hframe : ∀ u, u ≠ t → s'.loc u = s.loc u) :
    (⟨mem s'.mem, fun t => phase (s'.loc t)⟩ : State Tid (Mem Tid) Phase) =
        ⟨mem s.mem, fun t => phase (s.loc t)⟩ ∨
      Step p ⟨mem s.mem, fun t => phase (s.loc t)⟩ ⟨mem s'.mem, fun t => phase (s'.loc t)⟩ := by
  have hrest : ∀ u, u ≠ t → phase (s'.loc u) = phase (s.loc u) := by
    intro u hu
    rw [hframe u hu]
  rcases h with ⟨hmem, hphase⟩ | hmove
  · left
    have hloc : (fun u => phase (s'.loc u)) = fun u => phase (s.loc u) := by
      funext u
      by_cases hu : u = t
      · rw [hu]; exact hphase
      · exact hrest u hu
    rw [hmem, hloc]
  · exact Or.inr ⟨t, hmove, hrest⟩

/-- At the start no lock is held, the table is good and every thread is outside. -/
structure Init (p : Layout) (s : State Tid (Mem Tid) Phase) : Prop where
  owner : ∀ i, s.mem.owner i = none
  good : Good p s.mem.table
  epoch : s.mem.epoch % 2 = 0
  loc : ∀ t, s.loc t = .out

/-! ## the invariant -/

/-- The locks a thread holds in each phase. -/
def Phase.Holds (p : Layout) : Phase → ℕ → Prop
  | .taking _ _ _ first _ next, i => first ≤ i ∧ i < next
  | .inside _ _ first last, i => first ≤ i ∧ i ≤ last
  | .dropping first count, i => first ≤ i ∧ i < first + count
  | .grabbing next, i => i < next
  | .publishing true, i => i < p.nLocks
  | .publishing false, _ => False
  | .out, _ => False
  | .readLeft _ _ _, _ => False
  | .readRight _ _ _ _, _ => False

/-- What a thread knows in each phase: what it noted is the table's as long as the epoch has not
moved on. -/
def Fresh (p : Layout) (m : Mem Tid) : Phase → Prop
  | .out => True
  | .readLeft lo hi e => lo ≤ hi ∧ hi < p.nBlocks ∧ e % 2 = 0 ∧ e ≤ m.epoch
  | .readRight lo hi e first => lo ≤ hi ∧ hi < p.nBlocks ∧ e % 2 = 0 ∧ e ≤ m.epoch ∧
      (m.epoch = e → first = m.table lo)
  | .taking lo hi e first last next => lo ≤ hi ∧ hi < p.nBlocks ∧ e % 2 = 0 ∧ e ≤ m.epoch ∧
      first ≤ next ∧ next ≤ last + 1 ∧ first ≤ last ∧
      (m.epoch = e → first = m.table lo ∧ last = m.table hi)
  | .inside lo hi first last => lo ≤ hi ∧ hi < p.nBlocks ∧ m.epoch % 2 = 0 ∧
      first = m.table lo ∧ last = m.table hi
  | .dropping _ count => 0 < count
  | .grabbing next => next ≤ p.nLocks
  | .publishing _ => m.epoch % 2 = 1

def Phase.Publishing : Phase → Prop
  | .publishing _ => True
  | _ => False

/-- The invariant of the protocol. -/
structure Inv (p : Layout) (s : State Tid (Mem Tid) Phase) : Prop where
  owned : ∀ i, Owned (s.mem.owner i) fun t => (s.loc t).Holds p i
  fresh : ∀ t, Fresh p s.mem (s.loc t)
  good : s.mem.epoch % 2 = 0 → Good p s.mem.table
  odd : s.mem.epoch % 2 = 1 → ∃ t, (s.loc t).Publishing
  unique : ∀ t u, (s.loc t).Publishing → (s.loc u).Publishing → t = u

variable {p : Layout} {s s' : State Tid (Mem Tid) Phase}

theorem Init.inv (h : Init p s) : Inv p s where
  owned i u := by simp [h.owner i, h.loc u, Phase.Holds]
  fresh t := by rw [h.loc t]; trivial
  good _ := h.good
  odd hodd := by have := h.epoch; omega
  unique t u ht := by rw [h.loc t] at ht; exact ht.elim

/-- What a thread knows does not depend on who holds the locks. -/
theorem Fresh.congr {m m' : Mem Tid} {ph : Phase} (htable : m'.table = m.table)
    (hepoch : m'.epoch = m.epoch) (h : Fresh p m ph) : Fresh p m' ph := by
  cases ph <;> simp only [Fresh, htable, hepoch] at * <;> exact h

/-- A new epoch makes what was noted worthless, not wrong; only a thread inside would mind. -/
theorem Fresh.newEpoch {m : Mem Tid} {ph : Phase} (hin : ¬ph.Inside) (hpub : ¬ph.Publishing)
    (h : Fresh p m ph) : Fresh p { m with epoch := m.epoch + 1 } ph := by
  cases ph with
  | inside => exact absurd trivial hin
  | publishing => exact absurd trivial hpub
  | out => trivial
  | dropping => exact h
  | grabbing => exact h
  | readLeft lo hi e =>
      obtain ⟨hle, hhi, heven, he⟩ := h
      exact ⟨hle, hhi, heven, Nat.le_succ_of_le he⟩
  | readRight lo hi e first =>
      obtain ⟨hle, hhi, heven, he, -⟩ := h
      exact ⟨hle, hhi, heven, Nat.le_succ_of_le he, fun heq => by dsimp only at heq; omega⟩
  | taking lo hi e first last next =>
      obtain ⟨hle, hhi, heven, he, h1, h2, h3, -⟩ := h
      exact ⟨hle, hhi, heven, Nat.le_succ_of_le he, h1, h2, h3,
        fun heq => by dsimp only at heq; omega⟩

/-- While the epoch is odd nobody relies on the table. -/
theorem Fresh.writeTable {m : Mem Tid} {ph : Phase} (hodd : m.epoch % 2 = 1) (table : ℕ → ℕ)
    (h : Fresh p m ph) : Fresh p { m with table := table } ph := by
  cases ph with
  | out => trivial
  | readLeft => exact h
  | dropping => exact h
  | grabbing => exact h
  | publishing => exact h
  | readRight lo hi e first =>
      obtain ⟨hle, hhi, heven, he, -⟩ := h
      exact ⟨hle, hhi, heven, he, fun heq => by dsimp only at heq; omega⟩
  | taking lo hi e first last next =>
      obtain ⟨hle, hhi, heven, he, h1, h2, h3, -⟩ := h
      exact ⟨hle, hhi, heven, he, h1, h2, h3, fun heq => by dsimp only at heq; omega⟩
  | inside lo hi first last =>
      obtain ⟨-, -, heven, -⟩ := h
      omega

/-- The segment of a thread inside is not empty. -/
theorem Inv.first_le_last (h : Inv p s) {t : Tid} {lo hi first last : ℕ}
    (ht : s.loc t = .inside lo hi first last) : first ≤ last ∧ last < p.nLocks := by
  have hfresh := h.fresh t
  rw [ht] at hfresh
  obtain ⟨hle, hhi, heven, rfl, rfl⟩ := hfresh
  exact h.good heven lo hi hle hhi

/-- Nobody is inside when a publisher opens. -/
theorem Inv.not_inside_of_grabbing (h : Inv p s) {t : Tid}
    (ht : s.loc t = .grabbing p.nLocks) (u : Tid) :
    ¬(s.loc u).Inside := by
  intro hu
  cases hloc : s.loc u with
  | inside lo hi first last =>
      -- the first lock of the thread inside is one of those grabbed
      obtain ⟨hle, hlast⟩ := h.first_le_last hloc
      have htu : t = u := (h.owned first).unique
        (by rw [ht]; exact Nat.lt_of_le_of_lt hle hlast) (by rw [hloc]; exact ⟨Nat.le_refl _, hle⟩)
      rw [htu, hloc] at ht
      contradiction
  | _ => rw [hloc] at hu; exact hu

theorem Inv.odd_of_publishing (h : Inv p s) {t : Tid} (ht : (s.loc t).Publishing) :
    s.mem.epoch % 2 = 1 := by
  have hfresh := h.fresh t
  cases hloc : s.loc t with
  | publishing => rw [hloc] at hfresh; exact hfresh
  | _ => rw [hloc] at ht; exact ht.elim

theorem Inv.even_of_inside (h : Inv p s) {t : Tid} (ht : (s.loc t).Inside) :
    s.mem.epoch % 2 = 0 := by
  have hfresh := h.fresh t
  cases hloc : s.loc t with
  | inside => rw [hloc] at hfresh; exact hfresh.2.2.1
  | _ => rw [hloc] at ht; exact ht.elim

/-- Whoever holds every lock starts from an even epoch, unless somebody publishes without
locks. -/
theorem Inv.even_of_grabbing (h : Inv p s) {t : Tid} (ht : s.loc t = .grabbing p.nLocks)
    (hlocked : ∀ u, s.loc u ≠ .publishing false) : s.mem.epoch % 2 = 0 := by
  rcases Nat.mod_two_eq_zero_or_one s.mem.epoch with heven | hodd
  · exact heven
  · obtain ⟨u, hu⟩ := h.odd hodd
    cases hloc : s.loc u with
    | publishing locked =>
        cases locked with
        | false => exact absurd hloc (hlocked u)
        | true =>
            have htu : t = u := (h.owned 0).unique (by rw [ht]; exact p.nLocks_pos)
              (by rw [hloc]; exact p.nLocks_pos)
            rw [htu, hloc] at ht
            contradiction
    | _ => rw [hloc] at hu; exact hu.elim

/-! ## the step lemma -/

section Step

variable [DecidableEq Tid] {t : Tid} {m' : Mem Tid} {ph' : Phase}

/-- What a step does to one lock. -/
theorem Inv.lockMove (h : Inv p s) (hmove : Move p (Quiet s) t s.mem (s.loc t) m' ph') (i : ℕ) :
    LockMove t (s.mem.owner i) ((s.loc t).Holds p i) (m'.owner i) (ph'.Holds p i) := by
  have hfresh := h.fresh t
  have hinside : ∀ {lo hi first last}, s.loc t = .inside lo hi first last → first ≤ last :=
    fun ht => (h.first_le_last ht).1
  generalize s.loc t = ph at *
  generalize s.mem = m at *
  cases hmove with
  | start => exact .keep Iff.rfl
  | left => exact .keep Iff.rfl
  | giveUp => exact .keep Iff.rfl
  | openAll => exact .keep Iff.rfl
  | openQuiet => exact .keep Iff.rfl
  | write => exact .keep Iff.rfl
  | closeQuiet => exact .keep Iff.rfl
  | startGrab => exact .keep (by simp [Phase.Holds])
  | closeAll => exact .keep (by simp [Phase.Holds])
  | right => exact .keep ⟨fun hh => absurd hh.2 (Nat.not_lt.mpr hh.1), False.elim⟩
  | enter => exact .keep (by simp only [Phase.Holds]; omega)
  | stale =>
      obtain ⟨-, -, -, -, -, -, hle, -⟩ := hfresh
      exact .keep (by simp only [Phase.Holds]; omega)
  | leave =>
      have hle := hinside rfl
      exact .keep (by simp only [Phase.Holds]; omega)
  | take hnext hfree =>
      obtain ⟨-, -, -, -, hfirst, -⟩ := hfresh
      exact .update_some hfree ⟨hfirst, Nat.lt_succ_self _⟩
        fun hi => by simp only [Phase.Holds]; omega
  | grab hnext hfree =>
      exact .update_some hfree (Nat.lt_succ_self _) fun hi => by simp only [Phase.Holds]; omega
  | drop hcount =>
      exact .update_none (by simp only [Phase.Holds]; omega) (by simp only [Phase.Holds]; omega)
        fun hi => by simp only [Phase.Holds]; omega
  | dropLast =>
      exact .update_none ⟨Nat.le_refl _, Nat.lt_succ_self _⟩ id
        fun hi => ⟨False.elim, fun hh => by simp only [Phase.Holds] at hh; omega⟩

/-- A step keeps what the moving thread knows. -/
theorem Inv.fresh_self (h : Inv p s)
    (hmove : Move p (Quiet s) t s.mem (s.loc t) m' ph') : Fresh p m' ph' := by
  have hfresh := h.fresh t
  have hinside : ∀ {lo hi first last}, s.loc t = .inside lo hi first last → first ≤ last :=
    fun ht => (h.first_le_last ht).1
  generalize s.loc t = ph at *
  generalize s.mem = m at *
  cases hmove with
  | start hle hhi heven => exact ⟨hle, hhi, heven, Nat.le_refl _⟩
  | left =>
      obtain ⟨hle, hhi, heven, he⟩ := hfresh
      exact ⟨hle, hhi, heven, he, fun _ => rfl⟩
  | right hfirst =>
      obtain ⟨hle, hhi, heven, he, hlo⟩ := hfresh
      exact ⟨hle, hhi, heven, he, Nat.le_refl _, Nat.le_succ_of_le hfirst, hfirst,
        fun heq => ⟨hlo heq, rfl⟩⟩
  | giveUp => trivial
  | take hnext =>
      obtain ⟨hle, hhi, heven, he, h1, -, h3, hseg⟩ := hfresh
      exact ⟨hle, hhi, heven, he, Nat.le_succ_of_le h1, Nat.succ_le_succ hnext, h3, hseg⟩
  | enter =>
      obtain ⟨hle, hhi, heven, -, -, -, -, hseg⟩ := hfresh
      exact ⟨hle, hhi, heven, hseg rfl⟩
  | stale =>
      obtain ⟨-, -, -, -, -, -, hle, -⟩ := hfresh
      exact Nat.sub_pos_of_lt (Nat.lt_succ_of_le hle)
  | leave => exact Nat.sub_pos_of_lt (Nat.lt_succ_of_le (hinside rfl))
  | drop hcount => exact hcount
  | dropLast => trivial
  | startGrab => exact Nat.zero_le _
  | grab hnext => exact hnext
  | openAll heven => simp only [Fresh]; omega
  | openQuiet _ heven => simp only [Fresh]; omega
  | write => exact hfresh
  | closeAll => exact p.nLocks_pos
  | closeQuiet => trivial

/-- A step does not invalidate what another thread knows. -/
theorem Inv.fresh_other (h : Inv p s) (hmove : Move p (Quiet s) t s.mem (s.loc t) m' ph')
    {u : Tid} (hu : u ≠ t) : Fresh p m' (s.loc u) := by
  have hfresh := h.fresh t
  have hother := h.fresh u
  have hopen : s.loc t = .grabbing p.nLocks → ¬(s.loc u).Inside :=
    fun ht => h.not_inside_of_grabbing ht u
  have heven : s.mem.epoch % 2 = 0 → ¬(s.loc u).Publishing := by
    intro he hpub
    have := h.odd_of_publishing hpub
    omega
  have hodd : s.mem.epoch % 2 = 1 → ¬(s.loc u).Inside := by
    intro he hin
    have := h.even_of_inside hin
    omega
  have hquiet : Quiet s → ¬(s.loc u).Inside := fun hq => hq u
  have huniq : (s.loc t).Publishing → ¬(s.loc u).Publishing :=
    fun ht hpub => hu (h.unique u t hpub ht)
  generalize s.loc t = ph at *
  generalize s.mem = m at *
  cases hmove with
  | start => exact hother
  | left => exact hother
  | right => exact hother
  | giveUp => exact hother
  | enter => exact hother
  | stale => exact hother
  | leave => exact hother
  | startGrab => exact hother
  | take => exact hother.congr rfl rfl
  | drop => exact hother.congr rfl rfl
  | dropLast => exact hother.congr rfl rfl
  | grab => exact hother.congr rfl rfl
  | openAll he => exact hother.newEpoch (hopen rfl) (heven he)
  | openQuiet hq he => exact hother.newEpoch (hquiet hq) (heven he)
  | write => exact hother.writeTable hfresh _
  | closeAll => exact hother.newEpoch (hodd hfresh) (huniq trivial)
  | closeQuiet => exact hother.newEpoch (hodd hfresh) (huniq trivial)

/-- The table is good whenever the epoch is even. -/
theorem Inv.good_step (h : Inv p s) (hmove : Move p (Quiet s) t s.mem (s.loc t) m' ph') :
    m'.epoch % 2 = 0 → Good p m'.table := by
  have hgood := h.good
  have hfresh := h.fresh t
  generalize s.loc t = ph at *
  generalize s.mem = m at *
  cases hmove with
  | openAll heven => intro he; dsimp only at he; omega
  | openQuiet _ heven => intro he; dsimp only at he; omega
  | write => intro he; simp only [Fresh] at hfresh he; omega
  | closeAll hclose => exact fun _ => hclose
  | closeQuiet hclose => exact fun _ => hclose
  | _ => exact hgood

/-- Someone is publishing whenever the epoch is odd. -/
theorem Inv.odd_step (h : Inv p s) (hmove : Move p (Quiet s) t s.mem (s.loc t) m' ph')
    {loc' : Tid → Phase} (ht : loc' t = ph') (hframe : ∀ u, u ≠ t → loc' u = s.loc u) :
    m'.epoch % 2 = 1 → ∃ u, (loc' u).Publishing := by
  have hodd := h.odd
  have hfresh := h.fresh t
  -- the publisher of the state before is another thread, or the moving one stays in its phase
  have hkeep : (¬(s.loc t).Publishing ∨ ph'.Publishing) → s.mem.epoch % 2 = 1 →
      ∃ u, (loc' u).Publishing := by
    intro hself he
    obtain ⟨u, hu⟩ := hodd he
    by_cases hut : u = t
    · subst hut
      exact ⟨u, by rw [ht]; exact hself.resolve_left (not_not_intro hu)⟩
    · exact ⟨u, by rw [hframe u hut]; exact hu⟩
  clear hodd
  generalize s.loc t = ph at *
  generalize s.mem = m at *
  cases hmove with
  | openAll => exact fun _ => ⟨t, by rw [ht]; trivial⟩
  | openQuiet => exact fun _ => ⟨t, by rw [ht]; trivial⟩
  | write => exact hkeep (Or.inr trivial)
  | closeAll => intro he; simp only [Fresh] at hfresh he; omega
  | closeQuiet => intro he; simp only [Fresh] at hfresh he; omega
  | _ => exact hkeep (Or.inl id)

/-- Only a publisher writes the table. -/
theorem Move.table_eq {quiet : Prop} {m : Mem Tid} {ph : Phase}
    (hmove : Move p quiet t m ph m' ph') (hpub : ¬ph.Publishing) : m'.table = m.table := by
  cases hmove with
  | write => exact absurd trivial hpub
  | _ => rfl

/-- Whoever publishes after a step did so before it, or starts from an even epoch. -/
theorem Move.publishing {quiet : Prop} {m : Mem Tid} {ph : Phase}
    (hmove : Move p quiet t m ph m' ph') (hpub : ph'.Publishing) :
    ph.Publishing ∨ m.epoch % 2 = 0 := by
  cases hmove with
  | openAll heven => exact Or.inr heven
  | openQuiet _ heven => exact Or.inr heven
  | write => exact Or.inl trivial
  | _ => exact hpub.elim

/-- There is one publisher at most. -/
theorem Inv.unique_step (h : Inv p s) (hmove : Move p (Quiet s) t s.mem (s.loc t) m' ph')
    {loc' : Tid → Phase} (ht : loc' t = ph') (hframe : ∀ u, u ≠ t → loc' u = s.loc u)
    (u v : Tid) (hu : (loc' u).Publishing) (hv : (loc' v).Publishing) : u = v := by
  -- a second publisher keeps the moving thread from opening
  have hold : ∀ w, (loc' w).Publishing → ∀ w', w' ≠ t → (loc' w').Publishing →
      (s.loc w).Publishing := by
    intro w hw w' hne hw'
    by_cases hwt : w = t
    · subst hwt
      rw [hframe w' hne] at hw'
      rw [ht] at hw
      have := h.odd_of_publishing hw'
      exact (hmove.publishing hw).resolve_right (by omega)
    · rw [← hframe w hwt]
      exact hw
  by_cases hut : u = t
  · by_cases hvt : v = t
    · rw [hut, hvt]
    · exact h.unique u v (hold u hu v hvt hv) (hold v hv v hvt hv)
  · exact h.unique u v (hold u hu u hut hu) (hold v hv u hut hu)

/-- Every step keeps the invariant. -/
theorem Inv.step (h : Inv p s) (hstep : Step p s s') : Inv p s' := by
  obtain ⟨t, hmove, hframe⟩ := hstep
  refine ⟨fun i => ?_, fun u => ?_, ?_, ?_, ?_⟩
  · refine (h.owned i).move (h.lockMove hmove i) fun u hu => ?_
    rw [hframe u hu]
  · by_cases hu : u = t
    · rw [hu]; exact h.fresh_self hmove
    · rw [hframe u hu]; exact h.fresh_other hmove hu
  · exact h.good_step hmove
  · exact h.odd_step hmove rfl hframe
  · exact h.unique_step hmove rfl hframe

end Step

/-! ## what it says -/

/-- A thread inside holds the lock that the table names for each of its blocks. -/
theorem Inv.holds (h : Inv p s) {t : Tid} {lo hi first last b : ℕ}
    (ht : s.loc t = .inside lo hi first last) (hlo : lo ≤ b) (hhi : b ≤ hi) :
    s.mem.owner (s.mem.table b) = some t := by
  have hfresh := h.fresh t
  rw [ht] at hfresh
  obtain ⟨-, hlt, heven, rfl, rfl⟩ := hfresh
  have hheld : (s.loc t).Holds p (s.mem.table b) := by
    rw [ht]
    exact ⟨(h.good heven lo b hlo (Nat.lt_of_le_of_lt hhi hlt)).1, (h.good heven b hi hhi hlt).1⟩
  exact (h.owned (s.mem.table b) t).mpr hheld

/-- Two threads inside share no block. -/
theorem Inv.exclusive (h : Inv p s) {t u : Tid} {lo hi first last lo' hi' first' last' b : ℕ}
    (ht : s.loc t = .inside lo hi first last) (hu : s.loc u = .inside lo' hi' first' last')
    (hlo : lo ≤ b) (hhi : b ≤ hi) (hlo' : lo' ≤ b) (hhi' : b ≤ hi') : t = u :=
  Option.some.inj ((h.holds ht hlo hhi).symm.trans (h.holds hu hlo' hhi'))

/-- Two threads inside work on disjoint ranges: a shared position would lie in a shared block. -/
theorem Inv.disjoint (h : Inv p s) {block : ℕ → ℕ} (hblock : ∀ {x y}, x ≤ y → block x ≤ block y)
    {t u : Tid} {lo hi first last lo' hi' first' last' : ℕ}
    (ht : s.loc t = .inside (block lo) (block hi) first last)
    (hu : s.loc u = .inside (block lo') (block hi') first' last')
    (hle : lo ≤ hi) (hle' : lo' ≤ hi') (hne : t ≠ u) : hi < lo' ∨ hi' < lo := by
  by_contra hover
  apply hne
  exact h.exclusive ht hu (b := block (max lo lo')) (hblock (by omega)) (hblock (by omega))
    (hblock (by omega)) (hblock (by omega))

/-- While a thread is inside, no step writes the table. -/
theorem Inv.table_eq [DecidableEq Tid] (h : Inv p s) (hstep : Step p s s') {t : Tid}
    (ht : (s.loc t).Inside) : s'.mem.table = s.mem.table := by
  obtain ⟨u, hmove, -⟩ := hstep
  have heven := h.even_of_inside ht
  apply hmove.table_eq
  intro hpub
  have := h.odd_of_publishing hpub
  omega

end EpochTable
