import DynLocks.Genetic.Training
import DynLocks.Genetic.World

/-!
# DynLocks.Genetic.Samples

No training sample is lost, doubled or delivered to the wrong lock.

`Books` ties the ledger to the vectors of the program and says what is true of
a sample in each place; `Kept` does the same for what a single thread has in
hand.  Every step of every thread keeps both (`books_of_reachable`), and the
results about samples are read off them.
-/

namespace DynLocks
namespace GeneticLock

open Interleaving

variable {Client G : Type} (L : Objects G)

/-! ## the books -/

/-- The sample was taken by this lock, or was still in a buffer under the address of the lock when
the lock was created. -/
def World.From (w : World Client G) (lock : ℕ) (x : Sample Client) : Prop :=
  x.lock = lock ∨ w.inherited lock x

/-- What is true of a sample in each place. -/
def World.Fits (w : World Client G) : Whereabouts Client → Sample Client → Prop
  | .buffer t, x => x.thread = t ∧ w.owner t = some (L.address x.lock) ∧
      ∀ lock, w.alive lock = true → L.address lock = L.address x.lock → w.From lock x
  | .pending lock, x => w.From lock x
  | .batch lock _, x => w.From lock x
  | .cleared lock, x => w.From lock x
  | .dropped t, x => x.thread = t

/-- The queries of the samples in a place. -/
def World.queriesIn (w : World Client G) (p : Whereabouts Client) : List Query :=
  (w.ledger.contents p).map Sample.query

/-- Objects that are alive do not overlap, and the ledger is right about all vectors that threads
share. -/
structure Books (w : World Client G) : Prop where
  alive_lt : ∀ lock, w.alive lock = true → lock < w.created
  alive_unique : ∀ lock lock', w.alive lock = true → w.alive lock' = true →
    L.address lock = L.address lock' → lock = lock'
  inherited : ∀ lock x, w.inherited lock x → x.lock < w.created ∧ w.alive x.lock = false
  conserved : w.ledger.Conserved
  serial : ∀ x ∈ w.ledger.entered, x.serial < w.ledger.entered.length
  lock_lt : ∀ x ∈ w.ledger.entered, x.lock < w.created
  only : w.ledger.Only (w.Fits L)
  pending : ∀ lock, (w.mem lock).pendingQueries = w.queriesIn (.pending lock)
  unused : ∀ lock n, w.batches lock ≤ n → w.ledger.contents (.batch lock n) = []

/-- The ledger is right about the buffer of a thread and the batch it has in hand.  A buffer that
has been copied holds no sample any more. -/
structure Kept (w : World Client G) (t : ThreadId Client) (p : Pos) : Prop where
  buffer : p.loc.flushed = false → w.queries t = w.queriesIn (.buffer t)
  emptied : p.loc.flushed = true → w.ledger.contents (.buffer t) = []
  owner : p.loc.flushing = true → w.owner t = some (L.address p.lock)
  hand : ∀ batch, p.loc.batch = some batch →
    w.hand t < w.batches p.lock ∧ batch = w.queriesIn (.batch p.lock (w.hand t))

/-- What a thread relies on is as before. -/
structure Undisturbed (u : ThreadId Client) (w w' : World Client G) : Prop where
  queries : w'.queries u = w.queries u
  owner : w'.owner u = w.owner u
  hand : w'.hand u = w.hand u
  buffer : w'.ledger.contents (.buffer u) = w.ledger.contents (.buffer u)
  batches : ∀ lock, w.batches lock ≤ w'.batches lock
  batch : ∀ lock n, n < w.batches lock →
    w'.ledger.contents (.batch lock n) = w.ledger.contents (.batch lock n)

variable {L} {w w' w'' : World Client G} {t u : ThreadId Client} {p : Pos} {lock : ℕ}

theorem Undisturbed.refl (u : ThreadId Client) (w : World Client G) : Undisturbed u w w :=
  ⟨rfl, rfl, rfl, rfl, fun _ => le_rfl, fun _ _ _ => rfl⟩

theorem Undisturbed.trans (h : Undisturbed u w w') (h' : Undisturbed u w' w'') :
    Undisturbed u w w'' where
  queries := h'.queries.trans h.queries
  owner := h'.owner.trans h.owner
  hand := h'.hand.trans h.hand
  buffer := h'.buffer.trans h.buffer
  batches lock := (h.batches lock).trans (h'.batches lock)
  batch lock n hn := (h'.batch lock n (hn.trans_le (h.batches lock))).trans (h.batch lock n hn)

/-- A thread keeps what it relies on. -/
theorem Kept.frame (h : Kept L w u p) (hframe : Undisturbed u w w') : Kept L w' u p where
  buffer hflushed := by
    rw [hframe.queries, World.queriesIn, hframe.buffer]
    exact h.buffer hflushed
  emptied hflushed := hframe.buffer.trans (h.emptied hflushed)
  owner hflushing := hframe.owner.trans (h.owner hflushing)
  hand batch hbatch := by
    obtain ⟨hlt, heq⟩ := h.hand batch hbatch
    rw [World.queriesIn, hframe.hand, hframe.batch _ _ hlt]
    exact ⟨hlt.trans_le (hframe.batches _), heq⟩

/-- A thread that has nothing in hand and is not about to flush its buffer. -/
theorem Kept.of_buffer {l : Loc} (hflushed : l.flushed = false) (hflushing : l.flushing = false)
    (hbatch : l.batch = none) (h : w.queries t = w.queriesIn (.buffer t)) :
    Kept L w t ⟨lock, l⟩ where
  buffer _ := h
  emptied hyes := by simp [hflushed] at hyes
  owner hyes := by simp [hflushing] at hyes
  hand batch hb := by simp [hbatch] at hb

/-! ## one step in an object -/

section Steps

variable [DecidableEq Client]

/-- The step of one thread disturbs no other. -/
theorem undisturbed_switchOwner (hu : u ≠ t) (address : ℕ) (e : Event) :
    Undisturbed u w (w.switchOwner t address e) := by
  cases e with
  | enqueue q =>
      simp only [World.switchOwner]
      split
      · exact .refl u w
      · have hbuffer : Whereabouts.buffer u ≠ .buffer t := fun h => hu (by injection h)
        exact
          { queries := Function.update_of_ne hu ..
            owner := Function.update_of_ne hu ..
            hand := rfl
            buffer := w.ledger.move_contents_of_ne hbuffer (by simp)
            batches := fun _ => le_rfl
            batch := fun lock n _ => w.ledger.move_contents_of_ne (by simp) (by simp) }
  | _ => exact .refl u w

/-- A store of another thread disturbs nobody's buffer but its own. -/
theorem undisturbed_store (hu : u ≠ t) (lock : ℕ) (m : Mem Client G) :
    Undisturbed u w (w.store t lock m) where
  queries := Function.update_of_ne hu ..
  owner := rfl
  hand := rfl
  buffer := rfl
  batches _ := le_rfl
  batch _ _ _ := rfl

theorem undisturbed_record (hu : u ≠ t) (lock : ℕ) (e : Event) :
    Undisturbed u w (w.record t lock e) := by
  have hbuffer : Whereabouts.buffer u ≠ .buffer t := fun h => hu (by injection h)
  cases e with
  | quiet => exact .refl u w
  | clear => exact .refl u w
  | enqueue q =>
      exact
        { Undisturbed.refl u w with
          buffer := w.ledger.enter_contents_of_ne hbuffer _
          batch := fun lock n _ => w.ledger.enter_contents_of_ne (by simp) _ }
  | insert =>
      exact
        { Undisturbed.refl u w with
          buffer := w.ledger.move_contents_of_ne hbuffer (by simp)
          batch := fun lock n _ => w.ledger.move_contents_of_ne (by simp) (by simp) }
  | clearPending =>
      exact
        { Undisturbed.refl u w with
          buffer := w.ledger.move_contents_of_ne (by simp) (by simp)
          batch := fun lock n _ => w.ledger.move_contents_of_ne (by simp) (by simp) }
  | swap =>
      refine
        { Undisturbed.refl u w with
          hand := Function.update_of_ne hu ..
          buffer := w.ledger.move_contents_of_ne (by simp) (by simp)
          batches := fun lock' => ?_
          batch := fun lock' n hn => w.ledger.move_contents_of_ne (by simp) ?_ }
      · by_cases h : lock' = lock
        · subst h
          simp [World.record]
        · simp [World.record, h]
      · intro h
        injection h with hlock hnumber
        subst hlock
        omega

theorem eq_of_enqueue {l : Loc} {q : Query} (h : l.event = .enqueue q) : l = .sample q .enqueue := by
  cases l with
  | sample q' pc => cases pc <;> simp_all [Loc.event]
  | flush pc => cases pc <;> simp_all [Loc.event]
  | trainer pc => cases pc <;> simp_all [Loc.event]
  | stop pc => cases pc <;> simp_all [Loc.event]
  | _ => simp_all [Loc.event]

/-- A buffer that changes its lock drops its samples, which are booked as dropped. -/
theorem Books.switchOwner (h : Books L w) (t : ThreadId Client) (address : ℕ) (e : Event) :
    Books L (w.switchOwner t address e) := by
  cases e with
  | enqueue q =>
      simp only [World.switchOwner]
      split
      · exact h
      · refine { h with conserved := h.conserved.move (by simp), only := ?_, pending := ?_, unused := ?_ }
        · intro r x hx
          obtain ⟨hr, hold | ⟨rfl, hold⟩⟩ := (w.ledger.mem_move (by simp)).mp hx
          · have hfits := h.only r x hold
            cases r with
            | buffer u =>
                have hu : u ≠ t := fun heq => hr (heq ▸ rfl)
                obtain ⟨hthread, howner, hlocks⟩ := hfits
                exact ⟨hthread, (Function.update_of_ne hu ..).trans howner, hlocks⟩
            | _ => exact hfits
          · exact (h.only _ x hold).1
        · intro lock
          simpa [World.queriesIn, Ledger.move_contents_of_ne] using h.pending lock
        · intro lock n hn
          exact (w.ledger.move_contents_of_ne (by simp) (by simp)).trans (h.unused lock n hn)
  | _ => exact h

/-- Turning to another lock empties the buffer. -/
theorem Kept.switchOwner {l : Loc} (h : Kept L w t ⟨lock, l⟩) (address : ℕ) :
    Kept L (w.switchOwner t address l.event) t ⟨lock, l⟩ := by
  generalize he : l.event = e
  cases e with
  | enqueue q =>
      obtain rfl := eq_of_enqueue he
      simp only [World.switchOwner]
      split
      · exact h
      · refine .of_buffer rfl rfl rfl ?_
        simp [World.queriesIn]
  | _ => exact h

omit [DecidableEq Client] in
/-- What a buffer holds for the lock at its address is from that lock. -/
theorem Books.from_of_buffer (h : Books L w) (halive : w.alive lock = true)
    (howner : w.owner t = some (L.address lock)) {x : Sample Client}
    (hx : x ∈ w.ledger.contents (.buffer t)) : w.From lock x := by
  obtain ⟨-, howner', hlocks⟩ := h.only _ x hx
  exact hlocks lock halive (Option.some.inj (howner.symm.trans howner'))

omit [DecidableEq Client] in
/-- The vector of one lock and its place in the ledger change alike. -/
theorem Books.pending_store (h : Books L w) {m : Mem Client G}
    {contents : Whereabouts Client → List (Sample Client)}
    (hself : m.pendingQueries = (contents (.pending lock)).map Sample.query)
    (hother : ∀ lock', lock' ≠ lock →
      contents (.pending lock') = w.ledger.contents (.pending lock')) (lock' : ℕ) :
    (Function.update w.mem lock m lock').pendingQueries =
      (contents (.pending lock')).map Sample.query := by
  by_cases heq : lock' = lock
  · subst heq
    rw [Function.update_self]
    exact hself
  · rw [Function.update_of_ne heq, hother lock' heq]
    exact h.pending lock'

variable {m : Mem Client G} {l l' : Loc}

/-- One step in an object keeps the ledger right. -/
theorem Books.act (h : Books L w) (hkept : Kept L w t ⟨lock, l⟩) (halive : w.alive lock = true)
    (howner : ∀ q, l.event = .enqueue q → w.owner t = some (L.address lock))
    (htraffic : Traffic t.tid (w.view t lock) l m l' l.event) :
    Books L ((w.store t lock m).record t lock l.event) := by
  have hpending : (w.mem lock).pendingQueries = w.queriesIn (.pending lock) := h.pending lock
  generalize l.event = e at howner htraffic
  cases htraffic with
  | quiet _ hsame =>
      exact { h with pending := h.pending_store (hsame.trans hpending) fun _ _ => rfl }
  | clear _ hsame =>
      exact { h with pending := h.pending_store (hsame.trans hpending) fun _ _ => rfl }
  | @enqueue q _ hsame =>
      have hnew : ∀ x ∈ w.ledger.entered, x.serial < w.ledger.entered.length + 1 :=
        fun x hx => (h.serial x hx).trans (Nat.lt_succ_self _)
      refine { h with
        conserved := h.conserved.enter _ fun hmem => (h.serial _ hmem).false
        serial := ?_
        lock_lt := ?_
        only := h.only.enter ⟨rfl, howner q rfl, ?_⟩
        pending := h.pending_store ?_ ?_
        unused := ?_ }
      · simpa [or_imp, forall_and] using hnew
      · intro x hx
        obtain hx | rfl := List.mem_append.mp hx |>.imp_right List.mem_singleton.mp
        · exact h.lock_lt x hx
        · exact h.alive_lt lock halive
      · intro lock' halive' haddress
        exact .inl (h.alive_unique lock lock' halive halive' haddress.symm)
      · rw [World.record_enqueue, World.store_ledger, Ledger.enter_contents_of_ne _ (by simp)]
        exact hsame.trans hpending
      · intro lock' _
        exact w.ledger.enter_contents_of_ne (by simp) _
      · intro lock' n hn
        exact (w.ledger.enter_contents_of_ne (by simp) _).trans (h.unused lock' n hn)
  | insert hlocal hinsert hflushed hflushing =>
      refine { h with
        conserved := h.conserved.move (by simp)
        only := h.only.move (by simp) fun x hx _ =>
          h.from_of_buffer halive (hkept.owner hflushing) hx
        pending := h.pending_store ?_ ?_
        unused := ?_ }
      · rw [World.record_insert, World.store_ledger, Ledger.move_contents_target _ (by simp),
          List.map_append, hinsert]
        exact congrArg₂ _ hpending (hkept.buffer hflushed)
      · intro lock' hne
        exact w.ledger.move_contents_of_ne (by simp) (by simpa using hne)
      · intro lock' n hn
        exact (w.ledger.move_contents_of_ne (by simp) (by simp)).trans (h.unused lock' n hn)
  | swap _ hempty =>
      refine { h with
        conserved := h.conserved.move (by simp)
        only := h.only.move (by simp) fun x _ hx => hx
        pending := h.pending_store ?_ ?_
        unused := ?_ }
      · rw [World.record_swap, World.store_ledger, Ledger.move_contents_source]
        exact hempty
      · intro lock' hne
        exact w.ledger.move_contents_of_ne (by simpa using hne) (by simp)
      · intro lock' n hn
        by_cases heq : lock' = lock
        · subst heq
          simp only [World.record_swap_batches, World.store_batches, Function.update_self] at hn
          have hne : n ≠ w.batches lock' := by omega
          exact (w.ledger.move_contents_of_ne (by simp) (by simpa using hne)).trans
            (h.unused lock' n (by omega))
        · simp only [World.record_swap_batches, World.store_batches,
            Function.update_of_ne heq] at hn
          exact (w.ledger.move_contents_of_ne (by simp) (by simp [heq])).trans
            (h.unused lock' n hn)
  | clearPending _ hempty =>
      refine { h with
        conserved := h.conserved.move (by simp)
        only := h.only.move (by simp) fun x _ hx => hx
        pending := h.pending_store ?_ ?_
        unused := ?_ }
      · rw [World.record_clearPending, World.store_ledger, Ledger.move_contents_source]
        exact hempty
      · intro lock' hne
        exact w.ledger.move_contents_of_ne (by simpa using hne) (by simp)
      · intro lock' n hn
        exact (w.ledger.move_contents_of_ne (by simp) (by simp)).trans (h.unused lock' n hn)

/-- One step in an object keeps the ledger right about its thread. -/
theorem Kept.act (hbooks : Books L w) (h : Kept L w t ⟨lock, l⟩)
    (howner : ∀ q, l.event = .enqueue q → w.owner t = some (L.address lock))
    (htraffic : Traffic t.tid (w.view t lock) l m l' l.event) :
    Kept L ((w.store t lock m).record t lock l.event) t ⟨lock, l'⟩ := by
  have hpending : (w.mem lock).pendingQueries = w.queriesIn (.pending lock) := hbooks.pending lock
  have hstored : ∀ e, ((w.store t lock m).record t lock e).queries t = m.localQueries t.tid :=
    fun e => by cases e <;> exact Function.update_self ..
  generalize l.event = e at howner htraffic
  cases htraffic with
  | quiet hlocal _ hflushed hbatch hflushing =>
      exact
        { buffer := fun hnot =>
            (hstored .quiet).trans (hlocal.trans (h.buffer (hflushed.symm.trans hnot)))
          emptied := fun hyes => h.emptied (hflushed.symm.trans hyes)
          owner := fun hyes => h.owner (hflushing hyes)
          hand := fun batch hb => by
            obtain hnone | hsame := hbatch
            · simp [hnone] at hb
            · exact h.hand batch (hsame.symm.trans hb) }
  | @enqueue q hlocal _ hold hnew hbatch =>
      refine
        { buffer := fun _ => (hstored (.enqueue q)).trans (hlocal.trans ?_)
          emptied := fun hyes => by simp [hnew] at hyes
          owner := fun _ => howner q rfl
          hand := fun batch hb => by simp [hbatch] at hb }
      rw [World.queriesIn, World.record_enqueue, Ledger.enter_contents_self, List.map_append]
      exact congrArg (· ++ [q]) (h.buffer hold)
  | insert hlocal _ _ hflushing hnew hbatch =>
      exact
        { buffer := fun hnot => by simp [hnew] at hnot
          emptied := fun _ => Ledger.move_contents_source ..
          owner := fun _ => h.owner hflushing
          hand := fun batch hb => by simp [hbatch] at hb }
  | clear hlocal _ hold hnew hflushing hbatch =>
      refine
        { buffer := fun _ => (hstored .clear).trans (hlocal.trans ?_)
          emptied := fun hyes => by simp [hnew] at hyes
          owner := fun hyes => by simp [hflushing] at hyes
          hand := fun batch hb => by simp [hbatch] at hb }
      exact (congrArg (List.map Sample.query) (h.emptied hold)).symm
  | swap hlocal _ hold hnew hflushing hbatch =>
      refine
        { buffer := fun _ => (hstored .swap).trans (hlocal.trans ?_)
          emptied := fun hyes => by simp [hnew] at hyes
          owner := fun hyes => by simp [hflushing] at hyes
          hand := fun batch hb => ?_ }
      · rw [World.queriesIn, World.record_swap, World.store_ledger,
          Ledger.move_contents_of_ne _ (by simp) (by simp)]
        exact h.buffer hold
      · have hbatch : batch = w.queriesIn (.pending lock) :=
          (Option.some.inj (hb.symm.trans hbatch)).trans hpending
        simp only [World.queriesIn, World.record_swap, World.record_swap_batches,
          World.record_swap_hand, World.store_ledger, World.store_batches, Function.update_self]
        refine ⟨Nat.lt_succ_self _, ?_⟩
        rw [Ledger.move_contents_target _ (by simp), hbooks.unused lock _ le_rfl]
        exact hbatch
  | clearPending hlocal _ hold hnew hflushing hbatch =>
      refine
        { buffer := fun _ => (hstored .clearPending).trans (hlocal.trans ?_)
          emptied := fun hyes => by simp [hnew] at hyes
          owner := fun hyes => by simp [hflushing] at hyes
          hand := fun batch hb => by simp [hbatch] at hb }
      rw [World.queriesIn, World.record_clearPending, World.store_ledger,
        Ledger.move_contents_of_ne _ (by simp) (by simp)]
      exact h.buffer hold

/-- A step in an object is one after the buffer has been handed over. -/
theorem Books.advance {a : Act} {r : World Client G × Pos}
    (hcall : ∀ batch, a ≠ .call (.observeBatch batch)) (h : Books L w) (hkept : Kept L w t p)
    (hstep : w.advance L t a p = some r) :
    Books L r.1 ∧ Kept L r.1 t r.2 ∧ ∀ u, u ≠ t → Undisturbed u w r.1 := by
  obtain ⟨lock, l⟩ := p
  simp only [World.advance] at hstep
  split at hstep
  · next halive =>
      obtain ⟨⟨m, l'⟩, hadvance, rfl⟩ := Option.map_eq_some_iff.mp hstep
      have htraffic := traffic_of_advance hcall hadvance
      have hbooks := h.switchOwner t (L.address lock) l.event
      have hkept' := hkept.switchOwner (L.address lock)
      have howner : ∀ q, l.event = .enqueue q →
          (w.switchOwner t (L.address lock) l.event).owner t = some (L.address lock) := by
        intro q hq
        rw [hq]
        exact w.switchOwner_owner t (L.address lock) q
      have halive' : (w.switchOwner t (L.address lock) l.event).alive lock = true :=
        (w.switchOwner_alive t (L.address lock) l.event).symm ▸ halive
      refine ⟨hbooks.act hkept' halive' howner htraffic, hkept'.act hbooks howner htraffic, ?_⟩
      intro u hu
      exact ((undisturbed_switchOwner hu _ _).trans (undisturbed_store hu _ _)).trans
        (undisturbed_record hu _ _)
  · contradiction

omit [DecidableEq Client] in
/-- A new object inherits what the buffers hold under its address. -/
theorem Books.create (h : Books L w)
    (hfree : ∀ lock < w.created, L.address lock = L.address w.created → w.alive lock = false) :
    Books L (w.create L) := by
  have hfrom : ∀ lock x, w.From lock x → (w.create L).From lock x :=
    fun lock x hx => hx.imp_right .inl
  have halive : ∀ lock, (w.create L).alive lock = true → lock = w.created ∨ w.alive lock = true := by
    intro lock hlock
    by_cases heq : lock = w.created
    · exact .inl heq
    · exact .inr ((Function.update_of_ne heq ..).symm.trans hlock)
  refine { h with alive_lt := ?_, alive_unique := ?_, inherited := ?_, lock_lt := ?_, only := ?_ }
  · intro lock hlock
    obtain rfl | hold := halive lock hlock
    · exact Nat.lt_succ_self _
    · exact (h.alive_lt lock hold).trans (Nat.lt_succ_self _)
  · intro lock lock' hlock hlock' haddress
    obtain rfl | hold := halive lock hlock <;> obtain rfl | hold' := halive lock' hlock'
    · rfl
    · exact absurd (hfree lock' (h.alive_lt lock' hold') haddress.symm) (by simp [hold'])
    · exact absurd (hfree lock (h.alive_lt lock hold) haddress) (by simp [hold])
    · exact h.alive_unique lock lock' hold hold' haddress
  · intro lock x hx
    have hold : x.lock < w.created ∧ w.alive x.lock = false := by
      obtain hx | ⟨-, t, howner, hmem⟩ := hx
      · exact h.inherited lock x hx
      · have hlt := h.lock_lt x (h.conserved.entered _ x hmem)
        have haddress := (h.only _ x hmem).2.1
        exact ⟨hlt, hfree x.lock hlt (Option.some.inj (haddress.symm.trans howner))⟩
    exact ⟨hold.1.trans (Nat.lt_succ_self _), (Function.update_of_ne hold.1.ne ..).trans hold.2⟩
  · intro x hx
    exact (h.lock_lt x hx).trans (Nat.lt_succ_self _)
  · refine h.only.mono fun r x hmem hx => ?_
    cases r with
    | buffer t =>
        obtain ⟨hthread, howner, hlocks⟩ := hx
        refine ⟨hthread, howner, fun lock hlock haddress => ?_⟩
        obtain rfl | hold := halive lock hlock
        · exact .inr (.inr ⟨rfl, t, haddress ▸ howner, hmem⟩)
        · exact hfrom lock x (hlocks lock hold haddress)
    | dropped t => exact hx
    | _ => exact hfrom _ x hx

omit [DecidableEq Client] in
/-- The books balance after the destruction of a lock. -/
theorem Books.destroy (h : Books L w) (lock : ℕ) : Books L (w.destroy lock) := by
  have halive : ∀ lock', (w.destroy lock).alive lock' = true → w.alive lock' = true := by
    intro lock' hlock
    by_cases heq : lock' = lock
    · subst heq
      simp [World.destroy] at hlock
    · exact (Function.update_of_ne heq ..).symm.trans hlock
  refine { h with alive_lt := ?_, alive_unique := ?_, inherited := ?_, only := ?_ }
  · exact fun lock' hlock => h.alive_lt lock' (halive lock' hlock)
  · exact fun lock' lock'' hlock hlock' =>
      h.alive_unique lock' lock'' (halive lock' hlock) (halive lock'' hlock')
  · intro lock' x hx
    obtain ⟨hlt, hdead⟩ := h.inherited lock' x hx
    refine ⟨hlt, Bool.eq_false_iff.mpr fun hyes => ?_⟩
    rw [halive x.lock hyes] at hdead
    contradiction
  · refine h.only.mono fun r x _ hx => ?_
    cases r with
    | buffer t => exact ⟨hx.1, hx.2.1, fun lock' hlock => hx.2.2 lock' (halive lock' hlock)⟩
    | _ => exact hx

end Steps

/-! ## every run -/

variable [DecidableEq Client] {s s' : State (ThreadId Client) (World Client G) Pos}

/-- One step of the program keeps the ledger right. -/
theorem books_of_step (hs : Books L s.mem ∧ ∀ u, Kept L s.mem u (s.loc u))
    (hstep : (world L Client).Step s s') : Books L s'.mem ∧ ∀ u, Kept L s'.mem u (s'.loc u) := by
  obtain ⟨hbooks, hkept⟩ := hs
  obtain ⟨t, ht⟩ := hstep
  obtain ⟨⟨a, ha⟩, hframe⟩ := ht.elim
  have hothers : (∀ u, u ≠ t → Undisturbed u s.mem s'.mem) →
      ∀ u, u ≠ t → Kept L s'.mem u (s'.loc u) := fun hsame u hu => by
    rw [hframe u hu]
    exact (hkept u).frame (hsame u hu)
  suffices h : Books L s'.mem ∧ Kept L s'.mem t (s'.loc t) ∧
      ∀ u, u ≠ t → Undisturbed u s.mem s'.mem by
    refine ⟨h.1, fun u => ?_⟩
    by_cases hu : u = t
    · subst hu
      exact h.2.1
    · exact hothers h.2.2 u hu
  have hmove := worldMove_of_advance ha
  have hself := hkept t
  generalize s.loc t = p at hmove hself
  generalize s'.loc t = p' at hmove
  generalize s.mem = w at hmove hself hbooks
  generalize s'.mem = w' at hmove
  cases hmove with
  | create hfree =>
      exact ⟨hbooks.create hfree, ⟨hself.buffer, hself.emptied, hself.owner, hself.hand⟩,
        fun u _ => ⟨rfl, rfl, rfl, rfl, fun _ => le_rfl, fun _ _ _ => rfl⟩⟩
  | @destroy _ lock' =>
      exact ⟨hbooks.destroy lock', ⟨hself.buffer, hself.emptied, hself.owner, hself.hand⟩,
        fun u _ => ⟨rfl, rfl, rfl, rfl, fun _ => le_rfl, fun _ _ _ => rfl⟩⟩
  | call hbatch hadvance =>
      refine hbooks.advance (fun batch heq => hbatch batch (Act.call.inj heq)) ?_ hadvance
      exact .of_buffer rfl rfl rfl (hself.buffer rfl)
  | act hcall hadvance =>
      exact hbooks.advance (fun batch heq => hcall _ heq) hself hadvance

/-- The ledger is right in every reachable state. -/
theorem books_of_reachable (hs : (world L Client).Reachable s) :
    Books L s.mem ∧ ∀ u, Kept L s.mem u (s.loc u) := by
  refine hs.invariant (I := fun s => Books L s.mem ∧ ∀ u, Kept L s.mem u (s.loc u)) ?_
    fun s s' _ hI hstep => books_of_step hI hstep
  constructor
  · exact
      { alive_lt := by simp [Program.initial, world]
        alive_unique := by simp [Program.initial, world]
        inherited := fun _ _ hx => hx.elim
        conserved := Ledger.conserved_empty
        serial := by simp [Program.initial, world, Ledger.empty]
        lock_lt := by simp [Program.initial, world, Ledger.empty]
        only := Ledger.only_empty _
        pending := fun _ => rfl
        unused := fun _ _ _ => rfl }
  · intro u
    cases u <;> exact .of_buffer rfl rfl rfl rfl

/-- The places that belong to the thread and to the lock of a sample. -/
def Whereabouts.Of (x : Sample Client) : Whereabouts Client → Prop
  | .buffer t => x.thread = t
  | .pending lock => x.lock = lock
  | .batch lock _ => x.lock = lock
  | .cleared lock => x.lock = lock
  | .dropped t => x.thread = t

/-- Where the samples are: the ledger says what is in the vectors of the program, a sample of a
lock that is alive is in exactly one place, there once, and a batch in hand is one that the lock
has swapped out, all of its samples being from the lock. -/
structure Accounted (s : State (ThreadId Client) (World Client G) Pos) : Prop where
  pending : ∀ lock, (s.mem.mem lock).pendingQueries = s.mem.queriesIn (.pending lock)
  buffer : ∀ t, (s.loc t).loc.flushed = false → s.mem.queries t = s.mem.queriesIn (.buffer t)
  emptied : ∀ t, (s.loc t).loc.flushed = true → s.mem.ledger.contents (.buffer t) = []
  sample : ∀ x ∈ s.mem.ledger.entered, s.mem.alive x.lock = true →
    ∃ p : Whereabouts Client, p.Of x ∧ (s.mem.ledger.contents p).count x = 1 ∧
      ∀ q, q ≠ p → x ∉ s.mem.ledger.contents q
  batch : ∀ t batch, (s.loc t).loc.batch = some batch →
    ∃ n, batch = s.mem.queriesIn (.batch (s.loc t).lock n) ∧
      ∀ x ∈ s.mem.ledger.contents (.batch (s.loc t).lock n),
        x ∈ s.mem.ledger.entered ∧ s.mem.From (s.loc t).lock x

omit [DecidableEq Client] in
/-- The place of a sample whose lock is alive. -/
theorem Books.of_mem (h : Books L w) {x : Sample Client} (halive : w.alive x.lock = true)
    {r : Whereabouts Client} (hx : x ∈ w.ledger.contents r) : r.Of x := by
  have hfits := h.only r x hx
  have hfrom : ∀ lock, w.From lock x → x.lock = lock := by
    intro lock hlock
    obtain heq | hinherited := hlock
    · exact heq
    · rw [(h.inherited lock x hinherited).2] at halive
      contradiction
  cases r with
  | buffer t => exact hfits.1
  | dropped t => exact hfits
  | _ => exact hfrom _ hfits

/-- **No sample is lost or delivered to the wrong lock**: in every run of any number of threads over
any number of locks of one type, whatever the order in which locks are created, destroyed and
replaced at their address, a sample of a lock that is alive is in exactly one place: the buffer of
its thread, until that has been copied; the `pending_queries_` of its lock; one batch swapped out of
it; what a `StopRebuilder` has cleared; or what its thread has dropped when it turned to another
lock.  A batch consists of samples of its lock, but for those that a buffer still held under its
address when it was created. -/
theorem samples_accounted (hs : (world L Client).Reachable s) : Accounted s := by
  obtain ⟨hbooks, hkept⟩ := books_of_reachable hs
  refine
    { pending := hbooks.pending
      buffer := fun t => (hkept t).buffer
      emptied := fun t => (hkept t).emptied
      sample := fun x hx halive => ?_
      batch := fun t batch hbatch => ?_ }
  · obtain ⟨r, hr⟩ := hbooks.conserved.somewhere x hx
    refine ⟨r, hbooks.of_mem halive hr, ?_, fun q hq hmem => hq ?_⟩
    · exact List.count_eq_one_of_mem (hbooks.conserved.nodup r) hr
    · exact hbooks.conserved.unique x q r hmem hr
  · obtain ⟨-, heq⟩ := (hkept t).hand batch hbatch
    exact ⟨_, heq, fun x hx => ⟨hbooks.conserved.entered _ x hx, hbooks.only _ x hx⟩⟩

/-! ## a sample that is dropped -/

/-- Locks of two mutexes over three blocks that take every query as a sample, each at an address of
its own. -/
def samplingLocks : Objects Unit where
  std := GeneticPartitioner.lowestDraws
  kLockCnt := 2
  kBlocks := 3
  config _ := { smallLock with trainingSampleRate := 1 }
  seed _ := ()
  address lock := lock
  kLockCnt_eq _ := rfl
  kBlocks_eq _ := rfl

/-- A client enables the training of the lock and writes to the first position. -/
def sampledWrite (lock : ℕ) : List (ThreadId Unit × WorldAct) :=
  [(.client (), .call lock (.setTrainingEnabled true)), (.client (), .act .step),
    (.client (), .call lock (.writeQuery 0 0))] ++
    List.replicate 15 (.client (), .act (.elapsed 0 false))

/-- A client writes to one lock and then to another. -/
def twoWrites : List (ThreadId Unit × WorldAct) :=
  [(.client (), .create), (.client (), .create)] ++ sampledWrite 0 ++ sampledWrite 1

/-- The sample of the first lock is no longer in the buffer. -/
def firstSample : Sample Unit where
  lock := 0
  thread := .client ()
  query := sampleOf 0 0
  serial := 0

theorem dropped_of_twoWrites :
    ((((world samplingLocks Unit).exec twoWrites (world samplingLocks Unit).initial).map fun s =>
      s.mem.alive 0 &&
        decide (firstSample ∈ s.mem.ledger.contents (.dropped (.client ()))))) = some true := by
  decide +kernel

/-- A buffer that is reused for a second lock drops the samples of the first. -/
theorem exists_dropped : ∃ s, (world samplingLocks Unit).Reachable s ∧ s.mem.alive 0 = true ∧
    firstSample ∈ s.mem.ledger.contents (.dropped (.client ())) := by
  obtain ⟨s, hs, htest⟩ := Option.map_eq_some_iff.mp dropped_of_twoWrites
  rw [Bool.and_eq_true, decide_eq_true_iff] at htest
  exact ⟨s, Program.reachable_exec .init hs, htest⟩

theorem samples_accounted_two_writes :
    ∃ s : State (ThreadId Unit) (World Unit Unit) Pos, Accounted s ∧
      firstSample ∈ s.mem.ledger.contents (.dropped (.client ())) := by
  obtain ⟨s, hs, -, hdropped⟩ := exists_dropped
  exact ⟨s, samples_accounted hs, hdropped⟩

/-- Were nothing ever dropped, the sample would have to be in another place. -/
theorem sample_dropped_two_writes :
    ¬∀ s : State (ThreadId Unit) (World Unit Unit) Pos, (world samplingLocks Unit).Reachable s →
      ∀ x ∈ s.mem.ledger.entered, s.mem.alive x.lock = true →
        ∃ p : Whereabouts Unit, p.Of x ∧ (∀ t, p ≠ .dropped t) ∧ x ∈ s.mem.ledger.contents p := by
  intro hclaim
  obtain ⟨s, hs, halive, hdropped⟩ := exists_dropped
  have hconserved := (books_of_reachable hs).1.conserved
  obtain ⟨p, -, hnot, hp⟩ :=
    hclaim s hs firstSample (hconserved.entered _ _ hdropped) halive
  exact hnot _ (hconserved.unique _ p _ hp hdropped)

end GeneticLock
end DynLocks
