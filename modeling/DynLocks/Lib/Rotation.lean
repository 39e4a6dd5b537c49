import Mathlib.Data.List.Nodup
import Mathlib.Data.List.Perm.Subperm
import Mathlib.Data.List.Range
import Mathlib.Data.Nat.ModEq

/-!
# DynLocks.Lib.Rotation

A number of slots filled from a pool, first come, first replaced: replacement `k`
puts into slot `k` (modulo the number of slots) the next entry of the pool that is
in no slot.  If the pool has more entries than there are slots, the search never
skips an entry, and the slots always hold a stretch of the pool, read as a ring
(`holds_replaceAll`).
-/

namespace Rotation

variable {α : Type} [DecidableEq α]

/-- The first entry from `cursor` on that is in no slot; `room` bounds the search. -/
def findFree (pool slots : List α) : ℕ → ℕ → Option (ℕ × α)
  | 0, _ => none
  | room + 1, cursor =>
      pool[cursor]?.bind fun entry =>
        if entry ∈ slots then findFree pool slots room ((cursor + 1) % pool.length)
        else some (cursor, entry)

/-- Replacement `k`: the slots and the cursor behind it. -/
def replace (pool : List α) (slots : List α) (cursor k : ℕ) : Option (List α × ℕ) :=
  (findFree pool slots pool.length cursor).map fun r =>
    (slots.set (k % slots.length) r.2, (r.1 + 1) % pool.length)

/-- The slots hold the entries `k … k + n - 1` of the ring, each in the slot of its number, and the
cursor is at the next one. -/
structure Holds (pool : List α) (n k : ℕ) (slots : List α) (cursor : ℕ) : Prop where
  length : slots.length = n
  slot : ∀ i, k ≤ i → i < k + n → slots[i % n]? = pool[i % pool.length]?
  cursor_eq : cursor = (k + n) % pool.length

variable {pool slots : List α} {n k cursor : ℕ}

omit [DecidableEq α] in
/-- The first slots hold the first entries. -/
theorem holds_take (hn : n < pool.length) : Holds pool n 0 (pool.take n) n where
  length := List.length_take_of_le hn.le
  slot i _ hi := by
    have hlt : i < n := by omega
    rw [Nat.mod_eq_of_lt hlt, Nat.mod_eq_of_lt (hlt.trans hn), List.getElem?_take_of_lt hlt]
  cursor_eq := by rw [Nat.zero_add, Nat.mod_eq_of_lt hn]

/-- Some number of the stretch belongs to each slot. -/
theorem exists_mod_eq (k : ℕ) {j : ℕ} (hj : j < n) : ∃ i, k ≤ i ∧ i < k + n ∧ i % n = j := by
  have hk := Nat.mod_lt k (show 0 < n by omega)
  have hdiv := Nat.div_add_mod k n
  by_cases hle : k % n ≤ j
  · refine ⟨k + (j - k % n), by omega, by omega, ?_⟩
    have heq : k + (j - k % n) = j + n * (k / n) := by omega
    rw [heq, Nat.add_mul_mod_self_left, Nat.mod_eq_of_lt hj]
  · refine ⟨k + (n - k % n + j), by omega, by omega, ?_⟩
    have heq : k + (n - k % n + j) = j + n * (k / n + 1) := by
      rw [Nat.mul_add]
      omega
    rw [heq, Nat.add_mul_mod_self_left, Nat.mod_eq_of_lt hj]

/-- Numbers less than `m` apart are different modulo `m`. -/
theorem mod_ne {m i i' : ℕ} (hlt : i < i') (hclose : i' < i + m) : i % m ≠ i' % m := by
  intro heq
  have hdvd : m ∣ i' - i := (Nat.modEq_iff_dvd' hlt.le).mp heq
  have := Nat.le_of_dvd (by omega) hdvd
  omega

omit [DecidableEq α] in
/-- What is in a slot is an entry of the stretch. -/
theorem Holds.exists_of_mem (h : Holds pool n k slots cursor) {x : α} (hx : x ∈ slots) :
    ∃ i, k ≤ i ∧ i < k + n ∧ pool[i % pool.length]? = some x := by
  obtain ⟨j, hj⟩ := List.mem_iff_getElem?.mp hx
  have hlt : j < n := by
    rw [← h.length]
    exact (List.getElem?_eq_some_iff.mp hj).1
  obtain ⟨i, hki, hin, rfl⟩ := exists_mod_eq k hlt
  exact ⟨i, hki, hin, by rw [← h.slot i hki hin, hj]⟩

omit [DecidableEq α] in
/-- The next entry is in no slot. -/
theorem Holds.next_notMem (h : Holds pool n k slots cursor) (hnodup : pool.Nodup)
    (hn : n < pool.length) {x : α} (hx : pool[(k + n) % pool.length]? = some x) : x ∉ slots := by
  intro hmem
  obtain ⟨i, hki, hin, hi⟩ := h.exists_of_mem hmem
  have hpos : i % pool.length < pool.length := Nat.mod_lt _ (by omega)
  have hsame := (List.getElem?_inj hpos hnodup).mp (hi.trans hx.symm)
  exact mod_ne (m := pool.length) hin (by omega) hsame

/-- The stretch of the ring from entry `k` on. -/
def stretch (pool : List α) (k n : ℕ) : List α :=
  (List.range' k n).filterMap fun i => pool[i % pool.length]?

omit [DecidableEq α] in
theorem mem_stretch {x : α} :
    x ∈ stretch pool k n ↔ ∃ i, k ≤ i ∧ i < k + n ∧ pool[i % pool.length]? = some x := by
  simp only [stretch, List.mem_filterMap, List.mem_range'_1, and_assoc]

omit [DecidableEq α] in
theorem length_stretch (hpool : 0 < pool.length) : (stretch pool k n).length = n := by
  have hsome : ∀ i ∈ List.range' k n, (pool[i % pool.length]?).isSome := fun i _ => by
    rw [List.getElem?_eq_getElem (Nat.mod_lt _ hpool)]
    rfl
  rw [stretch, List.length_filterMap_eq_countP, List.countP_eq_length.mpr hsome, List.length_range']

omit [DecidableEq α] in
/-- A stretch of the ring that does not go round it has no entry twice. -/
theorem nodup_stretch (hnodup : pool.Nodup) (hn : n ≤ pool.length) :
    (stretch pool k n).Nodup := by
  refine List.pairwise_filterMap.mpr ?_
  refine (List.pairwise_lt_range' (s := k) (n := n)).imp_of_mem ?_
  intro i i' hi hi' hlt x hx y hy heq
  rw [List.mem_range'_1] at hi hi'
  have hpos := Nat.mod_lt i (show 0 < pool.length by omega)
  have hsame := (List.getElem?_inj hpos hnodup).mp (hx.trans (heq ▸ hy.symm))
  exact mod_ne hlt (by omega) hsame

omit [DecidableEq α] in
theorem stretch_add (pool : List α) (k n n' : ℕ) :
    stretch pool k (n + n') = stretch pool k n ++ stretch pool (k + n) n' := by
  rw [stretch, ← List.range'_append_1, List.filterMap_append]
  rfl

/-- A stretch that has moved on by `each` entries holds as many that were not in it before. -/
theorem length_filter_stretch (hnodup : pool.Nodup) {each : ℕ} (hle : each ≤ n)
    (hn : n + each ≤ pool.length) (hpool : 0 < pool.length) :
    ((stretch pool (k + each) n).filter (· ∉ stretch pool k n)).length = each := by
  have hsplit : stretch pool (k + each) n =
      stretch pool (k + each) (n - each) ++ stretch pool (k + n) each := by
    have hadd := stretch_add pool (k + each) (n - each) each
    rwa [Nat.sub_add_cancel hle, show k + each + (n - each) = k + n by omega] at hadd
  have hold : (stretch pool (k + each) (n - each)).filter (· ∉ stretch pool k n) = [] := by
    refine List.filter_eq_nil_iff.mpr fun x hx => ?_
    obtain ⟨i, hki, hin, hi⟩ := mem_stretch.mp hx
    simp only [decide_eq_true_eq, not_not]
    exact mem_stretch.mpr ⟨i, by omega, by omega, hi⟩
  have hnew : (stretch pool (k + n) each).filter (· ∉ stretch pool k n) =
      stretch pool (k + n) each := by
    refine List.filter_eq_self.mpr fun x hx => ?_
    obtain ⟨i, hki, hin, hi⟩ := mem_stretch.mp hx
    simp only [decide_eq_true_eq]
    intro hmem
    obtain ⟨i', hki', hin', hi'⟩ := mem_stretch.mp hmem
    have hsame := (List.getElem?_inj (Nat.mod_lt i' hpool) hnodup).mp (hi'.trans hi.symm)
    exact mod_ne (show i' < i by omega) (by omega) hsame
  rw [hsplit, List.filter_append, hold, hnew, List.nil_append, length_stretch hpool]

omit [DecidableEq α] in
/-- The slots hold the stretch and nothing else. -/
theorem Holds.perm (h : Holds pool n k slots cursor) (hnodup : pool.Nodup) (hn : n ≤ pool.length)
    (hpool : 0 < pool.length) : slots.Perm (stretch pool k n) := by
  refine (((nodup_stretch hnodup hn).subperm fun x hx => ?_).perm_of_length_le ?_).symm
  · obtain ⟨i, hki, hin, hi⟩ := mem_stretch.mp hx
    rw [← h.slot i hki hin] at hi
    exact List.mem_of_getElem? hi
  · rw [h.length, length_stretch hpool]

/-- **Step lemma**: a replacement moves the stretch on by one. -/
theorem Holds.replace (h : Holds pool n k slots cursor) (hnodup : pool.Nodup) (hpos : 0 < n)
    (hn : n < pool.length) :
    ∃ slots' cursor', Rotation.replace pool slots cursor k = some (slots', cursor') ∧
      Holds pool n (k + 1) slots' cursor' := by
  have hcursor : (k + n) % pool.length < pool.length := Nat.mod_lt _ (by omega)
  obtain ⟨x, hx⟩ : ∃ x, pool[(k + n) % pool.length]? = some x :=
    ⟨_, List.getElem?_eq_getElem hcursor⟩
  have hfree : findFree pool slots pool.length cursor = some ((k + n) % pool.length, x) := by
    obtain ⟨room, hroom⟩ := Nat.exists_eq_succ_of_ne_zero (show pool.length ≠ 0 by omega)
    rw [h.cursor_eq, hroom, findFree, ← hroom, hx, Option.bind_some,
      if_neg (h.next_notMem hnodup hn hx)]
  refine ⟨_, _, by rw [Rotation.replace, hfree, Option.map_some], ?_, ?_, ?_⟩
  · rw [List.length_set, h.length]
  · intro i hki hin
    rw [h.length]
    by_cases hlast : i = k + n
    · have hslot : i % n = k % n := by rw [hlast, Nat.add_mod_right]
      have hlt : k % n < slots.length := by
        rw [h.length]
        exact Nat.mod_lt _ hpos
      rw [hslot, List.getElem?_set_self hlt, hlast, hx]
    · have hne : k % n ≠ i % n := mod_ne (by omega) (by omega)
      rw [List.getElem?_set_ne hne]
      exact h.slot i (by omega) (by omega)
  · rw [Nat.mod_add_mod]
    congr 1
    omega

/-! ## all replacements -/

/-- `rounds` rounds of `each` replacements, numbered by `number`. -/
def replaceAll (pool slots : List α) (number : ℕ → ℕ → ℕ) (each cursor rounds : ℕ) :
    Option (List α × ℕ) :=
  (List.range rounds).foldlM
    (fun st round => (List.range each).foldlM
      (fun st index => replace pool st.1 st.2 (number round index)) st)
    (slots, cursor)

/-- A round moves the stretch on by as many entries as it replaces. -/
theorem Holds.round (h : Holds pool n k slots cursor) (hnodup : pool.Nodup) (hpos : 0 < n)
    (hn : n < pool.length) {number : ℕ → ℕ} {each : ℕ}
    (hnumber : ∀ index < each, number index = k + index) :
    ∃ slots' cursor', (List.range each).foldlM
        (fun st index => Rotation.replace pool st.1 st.2 (number index)) (slots, cursor) =
          some (slots', cursor') ∧ Holds pool n (k + each) slots' cursor' := by
  induction each with
  | zero => exact ⟨slots, cursor, rfl, h⟩
  | succ each ih =>
      obtain ⟨slots', cursor', hfold, hholds⟩ := ih fun index hindex => hnumber index (by omega)
      obtain ⟨slots'', cursor'', hstep, hnext⟩ := hholds.replace hnodup hpos hn
      refine ⟨slots'', cursor'', ?_, hnext⟩
      rw [← hnumber each (Nat.lt_succ_self _)] at hstep
      rw [List.range_succ, List.foldlM_append, hfold]
      exact (congrArg (· >>= pure) hstep).trans rfl

/-- **Run lemma**: behind all rounds the slots hold a stretch of the ring. -/
theorem holds_replaceAll (hnodup : pool.Nodup) (hpos : 0 < n) (hn : n < pool.length)
    {number : ℕ → ℕ → ℕ} {each rounds : ℕ}
    (hnumber : ∀ round < rounds, ∀ index < each, number round index = round * each + index) :
    ∃ slots' cursor', replaceAll pool (pool.take n) number each n rounds = some (slots', cursor') ∧
      Holds pool n (rounds * each) slots' cursor' := by
  induction rounds with
  | zero => exact ⟨_, _, rfl, by rw [Nat.zero_mul]; exact holds_take hn⟩
  | succ rounds ih =>
      obtain ⟨slots', cursor', hfold, hholds⟩ := ih fun round hround => hnumber round (by omega)
      obtain ⟨slots'', cursor'', hround, hnext⟩ :=
        hholds.round hnodup hpos hn (hnumber rounds (Nat.lt_succ_self _))
      refine ⟨slots'', cursor'', ?_, by rwa [Nat.succ_mul]⟩
      rw [replaceAll, List.range_succ, List.foldlM_append]
      rw [replaceAll] at hfold
      rw [hfold]
      exact (congrArg (· >>= pure) hround).trans rfl

end Rotation
