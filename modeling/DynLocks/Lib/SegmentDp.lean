import DynLocks.Lib.CutVector
import Mathlib.Algebra.Order.Monoid.Defs

/-!
# DynLocks.Lib.SegmentDp

The least additive cost of a cut vector, by dynamic programming over
(number of segments, end of the split prefix).

A segment `[l, r)` costs `seg l r` in an ordered commutative monoid; a cut
vector costs the sum over its segments (`cost`).  `best seg k n` is the cell of
the table for `k` segments that end at `n`: the least cost together with the
left end of the last segment, or `none` where no split exists.  The cell scans
the left ends in increasing order and keeps the first minimum (`scan`), which
is what a loop with a strict comparison does, so ties are settled here as well.

* `best_isSome_iff` — a cell is filled exactly where a split exists;
* `walk_best` — reading the left ends back gives a split of that cost;
* `best_le_cost` — no split is cheaper;
* `best_map` — costs in another unit lead to the same left ends, ties included.
-/

namespace SegmentDp

open CutVector

/-! ## the first minimum of a scan -/

section Scan

variable {α : Type*} [LinearOrder α]

/-- Keep `cell` unless the candidate is strictly better. -/
def keepLess (cell : Option (α × ℕ)) (candidate : α) (left : ℕ) : Option (α × ℕ) :=
  match cell with
  | none => some (candidate, left)
  | some (c, l) => if candidate < c then some (candidate, left) else some (c, l)

/-- The first minimum of `f` on `0 … n - 1`, with its position. -/
def scan (f : ℕ → Option α) : ℕ → Option (α × ℕ)
  | 0 => none
  | n + 1 => match f n with
    | none => scan f n
    | some c => keepLess (scan f n) c n

variable {f : ℕ → Option α} {n l : ℕ} {c : α}

theorem scan_succ_none (h : f n = none) : scan f (n + 1) = scan f n := by
  simp only [scan, h]

theorem scan_succ_some (h : f n = some c) : scan f (n + 1) = keepLess (scan f n) c n := by
  simp only [scan, h]

theorem scan_congr {g : ℕ → Option α} (h : ∀ left < n, f left = g left) :
    scan f n = scan g n := by
  induction n with
  | zero => rfl
  | succ n ih =>
      rw [scan, scan, h n (Nat.lt_succ_self n), ih fun left hlt => h left (by omega)]

theorem scan_eq_none_iff : scan f n = none ↔ ∀ left < n, f left = none := by
  induction n with
  | zero => simp [scan]
  | succ n ih =>
      cases hf : f n with
      | none =>
          rw [scan_succ_none hf, ih]
          constructor
          · intro h left hlt
            rcases Nat.lt_succ_iff_lt_or_eq.mp hlt with h1 | h1
            · exact h left h1
            · rw [h1]; exact hf
          · intro h left hlt
            exact h left (by omega)
      | some d =>
          rw [scan_succ_some hf]
          constructor
          · intro h
            cases hs : scan f n with
            | none => simp [hs, keepLess] at h
            | some p => simp only [hs, keepLess] at h; split at h <;> contradiction
          · intro h
            rw [h n (Nat.lt_succ_self n)] at hf
            contradiction

/-- A strictly monotone change of costs moves no minimum. -/
theorem scan_map {β : Type*} [LinearOrder β] {g : α → β} (hg : StrictMono g) (f : ℕ → Option α)
    (n : ℕ) : scan (fun left => (f left).map g) n = (scan f n).map (Prod.map g id) := by
  induction n with
  | zero => rfl
  | succ n ih =>
      cases hf : f n with
      | none =>
          rw [scan_succ_none hf, ← ih]
          exact scan_succ_none (by rw [hf]; rfl)
      | some c =>
          rw [scan_succ_some hf, scan_succ_some (c := g c) (by rw [hf]; rfl), ih]
          cases hs : scan f n with
          | none => rfl
          | some p =>
              simp only [Option.map_some, keepLess, Prod.map, hg.lt_iff_lt]
              split <;> rfl

/-- The scan attains its value, nothing on the way is smaller, and everything
before the position it reports is strictly larger. -/
theorem scan_spec (h : scan f n = some (c, l)) :
    l < n ∧ f l = some c ∧ (∀ left < n, ∀ d, f left = some d → c ≤ d) ∧
      ∀ left < l, ∀ d, f left = some d → c < d := by
  induction n generalizing c l with
  | zero => simp [scan] at h
  | succ n ih =>
      cases hf : f n with
      | none =>
          rw [scan_succ_none hf] at h
          obtain ⟨hl, hfl, hmin, hfirst⟩ := ih h
          refine ⟨by omega, hfl, fun left hlt d hd => ?_, hfirst⟩
          rcases Nat.lt_succ_iff_lt_or_eq.mp hlt with h1 | h1
          · exact hmin left h1 d hd
          · rw [h1, hf] at hd; contradiction
      | some e =>
          rw [scan_succ_some hf] at h
          cases hs : scan f n with
          | none =>
              simp only [hs, keepLess, Option.some.injEq, Prod.mk.injEq] at h
              obtain ⟨rfl, rfl⟩ := h
              have hnone := scan_eq_none_iff.mp hs
              refine ⟨Nat.lt_succ_self _, hf, fun left hlt d hd => ?_, fun left hlt d hd => ?_⟩
              · rcases Nat.lt_succ_iff_lt_or_eq.mp hlt with h1 | h1
                · rw [hnone left h1] at hd; contradiction
                · rw [h1, hf] at hd
                  exact (Option.some.inj hd).le
              · rw [hnone left hlt] at hd; contradiction
          | some p =>
              obtain ⟨c₀, l₀⟩ := p
              obtain ⟨hl, hfl, hmin, hfirst⟩ := ih hs
              simp only [hs, keepLess] at h
              split at h
              · next hlt =>
                  simp only [Option.some.injEq, Prod.mk.injEq] at h
                  obtain ⟨rfl, rfl⟩ := h
                  refine ⟨Nat.lt_succ_self _, hf, fun left hl' d hd => ?_, fun left hl' d hd => ?_⟩
                  · rcases Nat.lt_succ_iff_lt_or_eq.mp hl' with h1 | h1
                    · exact hlt.le.trans (hmin left h1 d hd)
                    · rw [h1, hf] at hd
                      exact (Option.some.inj hd).le
                  · exact hlt.trans_le (hmin left hl' d hd)
              · next hge =>
                  simp only [Option.some.injEq, Prod.mk.injEq] at h
                  obtain ⟨rfl, rfl⟩ := h
                  refine ⟨by omega, hfl, fun left hl' d hd => ?_, hfirst⟩
                  rcases Nat.lt_succ_iff_lt_or_eq.mp hl' with h1 | h1
                  · exact hmin left h1 d hd
                  · rw [h1, hf] at hd
                    rw [← Option.some.inj hd]
                    exact not_lt.mp hge

end Scan

/-! ## the table -/

variable {α : Type*} [AddCommMonoid α]

/-- Cost of a cut vector with `k` segments. -/
def cost (seg : ℕ → ℕ → α) (k : ℕ) (cuts : List ℕ) : α :=
  ∑ i ∈ Finset.range k, seg (cuts.getD i 0) (cuts.getD (i + 1) 0)

/-- A cost only reads the cuts of its own segments. -/
theorem cost_append (seg : ℕ → ℕ → α) {k n : ℕ} {cuts : List ℕ} (h : IsCuts k n cuts)
    (tail : List ℕ) : cost seg k (cuts ++ tail) = cost seg k cuts := by
  apply Finset.sum_congr rfl
  intro i hi
  rw [Finset.mem_range] at hi
  rw [List.getD_append _ _ _ _ (by rw [h.length]; omega),
    List.getD_append _ _ _ _ (by rw [h.length]; omega)]

/-- The last segment is paid on top of the split before it. -/
theorem cost_snoc (seg : ℕ → ℕ → α) {k n m : ℕ} {cuts : List ℕ} (h : IsCuts k n cuts) :
    cost seg (k + 1) (cuts ++ [m]) = cost seg k cuts + seg n m := by
  rw [cost, Finset.sum_range_succ, ← cost, cost_append seg h]
  congr 2
  · rw [List.getD_append _ _ _ _ (by rw [h.length]; omega)]
    exact h.last
  · rw [List.getD_append_right _ _ _ _ (by rw [h.length]), h.length]
    simp

/-- Read the cuts back from a table of left ends. -/
def walk (split : ℕ → ℕ → ℕ) : ℕ → ℕ → List ℕ
  | 0, n => [n]
  | k + 1, n => walk split k (split (k + 1) n) ++ [n]

theorem length_walk (split : ℕ → ℕ → ℕ) (k n : ℕ) : (walk split k n).length = k + 1 := by
  induction k generalizing n with
  | zero => rfl
  | succ k ih => rw [walk, List.length_append, ih]; rfl

theorem getD_walk_last (split : ℕ → ℕ → ℕ) (k n : ℕ) : (walk split k n).getD k 0 = n := by
  cases k with
  | zero => rfl
  | succ k =>
      rw [walk, List.getD_append_right _ _ _ _ (by rw [length_walk]), length_walk, Nat.sub_self]
      rfl

/-- Read the cuts back in place: `cuts` is overwritten from the last inner cut down.  The table is
indexed by the end of the prefix first. -/
def backtrack (split : ℕ → ℕ → ℕ) : ℕ → ℕ → List ℕ → List ℕ
  | 0, _, cuts => cuts
  | locks + 1, current, cuts =>
      backtrack split locks (split current (locks + 1)) (cuts.set locks (split current (locks + 1)))

/-- Overwriting from the last cut down spells out the walk. -/
theorem backtrack_eq (split : ℕ → ℕ → ℕ) {locks current : ℕ} {cuts : List ℕ}
    (hlen : locks < cuts.length) (hcur : cuts.getD locks 0 = current) :
    backtrack split locks current cuts =
      walk (fun l n => split n l) locks current ++ cuts.drop (locks + 1) := by
  induction locks generalizing current cuts with
  | zero =>
      cases cuts with
      | nil => simp at hlen
      | cons c rest =>
          simp only [List.getD_cons_zero] at hcur
          simp [backtrack, walk, hcur]
  | succ locks ih =>
      have hlen' : locks < (cuts.set locks (split current (locks + 1))).length := by
        rw [List.length_set]; omega
      rw [backtrack, ih hlen' (by rw [List.getD_eq_getElem _ _ hlen', List.getElem_set_self]),
        walk, List.append_assoc]
      congr 1
      -- the entry just written is dropped; the next one is the current cut
      rw [List.drop_set_of_lt (Nat.lt_succ_self locks), List.drop_eq_getElem_cons hlen,
        ← List.getD_eq_getElem cuts 0 hlen, hcur]
      rfl

/-- Left ends at or below their right ends are read back in order. -/
theorem walk_ascending {split : ℕ → ℕ → ℕ} (h : ∀ k n, split k n ≤ n) (k n : ℕ) :
    Ascending k (walk split k n) := by
  induction k generalizing n with
  | zero => exact fun i hi => absurd hi (Nat.not_lt_zero i)
  | succ k ih =>
      intro i hi
      have hlen := length_walk split k (split (k + 1) n)
      rcases Nat.lt_succ_iff_lt_or_eq.mp hi with hlt | rfl
      · rw [walk, List.getD_append _ _ _ _ (by omega), List.getD_append _ _ _ _ (by omega)]
        exact ih _ i hlt
      · rw [getD_walk_last, walk, List.getD_append _ _ _ _ (by omega), getD_walk_last]
        exact h _ _

/-- A first segment that starts at zero is read back as the first cut. -/
theorem getD_walk_first {split : ℕ → ℕ → ℕ} (hle : ∀ k n, split k n ≤ n) {k n bound : ℕ}
    (hn : n ≤ bound) (hfirst : ∀ m ≤ bound, split 1 m = 0) :
    (walk split (k + 1) n).getD 0 0 = 0 := by
  induction k generalizing n with
  | zero => simpa [walk] using hfirst n hn
  | succ k ih =>
      rw [walk, List.getD_append _ _ _ _ (by rw [length_walk]; exact Nat.succ_pos _)]
      exact ih ((hle _ _).trans hn)

/-- Left ends that are zero or before their right ends leave empty segments at the front only. -/
theorem walk_packed {split : ℕ → ℕ → ℕ} (hle : ∀ k n, split k n ≤ n) {k n bound : ℕ}
    (hn : n ≤ bound) (hlt : ∀ l < k, ∀ m ≤ bound, split (l + 1) m = 0 ∨ split (l + 1) m < m) :
    Packed k (walk split k n) := by
  induction k generalizing n with
  | zero => exact fun i hi => absurd hi (Nat.not_lt_zero i)
  | succ k ih =>
      intro i hi hpos
      have hlen := length_walk split k (split (k + 1) n)
      rcases Nat.lt_succ_iff_lt_or_eq.mp hi with hik | rfl
      · rw [walk, List.getD_append _ _ _ _ (by omega)] at hpos ⊢
        rw [List.getD_append _ _ _ _ (by omega)]
        exact ih ((hle _ _).trans hn) (fun l hl => hlt l (by omega)) i hik hpos
      · rw [walk, List.getD_append _ _ _ _ (by omega), getD_walk_last] at hpos
        rw [getD_walk_last, walk, List.getD_append _ _ _ _ (by omega), getD_walk_last]
        exact (hlt i (Nat.lt_succ_self i) n hn).resolve_left hpos.ne'

variable [LinearOrder α]

/-- The cell for `k` segments that end at `n`: least cost and left end of the
last segment. -/
def best (seg : ℕ → ℕ → α) : ℕ → ℕ → Option (α × ℕ)
  | 0, n => if n = 0 then some (0, 0) else none
  | k + 1, n => scan (fun left => (best seg k left).map fun cell => cell.1 + seg left n) n

/-- The left end a cell records. -/
def splitOf (seg : ℕ → ℕ → α) (k n : ℕ) : ℕ := ((best seg k n).map Prod.snd).getD 0

/-- A cell is filled exactly where a split exists. -/
theorem best_isSome_iff (seg : ℕ → ℕ → α) (k n : ℕ) :
    (best seg k n).isSome ↔ k ≤ n ∧ (k = 0 → n = 0) := by
  induction k generalizing n with
  | zero => by_cases hn : n = 0 <;> simp [best, hn]
  | succ k ih =>
      rw [← Option.ne_none_iff_isSome, best, Ne, scan_eq_none_iff]
      simp only [Option.map_eq_none_iff]
      constructor
      · intro h
        refine ⟨?_, fun h0 => by omega⟩
        by_contra hlt
        apply h
        intro left hleft
        rw [← Option.not_isSome_iff_eq_none, ih]
        omega
      · intro h hall
        have hcell := hall (n - 1) (by omega)
        rw [← Option.not_isSome_iff_eq_none, ih] at hcell
        by_cases hk : k = 0
        · have h0 := hall 0 (by omega)
          rw [← Option.not_isSome_iff_eq_none, ih] at h0
          omega
        · omega

/-- The filled cell for `k + 1` segments, one step back. -/
theorem best_succ_spec {seg : ℕ → ℕ → α} {k n l : ℕ} {c : α}
    (h : best seg (k + 1) n = some (c, l)) :
    l < n ∧ (∃ cell, best seg k l = some cell ∧ c = cell.1 + seg l n) ∧
      ∀ left < n, ∀ cell, best seg k left = some cell → c ≤ cell.1 + seg left n := by
  obtain ⟨hl, hf, hmin, -⟩ := scan_spec h
  obtain ⟨cell, hcell, hc⟩ := Option.map_eq_some_iff.mp hf
  refine ⟨hl, ⟨cell, hcell, hc.symm⟩, fun left hleft cell' hcell' => ?_⟩
  exact hmin left hleft _ (by rw [hcell', Option.map_some])

/-- The recorded left ends spell out a split whose cost is the cell's. -/
theorem walk_best {seg : ℕ → ℕ → α} {k n l : ℕ} {c : α} (h : best seg k n = some (c, l)) :
    IsCuts k n (walk (splitOf seg) k n) ∧ cost seg k (walk (splitOf seg) k n) = c := by
  induction k generalizing n l c with
  | zero =>
      simp only [best] at h
      split at h
      · next hn =>
          simp only [Option.some.injEq, Prod.mk.injEq] at h
          rw [hn, ← h.1]
          exact ⟨IsCuts.nil, rfl⟩
      · contradiction
  | succ k ih =>
      obtain ⟨hl, ⟨cell, hcell, hc⟩, -⟩ := best_succ_spec h
      have hsplit : splitOf seg (k + 1) n = l := by simp [splitOf, h]
      obtain ⟨hcuts, hcost⟩ := ih hcell
      rw [walk, hsplit]
      refine ⟨hcuts.snoc hl, ?_⟩
      rw [cost_snoc seg hcuts, hcost, hc]

/-- A table that names the left end of every filled cell spells out the same split. -/
theorem walk_congr {seg : ℕ → ℕ → α} {split : ℕ → ℕ → ℕ} {k n : ℕ}
    (hsome : (best seg k n).isSome)
    (hsplit : ∀ l ≤ k, ∀ m ≤ n, ∀ cell, best seg l m = some cell → split l m = cell.2) :
    walk split k n = walk (splitOf seg) k n := by
  induction k generalizing n with
  | zero => rfl
  | succ k ih =>
      obtain ⟨⟨c, l⟩, hbest⟩ := Option.isSome_iff_exists.mp hsome
      obtain ⟨hlt, ⟨cell, hcell, -⟩, -⟩ := best_succ_spec hbest
      have hsplitOf : splitOf seg (k + 1) n = l := by simp [splitOf, hbest]
      rw [walk, walk, hsplitOf, hsplit (k + 1) le_rfl n le_rfl _ hbest]
      rw [ih (by rw [hcell]; rfl) fun j hj m hm => hsplit j (by omega) m (by omega)]

/-- No split is cheaper than its cell. -/
theorem best_le_cost [IsOrderedAddMonoid α] {seg : ℕ → ℕ → α} {k n l : ℕ} {c : α}
    {cuts : List ℕ} (h : best seg k n = some (c, l)) (hcuts : IsCuts k n cuts) :
    c ≤ cost seg k cuts := by
  induction k generalizing n l c cuts with
  | zero =>
      obtain ⟨hn, rfl⟩ := hcuts.eq_of_zero
      simp only [best, if_pos hn, Option.some.injEq, Prod.mk.injEq] at h
      rw [← h.1]
      exact (Finset.sum_range_zero _).ge
  | succ k ih =>
      obtain ⟨m, front, rfl, hfront, hm⟩ := hcuts.exists_snoc
      have hsome : (best seg k m).isSome := by
        rw [best_isSome_iff]
        exact ⟨hfront.le_last, fun h0 => by rw [h0] at hfront; exact hfront.eq_of_zero.1⟩
      obtain ⟨cell, hcell⟩ := Option.isSome_iff_exists.mp hsome
      obtain ⟨-, -, hmin⟩ := best_succ_spec h
      rw [cost_snoc seg hfront]
      calc c ≤ cell.1 + seg m n := hmin m hm cell hcell
        _ ≤ cost seg k front + seg m n := by
          have := ih (c := cell.1) (l := cell.2) hcell hfront
          gcongr

/-! ## costs in another unit -/

/-- A strictly monotone additive change of costs changes the cells and keeps their left ends. -/
theorem best_map {β : Type*} [AddCommMonoid β] [LinearOrder β] {g : α → β} (hg : StrictMono g)
    (hzero : g 0 = 0) (hadd : ∀ a b, g (a + b) = g a + g b) {seg : ℕ → ℕ → α}
    {seg' : ℕ → ℕ → β} {n : ℕ} (hseg : ∀ l r, l < r → r ≤ n → seg' l r = g (seg l r)) (k : ℕ)
    {m : ℕ} (hm : m ≤ n) : best seg' k m = (best seg k m).map (Prod.map g id) := by
  induction k generalizing m with
  | zero =>
      rw [best, best]
      split
      · rw [Option.map_some, Prod.map_apply, hzero]
        rfl
      · rfl
  | succ k ih =>
      rw [best, best, ← scan_map hg]
      apply scan_congr
      intro left hlt
      rw [ih (by omega), hseg left m hlt hm]
      cases best seg k left with
      | none => rfl
      | some cell => simp [hadd]

/-- The split read back is the same. -/
theorem walk_map {β : Type*} [AddCommMonoid β] [LinearOrder β] {g : α → β} (hg : StrictMono g)
    (hzero : g 0 = 0) (hadd : ∀ a b, g (a + b) = g a + g b) {seg : ℕ → ℕ → α}
    {seg' : ℕ → ℕ → β} {k n : ℕ} (hseg : ∀ l r, l < r → r ≤ n → seg' l r = g (seg l r))
    (hsome : (best seg k n).isSome) : walk (splitOf seg') k n = walk (splitOf seg) k n := by
  apply walk_congr hsome
  intro l _ m hm cell hcell
  rw [splitOf, best_map hg hzero hadd hseg l hm, hcell]
  rfl

end SegmentDp
