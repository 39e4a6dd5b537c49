import Mathlib.Algebra.BigOperators.Intervals
import Mathlib.Algebra.Order.BigOperators.Group.Finset
import Mathlib.Data.List.GetD
import Mathlib.Data.Finset.Interval

/-!
# DynLocks.Lib.CutVector

Cut vectors: a line of `n` cells is split into `k` nonempty segments by a
strictly increasing list `0 = c₀ < c₁ < … < c_k = n`; segment `i` is
`[cᵢ, cᵢ₊₁)`.  Everything is stated for arbitrary `k` and `n`:

* `IsCuts` — the defining properties, with the entry-wise order lemmas;
* `IsCuts.snoc` / `IsCuts.exists_snoc` — a vector with `k + 1` segments is one
  with `k` segments followed by a last cut, which is the induction principle
  of every prefix argument;
* `isCuts_of_inner` / `IsCuts.eq_inner` — a vector is its inner cuts between `0` and `n`;
* `segmentOf` — the number of inner cuts at or below a cell, which is the
  index of the segment that owns the cell;
* `Covers` — the weaker notion with empty segments, which still gives every
  cell one segment; `segmentsMeeting` counts those that a range of cells meets.
-/

namespace CutVector

/-! ## cut vectors -/

/-- `cuts` splits the cells `0 … n - 1` into `k` nonempty segments. -/
structure IsCuts (k n : ℕ) (cuts : List ℕ) : Prop where
  length : cuts.length = k + 1
  first : cuts.getD 0 0 = 0
  last : cuts.getD k 0 = n
  increasing : cuts.Pairwise (· < ·)

instance (k n : ℕ) (cuts : List ℕ) : Decidable (IsCuts k n cuts) :=
  decidable_of_iff
    (cuts.length = k + 1 ∧ cuts.getD 0 0 = 0 ∧ cuts.getD k 0 = n ∧ cuts.Pairwise (· < ·))
    ⟨fun h => ⟨h.1, h.2.1, h.2.2.1, h.2.2.2⟩,
      fun h => ⟨h.length, h.first, h.last, h.increasing⟩⟩

/-- The first `k + 1` cuts never decrease; some segments may be empty. -/
def Ascending (k : ℕ) (cuts : List ℕ) : Prop := ∀ i < k, cuts.getD i 0 ≤ cuts.getD (i + 1) 0

instance (k : ℕ) (cuts : List ℕ) : Decidable (Ascending k cuts) :=
  inferInstanceAs (Decidable (∀ i < k, _))

namespace IsCuts

variable {k n : ℕ} {cuts : List ℕ}

/-- Entries increase with their index. -/
theorem getD_lt (h : IsCuts k n cuts) {i j : ℕ} (hij : i < j) (hj : j ≤ k) :
    cuts.getD i 0 < cuts.getD j 0 := by
  have hlen := h.length
  have hi' : i < cuts.length := by omega
  have hj' : j < cuts.length := by omega
  rw [List.getD_eq_getElem _ _ hi', List.getD_eq_getElem _ _ hj']
  exact List.pairwise_iff_getElem.mp h.increasing i j hi' hj' hij

theorem getD_le (h : IsCuts k n cuts) {i j : ℕ} (hij : i ≤ j) (hj : j ≤ k) :
    cuts.getD i 0 ≤ cuts.getD j 0 := by
  rcases Nat.eq_or_lt_of_le hij with heq | hlt
  · rw [heq]
  · exact (h.getD_lt hlt hj).le

/-- The `i`-th cut is at least `i`: every segment before it owns a cell. -/
theorem le_getD (h : IsCuts k n cuts) {i : ℕ} (hi : i ≤ k) : i ≤ cuts.getD i 0 := by
  induction i with
  | zero => exact Nat.zero_le _
  | succ i ih =>
      have hprev := ih (by omega)
      have hstep := h.getD_lt (Nat.lt_add_one i) hi
      omega

/-- Symmetrically, the `i`-th cut leaves room for the segments after it. -/
theorem getD_add_le (h : IsCuts k n cuts) {i : ℕ} (hi : i ≤ k) :
    cuts.getD i 0 + (k - i) ≤ n := by
  induction hi using Nat.decreasingInduction with
  | self => rw [h.last]; omega
  | of_succ i hi ih =>
      have hstep := h.getD_lt (Nat.lt_add_one i) hi
      omega

theorem getD_le_last (h : IsCuts k n cuts) {i : ℕ} (hi : i ≤ k) : cuts.getD i 0 ≤ n := by
  have := h.getD_add_le hi
  omega

/-- Only the first cut is at cell zero. -/
theorem getD_pos (h : IsCuts k n cuts) {i : ℕ} (hi0 : 0 < i) (hi : i ≤ k) :
    0 < cuts.getD i 0 := by
  have := h.le_getD hi
  omega

theorem ascending (h : IsCuts k n cuts) : Ascending k cuts :=
  fun _ hi => h.getD_le (Nat.le_add_right _ 1) hi

theorem le_last (h : IsCuts k n cuts) : k ≤ n := by
  have := h.getD_add_le (Nat.zero_le k)
  omega

/-- A vector is determined by its entries. -/
theorem ext_getD {cuts' : List ℕ} (h : IsCuts k n cuts) (h' : IsCuts k n cuts')
    (heq : ∀ i ≤ k, cuts.getD i 0 = cuts'.getD i 0) : cuts = cuts' := by
  apply List.ext_getElem (by rw [h.length, h'.length])
  intro i hi hi'
  have hlen := h.length
  have := heq i (by omega)
  rwa [List.getD_eq_getElem _ _ hi, List.getD_eq_getElem _ _ hi'] at this

/-! ## appending a segment -/

theorem nil : IsCuts 0 0 [0] := ⟨rfl, rfl, rfl, by simp⟩

/-- One more segment, `[n, m)`. -/
theorem snoc (h : IsCuts k n cuts) {m : ℕ} (hm : n < m) : IsCuts (k + 1) m (cuts ++ [m]) where
  length := by simp [h.length]
  first := by
    rw [List.getD_append _ _ _ _ (by rw [h.length]; omega)]
    exact h.first
  last := by
    rw [List.getD_append_right _ _ _ _ (by rw [h.length]), h.length]
    simp
  increasing := by
    rw [List.pairwise_append]
    refine ⟨h.increasing, by simp, fun a ha b hb => ?_⟩
    obtain ⟨i, hi, rfl⟩ := List.getElem_of_mem ha
    have hle := h.getD_le_last (i := i) (by rw [h.length] at hi; omega)
    rw [List.getD_eq_getElem _ _ hi] at hle
    rw [List.mem_singleton] at hb
    omega

/-- Every vector with `k + 1` segments arises by `snoc`. -/
theorem exists_snoc (h : IsCuts (k + 1) n cuts) :
    ∃ m front, cuts = front ++ [n] ∧ IsCuts k m front ∧ m < n := by
  have hlen := h.length
  have hne : cuts ≠ [] := by
    intro hnil
    rw [hnil] at hlen
    simp at hlen
  have hget : ∀ i ≤ k, cuts.dropLast.getD i 0 = cuts.getD i 0 := by
    intro i hi
    rw [List.getD_eq_getElem _ _ (by rw [List.length_dropLast]; omega),
      List.getD_eq_getElem _ _ (by omega), List.getElem_dropLast]
  have hlast : cuts.getLast hne = n := by
    rw [List.getLast_eq_getElem, ← List.getD_eq_getElem cuts 0]
    rw [show cuts.length - 1 = k + 1 by omega]
    exact h.last
  refine ⟨cuts.getD k 0, cuts.dropLast, ?_, ⟨?_, ?_, ?_, ?_⟩, ?_⟩
  · conv_lhs => rw [← List.dropLast_append_getLast hne, hlast]
  · rw [List.length_dropLast]; omega
  · rw [hget 0 (Nat.zero_le k)]; exact h.first
  · exact hget k le_rfl
  · exact h.increasing.sublist (List.dropLast_sublist cuts)
  · rw [← h.last]
    exact h.getD_lt (Nat.lt_add_one k) le_rfl

/-- With no segment there is nothing to split. -/
theorem eq_of_zero (h : IsCuts 0 n cuts) : n = 0 ∧ cuts = [0] := by
  have hn : n = 0 := by rw [← h.last]; exact h.first
  refine ⟨hn, ?_⟩
  obtain ⟨c, hc⟩ := List.length_eq_one_iff.mp h.length
  have hfirst := h.first
  rw [hc] at hfirst ⊢
  simp only [List.getD_cons_zero] at hfirst
  rw [hfirst]

/-- A vector with room to spare extends to any larger number of segments. -/
theorem exists_extend (h : IsCuts k n cuts) (j m : ℕ) (hroom : n + j ≤ m)
    (hj : j = 0 → n = m) : ∃ tail, IsCuts (k + j) m (cuts ++ tail) := by
  induction j generalizing m with
  | zero =>
      refine ⟨[], ?_⟩
      rw [List.append_nil, ← hj rfl]
      exact h
  | succ j ih =>
      -- the new segments before the last one own one cell each
      obtain ⟨tail, ht⟩ := ih (n + j) le_rfl (by omega)
      refine ⟨tail ++ [m], ?_⟩
      rw [← List.append_assoc]
      exact ht.snoc (by omega)

end IsCuts

/-! ## inner cuts -/

/-- The cuts between the first and the last. -/
def innerCuts (k : ℕ) (cuts : List ℕ) : List ℕ :=
  (List.range' 1 (k - 1)).map fun i => cuts.getD i 0

theorem length_innerCuts (k : ℕ) (cuts : List ℕ) : (innerCuts k cuts).length = k - 1 := by
  simp [innerCuts]

/-- Strictly increasing inner cuts inside the line give a cut vector. -/
theorem isCuts_of_inner {k n : ℕ} {internal : List ℕ} (hlen : internal.length + 1 = k)
    (hinc : (0 :: internal).Pairwise (· < ·)) (hlt : ∀ c ∈ internal, c < n) (hn : 0 < n) :
    IsCuts k n (0 :: (internal ++ [n])) where
  length := by simp [← hlen]
  first := rfl
  last := by
    rw [← hlen, List.getD_cons_succ, List.getD_append_right _ _ _ _ le_rfl, Nat.sub_self]
    rfl
  increasing := by
    rw [← List.cons_append, List.pairwise_append]
    refine ⟨hinc, by simp, fun a ha b hb => ?_⟩
    rw [List.mem_singleton] at hb
    rw [hb]
    rcases List.mem_cons.mp ha with rfl | hmem
    · exact hn
    · exact hlt a hmem

namespace IsCuts

variable {k n : ℕ} {cuts : List ℕ}

/-- A cut vector is its inner cuts between the two ends. -/
theorem eq_inner (h : IsCuts k n cuts) (hk : 0 < k) : cuts = 0 :: (innerCuts k cuts ++ [n]) := by
  have hlen := h.length
  apply List.ext_getElem
  · rw [List.length_cons, List.length_append, length_innerCuts, hlen, List.length_singleton]
    omega
  · intro i hi hi'
    rw [← List.getD_eq_getElem cuts 0 hi]
    cases i with
    | zero => exact h.first
    | succ i =>
        rw [List.getElem_cons_succ]
        by_cases hin : i < k - 1
        · rw [List.getElem_append_left (by rw [length_innerCuts]; exact hin)]
          simp [innerCuts, Nat.add_comm 1 i]
        · have heq : i + 1 = k := by omega
          rw [List.getElem_append_right (by rw [length_innerCuts]; omega)]
          simp only [List.getElem_singleton]
          rw [heq]
          exact h.last

/-- The inner cuts increase and lie inside the line. -/
theorem inner_spec (h : IsCuts k n cuts) (hk : 0 < k) :
    (0 :: innerCuts k cuts).Pairwise (· < ·) ∧ ∀ c ∈ innerCuts k cuts, c < n := by
  have hinc := h.increasing
  rw [h.eq_inner hk, ← List.cons_append, List.pairwise_append] at hinc
  refine ⟨hinc.1, fun c hc => hinc.2.2 c (List.mem_cons_of_mem _ hc) n (List.mem_singleton_self n)⟩

end IsCuts

/-! ## equal segments -/

/-- Cuts at equal distances, rounded down. -/
def uniformCuts (k n : ℕ) : List ℕ := (List.range (k + 1)).map fun i => i * n / k

/-- The cuts of the uniform partition. -/
theorem getD_uniformCuts {k i : ℕ} (n : ℕ) (hi : i ≤ k) :
    (uniformCuts k n).getD i 0 = i * n / k := by
  rw [uniformCuts, List.getD_eq_getElem _ _ (by simpa using Nat.lt_succ_of_le hi)]
  simp

/-- They ascend. -/
theorem ascending_uniformCuts (k n : ℕ) : Ascending k (uniformCuts k n) := by
  intro i hi
  rw [getD_uniformCuts n hi.le, getD_uniformCuts n hi]
  exact Nat.div_le_div_right (Nat.mul_le_mul_right n (Nat.le_succ i))

/-- With at least as many cells as segments no segment is empty. -/
theorem isCuts_uniformCuts {k n : ℕ} (hk : 0 < k) (hle : k ≤ n) :
    IsCuts k n (uniformCuts k n) where
  length := by simp [uniformCuts]
  first := by rw [getD_uniformCuts n (Nat.zero_le k), Nat.zero_mul, Nat.zero_div]
  last := by rw [getD_uniformCuts n le_rfl, Nat.mul_div_cancel_left n hk]
  increasing := by
    refine List.pairwise_map.mpr (List.pairwise_lt_range.imp fun {i j} hij => ?_)
    calc i * n / k < i * n / k + 1 := Nat.lt_succ_self _
      _ = (i * n + k) / k := (Nat.add_div_right _ hk).symm
      _ ≤ (i * n + n) / k := Nat.div_le_div_right (Nat.add_le_add_left hle _)
      _ = (i + 1) * n / k := by rw [Nat.succ_mul]
      _ ≤ j * n / k := Nat.div_le_div_right (Nat.mul_le_mul_right n hij)

/-! ## the segment of a cell -/

/-- Number of inner cuts at or below cell `b`. -/
def segmentOf (k : ℕ) (cuts : List ℕ) (b : ℕ) : ℕ :=
  ∑ i ∈ Finset.Ico 1 k, if cuts.getD i 0 ≤ b then 1 else 0

/-- Cells further right lie in segments further right. -/
theorem segmentOf_mono (k : ℕ) (cuts : List ℕ) {b b' : ℕ} (h : b ≤ b') :
    segmentOf k cuts b ≤ segmentOf k cuts b' := by
  apply Finset.sum_le_sum
  intro i _
  split_ifs with h1 h2
  · rfl
  · omega
  · omega
  · rfl

/-- There are `k - 1` inner cuts. -/
theorem segmentOf_lt {k : ℕ} (hk : 0 < k) (cuts : List ℕ) (b : ℕ) : segmentOf k cuts b < k := by
  have hle : segmentOf k cuts b ≤ ∑ _i ∈ Finset.Ico 1 k, 1 := by
    apply Finset.sum_le_sum
    intro i _
    split_ifs <;> omega
  have hcount : ∑ _i ∈ Finset.Ico 1 k, 1 = k - 1 := by simp
  omega

/-- The cells of `[cᵢ, cᵢ₊₁)` have segment `i`. -/
theorem IsCuts.segmentOf_eq {k n : ℕ} {cuts : List ℕ} (h : IsCuts k n cuts) {i b : ℕ}
    (hi : i < k) (hlo : cuts.getD i 0 ≤ b) (hhi : b < cuts.getD (i + 1) 0) :
    segmentOf k cuts b = i := by
  have hsplit : Finset.Ico 1 k = Finset.Ico 1 (i + 1) ∪ Finset.Ico (i + 1) k :=
    (Finset.Ico_union_Ico_eq_Ico (by omega) (by omega)).symm
  have hdisj : Disjoint (Finset.Ico 1 (i + 1)) (Finset.Ico (i + 1) k) :=
    Finset.Ico_disjoint_Ico_consecutive 1 (i + 1) k
  have hlow : ∑ j ∈ Finset.Ico 1 (i + 1), (if cuts.getD j 0 ≤ b then 1 else 0) = i := by
    rw [Finset.sum_congr rfl (g := fun _ => 1)]
    · simp
    · intro j hj
      rw [Finset.mem_Ico] at hj
      have hle := h.getD_le (i := j) (j := i) (by omega) (by omega)
      rw [if_pos (by omega)]
  have hhigh : ∑ j ∈ Finset.Ico (i + 1) k, (if cuts.getD j 0 ≤ b then 1 else 0) = 0 := by
    apply Finset.sum_eq_zero
    intro j hj
    rw [Finset.mem_Ico] at hj
    have hle := h.getD_le (i := i + 1) (j := j) (by omega) (by omega)
    rw [if_neg (by omega)]
  rw [segmentOf, hsplit, Finset.sum_union hdisj, hlow, hhigh, Nat.add_zero]

/-- The inner cuts in `(lo, hi]` are the segments between the two ends. -/
theorem sum_crossed_add_segmentOf (k : ℕ) (cuts : List ℕ) {lo hi : ℕ} (h : lo ≤ hi) :
    (∑ i ∈ Finset.Ico 1 k, if lo < cuts.getD i 0 ∧ cuts.getD i 0 ≤ hi then 1 else 0) +
      segmentOf k cuts lo = segmentOf k cuts hi := by
  rw [segmentOf, segmentOf, ← Finset.sum_add_distrib]
  apply Finset.sum_congr rfl
  intro i _
  split_ifs <;> omega

/-! ## empty segments -/

/-- `cuts` splits the cells `0 … n - 1` into `k` segments, some of which may be empty. -/
structure Covers (k n : ℕ) (cuts : List ℕ) : Prop where
  first : cuts.getD 0 0 = 0
  last : cuts.getD k 0 = n
  ascending : Ascending k cuts

/-- No segment behind the first nonempty one is empty. -/
def Packed (k : ℕ) (cuts : List ℕ) : Prop :=
  ∀ i < k, 0 < cuts.getD i 0 → cuts.getD i 0 < cuts.getD (i + 1) 0

/-- Segment `i` owns cell `b`. -/
def Owns (cuts : List ℕ) (i b : ℕ) : Prop := cuts.getD i 0 ≤ b ∧ b < cuts.getD (i + 1) 0

instance (cuts : List ℕ) (i b : ℕ) : Decidable (Owns cuts i b) := inferInstanceAs (Decidable (_ ∧ _))

/-- The segments that own one of the cells `lo … hi`. -/
def segmentsMeeting (k : ℕ) (cuts : List ℕ) (lo hi : ℕ) : Finset ℕ :=
  (Finset.range k).filter fun i => ∃ b ∈ Finset.Icc lo hi, Owns cuts i b

section Covers

variable {k n : ℕ} {cuts : List ℕ}

theorem Ascending.getD_le (h : Ascending k cuts) {i j : ℕ} (hij : i ≤ j) (hj : j ≤ k) :
    cuts.getD i 0 ≤ cuts.getD j 0 := by
  induction j, hij using Nat.le_induction with
  | base => exact le_rfl
  | succ j _ ih => exact (ih (by omega)).trans (h j hj)

/-- Cuts of nonempty segments cover the cells. -/
theorem IsCuts.covers (h : IsCuts k n cuts) : Covers k n cuts := ⟨h.first, h.last, h.ascending⟩

/-- No segment of theirs is empty. -/
theorem IsCuts.packed (h : IsCuts k n cuts) : Packed k cuts :=
  fun _ hi _ => h.getD_lt (Nat.lt_succ_self _) hi

/-- They cover the cells, though a segment may be empty. -/
theorem covers_uniformCuts {k : ℕ} (hk : 0 < k) (n : ℕ) : Covers k n (uniformCuts k n) where
  first := by rw [getD_uniformCuts n (Nat.zero_le k), Nat.zero_mul, Nat.zero_div]
  last := by rw [getD_uniformCuts n le_rfl, Nat.mul_div_cancel_left n hk]
  ascending := ascending_uniformCuts k n

/-- Segments further right own cells further right. -/
theorem Ascending.le_of_owns (h : Ascending k cuts) {i j b c : ℕ} (hi : i < k) (hb : Owns cuts i b)
    (hc : Owns cuts j c) (hbc : b ≤ c) : i ≤ j := by
  by_contra hlt
  have := h.getD_le (i := j + 1) (j := i) (by omega) hi.le
  have := hb.1
  have := hc.2
  omega

/-- A cell has at most one segment. -/
theorem Ascending.owns_unique (h : Ascending k cuts) {i j b : ℕ} (hi : i < k) (hj : j < k)
    (hb : Owns cuts i b) (hb' : Owns cuts j b) : i = j :=
  Nat.le_antisymm (h.le_of_owns hi hb hb' le_rfl) (h.le_of_owns hj hb' hb le_rfl)

/-- The segments that a range of cells meets are those from that of its first cell to that of its
last cell. -/
theorem Ascending.segmentsMeeting_eq (h : Ascending k cuts) (hpacked : Packed k cuts)
    {first last lo hi : ℕ} (hfirst : first < k) (hlast : last < k) (hlo : Owns cuts first lo)
    (hhi : Owns cuts last hi) (hle : lo ≤ hi) :
    segmentsMeeting k cuts lo hi = Finset.Icc first last := by
  ext i
  simp only [segmentsMeeting, Finset.mem_filter, Finset.mem_range, Finset.mem_Icc]
  constructor
  · rintro ⟨hi', b, ⟨hlob, hbhi⟩, howns⟩
    exact ⟨h.le_of_owns hfirst hlo howns hlob, h.le_of_owns hi' howns hhi hbhi⟩
  · rintro ⟨hfi, hil⟩
    refine ⟨by omega, ?_⟩
    rcases Nat.eq_or_lt_of_le hfi with rfl | hlt
    · exact ⟨lo, ⟨le_rfl, hle⟩, hlo⟩
    · -- a later segment begins behind the first cell of the range, so it is not empty
      have hbegin : cuts.getD (first + 1) 0 ≤ cuts.getD i 0 := h.getD_le hlt (by omega)
      have hend : cuts.getD i 0 ≤ cuts.getD last 0 := h.getD_le hil hlast.le
      have hnext := hlo.2
      have hlasthi := hhi.1
      exact ⟨cuts.getD i 0, ⟨by omega, by omega⟩, le_rfl, hpacked i (by omega) (by omega)⟩

end Covers

end CutVector
