import DynLocks.Genetic.Chromosome
import Mathlib.Algebra.Order.BigOperators.Group.List

/-!
# DynLocks.Genetic.Hits

The block histogram that `Evaluate`, `BuildBlockProfile` and `HasEnoughSkew` fill with the same
loop, in three number types.

* `blockHits_hom`, `totalHits_hom` — every copy is the image of the count in the natural numbers;
* `blockHits_eq_sum` — which is, per block, the number of queries on it;
* `sum_blockHits` — and adds up to the counter kept beside it.
-/

namespace DynLocks
namespace GeneticPartitioner
namespace Config

variable {cfg : Config}

/-! ## one histogram in every number type -/

section Hom

variable {α : Type} [Add α] [OfNat α 1] {f : ℕ → α}

/-- One pass over the blocks of a query, seen through the hits as natural numbers. -/
theorem foldl_update_hom (hadd : ∀ n, f (n + 1) = f n + 1) (blocks : List ℕ) (hits : ℕ → ℕ) :
    blocks.foldl (fun hits block => Function.update hits block (hits block + 1)) (f ∘ hits) =
      f ∘ blocks.foldl (fun hits block => Function.update hits block (hits block + 1)) hits := by
  induction blocks generalizing hits with
  | nil => rfl
  | cons block blocks ih =>
      have hupdate : Function.update (f ∘ hits) block ((f ∘ hits) block + 1) =
          f ∘ Function.update hits block (hits block + 1) := by
        rw [Function.comp_update, hadd, Function.comp_apply]
      rw [List.foldl_cons, List.foldl_cons, hupdate, ih]

theorem foldl_count_hom (hadd : ∀ n, f (n + 1) = f n + 1) (blocks : List ℕ) (total : ℕ) :
    blocks.foldl (fun total _ => total + 1) (f total) = f (total + blocks.length) := by
  induction blocks generalizing total with
  | nil => rfl
  | cons block blocks ih =>
      rw [List.foldl_cons, ← hadd, ih, List.length_cons]
      congr 1
      omega

variable [OfNat α 0]

/-- The histogram of any number type with a copy of the natural numbers in it. -/
theorem blockHits_hom (hzero : f 0 = 0) (hadd : ∀ n, f (n + 1) = f n + 1)
    (queries : List Query) : cfg.blockHits queries = f ∘ cfg.blockHits queries := by
  have hfold : ∀ hits : ℕ → ℕ, queries.foldl (fun hits query =>
      (cfg.blocksOf query).foldl (fun hits block =>
        Function.update hits block (hits block + 1)) hits) (f ∘ hits) =
      f ∘ queries.foldl (fun hits query => (cfg.blocksOf query).foldl (fun hits block =>
        Function.update hits block (hits block + 1)) hits) hits := by
    induction queries with
    | nil => exact fun _ => rfl
    | cons query queries ih =>
        intro hits
        rw [List.foldl_cons, List.foldl_cons, foldl_update_hom hadd, ih]
  unfold blockHits
  rw [← hfold]
  congr 1
  funext b
  exact hzero.symm

/-- The counter kept beside the histogram counts the blocks of all queries. -/
theorem totalHits_hom (hzero : f 0 = 0) (hadd : ∀ n, f (n + 1) = f n + 1) (queries : List Query) :
    cfg.totalHits queries = f (queries.map fun query => (cfg.blocksOf query).length).sum := by
  have hfold : ∀ total : ℕ, queries.foldl (fun total query =>
      (cfg.blocksOf query).foldl (fun total _ => total + 1) total) (f total) =
      f (total + (queries.map fun query => (cfg.blocksOf query).length).sum) := by
    induction queries with
    | nil => exact fun _ => rfl
    | cons query queries ih =>
        intro total
        rw [List.foldl_cons, foldl_count_hom hadd, ih, List.map_cons, List.sum_cons, Nat.add_assoc]
  have htotal := hfold 0
  rw [hzero, Nat.zero_add] at htotal
  exact htotal

end Hom

/-! ## the histogram counts -/

theorem foldl_update_apply (blocks : List ℕ) (hits : ℕ → ℕ) (b : ℕ) :
    blocks.foldl (fun hits block => Function.update hits block (hits block + 1)) hits b =
      hits b + blocks.count b := by
  induction blocks generalizing hits with
  | nil => rfl
  | cons block blocks ih =>
      rw [List.foldl_cons, ih, List.count_cons]
      by_cases heq : block = b
      · rw [heq, Function.update_self]
        simp
        omega
      · rw [Function.update_of_ne (Ne.symm heq)]
        simp [heq]

/-- What a block has been hit. -/
theorem blockHits_eq_sum (queries : List Query) (b : ℕ) :
    (cfg.blockHits queries b : ℕ) =
      (queries.map fun query => (cfg.blocksOf query).count b).sum := by
  have hfold : ∀ hits : ℕ → ℕ, queries.foldl (fun hits query =>
      (cfg.blocksOf query).foldl (fun hits block =>
        Function.update hits block (hits block + 1)) hits) hits b =
      hits b + (queries.map fun query => (cfg.blocksOf query).count b).sum := by
    induction queries with
    | nil => exact fun _ => rfl
    | cons query queries ih =>
        intro hits
        rw [List.foldl_cons, ih, foldl_update_apply, List.map_cons, List.sum_cons, Nat.add_assoc]
  have hhits := hfold fun _ => 0
  rwa [Nat.zero_add] at hhits

theorem mem_blocksOf {query : Query} {b : ℕ} :
    b ∈ cfg.blocksOf query ↔ cfg.positionToBlock query.left.toNat ≤ b ∧
      b ≤ cfg.positionToBlock query.right.toNat := by
  unfold blocksOf
  rw [List.mem_range'_1]
  omega

theorem nodup_blocksOf (query : Query) : (cfg.blocksOf query).Nodup := List.nodup_range'

/-- A query is on a block once or not at all. -/
theorem count_blocksOf (query : Query) (b : ℕ) :
    (cfg.blocksOf query).count b = if b ∈ cfg.blocksOf query then 1 else 0 := by
  by_cases hmem : b ∈ cfg.blocksOf query
  · rw [if_pos hmem, List.count_eq_one_of_mem (nodup_blocksOf query) hmem]
  · rw [if_neg hmem, List.count_eq_zero_of_not_mem hmem]

theorem lt_of_mem_blocksOf {query : Query} {b : ℕ} (h : b ∈ cfg.blocksOf query) :
    b < cfg.kBlocks :=
  (mem_blocksOf.mp h).2.trans_lt (cfg.positionToBlock_lt _)

/-- The hits on any set of blocks, query by query. -/
theorem sum_blockHits_finset (blocks : Finset ℕ) (queries : List Query) :
    ∑ b ∈ blocks, (cfg.blockHits queries b : ℕ) =
      (queries.map fun query => (blocks.filter (· ∈ cfg.blocksOf query)).card).sum := by
  simp only [blockHits_eq_sum]
  induction queries with
  | nil => simp
  | cons query queries ih =>
      have hcount : ∑ b ∈ blocks, (cfg.blocksOf query).count b =
          (blocks.filter (· ∈ cfg.blocksOf query)).card := by
        simp only [count_blocksOf, Finset.card_filter]
      simp only [List.map_cons, List.sum_cons, Finset.sum_add_distrib, ih, hcount]

/-- All blocks together hold what the counter holds. -/
theorem sum_blockHits (queries : List Query) :
    ∑ b ∈ Finset.range cfg.kBlocks, (cfg.blockHits queries b : ℕ) =
      (queries.map fun query => (cfg.blocksOf query).length).sum := by
  rw [sum_blockHits_finset]
  congr 1
  apply List.map_congr_left
  intro query _
  have hset : (Finset.range cfg.kBlocks).filter (· ∈ cfg.blocksOf query) =
      (cfg.blocksOf query).toFinset := by
    ext b
    rw [Finset.mem_filter, Finset.mem_range, List.mem_toFinset]
    exact ⟨And.right, fun h => ⟨lt_of_mem_blocksOf h, h⟩⟩
  rw [hset, List.toFinset_card_of_nodup (nodup_blocksOf query)]

end Config

end GeneticPartitioner
end DynLocks
