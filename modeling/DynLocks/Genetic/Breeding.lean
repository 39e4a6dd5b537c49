import DynLocks.Genetic.Repair
import DynLocks.Lib.Sampler
import Mathlib.Data.List.Nodup
import Mathlib.Data.List.Sort

/-!
# DynLocks.Genetic.Breeding

The producers that draw random numbers: `MakeRandomChromosome`, `Crossover` and
`Mutate`.

`StdLib` collects what the source takes from the standard library without
knowing the result: the values of the distributions and the order in which
`std::sort` leaves chromosomes of equal fitness.  Its fields are the documented
guarantees, and nothing else is assumed of it.
-/

namespace DynLocks
namespace GeneticPartitioner

open CutVector Sampler

/-- Distributions over a generator of type `G`, and `std::sort` of a population.  A run in which
the rejection loop of `MakeRandomChromosome` needs more than `patience` draws does not return. -/
structure StdLib (G : Type) where
  uniform : ℕ → ℕ → G → ℕ × G
  uniformInt : ℤ → ℤ → G → ℤ × G
  bernoulli : ℚ → G → Bool × G
  sort : List Chromosome → List Chromosome
  patience : ℕ
  uniform_mem : ∀ {lo hi : ℕ} (g : G), lo ≤ hi →
    lo ≤ (uniform lo hi g).1 ∧ (uniform lo hi g).1 ≤ hi
  uniformInt_mem : ∀ {lo hi : ℤ} (g : G), lo ≤ hi →
    lo ≤ (uniformInt lo hi g).1 ∧ (uniformInt lo hi g).1 ≤ hi
  sort_perm : ∀ population, (sort population).Perm population
  sort_sorted : ∀ population,
    (sort population).Pairwise fun lhs rhs => lhs.metrics.fitness ≤ rhs.metrics.fitness

/-! ## the producers -/

/-- `static_cast<int>`. -/
def toInt (n : ℕ) : ℤ := Int.bmod n (2 ^ 32)

/-- The new value of a mutated cut.  The sum may overflow and the bounds of the clamp may be out
of order; neither has a result. -/
def shiftCut (kBlocks cut : ℕ) (shift : ℤ) : Option ℕ :=
  let mutated := toInt cut + shift
  let upper := toInt (kBlocks - 1)
  if mutated < -2 ^ 31 ∨ 2 ^ 31 ≤ mutated ∨ upper < 1 then none
  else some (max 1 (min mutated upper)).toNat

section Producers

variable {G : Type} (cfg : Config) (std : StdLib G)

/-- The rejection loop of `MakeRandomChromosome`; `used` marks the cuts already taken. -/
def drawCuts : ℕ → List ℕ → Rand G (List ℕ)
  | 0, _ => never
  | patience + 1, internal =>
      if internal.length < cfg.kLockCnt - 1 then do
        let cut ← draw (std.uniform 1 (cfg.kBlocks - 1))
        drawCuts patience (if cut ∈ internal then internal else internal ++ [cut])
      else pure internal

/-- `MakeRandomChromosome`.  A distribution over an empty interval is undefined. -/
def makeRandomChromosome : Rand G Chromosome :=
  if cfg.kBlocks - 1 < 1 then never
  else do
    let internal ← drawCuts cfg std std.patience []
    pure { cuts := 0 :: (internal.insertionSort (· ≤ ·) ++ [cfg.kBlocks]) }

/-- The loop of `Crossover`: each internal cut comes from one of the parents. -/
def pickCuts (lhs rhs : Chromosome) : List ℕ → Rand G (List ℕ)
  | [] => pure []
  | i :: rest => do
      let pickParent ← draw (std.bernoulli (1 / 2))
      let internal ← pickCuts lhs rhs rest
      pure ((if pickParent then lhs.cuts.getD i 0 else rhs.cuts.getD i 0) :: internal)

/-- `Crossover`. -/
def crossover (lhs rhs : Chromosome) : Rand G Chromosome := do
  let internal ← pickCuts std lhs rhs (List.range' 1 (cfg.kLockCnt - 1))
  let repaired ← ofOption (repairInternalCuts cfg.kBlocks (internal.insertionSort (· ≤ ·)))
  pure { cuts := 0 :: (repaired ++ [cfg.kBlocks]) }

/-- One iteration of the loop of `Mutate`. -/
def mutateCut (internal : List ℕ) : Rand G (List ℕ) := do
  let index ← draw (std.uniform 0 (internal.length - 1))
  let shift ← draw (std.uniformInt (-32) 32)
  let cut ← ofOption (shiftCut cfg.kBlocks (internal.getD index 0) shift)
  pure (internal.set index cut)

/-- `Mutate`; the metrics stay as they were. -/
def mutate (chromosome : Chromosome) : Rand G Chromosome :=
  if cfg.kLockCnt ≤ 1 then pure chromosome
  else do
    let internal := (chromosome.cuts.drop 1).dropLast
    let mutationCount ← draw (std.uniform 2 5)
    let internal ← iterate (mutateCut cfg std) mutationCount internal
    let repaired ← ofOption (repairInternalCuts cfg.kBlocks (internal.insertionSort (· ≤ ·)))
    pure { chromosome with cuts := 0 :: (repaired ++ [cfg.kBlocks]) }

end Producers

/-! ## validity -/

section Valid

variable {G : Type} {cfg : Config} {std : StdLib G}

/-- The rejection loop ends with as many different cuts as it needs, each inside the line. -/
theorem drawCuts_spec (hblocks : 2 ≤ cfg.kBlocks) (patience : ℕ) {internal : List ℕ}
    (hlen : internal.length ≤ cfg.kLockCnt - 1) (hnodup : internal.Nodup)
    (hmem : ∀ c ∈ internal, 1 ≤ c ∧ c < cfg.kBlocks) :
    Sat (drawCuts cfg std patience internal) fun drawn =>
      drawn.length = cfg.kLockCnt - 1 ∧ drawn.Nodup ∧ ∀ c ∈ drawn, 1 ≤ c ∧ c < cfg.kBlocks := by
  induction patience generalizing internal with
  | zero => exact Sat.never
  | succ patience ih =>
      unfold drawCuts
      split
      · next hshort =>
          refine Sat.bind (Q := fun cut => 1 ≤ cut ∧ cut ≤ cfg.kBlocks - 1)
            (Sat.draw fun g => std.uniform_mem g (by omega)) fun cut hcut => ?_
          split
          · exact ih hlen hnodup hmem
          · next hnew =>
              refine ih (by rw [List.length_append, List.length_singleton]; omega) ?_ ?_
              · rw [List.nodup_append]
                refine ⟨hnodup, List.nodup_singleton cut, fun a ha b hb heq => ?_⟩
                rw [List.mem_singleton] at hb
                rw [heq, hb] at ha
                exact hnew ha
              · intro c hc
                rcases List.mem_append.mp hc with hold | hlast
                · exact hmem c hold
                · rw [List.mem_singleton.mp hlast]
                  omega
      · exact Sat.pure ⟨by omega, hnodup, hmem⟩

theorem valid_makeRandom :
    Sat (makeRandomChromosome cfg std) fun chromosome => cfg.Valid chromosome.cuts := by
  unfold makeRandomChromosome
  split
  · exact Sat.never
  · refine Sat.bind (drawCuts_spec (by omega) _ (Nat.zero_le _) List.nodup_nil (by simp))
      fun internal hspec => Sat.pure ?_
    obtain ⟨hlen, hnodup, hmem⟩ := hspec
    have hperm := List.perm_insertionSort (· ≤ ·) internal
    have hsorted : (internal.insertionSort (· ≤ ·)).Pairwise (· < ·) := by
      have hle := List.pairwise_insertionSort (· ≤ ·) internal
      refine (hle.and (hperm.nodup_iff.mpr hnodup)).imp fun {a b} hab => ?_
      have := hab.1
      have := hab.2
      omega
    refine Config.valid_of_internal (by rw [List.length_insertionSort, hlen]) ?_ ?_
    · exact List.pairwise_cons.mpr
        ⟨fun c hc => (hmem c (hperm.mem_iff.mp hc)).1, hsorted⟩
    · exact fun c hc => (hmem c (hperm.mem_iff.mp hc)).2

theorem length_pickCuts (lhs rhs : Chromosome) (places : List ℕ) :
    Sat (pickCuts std lhs rhs places) fun internal => internal.length = places.length := by
  induction places with
  | nil => exact Sat.pure rfl
  | cons i rest ih =>
      refine Sat.bind (Q := fun _ => True) (Sat.draw fun _ => trivial) fun pickParent _ => ?_
      refine Sat.bind ih fun internal hlen => Sat.pure ?_
      rw [List.length_cons, List.length_cons, hlen]

/-- Whatever the parents are, the repaired child is valid. -/
theorem valid_crossover (hle : cfg.kLockCnt ≤ cfg.kBlocks) (lhs rhs : Chromosome) :
    Sat (crossover cfg std lhs rhs) fun child => cfg.Valid child.cuts := by
  refine Sat.bind (length_pickCuts lhs rhs _) fun internal hlen => ?_
  refine Sat.bind (Sat.ofOption fun repaired hrepair => hrepair) fun repaired hrepair => ?_
  exact Sat.pure (Config.valid_of_repair hle (by simpa using hlen) hrepair)

theorem length_mutateCut (internal : List ℕ) :
    Sat (mutateCut cfg std internal) fun mutated => mutated.length = internal.length := by
  refine Sat.bind (Q := fun _ => True) (Sat.draw fun _ => trivial) fun index _ => ?_
  refine Sat.bind (Q := fun _ => True) (Sat.draw fun _ => trivial) fun shift _ => ?_
  refine Sat.bind (Q := fun _ => True) (Sat.ofOption fun _ _ => trivial) fun cut _ => ?_
  exact Sat.pure (List.length_set)

/-- Whatever the mutations do, the repaired chromosome is valid. -/
theorem valid_mutate (hle : cfg.kLockCnt ≤ cfg.kBlocks) {chromosome : Chromosome}
    (hvalid : cfg.Valid chromosome.cuts) :
    Sat (mutate cfg std chromosome) fun mutated => cfg.Valid mutated.cuts := by
  unfold mutate
  split
  · exact Sat.pure hvalid
  · refine Sat.bind (Q := fun _ => True) (Sat.draw fun _ => trivial) fun mutationCount _ => ?_
    have hlen : ((chromosome.cuts.drop 1).dropLast).length = cfg.kLockCnt - 1 := by
      rw [List.length_dropLast, List.length_drop, hvalid.length]
      omega
    refine Sat.bind (Sat.iterate (Q := fun internal => internal.length = cfg.kLockCnt - 1)
      (fun internal h => (length_mutateCut internal).mono fun mutated heq => heq.trans h)
      mutationCount hlen) fun internal hinternal => ?_
    refine Sat.bind (Sat.ofOption fun repaired hrepair => hrepair) fun repaired hrepair => ?_
    exact Sat.pure (Config.valid_of_repair hle (by simpa using hinternal) hrepair)

end Valid

end GeneticPartitioner
end DynLocks
