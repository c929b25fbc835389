import Mathlib.Algebra.BigOperators.Group.Finset.Basic
import Mathlib.Algebra.BigOperators.Fin
import Mathlib.Algebra.Order.BigOperators.Group.Finset

/-!
# Counting the stages of many parties

Finitely many parties, each at some stage of its own program, and a weight for every
stage. When one party moves on, the sum of the weights changes by the weights of its two
stages, so an invariant that counts something across all parties is checked one step at
a time by arithmetic.
-/

namespace Sodp.StageCount
open Function

variable {ι α : Type*} [Fintype ι] (weight : α → ℕ) (stage : ι → α)

def total : ℕ := ∑ i, weight (stage i)

variable {weight stage}

theorem le_total (i : ι) : weight (stage i) ≤ total weight stage :=
  Finset.single_le_sum (f := fun i => weight (stage i)) (fun _ _ => Nat.zero_le _)
    (Finset.mem_univ i)

theorem total_eq_zero (h : ∀ i, weight (stage i) = 0) : total weight stage = 0 :=
  Finset.sum_eq_zero fun i _ => h i

variable [DecidableEq ι]

theorem total_update (weight : α → ℕ) (stage : ι → α) (i : ι) (next : α) :
    total weight (update stage i next) + weight (stage i) = total weight stage + weight next := by
  have hsplit : ∀ g : ι → α, total weight g =
      weight (g i) + ∑ j ∈ Finset.univ.erase i, weight (g j) := fun g =>
    (Finset.add_sum_erase _ _ (Finset.mem_univ i)).symm
  have hrest : ∑ j ∈ Finset.univ.erase i, weight (update stage i next j) =
      ∑ j ∈ Finset.univ.erase i, weight (stage j) :=
    Finset.sum_congr rfl fun j hj => by rw [update_of_ne (Finset.ne_of_mem_erase hj)]
  rw [hsplit, hsplit stage, hrest, update_self]
  omega

theorem pair_le_total {i j : ι} (hij : i ≠ j) :
    weight (stage i) + weight (stage j) ≤ total weight stage := by
  have hpair := Finset.sum_pair (f := fun i => weight (stage i)) hij
  rw [← hpair]
  exact Finset.sum_le_sum_of_subset (Finset.subset_univ _)

end Sodp.StageCount
