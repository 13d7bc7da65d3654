import Mathlib.Algebra.BigOperators.Group.Finset.Basic

/-!
# Sums over threads

What a step of one thread changes in a quantity summed over all threads.
-/

namespace LockFree

variable {Tid α M : Type*} [Fintype Tid] [DecidableEq Tid] [AddCommMonoid M]

/-- A step of one thread changes a sum over the threads by its own part. -/
theorem sum_update (threads : Tid → α) (t : Tid) (thread : α) (weight : α → M) :
    ∑ u, weight (Function.update threads t thread u) + weight (threads t) =
      ∑ u, weight (threads u) + weight thread := by
  have others : ∑ u ∈ Finset.univ.erase t, weight (Function.update threads t thread u) =
      ∑ u ∈ Finset.univ.erase t, weight (threads u) :=
    Finset.sum_congr rfl fun u member => by
      rw [Function.update_of_ne (Finset.ne_of_mem_erase member)]
  rw [← Finset.add_sum_erase _ _ (Finset.mem_univ t), others, Function.update_self,
    ← Finset.add_sum_erase _ (fun u => weight (threads u)) (Finset.mem_univ t)]
  ac_rfl

end LockFree
