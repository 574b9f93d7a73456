import Mathlib.Algebra.BigOperators.Group.Finset.Piecewise
import Mathlib.Algebra.BigOperators.Group.Finset.Basic
import Mathlib.Data.Fintype.Basic
import Mathlib.Logic.Function.Basic

/-!
# Counting threads

`count P at_`: the number of the threads whose place meets `P`.  When one thread moves, the count
changes by what this thread counted before and counts now (`count_update`): it stays
(`count_update_same`), or the thread enters or leaves the places that are counted.

`total f place`: the same with a weight for each place (`total_update`, and `sum_update` where the
threads are not all counted).
-/

namespace LinuxServer

namespace Counting

variable {ι κ : Type*} [Fintype ι] (P : κ → Prop) [DecidablePred P]

/-- The number of threads at a place that meets `P`. -/
def count (place : ι → κ) : ℕ := (Finset.univ.filter fun i => P (place i)).card

/-- What a thread at `k` counts. -/
def one (k : κ) : ℕ := if P k then 1 else 0

variable {P}

theorem one_of {k : κ} (h : P k) : one P k = 1 := if_pos h

theorem one_of_not {k : κ} (h : ¬ P k) : one P k = 0 := if_neg h

theorem count_eq_sum (place : ι → κ) : count P place = ∑ i, one P (place i) := by
  rw [count, Finset.card_filter]
  rfl

theorem count_update [DecidableEq ι] (place : ι → κ) (i : ι) (k : κ) :
    count P (Function.update place i k) + one P (place i) = count P place + one P k := by
  have hcomp : (fun j => one P (Function.update place i k j)) =
      Function.update (fun j => one P (place j)) i (one P k) := by
    funext j
    by_cases hj : j = i
    · subst hj
      rw [Function.update_self, Function.update_self]
    · rw [Function.update_of_ne hj, Function.update_of_ne hj]
  have hsplit := Finset.add_sum_erase Finset.univ (fun j => one P (place j)) (Finset.mem_univ i)
  rw [count_eq_sum, count_eq_sum, hcomp, Finset.sum_update_of_mem (Finset.mem_univ i),
    ← hsplit, Finset.sdiff_singleton_eq_erase]
  omega

theorem count_update_same [DecidableEq ι] {place : ι → κ} {i : ι} {k : κ}
    (h : P (place i) ↔ P k) : count P (Function.update place i k) = count P place := by
  have hone : one P (place i) = one P k := if_congr h rfl rfl
  have hcount := count_update (P := P) place i k
  omega

theorem count_update_enter [DecidableEq ι] {place : ι → κ} {i : ι} {k : κ} (h : ¬ P (place i))
    (hk : P k) : count P (Function.update place i k) = count P place + 1 := by
  have hcount := count_update (P := P) place i k
  rwa [one_of_not h, one_of hk] at hcount

theorem count_update_leave [DecidableEq ι] {place : ι → κ} {i : ι} {k : κ} (h : P (place i))
    (hk : ¬ P k) : count P (Function.update place i k) + 1 = count P place := by
  have hcount := count_update (P := P) place i k
  rwa [one_of h, one_of_not hk] at hcount

theorem count_eq_zero {place : ι → κ} (h : ∀ i, ¬ P (place i)) : count P place = 0 := by
  rw [count, Finset.card_eq_zero, Finset.filter_eq_empty_iff]
  exact fun i _ => h i

/-- The weights of all places. -/
def total (f : κ → ℕ) (place : ι → κ) : ℕ := ∑ i, f (place i)

/-- One place changes: the sum changes by what this place weighed before and weighs now. -/
theorem sum_update {ι M : Type*} [DecidableEq ι] [AddCommMonoid M] (f : κ → M) (place : ι → κ)
    {s : Finset ι} {i : ι} (hi : i ∈ s) (k : κ) :
    ∑ j ∈ s, f (Function.update place i k j) + f (place i) = ∑ j ∈ s, f (place j) + f k := by
  have hrest : ∑ j ∈ s.erase i, f (Function.update place i k j) = ∑ j ∈ s.erase i, f (place j) :=
    Finset.sum_congr rfl fun j hj => by rw [Function.update_of_ne (Finset.ne_of_mem_erase hj)]
  rw [← Finset.add_sum_erase _ _ hi, hrest, Function.update_self,
    ← Finset.add_sum_erase _ (fun j => f (place j)) hi, add_comm, add_left_comm, add_comm]

/-- A thread that moves takes its weight along. -/
theorem total_update [DecidableEq ι] (f : κ → ℕ) (place : ι → κ) (i : ι) (k : κ) :
    total f (Function.update place i k) + f (place i) = total f place + f k :=
  sum_update f place (Finset.mem_univ i) k

end Counting

end LinuxServer
