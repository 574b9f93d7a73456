import LinuxServer.Counting.Basic
import Mathlib.Algebra.BigOperators.Group.Finset.Basic
import Mathlib.Algebra.Order.BigOperators.Group.Finset
import Mathlib.Data.Fintype.BigOperators
import Mathlib.Data.Int.Order.Basic
import Mathlib.Logic.Function.Basic

/-!
# Semaphores that are undone

A System V semaphore whose operations carry `SEM_UNDO`: for each process the kernel sums up what
would undo its operations, and applies it when the process ends, however it ends.

* `UndoSemaphore ι`: the value, and what is to be undone for each process.
* `take`, `give`, `undo`: the operations `-1` and `1`, and the end of a process.
* `Units n s`: the units in the semaphore and those that the processes have are `n` together.

`unique_of_holds`: one unit is not with two processes.
`exists_holder`: when the value is 0 some process has a unit.
-/

namespace LinuxServer

/-- The value, and what the kernel adds to it when a process ends. -/
structure UndoSemaphore (ι : Type*) where
  val : ℕ
  adj : ι → ℤ

namespace UndoSemaphore

variable {ι : Type*} {n : ℕ} {s s' : UndoSemaphore ι} {p q : ι}

/-- No operation was made. -/
def new (ι : Type*) (n : ℕ) : UndoSemaphore ι := ⟨n, fun _ => 0⟩

section Step

variable [DecidableEq ι]

/-- The operation `-1`, which waits while the value is 0. -/
def take (s : UndoSemaphore ι) (p : ι) : Option (UndoSemaphore ι) :=
  if 0 < s.val then some ⟨s.val - 1, Function.update s.adj p (s.adj p + 1)⟩ else none

/-- The operation `1`. -/
def give (s : UndoSemaphore ι) (p : ι) : UndoSemaphore ι :=
  ⟨s.val + 1, Function.update s.adj p (s.adj p - 1)⟩

/-- The operations of a process are undone; the value does not become negative. -/
def undo (s : UndoSemaphore ι) (p : ι) : UndoSemaphore ι :=
  ⟨(s.val + s.adj p).toNat, Function.update s.adj p 0⟩

end Step

variable [Fintype ι]

/-- The value and what the processes owe are `n` together. -/
def Units (n : ℕ) (s : UndoSemaphore ι) : Prop := s.val + ∑ p, s.adj p = n

theorem units_new : Units n (new ι n) := by
  simp [Units, new]

/-- Two processes that hold units hold them at the same time. -/
theorem Units.add_le (h : Units n s) (hadj : ∀ p, 0 ≤ s.adj p) (hne : p ≠ q) :
    s.val + (s.adj p + s.adj q) ≤ n := by
  classical
  have hsub : s.adj p + s.adj q ≤ ∑ r, s.adj r := by
    rw [← Finset.sum_pair hne]
    exact Finset.sum_le_sum_of_subset_of_nonneg (Finset.subset_univ _) fun r _ _ => hadj r
  unfold Units at h
  omega

/-- One unit is not with two processes. -/
theorem Units.unique_of_holds (h : Units 1 s) (hadj : ∀ p, 0 ≤ s.adj p) (hp : 1 ≤ s.adj p)
    (hq : 1 ≤ s.adj q) : p = q := by
  by_contra hne
  have hle := h.add_le hadj hne
  omega

/-- The units are with the processes when they are not in the semaphore. -/
theorem Units.exists_holder (h : Units n s) (hn : 0 < n) (hval : s.val = 0) :
    ∃ p, 1 ≤ s.adj p := by
  by_contra hnone
  push Not at hnone
  have hsum : ∑ p, s.adj p ≤ 0 := Finset.sum_nonpos fun p _ => Int.le_of_lt_add_one (hnone p)
  rw [Units, hval] at h
  omega

variable [DecidableEq ι]

theorem sum_adj_update (f : ι → ℤ) (p : ι) (a : ℤ) :
    ∑ q, Function.update f p a q + f p = ∑ q, f q + a :=
  Counting.sum_update id f (Finset.mem_univ p) a

theorem Units.take (h : Units n s) (ht : s.take p = some s') : Units n s' := by
  unfold UndoSemaphore.take at ht
  split_ifs at ht with hpos
  obtain rfl := Option.some.inj ht
  rw [Units] at h ⊢
  dsimp only
  have hsum := sum_adj_update s.adj p (s.adj p + 1)
  omega

theorem Units.give (h : Units n s) : Units n (s.give p) := by
  rw [Units] at h ⊢
  unfold UndoSemaphore.give
  dsimp only
  have hsum := sum_adj_update s.adj p (s.adj p - 1)
  omega

/-- Undoing is exact as long as the value does not have to be cut off at 0. -/
theorem Units.undo (h : Units n s) (hp : 0 ≤ s.val + s.adj p) : Units n (s.undo p) := by
  rw [Units] at h ⊢
  unfold UndoSemaphore.undo
  dsimp only
  have hsum := sum_adj_update s.adj p 0
  omega

end UndoSemaphore

end LinuxServer
