import Mathlib.Order.Defs.LinearOrder
import Mathlib.Logic.Function.Basic
import Mathlib.Order.Lattice
import Mathlib.Order.Nat

/-!
# Heap order

The binary tree laid out in the slots `0, 1, …` of an array, with a key at every slot.

* `parent`: the slot above; the children of `i` are `2 * i + 1` and `2 * i + 2`.
* `Ordered key n`: no key among the first `n` is below its parent's.
* `Rising key n hole x`: the order around a hole that `x` may fill from below.

A hole rises by `Rising.move` and is filled by `Rising.fill`.  After the root is taken out, the key
filled in stays there (`ordered_replace_iff`) or changes places with the smaller child of the root
(`ordered_sink_iff`).
-/

namespace LinuxServer

namespace BinaryHeap

variable {α : Type*} [LinearOrder α] {key key' : ℕ → α} {n hole c i : ℕ} {x : α}

/-- The slot above. -/
def parent (i : ℕ) : ℕ := (i - 1) / 2

theorem parent_lt (h : 0 < i) : parent i < i := by
  unfold parent
  omega

theorem parent_eq_iff (h : 0 < i) : parent i = c ↔ i = 2 * c + 1 ∨ i = 2 * c + 2 := by
  unfold parent
  omega

/-- Among the first `n` slots no key is below its parent's. -/
def Ordered (key : ℕ → α) (n : ℕ) : Prop := ∀ i, 0 < i → i < n → key (parent i) ≤ key i

theorem Ordered.congr (h : Ordered key n) (hkey : ∀ i < n, key' i = key i) : Ordered key' n := by
  intro i h0 hi
  rw [hkey i hi, hkey (parent i) ((parent_lt h0).trans hi)]
  exact h i h0 hi

theorem ordered_congr (hkey : ∀ i < n, key' i = key i) : Ordered key' n ↔ Ordered key n :=
  ⟨fun h => h.congr fun i hi => (hkey i hi).symm, fun h => h.congr hkey⟩

theorem Ordered.root_le (h : Ordered key n) (hi : i < n) : key 0 ≤ key i := by
  induction i using Nat.strong_induction_on with
  | _ i ih =>
    rcases Nat.eq_zero_or_pos i with rfl | h0
    · exact le_rfl
    · have hp := parent_lt h0
      exact (ih (parent i) hp (hp.trans hi)).trans (h i h0 hi)

theorem Ordered.exists_child_le (h : Ordered key n) (h0 : 0 < i) (hi : i < n) :
    ∃ d, 0 < d ∧ d < n ∧ parent d = 0 ∧ key d ≤ key i := by
  induction i using Nat.strong_induction_on with
  | _ i ih =>
    rcases Nat.eq_zero_or_pos (parent i) with hp | hp
    · exact ⟨i, h0, hi, hp, le_rfl⟩
    · have hlt := parent_lt h0
      obtain ⟨d, hd0, hdn, hd, hle⟩ := ih (parent i) hlt hp (hlt.trans hi)
      exact ⟨d, hd0, hdn, hd, hle.trans (h i h0 hi)⟩

/-! ### A hole that rises -/

/-- The slots off the hole are in order, and what is below the hole is neither below `x` nor below
what is above the hole. -/
structure Rising (key : ℕ → α) (n hole : ℕ) (x : α) : Prop where
  off : ∀ i, 0 < i → i < n → i ≠ hole → parent i ≠ hole → key (parent i) ≤ key i
  below : ∀ i, 0 < i → i < n → parent i = hole → x ≤ key i
  across : 0 < hole → ∀ i, 0 < i → i < n → parent i = hole → key (parent hole) ≤ key i

/-- The slot behind the last is a hole. -/
theorem Ordered.rising (h : Ordered key n) (x : α) : Rising key (n + 1) n x where
  off i h0 hi hne _ := h i h0 (by omega)
  below i h0 hi hp := by
    have := parent_lt h0
    omega
  across _ i h0 hi hp := by
    have := parent_lt h0
    omega

/-- The hole moves up when `x` is below its parent. -/
theorem Rising.move (h : Rising key n hole x) (h0 : 0 < hole) (hn : hole < n)
    (hx : x < key (parent hole)) :
    Rising (Function.update key hole (key (parent hole))) n (parent hole) x := by
  have hlt := parent_lt h0
  have hp : Function.update key hole (key (parent hole)) (parent hole) = key (parent hole) :=
    Function.update_of_ne hlt.ne _ _
  constructor
  · intro i hi0 hi hne hpne
    have hih : i ≠ hole := by
      rintro rfl
      exact hpne rfl
    rw [Function.update_of_ne hih]
    by_cases hpi : parent i = hole
    · rw [hpi, Function.update_self]
      exact h.across h0 i hi0 hi hpi
    · rw [Function.update_of_ne hpi]
      exact h.off i hi0 hi hih hpi
  · intro i hi0 hi hpi
    by_cases hih : i = hole
    · subst hih
      rw [Function.update_self]
      exact hx.le
    · rw [Function.update_of_ne hih]
      have := h.off i hi0 hi hih (by rw [hpi]; exact hlt.ne)
      rw [hpi] at this
      exact hx.le.trans this
  · intro hp0 i hi0 hi hpi
    have hlt' := parent_lt hp0
    have hup : key (parent (parent hole)) ≤ key (parent hole) :=
      h.off (parent hole) hp0 (hlt.trans hn) hlt.ne (hlt'.trans hlt).ne
    rw [Function.update_of_ne (hlt'.trans hlt).ne]
    by_cases hih : i = hole
    · subst hih
      rw [Function.update_self]
      exact hup
    · rw [Function.update_of_ne hih]
      have := h.off i hi0 hi hih (by rw [hpi]; exact hlt.ne)
      rw [hpi] at this
      exact hup.trans this

/-- The hole is filled when its parent is not above `x`. -/
theorem Rising.fill (h : Rising key n hole x) (hx : 0 < hole → key (parent hole) ≤ x) :
    Ordered (Function.update key hole x) n := by
  intro i h0 hi
  by_cases hih : i = hole
  · subst hih
    rw [Function.update_self, Function.update_of_ne (parent_lt h0).ne]
    exact hx h0
  · rw [Function.update_of_ne hih]
    by_cases hpi : parent i = hole
    · rw [hpi, Function.update_self]
      exact h.below i h0 hi hpi
    · rw [Function.update_of_ne hpi]
      exact h.off i h0 hi hih hpi

/-! ### A new root -/

/-- A root may be replaced by `x` iff `x` is not above its children. -/
theorem ordered_replace_iff (h : Ordered key n) :
    Ordered (Function.update key 0 x) n ↔
      ∀ i, 0 < i → i < n → parent i = 0 → x ≤ key i := by
  constructor
  · intro ho i h0 hi hp
    have := ho i h0 hi
    rwa [hp, Function.update_self, Function.update_of_ne h0.ne'] at this
  · intro hx i h0 hi
    rw [Function.update_of_ne h0.ne']
    by_cases hp : parent i = 0
    · rw [hp, Function.update_self]
      exact hx i h0 hi hp
    · rw [Function.update_of_ne hp]
      exact h i h0 hi

/-- When the least child `c` of the root becomes the root and `x` takes its slot, the order is kept
iff `x` is not above the children of `c`. -/
theorem ordered_sink_iff (h : Ordered key n) (hc0 : 0 < c) (hc : parent c = 0) (hcx : key c ≤ x)
    (hmin : ∀ i, 0 < i → i < n → parent i = 0 → key c ≤ key i) :
    Ordered (Function.update (Function.update key 0 (key c)) c x) n ↔
      ∀ i, 0 < i → i < n → parent i = c → x ≤ key i := by
  have hroot : Function.update (Function.update key 0 (key c)) c x 0 = key c := by
    rw [Function.update_of_ne hc0.ne, Function.update_self]
  have hoff : ∀ i, 0 < i → i ≠ c →
      Function.update (Function.update key 0 (key c)) c x i = key i := fun i h0 hne => by
    rw [Function.update_of_ne hne, Function.update_of_ne h0.ne']
  constructor
  · intro ho i h0 hi hp
    have hic : i ≠ c := by
      rintro rfl
      exact (parent_lt h0).ne hp
    have := ho i h0 hi
    rwa [hp, Function.update_self, hoff i h0 hic] at this
  · intro hx i h0 hi
    by_cases hic : i = c
    · subst hic
      rw [hc, hroot, Function.update_self]
      exact hcx
    · rw [hoff i h0 hic]
      by_cases hp : parent i = 0
      · rw [hp, hroot]
        exact hmin i h0 hi hp
      · by_cases hpc : parent i = c
        · rw [hpc, Function.update_self]
          exact hx i h0 hi hpc
        · rw [hoff _ (Nat.pos_of_ne_zero hp) hpc]
          exact h i h0 hi

end BinaryHeap

end LinuxServer
