import Mathlib.Algebra.Ring.Nat
import Mathlib.Data.List.Basic
import Mathlib.Data.List.Perm.Basic

/-!
# Holders of resources

A list of holders, each of which holds one resource at most: `held k` is the resource that a holder
at `k` holds.  The resources held are `l.filterMap held`; that none has two holders is their `Nodup`
(`eq_of_held`).  A holder that moves keeps its resource (`filterMap_set_of_eq`) or lets it go
(`filterMap_set_perm`).  When the holders have weights, it takes its weight along
(`sum_map_set`).
-/

namespace LinuxServer

namespace Holders

variable {κ ρ : Type*} {held : κ → Option ρ} {l : List κ} {i j : ℕ} {k k' : κ} {r : ρ}

theorem filterMap_set_of_eq (hi : l[i]? = some k) (hk : held k' = held k) :
    (l.set i k').filterMap held = l.filterMap held := by
  induction l generalizing i with
  | nil => rfl
  | cons a l ih =>
    cases i with
    | zero =>
      obtain rfl : a = k := by simpa using hi
      rw [List.set_cons_zero, List.filterMap_cons, List.filterMap_cons, hk]
    | succ i =>
      rw [List.set_cons_succ, List.filterMap_cons, List.filterMap_cons, ih (by simpa using hi)]

/-- The holder at `i` lets its resource go. -/
theorem filterMap_set_perm (hi : l[i]? = some k) (hk : held k = some r) (hk' : held k' = none) :
    (l.filterMap held).Perm (r :: (l.set i k').filterMap held) := by
  induction l generalizing i with
  | nil => cases hi
  | cons a l ih =>
    cases i with
    | zero =>
      obtain rfl : a = k := by simpa using hi
      rw [List.set_cons_zero, List.filterMap_cons_some hk, List.filterMap_cons_none hk']
    | succ i =>
      have hrest := ih (i := i) (by simpa using hi)
      rw [List.set_cons_succ]
      cases ha : held a with
      | none => rwa [List.filterMap_cons_none ha, List.filterMap_cons_none ha]
      | some r' =>
        rw [List.filterMap_cons_some ha, List.filterMap_cons_some ha]
        exact (hrest.cons r').trans (.swap r r' _)

theorem sum_map_set (f : κ → ℕ) (hi : l[i]? = some k) (k' : κ) :
    ((l.set i k').map f).sum + f k = (l.map f).sum + f k' := by
  induction l generalizing i with
  | nil => cases hi
  | cons a l ih =>
    cases i with
    | zero =>
      obtain rfl : a = k := by simpa using hi
      rw [List.set_cons_zero, List.map_cons, List.map_cons, List.sum_cons, List.sum_cons]
      omega
    | succ i =>
      have hrest := ih (i := i) (by simpa using hi)
      rw [List.set_cons_succ, List.map_cons, List.map_cons, List.sum_cons, List.sum_cons]
      omega

/-- A resource has one holder. -/
theorem eq_of_held (hl : (l.filterMap held).Nodup) (hi : l[i]? = some k) (hj : l[j]? = some k')
    (hk : held k = some r) (hk' : held k' = some r) : i = j := by
  induction l generalizing i j with
  | nil => cases hi
  | cons a l ih =>
    have hrest : (l.filterMap held).Nodup :=
      hl.sublist ((List.sublist_cons_self a l).filterMap held)
    -- the first holder's resource is not held again
    have hfirst : ∀ {m : ℕ} {k' : κ}, held a = some r → l[m]? = some k' → held k' ≠ some r := by
      intro m k' ha hm hk'
      rw [List.filterMap_cons_some ha] at hl
      exact (List.nodup_cons.1 hl).1 (List.mem_filterMap.2 ⟨k', List.mem_of_getElem? hm, hk'⟩)
    cases i with
    | zero =>
      obtain rfl : a = k := by simpa using hi
      cases j with
      | zero => rfl
      | succ j => exact absurd hk' (hfirst hk (by simpa using hj))
    | succ i =>
      cases j with
      | zero =>
        obtain rfl : a = k' := by simpa using hj
        exact absurd hk (hfirst hk' (by simpa using hi))
      | succ j => exact congrArg (· + 1) (ih hrest (by simpa using hi) (by simpa using hj))

end Holders

end LinuxServer
