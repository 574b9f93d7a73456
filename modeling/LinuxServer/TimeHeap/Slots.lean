import LinuxServer.BinaryHeap.Order
import LinuxServer.TimeHeap.Basic
import Mathlib.Data.List.Basic
import Mathlib.Order.Lattice.Nat

/-!
# The slots of the time heap

What `time_heap` finds in the slots of its array, and how its loops move the hole through them.

* `key m array i`: the expire of the timer that slot `i` points to.
* `Readable m array i`: following the pointer in slot `i` is no fault.
* `perm_set_move`: a timer that moves into the hole leaves the hole behind.

`addLoop_spec` is the specification of the loop of `add_timer`.
-/

namespace LinuxServer

namespace TimeHeap

open Memory BinaryHeap

open scoped List

variable {m : Store HeapTimer} {array array' : List Ptr} {p q : Ptr} {n i j k hole : ℕ}

/-- The expire of the timer a pointer points to; 0 when there is none. -/
def keyOf (m : Store HeapTimer) (p : Ptr) : ℤ := ((p.bind m.get?).map HeapTimer.expire).getD 0

/-- The expire of the timer in a slot. -/
def key (m : Store HeapTimer) (array : List Ptr) (i : ℕ) : ℤ := keyOf m array[i]?.join

/-- The slot is in the array and points to a timer that is not freed. -/
def Readable (m : Store HeapTimer) (array : List Ptr) (i : ℕ) : Prop :=
  ∃ p, array[i]? = some (some p) ∧ m.Live p

theorem keyOf_erase_of_ne {a b : Addr} (h : b ≠ a) :
    keyOf (m.erase a) (some b) = keyOf m (some b) := by
  rw [keyOf, keyOf, Option.bind_some, Option.bind_some, Store.get?_erase_of_ne h]

theorem Readable.lt_length (h : Readable m array i) : i < array.length := by
  obtain ⟨p, hp, -⟩ := h
  exact (List.getElem?_eq_some_iff.1 hp).1

theorem Readable.congr (h : Readable m array i) (he : array'[i]? = array[i]?) :
    Readable m array' i := by
  obtain ⟨p, hp, hlive⟩ := h
  exact ⟨p, he.trans hp, hlive⟩

theorem key_congr (he : array'[i]? = array[i]?) : key m array' i = key m array i := by
  rw [key, key, he]

theorem key_of_getElem? (h : array[i]? = some p) : key m array i = keyOf m p := by
  rw [key, h]
  rfl

theorem key_set (h : i < array.length) :
    key m (array.set i p) = Function.update (key m array) i (keyOf m p) := by
  funext j
  by_cases hj : j = i
  · subst hj
    rw [Function.update_self]
    exact key_of_getElem? (List.getElem?_set_self h)
  · rw [Function.update_of_ne hj]
    exact key_congr (List.getElem?_set_ne (Ne.symm hj))

theorem expireAt_eq_ok {e : ℤ} :
    expireAt m array i = .ok e ↔ Readable m array i ∧ e = key m array i := by
  simp only [expireAt, bind_eq_ok, load_eq_ok, Store.read_eq_ok, pure_eq_ok, Except.ok.injEq]
  constructor
  · rintro ⟨p, hp, timer, ⟨a, rfl, ha⟩, rfl⟩
    refine ⟨⟨a, hp, Store.live_of_get? ha⟩, ?_⟩
    rw [key_of_getElem? hp]
    simp [keyOf, ha]
  · rintro ⟨⟨a, hp, hlive⟩, rfl⟩
    obtain ⟨timer, ha⟩ := hlive.exists_get?
    refine ⟨some a, hp, timer, ⟨a, rfl, ha⟩, ?_⟩
    rw [key_of_getElem? hp]
    simp [keyOf, ha]

theorem Readable.expireAt (h : Readable m array i) :
    expireAt m array i = .ok (key m array i) := expireAt_eq_ok.2 ⟨h, rfl⟩

/-! ### Moving a timer into the hole -/

/-- A timer that moves from `j` into the hole `i` leaves the hole at `j`: whatever fills the hole,
the same timers are there. -/
theorem perm_set_move (hq : array[j]? = some q) (hi : i < k) (hj : j < k)
    (hk : k ≤ array.length) (p : Ptr) :
    ((array.set i q).set j p).take k ~ (array.set i p).take k := by
  rcases eq_or_ne i j with rfl | hij
  · rw [List.set_set]
  · have hlen : ((array.take k).set i p).length = k := by
      rw [List.length_set, List.length_take, Nat.min_eq_left hk]
    have hp : ((array.take k).set i p)[i]? = some p :=
      List.getElem?_set_self (by rwa [List.length_take, Nat.min_eq_left hk])
    have hq' : ((array.take k).set i p)[j]? = some q := by
      rw [List.getElem?_set_ne hij, List.getElem?_take_of_lt hj, hq]
    obtain ⟨hi', hp⟩ := List.getElem?_eq_some_iff.1 hp
    obtain ⟨hj', hq'⟩ := List.getElem?_eq_some_iff.1 hq'
    have hperm := List.set_set_perm hi' hj'
    rw [hp, hq', List.set_set] at hperm
    rwa [List.take_set, List.take_set, List.take_set]

/-! ### The loop of `add_timer` -/

theorem shiftRight_eq_parent : (hole - 1) >>> 1 = parent hole := by
  rw [Nat.shiftRight_eq_div_pow, pow_one, parent]

/-- The loop finds a slot for the new timer: with it in the hole the same timers are there as with
it in the last slot, and an ordered heap stays ordered. -/
theorem addLoop_spec {timer : Addr} {fuel : ℕ} (hlive : m.Live timer)
    (hread : ∀ i < hole, Readable m array i) (hlt : hole < array.length) (hfuel : hole ≤ fuel) :
    ∃ array' hole', addLoop m (some timer) fuel array hole = .ok (array', hole') ∧
      hole' ≤ hole ∧ array'.length = array.length ∧
      (∀ i, hole < i → array'[i]? = array[i]?) ∧
      (∀ k, hole < k → k ≤ array.length →
        (array'.set hole' (some timer)).take k ~ (array.set hole (some timer)).take k) ∧
      (∀ n, hole < n → Rising (key m array) n hole (keyOf m (some timer)) →
        Ordered (key m (array'.set hole' (some timer))) n) := by
  induction fuel generalizing array hole with
  | zero =>
    -- the hole has come to the root
    obtain rfl := Nat.le_zero.1 hfuel
    refine ⟨array, 0, rfl, le_rfl, rfl, fun _ _ => rfl, fun _ _ _ => .refl _, fun n _ hr => ?_⟩
    rw [key_set hlt]
    exact hr.fill fun h => absurd h (lt_irrefl 0)
  | succ fuel ih =>
    rcases Nat.eq_zero_or_pos hole with rfl | h0
    · refine ⟨array, 0, by simp [addLoop], le_rfl, rfl, fun _ _ => rfl, fun _ _ _ => .refl _,
        fun n _ hr => ?_⟩
      rw [key_set hlt]
      exact hr.fill fun h => absurd h (lt_irrefl 0)
    · obtain ⟨t, ht⟩ := hlive.exists_get?
      have hkey : keyOf m (some timer) = t.expire := by simp [keyOf, ht]
      have hplt := parent_lt h0
      obtain ⟨q, hq, hqlive⟩ := hread _ hplt
      rw [addLoop, if_pos h0]
      simp only [shiftRight_eq_parent, (hread _ hplt).expireAt, ok_bind,
        Store.read_eq_ok.2 ⟨timer, rfl, ht⟩]
      split
      · -- the new timer stays below its parent
        rename_i hle
        refine ⟨array, hole, rfl, le_rfl, rfl, fun _ _ => rfl, fun _ _ _ => .refl _,
          fun n _ hr => ?_⟩
        rw [key_set hlt]
        exact hr.fill fun _ => hle.trans_eq hkey.symm
      · -- the parent moves down
        rename_i hgt
        rw [load_eq_ok.2 hq, ok_bind, store_eq_ok.2 ⟨hlt, rfl⟩, ok_bind]
        have hset : ∀ i, i ≠ hole → (array.set hole (some q))[i]? = array[i]? :=
          fun i hi => List.getElem?_set_ne (Ne.symm hi)
        obtain ⟨array', hole', hrun, hle, hlen, hoff, hperm, hord⟩ :=
          ih (show ∀ i < parent hole, Readable m (array.set hole (some q)) i from
              fun i hi => (hread i (hi.trans hplt)).congr (hset i (hi.trans hplt).ne))
            (by rw [List.length_set]; omega) (by omega)
        refine ⟨array', hole', hrun, hle.trans hplt.le, hlen.trans List.length_set, ?_, ?_, ?_⟩
        · intro i hi
          rw [hoff i (hplt.trans hi), hset i hi.ne']
        · intro k hk hkl
          exact (hperm k (hplt.trans hk) (by rwa [List.length_set])).trans
            (perm_set_move hq hk (hplt.trans hk) hkl _)
        · intro n hn hr
          refine hord n (hplt.trans hn) ?_
          rw [key_set hlt, ← key_of_getElem? hq]
          exact hr.move h0 hn (by rw [hkey]; exact not_le.1 hgt)

end TimeHeap

end LinuxServer
