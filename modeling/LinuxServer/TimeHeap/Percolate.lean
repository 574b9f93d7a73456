import LinuxServer.TimeHeap.Slots
import Mathlib.Logic.Relation

/-!
# The loop of `percolate_down`

* `lesserChild m n array i`: the slot that `percolate_down` compares the hole `i` with.
* `RoundReads m n array i`: the round for the hole `i` follows only good pointers.
* `Sinks m n array i j`: the hole moves on from `i` to `j`.

All three speak of the array the loop starts from: what it writes lies above the hole.
`percolateLoop_eq_ok` is the rule for one round, `percolateLoop_ok_iff` says when all rounds go
well, and `percolateLoop_perm` that then the same timers are there.
-/

namespace LinuxServer

namespace TimeHeap

open Memory BinaryHeap Relation

open scoped List

variable {m : Store HeapTimer} {array array' : List Ptr} {p q : Ptr} {n i j hole : ℕ}

/-! ### One round -/

/-- The slot that `percolate_down` compares the hole with. -/
def lesserChild (m : Store HeapTimer) (n : ℕ) (array : List Ptr) (hole : ℕ) : ℕ :=
  if 2 * hole + 1 < n ∧ key m array (2 * hole + 2) < key m array (2 * hole + 1) then 2 * hole + 2
  else 2 * hole + 1

/-- The slots that one round reads are readable. -/
def RoundReads (m : Store HeapTimer) (n : ℕ) (array : List Ptr) (hole : ℕ) : Prop :=
  Readable m array hole ∧ Readable m array (2 * hole + 1) ∧
    (2 * hole + 1 < n → Readable m array (2 * hole + 2))

/-- A hole at `i` moves on to `j`. -/
def Sinks (m : Store HeapTimer) (n : ℕ) (array : List Ptr) (i j : ℕ) : Prop :=
  j = lesserChild m n array i ∧ key m array j < key m array i

theorem lesserChild_cases (m : Store HeapTimer) (n : ℕ) (array : List Ptr) (hole : ℕ) :
    lesserChild m n array hole = 2 * hole + 1 ∨
      lesserChild m n array hole = 2 * hole + 2 ∧ 2 * hole + 1 < n := by
  unfold lesserChild
  split
  · rename_i h
    exact .inr ⟨rfl, h.1⟩
  · exact .inl rfl

theorem lt_lesserChild : hole < lesserChild m n array hole := by
  rcases lesserChild_cases m n array hole with h | ⟨h, -⟩ <;> omega

theorem Sinks.lt (h : Sinks m n array i j) : i < j := by
  rw [h.1]
  exact lt_lesserChild

theorem RoundReads.lesserChild (h : RoundReads m n array hole) :
    Readable m array (lesserChild m n array hole) := by
  rcases lesserChild_cases m n array hole with he | ⟨he, hn⟩
  · rw [he]
    exact h.2.1
  · rw [he]
    exact h.2.2 hn

theorem shiftLeft_or_one : hole <<< 1 ||| 1 = 2 * hole + 1 := by
  rw [← Nat.shiftLeft_add_eq_or_of_lt (by decide), Nat.shiftLeft_eq, pow_one, Nat.mul_comm]

theorem percolateRound_eq_ok {r : Option ℕ} : percolateRound m n array hole = .ok r ↔
    RoundReads m n array hole ∧ r =
      if key m array (lesserChild m n array hole) < key m array hole then
        some (lesserChild m n array hole) else none := by
  have hn : 2 * hole + 1 ≤ n - 1 ↔ 2 * hole + 1 < n := by omega
  unfold percolateRound
  simp only [shiftLeft_or_one, hn, RoundReads, lesserChild]
  by_cases hchild : 2 * hole + 1 < n
  · simp only [hchild, if_true, true_and, forall_const, bind_eq_ok, expireAt_eq_ok, pure_eq_ok,
      Except.ok.injEq]
    constructor
    · rintro ⟨_, ⟨hr, rfl⟩, _, ⟨hl, rfl⟩, _, rfl, _, ⟨ha, rfl⟩, _, ⟨-, rfl⟩, rfl⟩
      exact ⟨⟨ha, hl, hr⟩, rfl⟩
    · rintro ⟨⟨ha, hl, hr⟩, rfl⟩
      refine ⟨_, ⟨hr, rfl⟩, _, ⟨hl, rfl⟩, _, rfl, _, ⟨ha, rfl⟩, _, ⟨?_, rfl⟩, rfl⟩
      split <;> assumption
  · simp only [hchild, if_false, false_and, false_implies, and_true, bind_eq_ok, expireAt_eq_ok,
      pure_eq_ok, Except.ok.injEq, ok_bind]
    constructor
    · rintro ⟨_, ⟨ha, rfl⟩, _, ⟨hl, rfl⟩, rfl⟩
      exact ⟨⟨ha, hl⟩, rfl⟩
    · rintro ⟨⟨ha, hl⟩, rfl⟩
      exact ⟨_, ⟨ha, rfl⟩, _, ⟨hl, rfl⟩, rfl⟩

/-- The condition of the loop holds in every round of a heap that is not empty. -/
theorem loop_condition (hn : 1 ≤ n) : (hole <<< 1 ||| if 1 ≤ n then 1 else 0) ≠ 0 := by
  rw [if_pos hn, shiftLeft_or_one]
  exact Nat.succ_ne_zero _

theorem percolateLoop_eq_ok {fuel : ℕ} {r : List Ptr × ℕ} (hn : 1 ≤ n) :
    percolateLoop m n (fuel + 1) array hole = .ok r ↔ RoundReads m n array hole ∧
      ((¬ Sinks m n array hole (lesserChild m n array hole) ∧ r = (array, hole)) ∨
        ∃ p, array[lesserChild m n array hole]? = some p ∧
          Sinks m n array hole (lesserChild m n array hole) ∧
          percolateLoop m n fuel (array.set hole p) (lesserChild m n array hole) = .ok r) := by
  rw [percolateLoop, if_pos (loop_condition hn)]
  simp only [bind_eq_ok, percolateRound_eq_ok, Sinks, true_and]
  constructor
  · rintro ⟨_, ⟨hreads, rfl⟩, h⟩
    refine ⟨hreads, ?_⟩
    by_cases hlt : key m array (lesserChild m n array hole) < key m array hole
    · simp only [hlt, if_true, bind_eq_ok, load_eq_ok, store_eq_ok] at h
      obtain ⟨p, hp, _, ⟨-, rfl⟩, h⟩ := h
      exact .inr ⟨p, hp, hlt, h⟩
    · simp only [hlt, if_false, pure_eq_ok, Except.ok.injEq] at h
      exact .inl ⟨hlt, h.symm⟩
  · rintro ⟨hreads, ⟨hlt, rfl⟩ | ⟨p, hp, hlt, h⟩⟩
    · exact ⟨_, ⟨hreads, rfl⟩, by simp only [hlt, if_false, pure_eq_ok]⟩
    · refine ⟨_, ⟨hreads, rfl⟩, ?_⟩
      simp only [hlt, if_true, bind_eq_ok, load_eq_ok, store_eq_ok]
      exact ⟨p, hp, _, ⟨hreads.1.lt_length, rfl⟩, h⟩

/-! ### All rounds -/

/-- The arrays have the same slots from `hole` on. -/
def AgreeFrom (hole : ℕ) (array' array : List Ptr) : Prop :=
  ∀ i, hole ≤ i → array'[i]? = array[i]?

theorem AgreeFrom.refl (hole : ℕ) (array : List Ptr) : AgreeFrom hole array array :=
  fun _ _ => rfl

theorem AgreeFrom.set (h : AgreeFrom hole array' array) (hj : hole < j) :
    AgreeFrom j (array'.set hole p) array := fun i hi => by
  rw [List.getElem?_set_ne (by omega), h i (by omega)]

theorem AgreeFrom.key (h : AgreeFrom hole array' array) (hi : hole ≤ i) :
    key m array' i = key m array i := key_congr (h i hi)

theorem AgreeFrom.lesserChild (h : AgreeFrom hole array' array) :
    lesserChild m n array' hole = lesserChild m n array hole := by
  unfold TimeHeap.lesserChild
  rw [h.key (by omega), h.key (by omega)]

theorem AgreeFrom.sinks_iff (h : AgreeFrom hole array' array) :
    Sinks m n array' hole j ↔ Sinks m n array hole j := by
  unfold Sinks
  rw [h.lesserChild, h.key le_rfl]
  refine and_congr_right ?_
  intro hj
  rw [h.key (hj ▸ lt_lesserChild.le)]

theorem AgreeFrom.readable_iff (h : AgreeFrom hole array' array) (hi : hole ≤ i) :
    Readable m array' i ↔ Readable m array i := by
  unfold Readable
  rw [h i hi]

theorem AgreeFrom.roundReads_iff (h : AgreeFrom hole array' array) :
    RoundReads m n array' hole ↔ RoundReads m n array hole := by
  unfold RoundReads
  rw [h.readable_iff le_rfl, h.readable_iff (by omega), h.readable_iff (by omega)]

/-- The slots a hole at `hole` passes through. -/
theorem sinks_head_iff : ReflTransGen (Sinks m n array) hole i ↔
    i = hole ∨ Sinks m n array hole (lesserChild m n array hole) ∧
      ReflTransGen (Sinks m n array) (lesserChild m n array hole) i := by
  rw [ReflTransGen.cases_head_iff]
  constructor
  · rintro (rfl | ⟨j, hs, hi⟩)
    · exact .inl rfl
    · obtain rfl := hs.1
      exact .inr ⟨hs, hi⟩
  · rintro (rfl | ⟨hs, hi⟩)
    · exact .inl rfl
    · exact .inr ⟨_, hs, hi⟩

/-- The loop goes well iff every round it comes to does. -/
theorem percolateLoop_ok_iff {fuel : ℕ} (hn : 1 ≤ n) (hag : AgreeFrom hole array' array)
    (hlen : array'.length = array.length) (hfuel : array.length < hole + fuel) :
    (∃ r, percolateLoop m n fuel array' hole = .ok r) ↔
      ∀ i, ReflTransGen (Sinks m n array) hole i → RoundReads m n array i := by
  induction fuel generalizing array' hole with
  | zero =>
    refine ⟨fun ⟨r, h⟩ => (by cases h), fun h => ?_⟩
    -- the rounds run out only past the end of the array
    have := (h hole .refl).1.lt_length
    omega
  | succ fuel ih =>
    simp only [percolateLoop_eq_ok hn, hag.roundReads_iff, hag.lesserChild, hag.sinks_iff]
    have hlt : hole < lesserChild m n array hole := lt_lesserChild
    -- the slot written lies above the hole from now on
    have hrest : ∀ p, (∃ r, percolateLoop m n fuel (array'.set hole p)
        (lesserChild m n array hole) = .ok r) ↔
        ∀ i, ReflTransGen (Sinks m n array) (lesserChild m n array hole) i →
          RoundReads m n array i := fun p =>
      ih (hag.set lt_lesserChild) (by rwa [List.length_set])
        (by omega)
    constructor
    · rintro ⟨r, hreads, ⟨hno, rfl⟩ | ⟨p, -, hs, hr⟩⟩ i hi
      · rcases sinks_head_iff.1 hi with rfl | ⟨hs, -⟩
        · exact hreads
        · exact absurd hs hno
      · rcases sinks_head_iff.1 hi with rfl | ⟨-, hi⟩
        · exact hreads
        · exact (hrest p).1 ⟨r, hr⟩ i hi
    · intro h
      have hreads := h hole .refl
      by_cases hs : Sinks m n array hole (lesserChild m n array hole)
      · obtain ⟨p, hp, -⟩ := hreads.lesserChild
        obtain ⟨r, hr⟩ := (hrest (some p)).2 fun i hi => h i (sinks_head_iff.2 (.inr ⟨hs, hi⟩))
        refine ⟨r, hreads, .inr ⟨some p, ?_, hs, hr⟩⟩
        rw [hag _ lt_lesserChild.le, hp]
      · exact ⟨_, hreads, .inl ⟨hs, rfl⟩⟩

theorem percolateLoop_length {fuel last : ℕ} {b : List Ptr} (hn : 1 ≤ n)
    (h : percolateLoop m n fuel array hole = .ok (b, last)) :
    b.length = array.length ∧ last < array.length := by
  induction fuel generalizing array hole with
  | zero => cases h
  | succ fuel ih =>
    obtain ⟨hreads, ⟨-, heq⟩ | ⟨p, -, -, hr⟩⟩ := (percolateLoop_eq_ok hn).1 h
    · obtain ⟨rfl, rfl⟩ := Prod.mk.inj heq
      exact ⟨rfl, hreads.1.lt_length⟩
    · have := ih hr
      rwa [List.length_set] at this

theorem percolateLoop_mem {fuel last : ℕ} {b : List Ptr} (hn : 1 ≤ n)
    (h : percolateLoop m n fuel array hole = .ok (b, last)) : ∀ p ∈ b, p ∈ array := by
  induction fuel generalizing array hole with
  | zero => cases h
  | succ fuel ih =>
    obtain ⟨-, ⟨-, heq⟩ | ⟨q, hq, -, hr⟩⟩ := (percolateLoop_eq_ok hn).1 h
    · obtain ⟨rfl, rfl⟩ := Prod.mk.inj heq
      exact fun p hp => hp
    · intro p hp
      rcases List.mem_or_eq_of_mem_set (ih hr p hp) with hp | rfl
      · exact hp
      · exact List.mem_of_getElem? hq

/-- A hole that stays in the first `n` slots, or moves to the slot behind them where the timer that
will fill it is, leaves the same timers in the first `n` slots. -/
theorem percolateLoop_perm {fuel last : ℕ} {b : List Ptr} {tmp : Ptr} (hn : 1 ≤ n)
    (hag : AgreeFrom hole array' array) (hlen : n ≤ array'.length)
    (hin : ∀ i j, ReflTransGen (Sinks m n array) hole i → Sinks m n array i j →
      i < n ∧ (j < n ∨ j = n ∧ array[n]? = some tmp))
    (h : percolateLoop m n fuel array' hole = .ok (b, last)) :
    (b.set last tmp).take n ~ (array'.set hole tmp).take n := by
  induction fuel generalizing array' hole with
  | zero => cases h
  | succ fuel ih =>
    simp only [percolateLoop_eq_ok hn, hag.roundReads_iff, hag.lesserChild, hag.sinks_iff] at h
    obtain ⟨-, ⟨-, heq⟩ | ⟨p, hp, hs, hr⟩⟩ := h
    · obtain ⟨rfl, rfl⟩ := Prod.mk.inj heq
      exact .refl _
    · have hperm := ih (hag.set lt_lesserChild) (by rwa [List.length_set])
        (fun i j hi hij => hin i j (sinks_head_iff.2 (.inr ⟨hs, hi⟩)) hij) hr
      refine hperm.trans ?_
      obtain ⟨hhole, hchild | ⟨hchild, htmp⟩⟩ := hin hole _ .refl hs
      · exact perm_set_move hp hhole hchild hlen tmp
      · rw [hag _ lt_lesserChild.le, hchild, htmp] at hp
        obtain rfl := Option.some.inj hp
        rw [hchild, List.take_set, List.set_eq_of_length_le]
        rw [List.length_take]
        exact Nat.min_le_left _ _

end TimeHeap

end LinuxServer
