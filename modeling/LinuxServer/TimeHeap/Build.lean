import LinuxServer.TimeHeap.Shape

/-!
# Building a time heap

A heap is filled timer by timer, or made from an array of timers.

* `timeHeapOf m initArray size cap`: the constructor that is given an array.
* `Heaped m timers h`: the timers are in the heap, each as often as in the list, in heap order.

`addTimer_inserted`: `add_timer` of any heap in order.  `builds_iff`: the constructor throws where it
should not, and runs over the end of its array, unless it is given one timer, or two in order.
-/

namespace LinuxServer

namespace TimeHeap

open Memory BinaryHeap

open scoped List

variable {m : Store HeapTimer} {h : Heap} {array : List Ptr} {n cap i : ℕ}

/-- The loop of the constructor, which calls `percolate_down` from slot `i` up. -/
def heapifyLoop (m : Store HeapTimer) (curSize : ℕ) : ℕ → List Ptr → Except Fault (List Ptr)
  | 0, array => pure array
  | i + 1, array => do heapifyLoop m curSize i (← percolateDown m curSize array (i + 1))

/-- `time_heap(heap_timer **init_array, int size, int cap)`; nothing when it throws. -/
def timeHeapOf (m : Store HeapTimer) (initArray : List Ptr) (size cap : ℤ) :
    Except Fault (Option Heap) :=
  if size < cap then pure none
  else
    match newArray cap with
    | none => pure none
    | some array =>
      if size ≠ 0 then do
        let array ← (List.range size.toNat).foldlM
          (fun array i => do store array i (← load initArray i)) array
        let array ← heapifyLoop m size.toNat ((size.toNat - 1) >>> 1) array
        pure (some ⟨array, cap.toNat, size.toNat⟩)
      else pure (some ⟨array, cap.toNat, size.toNat⟩)

/-! ### Timer by timer -/

/-- The heap after `add_timer` of `p`: the old timers and the new one, in heap order. -/
structure Inserted (m : Store HeapTimer) (p : Addr) (h h' : Heap) : Prop where
  curSize_eq : h'.curSize = h.curSize + 1
  slots_perm : h'.slots ~ h.slots ++ [some p]
  ordered : Ordered (key m h'.array) h'.curSize
  top_least : ∃ q, h'.top = .ok q ∧ q ∈ h'.slots ∧ ∀ r ∈ h'.slots, keyOf m q ≤ keyOf m r
  size_le : h'.curSize ≤ h'.capacity
  capacity_eq : h'.capacity = if h.curSize < h.capacity then h.capacity else 2 * h.capacity

theorem key_of_slot (hi : i < h.curSize) {p : Ptr} (hp : h.array[i]? = some p) :
    p ∈ h.slots ∧ key m h.array i = keyOf m p :=
  ⟨mem_slots_iff.2 ⟨i, hi, hp⟩, key_of_getElem? hp⟩

theorem Filled.top_least (hf : Filled m h) (ho : Ordered (key m h.array) h.curSize)
    (h0 : 0 < h.curSize) :
    ∃ q, h.top = .ok q ∧ q ∈ h.slots ∧ ∀ r ∈ h.slots, keyOf m q ≤ keyOf m r := by
  obtain ⟨root, hroot, -⟩ := hf.readable 0 h0
  obtain ⟨hmem, hkey⟩ := key_of_slot (m := m) h0 hroot
  have hempty : h.empty = false := decide_eq_false h0.ne'
  refine ⟨some root, ?_, hmem, ?_⟩
  · rw [Heap.top, hempty, if_neg Bool.false_ne_true, load_eq_ok.2 hroot]
  · intro r hr
    obtain ⟨i, hi, hri⟩ := mem_slots_iff.1 hr
    have hle := ho.root_le hi
    rwa [hkey, (key_of_slot hi hri).2] at hle

/-- **`add_timer` inserts** into any heap in order, also where the array has to grow first. -/
theorem addTimer_inserted (hf : Filled m h) (hcap : h.capacity < 2 ^ 30)
    (ho : Ordered (key m h.array) h.curSize) {p : Addr} (hp : m.Live p) :
    ∃ h', h.addTimer m (some p) = .ok (some h') ∧ Inserted m p h h' := by
  rcases addTimer_filled hf hp with ⟨-, hbig⟩ | ⟨h', hadd, hf', hsize, hcap', hslots, hord, -⟩
  · unfold intMax at hbig
    omega
  · have ho' := hord ho
    refine ⟨h', hadd, hsize, hslots, ho', hf'.top_least ho' ?_, hf'.size_le, hcap'⟩
    rw [hsize]
    exact Nat.succ_pos _

/-- Another pointer to a timer that is in the heap already, when the array is full. -/
theorem addTimer_inserted_full :
    ∃ h', Heap.addTimer ⟨[some ⟨5, some 0, none⟩], []⟩ ⟨[some 0], 1, 1⟩ (some 0) =
      .ok (some h') ∧ Inserted ⟨[some ⟨5, some 0, none⟩], []⟩ 0 ⟨[some 0], 1, 1⟩ h' := by
  refine addTimer_inserted ⟨rfl, by decide, by decide, by decide, ?_⟩ (by decide) ?_ (by decide)
  · intro i hi
    obtain rfl := Nat.lt_one_iff.1 hi
    exact ⟨0, rfl, by decide⟩
  · intro i h0 hi
    exact absurd hi (by show ¬ i < 1; omega)

/-! ### From an array -/

/-- The slots in use hold the timers, each as often as the list, and no timer expires before its
parent. -/
structure Heaped (m : Store HeapTimer) (timers : List Addr) (h : Heap) : Prop where
  slots_perm : h.slots ~ timers.map some
  ordered : Ordered (key m h.array) h.curSize

/-- What the constructor is there for: it throws iff the timers are more than the array has slots,
stays in the array, and leaves the timers there in heap order. -/
structure Builds (m : Store HeapTimer) (timers : List Addr) (cap : ℤ) : Prop where
  throws_iff : timeHeapOf m (timers.map some) timers.length cap = .ok none ↔ cap < timers.length
  in_bounds : ∀ i, timeHeapOf m (timers.map some) timers.length cap ≠ .error (.outOfBounds i)
  heaped : ∀ h, timeHeapOf m (timers.map some) timers.length cap = .ok (some h) →
    h.curSize = timers.length ∧ Heaped m timers h

theorem expireAt_outOfBounds (hi : array.length ≤ i) :
    expireAt m array i = .error (.outOfBounds i) := by
  simp [expireAt, load, List.getElem?_eq_none hi]

/-- Copying more than there is room for writes the slot behind the last. -/
theorem copy_outOfBounds {tmp : List Ptr} (hn : n ≤ array.length) (htmp : tmp.length < n) :
    (List.range n).foldlM (fun tmp i => do store tmp i (← load array i)) tmp =
      .error (.outOfBounds tmp.length) := by
  induction n with
  | zero => exact absurd htmp (Nat.not_lt_zero _)
  | succ n ih =>
    rw [List.range_succ, List.foldlM_append]
    rcases Nat.lt_succ_iff_lt_or_eq.1 htmp with hlt | rfl
    · rw [ih (Nat.le_of_succ_le hn) hlt]
      rfl
    · have hget : array[tmp.length]? = some array[tmp.length] := List.getElem?_eq_getElem hn
      have hlen : (array.take tmp.length ++ tmp.drop tmp.length).length = tmp.length := by
        rw [List.length_append, List.length_take, List.length_drop]
        omega
      rw [copy_eq (Nat.le_of_succ_le hn) le_rfl, ok_bind, List.foldlM_cons, load_eq_ok.2 hget,
        ok_bind, store, hlen, if_neg (lt_irrefl _)]
      rfl

/-- In a heap as large as its array `percolate_down` of the last parent reads the slot behind the
last. -/
theorem percolateDown_overrun (hlen : array.length = n) (hread : ∀ i < n, Readable m array i)
    (hi : i = (n - 1) / 2) (h1 : 1 ≤ i) :
    percolateDown m n array i = .error (.outOfBounds n) := by
  have hout : expireAt m array n = .error (.outOfBounds n) := expireAt_outOfBounds hlen.le
  have hround : percolateRound m n array i = .error (.outOfBounds n) := by
    simp only [percolateRound, shiftLeft_or_one]
    rcases (show 2 * i + 1 + 1 = n ∨ 2 * i + 1 = n by omega) with hright | hleft
    · -- the left child is the last timer, its sibling is compared with it
      rw [if_pos (by omega), hright, hout]
      rfl
    · -- the left child lies behind the last timer
      rw [if_neg (by omega), pure_bind, hleft, (hread i (by omega)).expireAt, ok_bind, hout]
      rfl
  obtain ⟨p, hp, -⟩ := hread i (by omega)
  rw [percolateDown, load_eq_ok.2 hp, ok_bind, percolateLoop, if_pos (loop_condition (by omega)),
    hround]
  rfl

section TimeHeapOf

variable {timers : List Addr} {size : ℕ}

/-- The timers fit with room to spare, and the constructor throws. -/
theorem timeHeapOf_of_lt {initArray : List Ptr} (hlt : size < cap) :
    timeHeapOf m initArray size cap = .ok none := by
  rw [timeHeapOf, if_pos (Int.ofNat_lt.2 hlt), pure_eq_ok]

theorem timeHeapOf_of_le {initArray : List Ptr} (hsize : size ≠ 0) (hle : cap ≤ size) :
    timeHeapOf m initArray size cap = (do
      let array ← (List.range size).foldlM (fun array i => do store array i (← load initArray i))
        (List.replicate cap none)
      let array ← heapifyLoop m size ((size - 1) / 2) array
      pure (some ⟨array, cap, size⟩)) := by
  rw [timeHeapOf, if_neg (by omega), newArray_of_nonneg]
  simp only [Int.toNat_natCast, Nat.shiftRight_eq_div_pow, pow_one, ne_eq, Int.natCast_eq_zero,
    hsize, not_false_eq_true, if_true]

theorem timeHeapOf_of_gt (hgt : cap < timers.length) :
    timeHeapOf m (timers.map some) timers.length cap = .error (.outOfBounds cap) := by
  rw [timeHeapOf_of_le (by omega) hgt.le,
    copy_outOfBounds (by rw [List.length_map]) (by rwa [List.length_replicate]),
    List.length_replicate]
  rfl

theorem timeHeapOf_of_eq (hsize : timers.length ≠ 0) :
    timeHeapOf m (timers.map some) timers.length timers.length = (do
      let array ← heapifyLoop m timers.length ((timers.length - 1) / 2) (timers.map some)
      pure (some ⟨array, timers.length, timers.length⟩)) := by
  have htake : (timers.map some).take timers.length = timers.map some := by
    rw [← List.map_take, List.take_length]
  rw [timeHeapOf_of_le hsize le_rfl,
    copy_eq (by rw [List.length_map]) (by rw [List.length_replicate]), ok_bind, htake,
    List.drop_replicate, Nat.sub_self, List.replicate_zero, List.append_nil]

theorem readable_map_some (hlive : ∀ p ∈ timers, m.Live p) :
    ∀ i < timers.length, Readable m (timers.map some) i := by
  intro i hi
  refine ⟨timers[i], ?_, hlive _ (List.getElem_mem hi)⟩
  rw [List.getElem?_map, List.getElem?_eq_getElem hi]
  rfl

/-- From three timers on, the first `percolate_down` reads behind the array. -/
theorem timeHeapOf_overrun (hlive : ∀ p ∈ timers, m.Live p) (h3 : 3 ≤ timers.length) :
    timeHeapOf m (timers.map some) timers.length timers.length =
      .error (.outOfBounds timers.length) := by
  rw [timeHeapOf_of_eq (by omega)]
  obtain ⟨i, hi⟩ : ∃ i, (timers.length - 1) / 2 = i + 1 := ⟨(timers.length - 1) / 2 - 1, by omega⟩
  rw [hi, heapifyLoop, percolateDown_overrun (List.length_map _)
    (readable_map_some hlive) hi.symm (Nat.succ_pos i)]
  rfl

/-- Up to two timers stay where they are. -/
theorem timeHeapOf_short (m : Store HeapTimer) (h0 : timers.length ≠ 0) (h2 : timers.length ≤ 2) :
    timeHeapOf m (timers.map some) timers.length timers.length =
      .ok (some ⟨timers.map some, timers.length, timers.length⟩) := by
  have hnone : (timers.length - 1) / 2 = 0 := by omega
  rw [timeHeapOf_of_eq h0, hnone]
  rfl

theorem heaped_map_some : Heaped m timers ⟨timers.map some, timers.length, timers.length⟩ ↔
    Ordered (key m (timers.map some)) timers.length := by
  refine ⟨fun hh => hh.ordered, fun ho => ⟨?_, ho⟩⟩
  rw [Heap.slots, ← List.map_take, List.take_length]

theorem ordered_pair {p q : Addr} :
    Ordered (key m [some p, some q]) 2 ↔ keyOf m (some p) ≤ keyOf m (some q) := by
  constructor
  · intro ho
    exact ho 1 Nat.one_pos Nat.one_lt_two
  · intro hle i h0 hi
    obtain rfl : i = 1 := by omega
    exact hle

end TimeHeapOf

/-- **What the array constructor builds**: it does what it is there for exactly when it is given as
many timers as the array has slots, and these are one timer, or two the first of which does not
expire after the second. -/
theorem builds_iff {timers : List Addr} {cap : ℤ} (hcap : 1 ≤ cap)
    (hlive : ∀ p ∈ timers, m.Live p) :
    Builds m timers cap ↔ (timers.length : ℤ) = cap ∧ ((∃ p, timers = [p]) ∨
      ∃ p q, timers = [p, q] ∧ keyOf m (some p) ≤ keyOf m (some q)) := by
  obtain ⟨cap, rfl⟩ := Int.eq_ofNat_of_zero_le (show 0 ≤ cap by omega)
  constructor
  · intro hb
    rcases lt_trichotomy timers.length cap with hlt | rfl | hgt
    · have := hb.throws_iff.1 (timeHeapOf_of_lt hlt)
      omega
    · refine ⟨rfl, ?_⟩
      have h2 : timers.length ≤ 2 := by
        by_contra h3
        exact hb.in_bounds _ (timeHeapOf_overrun hlive (by omega))
      have ho := heaped_map_some.1 (hb.heaped _ (timeHeapOf_short m (by omega) h2)).2
      match timers, h2 with
      | [p], _ => exact .inl ⟨p, rfl⟩
      | [p, q], _ => exact .inr ⟨p, q, rfl, ordered_pair.1 ho⟩
    · exact absurd (timeHeapOf_of_gt hgt) (hb.in_bounds _)
  · rintro ⟨hlen, hshort⟩
    obtain rfl := Int.ofNat_inj.1 hlen
    have hord : timers.length ≤ 2 ∧ Ordered (key m (timers.map some)) timers.length := by
      rcases hshort with ⟨p, rfl⟩ | ⟨p, q, rfl, hle⟩
      · exact ⟨Nat.le_succ 1, fun i h0 hi => absurd h0 (by simpa using hi)⟩
      · exact ⟨le_rfl, ordered_pair.2 hle⟩
    have hbuilt := timeHeapOf_short m (by omega) hord.1
    refine ⟨?_, ?_, ?_⟩
    · rw [hbuilt]
      simp
    · rw [hbuilt]
      simp
    · rw [hbuilt]
      rintro h ⟨⟩
      exact ⟨rfl, heaped_map_some.2 hord.2⟩

/-- Two timers in order, in an array of two slots. -/
theorem builds_iff_pair :
    Builds ⟨[some ⟨1, none, none⟩, some ⟨2, none, none⟩], []⟩ [0, 1] 2 :=
  (builds_iff (by decide) (by decide)).2 ⟨rfl, .inr ⟨0, 1, rfl, by decide⟩⟩

/-- One timer and an array of two slots: the constructor throws. -/
theorem not_builds_one_of_two : ¬ ∀ (m : Store HeapTimer) (timers : List Addr) (cap : ℤ), 1 ≤ cap →
    (∀ p ∈ timers, m.Live p) → Builds m timers cap := by
  intro hall
  have hb := hall ⟨[some ⟨1, none, none⟩], []⟩ [0] 2 (by decide) (by decide)
  exact absurd (hb.throws_iff.1 (by decide)) (by decide)

end TimeHeap

end LinuxServer
