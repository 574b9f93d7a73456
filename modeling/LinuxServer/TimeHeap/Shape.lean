import LinuxServer.TimeHeap.Percolate

/-!
# The shape of the time heap

* `Filled m h`: the array is as long as `capacity` says and its first `cur_size` slots hold timers
  that are not freed; `Shape m h`: each once.
* `Heap.dropRoot`: `pop` up to the call of `percolate_down`.
* `Clear m h`: in `percolate_down` a hole below the last level stays where it is.

`resize_eq`, `addTimer_filled` and `addTimer_spec` are the specifications of `resize` and `add_timer`.
`percolateDown_ok_iff` says when `percolate_down` goes well, and `pop_spec` that a pop of a clear
heap does and keeps the shape.
-/

namespace LinuxServer

namespace TimeHeap

open Memory BinaryHeap Relation

open scoped List

variable {m m' : Store HeapTimer} {h h' : Heap} {array : List Ptr} {n i j : ℕ}

/-- The slots in use. -/
def Heap.slots (h : Heap) : List Ptr := h.array.take h.curSize

/-- The array is as long as `capacity` says and its first `cur_size` slots hold timers that are not
freed, possibly more than once. -/
structure Filled (m : Store HeapTimer) (h : Heap) : Prop where
  length_eq : h.array.length = h.capacity
  capacity_pos : 0 < h.capacity
  capacity_le : h.capacity ≤ intMax
  size_le : h.curSize ≤ h.capacity
  readable : ∀ i < h.curSize, Readable m h.array i

theorem Filled.size_le_length (hf : Filled m h) : h.curSize ≤ h.array.length :=
  hf.size_le.trans_eq hf.length_eq.symm

/-- The array is as long as `capacity` says and its first `cur_size` slots hold timers that are not
freed, each once. -/
structure Shape (m : Store HeapTimer) (h : Heap) : Prop extends Filled m h where
  nodup : h.slots.Nodup

theorem mem_slots_iff {p : Ptr} : p ∈ h.slots ↔ ∃ i < h.curSize, h.array[i]? = some p := by
  simp only [Heap.slots, List.mem_iff_getElem?, List.getElem?_take]
  constructor
  · rintro ⟨i, hi⟩
    split at hi
    · exact ⟨i, by assumption, hi⟩
    · cases hi
  · rintro ⟨i, hi, hp⟩
    exact ⟨i, by rw [if_pos hi, hp]⟩

theorem Shape.live (hs : Shape m h) {p : Addr} (hp : some p ∈ h.slots) : m.Live p := by
  obtain ⟨i, hi, hp⟩ := mem_slots_iff.1 hp
  obtain ⟨q, hq, hlive⟩ := hs.readable i hi
  obtain rfl := Option.some.inj (Option.some.inj (hp.symm.trans hq))
  exact hlive

theorem readable_iff_slots (hle : h.curSize ≤ h.array.length) :
    (∀ i < h.curSize, Readable m h.array i) ↔ ∀ p ∈ h.slots, ∃ a, p = some a ∧ m.Live a := by
  constructor
  · intro hr p hp
    obtain ⟨i, hi, hp⟩ := mem_slots_iff.1 hp
    obtain ⟨a, ha, hlive⟩ := hr i hi
    exact ⟨a, Option.some.inj (hp.symm.trans ha), hlive⟩
  · intro hmem i hi
    have hget : h.array[i]? = some (h.array.get ⟨i, hi.trans_le hle⟩) :=
      List.getElem?_eq_getElem (hi.trans_le hle)
    obtain ⟨a, ha, hlive⟩ := hmem _ (mem_slots_iff.2 ⟨i, hi, hget⟩)
    exact ⟨a, hget.trans (congrArg some ha), hlive⟩

theorem Shape.of_live (hs : Shape m h) (hlive : ∀ p, some p ∈ h.slots → m'.Live p) :
    Shape m' h where
  length_eq := hs.length_eq
  capacity_pos := hs.capacity_pos
  capacity_le := hs.capacity_le
  size_le := hs.size_le
  readable i hi := by
    obtain ⟨p, hp, -⟩ := hs.readable i hi
    exact ⟨p, hp, hlive p (mem_slots_iff.2 ⟨i, hi, hp⟩)⟩
  nodup := hs.nodup

theorem Shape.slot_inj (hs : Shape m h) {p : Ptr} (hi : i < h.curSize) (hj : j < h.curSize)
    (hpi : h.array[i]? = some p) (hpj : h.array[j]? = some p) : i = j := by
  have hti : h.slots[i]? = some p := by rw [Heap.slots, List.getElem?_take_of_lt hi, hpi]
  have htj : h.slots[j]? = some p := by rw [Heap.slots, List.getElem?_take_of_lt hj, hpj]
  have hlt : i < h.slots.length := (List.getElem?_eq_some_iff.1 hti).1
  exact (List.getElem?_inj hlt hs.nodup).1 (hti.trans htj.symm)

/-! ### `time_heap` and `resize` -/

theorem newArray_of_nonneg (n : ℕ) : newArray n = some (List.replicate n none) := by
  rw [newArray, if_pos (Int.natCast_nonneg n), Int.toNat_natCast]

theorem timeHeap_spec {cap : ℤ} (hcap : 1 ≤ cap) (hint : cap ≤ intMax)
    (hh : timeHeap cap = some h) : Shape m h ∧ h.curSize = 0 := by
  obtain ⟨n, rfl⟩ := Int.eq_ofNat_of_zero_le (show 0 ≤ cap by omega)
  simp only [timeHeap, newArray_of_nonneg, Option.map_some, Option.some.injEq] at hh
  subst hh
  refine ⟨⟨⟨?_, ?_, ?_, Nat.zero_le _, fun i hi => absurd hi (Nat.not_lt_zero i)⟩, ?_⟩, rfl⟩
  · rw [List.length_replicate, Int.toNat_natCast]
  · show 0 < Int.toNat n
    omega
  · show Int.toNat n ≤ intMax
    omega
  · rw [Heap.slots, List.take_zero]
    exact List.nodup_nil

theorem doubled_of_le {c : ℕ} (hc : 2 * c ≤ intMax) : doubled c = (2 * c : ℕ) := by
  rw [doubled, if_pos hc, Int.natCast_mul]
  rfl

/-- Where doubling overflows the result is negative. -/
theorem doubled_neg {c : ℕ} (hc : c ≤ intMax) (hc' : ¬ 2 * c ≤ intMax) : doubled c < 0 := by
  rw [doubled, if_neg hc']
  unfold intMax at hc
  omega

theorem copy_eq {tmp : List Ptr} (hn : n ≤ array.length) (htmp : n ≤ tmp.length) :
    (List.range n).foldlM (fun tmp i => do store tmp i (← load array i)) tmp =
      .ok (array.take n ++ tmp.drop n) := by
  induction n with
  | zero => rfl
  | succ n ih =>
    obtain ⟨x, hget⟩ : ∃ x, array[n]? = some x := ⟨_, List.getElem?_eq_getElem (by omega)⟩
    have hdrop : tmp.drop n = tmp[n] :: tmp.drop (n + 1) := List.drop_eq_getElem_cons (by omega)
    have hlen : (array.take n).length = n := by
      rw [List.length_take]
      omega
    rw [List.range_succ, List.foldlM_append, ih (by omega) (by omega), ok_bind, List.foldlM_cons,
      load_eq_ok.2 hget, ok_bind, store_eq_ok.2 ⟨?_, rfl⟩, ok_bind, List.foldlM_nil, pure_eq_ok,
      List.set_append_right _ _ hlen.le, hlen, Nat.sub_self, hdrop, List.set_cons_zero,
      List.take_add_one, hget, Option.toList_some, List.append_assoc, List.singleton_append]
    rw [List.length_append, hlen, List.length_drop]
    omega

theorem resize_eq (hf : Filled m h) (hfull : h.curSize = h.capacity) :
    h.resize = .ok (if 2 * h.capacity ≤ intMax then
      some { h with array := h.array ++ List.replicate h.capacity none, capacity := 2 * h.capacity }
      else none) := by
  unfold Heap.resize
  split_ifs with hc
  · have hdrop : 2 * h.capacity - h.capacity = h.capacity := by omega
    simp only [doubled_of_le hc, newArray_of_nonneg]
    rw [hfull, copy_eq hf.length_eq.ge (by rw [List.length_replicate]; omega), ok_bind,
      Int.toNat_natCast, List.take_of_length_le hf.length_eq.le, List.drop_replicate, hdrop]
    rfl
  · have hneg := doubled_neg hf.capacity_le hc
    rw [newArray, if_neg (by omega)]
    rfl

/-! ### `add_timer` -/

/-- Room is made by doubling the array if there is none; the call throws where the doubled
capacity is too large. -/
theorem grow_spec (hf : Filled m h) :
    (h.grow = .ok none ∧ intMax < 2 * h.capacity) ∨ ∃ h₁, h.grow = .ok (some h₁) ∧ Filled m h₁ ∧
      h₁.curSize = h.curSize ∧ h₁.curSize < h₁.capacity ∧
      h₁.capacity = (if h.curSize < h.capacity then h.capacity else 2 * h.capacity) ∧
      (∀ i : ℕ, i < h.curSize → h₁.array[i]? = h.array[i]?) ∧
      ∀ (i : ℕ) (q : Addr), h₁.array[i]? = some (some q) → h.array[i]? = some (some q) := by
  unfold Heap.grow
  by_cases hroom : h.curSize < h.capacity
  · rw [if_neg (not_le.2 hroom), if_pos hroom]
    exact .inr ⟨h, rfl, hf, rfl, hroom, rfl, fun _ _ => rfl, fun _ _ hq => hq⟩
  · have hfull := le_antisymm hf.size_le (not_lt.1 hroom)
    rw [if_pos (not_lt.1 hroom), if_neg hroom, resize_eq hf hfull]
    split_ifs with hc
    · have hin : ∀ i < h.curSize,
          (h.array ++ List.replicate h.capacity none)[i]? = h.array[i]? := fun i hi =>
        List.getElem?_append_left (hi.trans_le hf.size_le_length)
      refine .inr ⟨_, rfl, ?_, rfl, ?_, rfl, hin, ?_⟩
      · refine ⟨?_, ?_, hc, ?_, fun i hi => (hf.readable i hi).congr (hin i hi)⟩
        · rw [List.length_append, List.length_replicate, hf.length_eq, ← Nat.two_mul]
        · exact Nat.mul_pos Nat.two_pos hf.capacity_pos
        · exact hf.size_le.trans (Nat.le_mul_of_pos_left _ Nat.two_pos)
      · have := hf.capacity_pos
        show h.curSize < 2 * h.capacity
        omega
      · intro i q hq
        rw [List.getElem?_append] at hq
        split at hq
        · exact hq
        · rw [List.getElem?_replicate] at hq
          split at hq <;> cases hq
    · exact .inl ⟨rfl, not_le.1 hc⟩

/-- The call throws, or the timer is in the heap once more; what lies behind the slots in use was
there before. -/
theorem addTimer_filled (hf : Filled m h) {p : Addr} (hp : m.Live p) :
    (h.addTimer m (some p) = .ok none ∧ intMax < 2 * h.capacity) ∨
      ∃ h', h.addTimer m (some p) = .ok (some h') ∧ Filled m h' ∧ h'.curSize = h.curSize + 1 ∧
        h'.capacity = (if h.curSize < h.capacity then h.capacity else 2 * h.capacity) ∧
        h'.slots ~ h.slots ++ [some p] ∧
        (Ordered (key m h.array) h.curSize → Ordered (key m h'.array) h'.curSize) ∧
        ∀ (i : ℕ) (q : Addr), h'.curSize ≤ i → h'.array[i]? = some (some q) →
          h.array[i]? = some (some q) := by
  unfold Heap.addTimer
  rcases grow_spec hf with ⟨hgrow, hbig⟩ | ⟨h₁, hgrow, hf₁, hsize, hlt, hcap, hin, hout⟩
  · rw [hgrow]
    exact .inl ⟨rfl, hbig⟩
  · have hlen : h₁.curSize < h₁.array.length := hlt.trans_eq hf₁.length_eq.symm
    obtain ⟨array', hole', hrun, hle, hlen', hoff, hperm, hord⟩ :=
      addLoop_spec hp hf₁.readable hlen le_rfl
    have hslots₁ : h₁.slots = h.slots := by
      refine List.ext_getElem? ?_
      intro i
      rw [Heap.slots, Heap.slots, List.getElem?_take, List.getElem?_take, hsize]
      split
      · exact hin i (by assumption)
      · rfl
    have hslots : (array'.set hole' (some p)).take (h₁.curSize + 1) ~ h.slots ++ [some p] := by
      refine (hperm _ (Nat.lt_succ_self _) hlen).trans (.of_eq ?_)
      rw [List.take_set, List.take_add_one, List.getElem?_eq_getElem hlen, Option.toList_some,
        List.set_append_right _ _ (by rw [List.length_take]; omega), List.length_take,
        Nat.min_eq_left hlen.le, Nat.sub_self, List.set_cons_zero, ← Heap.slots, hslots₁]
    simp only [hgrow, hrun, ok_bind, store_eq_ok.2 ⟨(hle.trans_lt hlen).trans_eq hlen'.symm, rfl⟩,
      pure_eq_ok]
    refine .inr ⟨_, rfl, ?_, by rw [hsize], hcap, hslots, fun ho => ?_, fun i q hi hq => ?_⟩
    · have hlen₂ : (array'.set hole' (some p)).length = h₁.capacity := by
        rw [List.length_set, hlen', hf₁.length_eq]
      refine ⟨hlen₂, hf₁.capacity_pos, hf₁.capacity_le, hlt, ?_⟩
      refine (readable_iff_slots (hlen₂.symm ▸ hlt)).2 ?_
      intro q hq
      rcases List.mem_append.1 (hslots.subset hq) with hq | hq
      · exact (readable_iff_slots hf.size_le_length).1 hf.readable q hq
      · exact ⟨p, List.mem_singleton.1 hq, hp⟩
    · refine hord _ (Nat.lt_succ_self _) ?_
      refine (Ordered.rising ?_ _)
      rw [hsize]
      exact ho.congr fun i hi => key_congr (hin i hi)
    · have hne : i ≠ hole' := by
        have : h₁.curSize + 1 ≤ i := hi
        omega
      have hlt' : h₁.curSize < i := hi
      rw [List.getElem?_set_ne hne.symm, hoff i hlt'] at hq
      exact hout i q hq

theorem addTimer_spec (hs : Shape m h) {p : Addr} (hp : m.Live p) (hnew : some p ∉ h.slots) :
    h.addTimer m (some p) = .ok none ∨
      ∃ h', h.addTimer m (some p) = .ok (some h') ∧ Shape m h' ∧ h'.curSize = h.curSize + 1 ∧
        h'.slots ~ h.slots ++ [some p] ∧
        (Ordered (key m h.array) h.curSize → Ordered (key m h'.array) h'.curSize) ∧
        ∀ (i : ℕ) (q : Addr), h'.curSize ≤ i → h'.array[i]? = some (some q) →
          h.array[i]? = some (some q) := by
  rcases addTimer_filled hs.toFilled hp with ⟨hnone, -⟩ | ⟨h', hsome, hf, hsize, -, hslots, hrest⟩
  · exact .inl hnone
  · have hnodup : (h.slots ++ [some p]).Nodup :=
      List.nodup_append.2 ⟨hs.nodup, List.nodup_singleton _, fun a ha b hb => by
        rintro rfl
        exact hnew (List.mem_singleton.1 hb ▸ ha)⟩
    exact .inr ⟨h', hsome, ⟨hf, hslots.nodup_iff.2 hnodup⟩, hsize, hslots, hrest⟩

/-! ### `pop` up to the call of `percolate_down` -/

/-- The root is freed and the last timer has its place. -/
def Heap.dropRoot (m : Store HeapTimer) (h : Heap) : Store HeapTimer × Heap :=
  (h.array[0]?.join.elim m m.erase,
    { h with array := h.array.set 0 h.array[h.curSize - 1]?.join, curSize := h.curSize - 1 })

theorem pop_of_empty (h0 : h.curSize = 0) : h.pop m = .ok (m, h) := by
  simp [Heap.pop, Heap.empty, h0]

theorem Shape.exists_root (hs : Shape m h) (h0 : 0 < h.curSize) :
    ∃ root last, h.array[0]? = some (some root) ∧ m.Live root ∧
      h.array[h.curSize - 1]? = some (some last) ∧ m.Live last := by
  obtain ⟨root, hroot, hlive⟩ := hs.readable 0 h0
  obtain ⟨last, hlast, hlive'⟩ := hs.readable (h.curSize - 1) (by omega)
  exact ⟨root, last, hroot, hlive, hlast, hlive'⟩

theorem pop_eq (hs : Shape m h) (h0 : 0 < h.curSize) :
    h.pop m = percolateDown (h.dropRoot m).1 (h.curSize - 1) (h.dropRoot m).2.array 0 >>=
      fun array => .ok ((h.dropRoot m).1, { (h.dropRoot m).2 with array }) := by
  obtain ⟨root, last, hroot, hlive, hlast, -⟩ := hs.exists_root h0
  have hempty : h.empty = false := by
    simp [Heap.empty, h0.ne']
  have hfree : m.free (some root) = .ok (m.erase root) :=
    Store.free_eq_ok.2 (.inr ⟨root, rfl, hlive, rfl⟩)
  have hlt : 0 < h.array.length := h0.trans_le hs.size_le_length
  simp [Heap.pop, hempty, load_eq_ok.2 hroot, load_eq_ok.2 hlast, hfree,
    store_eq_ok.2 ⟨hlt, rfl⟩, Heap.dropRoot, hroot, hlast]

section DropRoot

variable (hs : Shape m h) (h1 : 1 ≤ h.curSize - 1)
include hs h1

theorem dropRoot_readable (hi : i ≤ h.curSize - 1) :
    Readable (h.dropRoot m).1 (h.dropRoot m).2.array i := by
  obtain ⟨root, last, hroot, -, hlast, -⟩ := hs.exists_root (by omega)
  have hother : ∀ j p, 0 < j → j < h.curSize → h.array[j]? = some (some p) →
      (m.erase root).Live p := by
    intro j p hj hjn hp
    have hne : p ≠ root := by
      rintro rfl
      exact hj.ne' (hs.slot_inj hjn (by omega) hp hroot)
    exact (Store.live_erase_of_ne hne).2 (hs.live (mem_slots_iff.2 ⟨j, hjn, hp⟩))
  have hlt : 0 < h.array.length := (show 0 < h.curSize by omega).trans_le hs.size_le_length
  simp only [Heap.dropRoot, hroot, hlast, Option.join_some, Option.elim_some]
  rcases Nat.eq_zero_or_pos i with rfl | h0
  · exact ⟨last, List.getElem?_set_self hlt, hother _ _ h1 (by omega) hlast⟩
  · obtain ⟨p, hp, -⟩ := hs.readable i (by omega)
    exact ⟨p, by rw [List.getElem?_set_ne h0.ne, hp], hother i p h0 (by omega) hp⟩

theorem dropRoot_key (hi : i ≤ h.curSize - 1) :
    key (h.dropRoot m).1 (h.dropRoot m).2.array i =
      Function.update (key m h.array) 0 (key m h.array (h.curSize - 1)) i := by
  obtain ⟨root, last, hroot, -, hlast, -⟩ := hs.exists_root (by omega)
  have hother : ∀ j p, 0 < j → j < h.curSize → h.array[j]? = some (some p) →
      keyOf (m.erase root) (some p) = keyOf m (some p) := by
    intro j p hj hjn hp
    have hne : p ≠ root := by
      rintro rfl
      exact hj.ne' (hs.slot_inj hjn (by omega) hp hroot)
    exact keyOf_erase_of_ne hne
  have hlt : 0 < h.array.length := (show 0 < h.curSize by omega).trans_le hs.size_le_length
  simp only [Heap.dropRoot, hroot, hlast, Option.join_some, Option.elim_some]
  rcases Nat.eq_zero_or_pos i with rfl | h0
  · rw [Function.update_self, key_of_getElem? (List.getElem?_set_self hlt),
      hother _ _ h1 (by omega) hlast, key_of_getElem? hlast]
  · obtain ⟨p, hp, -⟩ := hs.readable i (by omega)
    rw [Function.update_of_ne h0.ne', key_of_getElem? hp,
      key_of_getElem? ((List.getElem?_set_ne h0.ne).trans hp), hother i p h0 (by omega) hp]

theorem dropRoot_last :
    (h.dropRoot m).2.array[h.curSize - 1]? = (h.dropRoot m).2.array[0]? := by
  obtain ⟨root, last, -, -, hlast, -⟩ := hs.exists_root (by omega)
  have hlt : 0 < h.array.length := (show 0 < h.curSize by omega).trans_le hs.size_le_length
  simp only [Heap.dropRoot, hlast, Option.join_some]
  rw [List.getElem?_set_self hlt, List.getElem?_set_ne (by omega), hlast]

end DropRoot

theorem dropRoot_perm (hs : Shape m h) {root : Addr} (h0 : 0 < h.curSize)
    (hroot : h.array[0]? = some (some root)) :
    some root :: (h.dropRoot m).2.slots ~ h.slots := by
  obtain ⟨n, hn⟩ := Nat.exists_eq_succ_of_ne_zero h0.ne'
  have hlen := hs.size_le_length
  cases harr : h.array with
  | nil => simp [harr] at hroot
  | cons q rest =>
    rw [harr, List.getElem?_cons_zero, Option.some.injEq] at hroot
    subst hroot
    obtain ⟨-, last, -, -, hlast, -⟩ := hs.exists_root h0
    rw [hn, Nat.succ_sub_one, harr] at hlast
    simp only [Heap.slots, Heap.dropRoot, hn, Nat.succ_sub_one, harr, hlast, Option.join_some,
      List.set_cons_zero, List.take_succ_cons]
    refine .cons _ ?_
    cases n with
    | zero => exact .refl _
    | succ n =>
      rw [List.getElem?_cons_succ] at hlast
      rw [List.take_succ_cons, List.take_add_one, hlast, Option.toList_some]
      exact (List.perm_append_singleton _ _).symm

theorem dropRoot_mem (hs : Shape m h) (h0 : 0 < h.curSize) :
    ∀ p ∈ (h.dropRoot m).2.array, p ∈ h.array := by
  obtain ⟨-, last, -, -, hlast, -⟩ := hs.exists_root h0
  intro p hp
  simp only [Heap.dropRoot, hlast, Option.join_some] at hp
  rcases List.mem_or_eq_of_mem_set hp with hp | rfl
  · exact hp
  · exact List.mem_of_getElem? hlast

/-! ### `percolate_down` and `pop` -/

theorem percolateDown_eq_ok {b : List Ptr} : percolateDown m n array 0 = .ok b ↔
    ∃ tmp a last, array[0]? = some tmp ∧
      percolateLoop m n (array.length + 1) array 0 = .ok (a, last) ∧ last < a.length ∧
      b = a.set last tmp := by
  simp only [percolateDown, bind_eq_ok, load_eq_ok, store_eq_ok, Prod.exists]
  constructor
  · rintro ⟨tmp, htmp, a, last, hloop, hlast, rfl⟩
    exact ⟨tmp, a, last, htmp, hloop, hlast, rfl⟩
  · rintro ⟨tmp, a, last, htmp, hloop, hlast, rfl⟩
    exact ⟨tmp, htmp, a, last, hloop, hlast, rfl⟩

theorem percolateDown_zero (hlt : 0 < array.length) :
    percolateDown m 0 array 0 = .ok array := by
  have hget : array[0]? = some (array.get ⟨0, hlt⟩) := List.getElem?_eq_getElem hlt
  refine percolateDown_eq_ok.2 ⟨_, array, 0, hget, rfl, hlt, ?_⟩
  obtain ⟨h, heq⟩ := List.getElem?_eq_some_iff.1 hget
  rw [← heq, List.set_getElem_self]

/-- The slots that the hole passes through when the root is popped, from the state on in which
`percolate_down` is called. -/
def Visits (m : Store HeapTimer) (h : Heap) (i : ℕ) : Prop :=
  ReflTransGen (Sinks (h.dropRoot m).1 (h.curSize - 1) (h.dropRoot m).2.array) 0 i

theorem percolateDown_ok_iff_reads (hs : Shape m h) (h1 : 1 ≤ h.curSize - 1) :
    (∃ b, percolateDown (h.dropRoot m).1 (h.curSize - 1) (h.dropRoot m).2.array 0 = .ok b) ↔
      ∀ i, Visits m h i →
        RoundReads (h.dropRoot m).1 (h.curSize - 1) (h.dropRoot m).2.array i := by
  rw [show (∀ i, Visits m h i → _) ↔ _ from (percolateLoop_ok_iff h1 (.refl _ _) rfl
    (Nat.lt_of_lt_of_eq (Nat.lt_succ_self _) (Nat.zero_add _).symm)).symm]
  obtain ⟨tmp, htmp, -⟩ := dropRoot_readable hs h1 (Nat.zero_le _)
  constructor
  · rintro ⟨b, hb⟩
    obtain ⟨-, a, last, -, hloop, -⟩ := percolateDown_eq_ok.1 hb
    exact ⟨_, hloop⟩
  · rintro ⟨⟨a, last⟩, hloop⟩
    obtain ⟨hlen, hlast⟩ := percolateLoop_length h1 hloop
    exact ⟨_, percolateDown_eq_ok.2 ⟨_, a, last, htmp, hloop, hlast.trans_eq hlen.symm, rfl⟩⟩

/-- `percolate_down` follows only good pointers when the root is popped iff this holds of the slots
below the last level that it looks at. -/
theorem percolateDown_ok_iff (hs : Shape m h) (h1 : 1 ≤ h.curSize - 1) :
    (∃ b, percolateDown (h.dropRoot m).1 (h.curSize - 1) (h.dropRoot m).2.array 0 = .ok b) ↔
      ∀ i, Visits m h i → 2 * i + 1 ≤ h.curSize - 1 ∨
        Readable (h.dropRoot m).1 (h.dropRoot m).2.array (2 * i + 1) := by
  rw [percolateDown_ok_iff_reads hs h1]
  have hread : ∀ i ≤ h.curSize - 1, Readable (h.dropRoot m).1 (h.dropRoot m).2.array i :=
    fun i hi => dropRoot_readable hs h1 hi
  constructor
  · exact fun hall i hi => .inr (hall i hi).2.1
  · intro hall
    have hchild : ∀ i, Visits m h i →
        Readable (h.dropRoot m).1 (h.dropRoot m).2.array (2 * i + 1) := fun i hi =>
      (hall i hi).elim (hread _) id
    -- a slot that the hole comes to is the root, or a child that the round above has read
    have hself : ∀ i, Visits m h i → Readable (h.dropRoot m).1 (h.dropRoot m).2.array i := by
      intro i hi
      cases hi with
      | refl => exact hread 0 (Nat.zero_le _)
      | @tail j _ hj hsink =>
        rw [hsink.1]
        rcases lesserChild_cases (h.dropRoot m).1 (h.curSize - 1) (h.dropRoot m).2.array j with
          he | ⟨he, hlt⟩
        · rw [he]
          exact hchild j hj
        · rw [he]
          exact hread _ hlt
    exact fun i hi => ⟨hself i hi, hchild i hi, fun hlt => hread _ hlt⟩

/-- The hole stays above a slot below the last level that it looks at: this slot is readable, and
its timer does not expire earlier. -/
def Clear (m : Store HeapTimer) (h : Heap) : Prop :=
  1 ≤ h.curSize - 1 → ∀ i, Visits m h i → 2 * i + 1 ≤ h.curSize - 1 ∨
    Readable (h.dropRoot m).1 (h.dropRoot m).2.array (2 * i + 1) ∧
      key (h.dropRoot m).1 (h.dropRoot m).2.array i ≤
        key (h.dropRoot m).1 (h.dropRoot m).2.array (2 * i + 1)

/-- In a clear heap the hole does not move below the last level, and stays there. -/
theorem Clear.sinks_le (hc : Clear m h) (h1 : 1 ≤ h.curSize - 1) (hi : Visits m h i)
    (hij : Sinks (h.dropRoot m).1 (h.curSize - 1) (h.dropRoot m).2.array i j) :
    i < h.curSize - 1 ∧ j ≤ h.curSize - 1 := by
  obtain ⟨hj, hlt⟩ := hij
  have hle : 2 * i + 1 ≤ h.curSize - 1 := by
    rcases hc h1 i hi with hle | ⟨-, hle⟩
    · exact hle
    · rcases lesserChild_cases (h.dropRoot m).1 (h.curSize - 1) (h.dropRoot m).2.array i with
        he | ⟨-, hlt'⟩
      · rw [hj, he] at hlt
        exact absurd hlt (not_lt.2 hle)
      · exact hlt'.le
  refine ⟨by omega, ?_⟩
  rcases lesserChild_cases (h.dropRoot m).1 (h.curSize - 1) (h.dropRoot m).2.array i with
    he | ⟨he, hlt'⟩
  · rw [hj, he]
    exact hle
  · rw [hj, he]
    exact hlt'

/-- A pop of a clear heap goes well: the root is freed, the other timers stay. -/
theorem pop_spec (hs : Shape m h) (hc : Clear m h) (h0 : 0 < h.curSize) :
    ∃ root h', h.array[0]? = some (some root) ∧ h.pop m = .ok (m.erase root, h') ∧
      Shape (m.erase root) h' ∧ h'.curSize = h.curSize - 1 ∧ some root :: h'.slots ~ h.slots ∧
      ∀ p ∈ h'.array, p ∈ h.array := by
  obtain ⟨root, last, hroot, -, hlast, -⟩ := hs.exists_root h0
  have hm : (h.dropRoot m).1 = m.erase root := by
    simp only [Heap.dropRoot, hroot, Option.join_some, Option.elim_some]
  have hlen : (h.dropRoot m).2.array.length = h.array.length := List.length_set
  have hperm := dropRoot_perm (m := m) hs h0 hroot
  have hmem := dropRoot_mem (m := m) hs h0
  obtain ⟨b, hb, hblen, hbperm, hbmem⟩ : ∃ b,
      percolateDown (h.dropRoot m).1 (h.curSize - 1) (h.dropRoot m).2.array 0 = .ok b ∧
      b.length = h.array.length ∧ b.take (h.curSize - 1) ~ (h.dropRoot m).2.slots ∧
      ∀ p ∈ b, p ∈ h.array := by
    rcases Nat.eq_zero_or_pos (h.curSize - 1) with hn | h1
    · refine ⟨_, by rw [hn]; exact percolateDown_zero (by have := hs.size_le_length; omega), hlen,
        .refl _, hmem⟩
    · obtain ⟨b, hb⟩ := (percolateDown_ok_iff hs h1).2 fun i hi => (hc h1 i hi).imp_right And.left
      obtain ⟨tmp, a, last, htmp, hloop, hlast, rfl⟩ := percolateDown_eq_ok.1 hb
      refine ⟨_, hb, ?_, ?_, ?_⟩
      · rw [List.length_set, (percolateLoop_length h1 hloop).1, hlen]
      · refine (percolateLoop_perm h1 (.refl _ _) ?_ ?_ hloop).trans (.of_eq ?_)
        · rw [hlen]
          exact (Nat.sub_le _ _).trans hs.size_le_length
        · intro i j hi hij
          obtain ⟨hin, hjn⟩ := hc.sinks_le h1 hi hij
          refine ⟨hin, (Nat.lt_or_eq_of_le hjn).imp_right fun hj => ⟨hj, ?_⟩⟩
          rw [dropRoot_last hs h1, htmp]
        · obtain ⟨_, heq⟩ := List.getElem?_eq_some_iff.1 htmp
          rw [← heq, List.set_getElem_self]
          rfl
      · intro p hp
        rcases List.mem_or_eq_of_mem_set hp with hp | rfl
        · exact hmem p (percolateLoop_mem h1 hloop p hp)
        · exact hmem _ (List.mem_of_getElem? htmp)
  refine ⟨root, { (h.dropRoot m).2 with array := b }, hroot, ?_, ?_, rfl, ?_, hbmem⟩
  · rw [pop_eq hs h0, hb, hm]
    rfl
  · have hslots := (hbperm.cons (some root)).trans hperm
    have hnodup := List.nodup_cons.1 (hslots.nodup_iff.2 hs.nodup)
    refine ⟨⟨hblen.trans hs.length_eq, hs.capacity_pos, hs.capacity_le,
      (Nat.sub_le _ _).trans hs.size_le, ?_⟩, hnodup.2⟩
    refine (readable_iff_slots ?_).2 fun q hq => ?_
    · exact (Nat.sub_le _ _).trans (hs.size_le_length.trans_eq hblen.symm)
    · obtain ⟨a, rfl, hlive⟩ := (readable_iff_slots hs.size_le_length).1 hs.readable q
        (hslots.subset (List.mem_cons_of_mem _ hq))
      refine ⟨a, rfl, ?_⟩
      have hne : a ≠ root := by
        rintro rfl
        exact hnodup.1 hq
      exact (Store.live_erase_of_ne hne).2 hlive
  · exact (hbperm.cons _).trans hperm

theorem Shape.of_pop (hs : Shape m h) (hc : Clear m h) (h0 : 0 < h.curSize)
    (hp : h.pop m = .ok (m', h')) :
    ∃ root, h.array[0]? = some (some root) ∧ m' = m.erase root ∧ Shape m' h' ∧
      h'.curSize = h.curSize - 1 ∧ some root :: h'.slots ~ h.slots ∧ ∀ p ∈ h'.array, p ∈ h.array := by
  obtain ⟨root, h₁, hroot, hpop, hs₁, hsize, hperm, hsub⟩ := pop_spec hs hc h0
  obtain ⟨rfl, rfl⟩ := Prod.mk.inj (Except.ok.inj (hpop.symm.trans hp))
  exact ⟨root, hroot, rfl, hs₁, hsize, hperm, hsub⟩

theorem Shape.root_notMem (hs : Shape m h) {root : Addr} (hperm : some root :: h'.slots ~ h.slots) :
    some root ∉ h'.slots :=
  (List.nodup_cons.1 (hperm.nodup_iff.2 hs.nodup)).1

end TimeHeap

end LinuxServer
