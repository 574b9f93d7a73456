import LinuxServer.TimeHeap.Order

/-!
# `percolate_down` and the end of the heap

The condition of the loop of `percolate_down` holds in every round, so that the loop ends only
where the timer in the hole does not expire after the one it is compared with.  Below the last
level that comparison follows whatever pointer is there.

* `LeftAt m h i`: slot `i` holds a timer that is left in the heap when the root is popped.
* `Halts m h`: the comparison below the last level is with such a timer and ends the loop.

`percolateDown_ok_iff_left`: `percolate_down` goes well iff the comparison is with such a timer.
`safe_of_run`: in a run whose pops meet `Halts` no pop and no tick fails.
-/

namespace LinuxServer

namespace TimeHeap

open Memory

variable {m : Store HeapTimer} {h : Heap} {added : List Addr} {cur : ℤ} {i : ℕ}

/-- Slot `i` holds a timer that is left in the heap when the root is popped. -/
def LeftAt (m : Store HeapTimer) (h : Heap) (i : ℕ) : Prop :=
  ∃ p, some p ∈ (h.dropRoot m).2.slots ∧ (h.dropRoot m).2.array[i]? = some (some p)

/-- A slot behind the heap that the hole is compared with was given up by an earlier pop, and its
timer is still in the heap and does not expire before that of the hole's slot. -/
def Halts (m : Store HeapTimer) (h : Heap) : Prop :=
  1 ≤ h.curSize - 1 → ∀ i, Visits m h i → 2 * i + 1 ≤ h.curSize - 1 ∨ LeftAt m h (2 * i + 1) ∧
    key (h.dropRoot m).1 (h.dropRoot m).2.array i ≤
      key (h.dropRoot m).1 (h.dropRoot m).2.array (2 * i + 1)

section Left

variable (hk : Kept added m h) (h0 : 0 < h.curSize)
include hk h0

/-- A slot that can be read when the root is popped holds a timer of the heap. -/
theorem leftAt_iff_readable :
    LeftAt m h i ↔ Readable (h.dropRoot m).1 (h.dropRoot m).2.array i := by
  obtain ⟨root, -, hroot, -⟩ := hk.shape.exists_root h0
  have hperm := dropRoot_perm (m := m) hk.shape h0 hroot
  have hm : (h.dropRoot m).1 = m.erase root := by
    simp only [Heap.dropRoot, hroot, Option.join_some, Option.elim_some]
  rw [hm]
  constructor
  · rintro ⟨p, hp, hget⟩
    have hne : p ≠ root := by
      rintro rfl
      exact hk.shape.root_notMem hperm hp
    have hlive := hk.shape.live (hperm.subset (List.mem_cons_of_mem _ hp))
    exact ⟨p, hget, (Store.live_erase_of_ne hne).2 hlive⟩
  · rintro ⟨p, hget, hlive⟩
    have hne : p ≠ root := by
      rintro rfl
      simp [Store.Live] at hlive
    rw [Store.live_erase_of_ne hne] at hlive
    have hslot : some p ∈ h.slots :=
      (hk.tidy p (dropRoot_mem hk.shape h0 _ (List.mem_of_getElem? hget))).resolve_right
        fun hfreed => (hk.dead p hfreed).2.2 hlive
    rcases List.mem_cons.1 (hperm.mem_iff.2 hslot) with heq | hslot
    · exact absurd (Option.some.inj heq) hne
    · exact ⟨p, hslot, hget⟩

end Left

theorem halts_iff_clear (hk : Kept added m h) : Halts m h ↔ Clear m h := by
  refine forall_congr' fun h1 => ?_
  simp only [leftAt_iff_readable hk (show 0 < h.curSize by omega)]

/-- `percolate_down` follows only good pointers iff each slot behind the heap that it looks at holds
a timer of the heap. -/
theorem percolateDown_ok_iff_left (hk : Kept added m h) (h1 : 1 ≤ h.curSize - 1) :
    (∃ b, percolateDown (h.dropRoot m).1 (h.curSize - 1) (h.dropRoot m).2.array 0 = .ok b) ↔
      ∀ i, Visits m h i → 2 * i + 1 ≤ h.curSize - 1 ∨ LeftAt m h (2 * i + 1) := by
  rw [percolateDown_ok_iff hk.shape h1]
  simp only [leftAt_iff_readable hk (show 0 < h.curSize by omega)]

section Halts

variable {w w' : World} {op : Op} (hk : Kept w.added w.timers w.heap)
include hk

theorem popsMeet_halts_iff : PopsMeet Halts w op ↔ PopsMeet Clear w op := by
  constructor
  · refine PopsMeet.imp (I := Kept w.added) ?_ (fun m h hk => (halts_iff_clear hk).1) hk
    exact fun m h m' h' hk hc hp => hk.pop ((halts_iff_clear hk).1 hc) hp
  · refine PopsMeet.imp (I := Kept w.added) ?_ (fun m h hk => (halts_iff_clear hk).2) hk
    exact fun m h m' h' hk hc hp => hk.pop hc hp

end Halts

/-- The runs whose pops meet `Halts` are those whose pops meet `Clear`. -/
theorem run_halts_iff {cap : ℤ} {w : World} {ops : List Op} (hcap : 1 ≤ cap) (hint : cap ≤ intMax)
    (hh : timeHeap cap = some h) : (timeHeapLTS.guard (PopsMeet Halts)).Run (.init h) ops w ↔
      (timeHeapLTS.guard (PopsMeet Clear)).Run (.init h) ops w := by
  have hinit := Kept.init hcap hint hh
  constructor
  · intro hrun
    have hkept := hrun.guard_invariant (I := fun w => Kept w.added w.timers w.heap) hinit
      fun _ _ _ hk hs => hk.step hs.1 ((popsMeet_halts_iff hk).1 hs.2)
    exact hkept.mono fun _ _ _ _ hs => ⟨hs.1.1, (popsMeet_halts_iff hs.2).1 hs.1.2⟩
  · intro hrun
    have hkept := hrun.guard_invariant (I := fun w => Kept w.added w.timers w.heap) hinit
      fun _ _ _ hk hs => hk.step hs.1 hs.2
    exact hkept.mono fun _ _ _ _ hs => ⟨hs.1.1, (popsMeet_halts_iff hs.2).2 hs.1.2⟩

theorem Clear.exists_pop (hc : Clear m h) (hs : Shape m h) : ∃ r, h.pop m = .ok r := by
  rcases Nat.eq_zero_or_pos h.curSize with h0 | h0
  · exact ⟨_, pop_of_empty h0⟩
  · obtain ⟨root, h', -, hp, -⟩ := pop_spec hs hc h0
    exact ⟨_, hp⟩

theorem Shape.callback_ok (hs : Shape m h) (h0 : 0 < h.curSize) :
    ∃ calls, h.callback m = .ok calls := by
  obtain ⟨p, hp, hlive⟩ := hs.readable 0 h0
  obtain ⟨t, ht⟩ := hlive.exists_get?
  refine ⟨t.cbFunc.toList.map fun cb => ⟨some p, cb, t.userData⟩, ?_⟩
  simp [Heap.callback, load_eq_ok.2 hp, Store.read_eq_ok.2 ⟨p, rfl, ht⟩]

theorem tickLoop_ok {fuel : ℕ} {tmp : Ptr} (hs : Shape m h) (htmp : h.array[0]? = some tmp)
    (hC : ∀ m' h', TickPops cur m h m' h' → Clear m' h') :
    ∃ r, tickLoop cur fuel tmp m h = .ok r := by
  induction fuel generalizing m h tmp with
  | zero => exact ⟨_, rfl⟩
  | succ fuel ih =>
    by_cases hdue : Due cur m h
    · have h0 := Nat.pos_of_ne_zero hdue.1
      have hclear := hC m h (.here hdue)
      obtain ⟨calls, hcb⟩ := hs.callback_ok h0
      obtain ⟨root, h₁, -, hpop, hs₁, -⟩ := pop_spec hs hclear h0
      have hlt : 0 < h₁.array.length := hs₁.capacity_pos.trans_eq hs₁.length_eq.symm
      have htmp₁ : h₁.array[0]? = some (h₁.array.get ⟨0, hlt⟩) := List.getElem?_eq_getElem hlt
      obtain ⟨⟨m', h', later⟩, hloop⟩ := ih hs₁ htmp₁ fun m' h' hp => hC m' h' (.later hdue hpop hp)
      exact ⟨_, (tickLoop_succ htmp).2
        (.inr ⟨hdue, calls, _, h₁, _, m', h', later, hcb, hpop, htmp₁, hloop, rfl⟩)⟩
    · refine ⟨_, (tickLoop_succ htmp).2 (.inl ⟨hdue, ?_, rfl⟩)⟩
      rintro p h0 rfl
      exact hs.live (mem_slots_iff.2 ⟨0, Nat.pos_of_ne_zero h0, htmp⟩)

theorem tick_ok (hs : Shape m h) (hC : ∀ m' h', TickPops cur m h m' h' → Clear m' h') :
    ∃ r, h.tick m cur = .ok r := by
  have hlt : 0 < h.array.length := hs.capacity_pos.trans_eq hs.length_eq.symm
  have htmp : h.array[0]? = some (h.array.get ⟨0, hlt⟩) := List.getElem?_eq_getElem hlt
  obtain ⟨r, hr⟩ := tickLoop_ok hs htmp hC
  exact ⟨r, by rw [Heap.tick, load_eq_ok.2 htmp, ok_bind, hr]⟩

/-- In `w` a pop or tick whose pops meet `Halts` does not fail; and `percolate_down` follows only
good pointers exactly when the slots behind the heap that it looks at hold timers of the heap. -/
structure Safe (w : World) : Prop where
  pop : Halts w.timers w.heap → ∃ w', exec w .pop = .ok w'
  tick : ∀ cur, PopsMeet Halts w (.tick cur) → ∃ w', exec w (.tick cur) = .ok w'
  percolate : 1 ≤ w.heap.curSize - 1 →
    ((∃ b, percolateDown (w.heap.dropRoot w.timers).1 (w.heap.curSize - 1)
        (w.heap.dropRoot w.timers).2.array 0 = .ok b) ↔
      ∀ i, Visits w.timers w.heap i → 2 * i + 1 ≤ w.heap.curSize - 1 ∨
        LeftAt w.timers w.heap (2 * i + 1))

/-- **`percolate_down` follows only good pointers** in every run whose pops, by themselves or in a
tick, meet `Halts`. -/
theorem safe_of_run {cap : ℤ} {w : World} {ops : List Op} (hcap : 1 ≤ cap) (hint : cap ≤ intMax)
    (hh : timeHeap cap = some h)
    (hrun : (timeHeapLTS.guard (PopsMeet Halts)).Run (.init h) ops w) : Safe w := by
  have hk := kept_of_run hcap hint hh ((run_halts_iff hcap hint hh).1 hrun)
  refine ⟨fun hc => ?_, fun cur hC => ?_, percolateDown_ok_iff_left hk⟩
  · obtain ⟨⟨m', h'⟩, hr⟩ := ((halts_iff_clear hk).1 hc).exists_pop hk.shape
    exact ⟨_, by rw [exec, hr, ok_bind]; rfl⟩
  · obtain ⟨⟨m', h', calls⟩, hr⟩ := tick_ok hk.shape ((popsMeet_halts_iff hk).1 hC)
    exact ⟨_, by rw [exec, hr, ok_bind]; rfl⟩

/-- In the heap left, slot 3 is behind the heap and still holds one of its timers, with which the
next `percolate_down` compares the hole in slot 1. -/
theorem safe_of_run_eight : ∃ w, (timeHeapLTS.guard (PopsMeet Halts)).Run
    (.init ⟨List.replicate 4 none, 4, 0⟩) (eightTimers ++ [.tick 5]) w ∧ w.heap.curSize = 3 ∧
      Safe w := by
  obtain ⟨w, hrun, hsize⟩ := run_eightTimers
  have hcap : (1 : ℤ) ≤ 4 := by decide
  have hint : (4 : ℤ) ≤ intMax := by decide
  have hheap : timeHeap 4 = some ⟨List.replicate 4 none, 4, 0⟩ := rfl
  have hhalts := (run_halts_iff hcap hint hheap).2 (clear_of_oneLevel hcap hint hheap hrun)
  exact ⟨w, hhalts, hsize, safe_of_run hcap hint hheap hhalts⟩

/-- A heap with the expires 1, 2 and 3 in an array of three slots: when the root is popped,
`percolate_down` reads slot 3. -/
theorem percolateDown_outOfBounds :
    ¬ ∀ (cap : ℤ) (h : Heap), 1 ≤ cap → cap ≤ intMax → timeHeap cap = some h →
      ∀ ops w, timeHeapLTS.Run (.init h) ops w → 1 ≤ w.heap.curSize - 1 →
        ∃ b, percolateDown (w.heap.dropRoot w.timers).1 (w.heap.curSize - 1)
          (w.heap.dropRoot w.timers).2.array 0 = .ok b := by
  intro hall
  have hplay : LTS.play exec Fresh (.init ⟨[none, none, none], 3, 0⟩) (addAll [1, 2, 3]) = some
      ⟨⟨[some ⟨1, some 0, none⟩, some ⟨2, some 0, none⟩, some ⟨3, some 0, none⟩], []⟩,
        ⟨[some 0, some 1, some 2], 3, 3⟩,
        [⟨1, some 0, none⟩, ⟨2, some 0, none⟩, ⟨3, some 0, none⟩], [0, 1, 2], [], []⟩ := by
    decide
  obtain ⟨b, hb⟩ := hall 3 _ (by decide) (by decide) rfl _ _ (LTS.run_of_play hplay) (by decide)
  have hfault : percolateDown (⟨[none, some ⟨2, some 0, none⟩, some ⟨3, some 0, none⟩], [0]⟩ :
      Store HeapTimer) 2 [some 2, some 1, some 2] 0 = .error (.outOfBounds 3) := by decide
  exact absurd (hb.symm.trans hfault) (by simp)

end TimeHeap

end LinuxServer
