import LinuxServer.TimeHeap.Shape

/-!
# Room for one more

`resize` doubles the capacity once and does not ask whether that makes room.

* `addTimers m h timers`: calls of `add_timer`, one after the other.
* `GrowsEnough m h timers`: the array is always as long as `capacity` says and no call stores into
  a slot behind it.

`growsEnough_iff`: twice no slot is no slot; from any other capacity there is room in every run.
-/

namespace LinuxServer

namespace TimeHeap

open Memory

variable {m : Store HeapTimer} {h h' u v : Heap} {timers : List Addr} {cap : ℤ}

/-- Calls of `add_timer`, one after the other. -/
def addTimers (m : Store HeapTimer) (h : Heap) : List Addr → Except Fault Heap
  | [] => pure h
  | p :: timers => do
    let added ← h.addTimer m (some p)
    -- a call that throws has changed nothing
    addTimers m (added.getD h) timers

/-- No call stores outside the array, which is as long as `capacity` says after each call.  The
greatest slot that a call stores into, `cur_size`, is below `capacity` once it has made room. -/
structure GrowsEnough (m : Store HeapTimer) (h : Heap) (timers : List Addr) : Prop where
  length_eq : ∀ pre, pre <+: timers → ∃ u, addTimers m h pre = .ok u ∧ u.array.length = u.capacity
  room : ∀ pre p u v, pre ++ [p] <+: timers → addTimers m h pre = .ok u → u.grow = .ok (some v) →
    u.curSize < v.capacity ∧ v.array.length = v.capacity

theorem Filled.addTimer (hf : Filled m h) {p : Addr} (hp : m.Live p) :
    ∃ added, h.addTimer m (some p) = .ok added ∧ Filled m (added.getD h) := by
  rcases addTimer_filled hf hp with ⟨hadd, -⟩ | ⟨h', hadd, hf', -⟩
  · exact ⟨none, hadd, hf⟩
  · exact ⟨some h', hadd, hf'⟩

theorem Filled.addTimers (hf : Filled m h) (hlive : ∀ p ∈ timers, m.Live p) :
    ∃ u, addTimers m h timers = .ok u ∧ Filled m u := by
  induction timers generalizing h with
  | nil => exact ⟨h, rfl, hf⟩
  | cons p timers ih =>
    obtain ⟨added, hadd, hf₁⟩ := hf.addTimer (hlive p List.mem_cons_self)
    obtain ⟨u, hall, hu⟩ := ih hf₁ fun q hq => hlive q (List.mem_cons_of_mem _ hq)
    refine ⟨u, ?_, hu⟩
    rw [TimeHeap.addTimers, hadd, ok_bind, hall]

theorem Filled.growsEnough (hf : Filled m h) (hlive : ∀ p ∈ timers, m.Live p) :
    GrowsEnough m h timers := by
  have hrun : ∀ pre, pre <+: timers → ∃ u, TimeHeap.addTimers m h pre = .ok u ∧ Filled m u :=
    fun pre hpre => hf.addTimers fun p hp => hlive p (hpre.subset hp)
  constructor
  · intro pre hpre
    obtain ⟨u, hall, hu⟩ := hrun pre hpre
    exact ⟨u, hall, hu.length_eq⟩
  · intro pre p u v hpre hall hgrow
    obtain ⟨u', hall', hu⟩ := hrun pre ((List.prefix_append pre [p]).trans hpre)
    obtain rfl := Except.ok.inj (hall'.symm.trans hall)
    rcases grow_spec hu with ⟨hthrows, -⟩ | ⟨v', hgrow', hv, hsize, hlt, -⟩
    · cases hthrows.symm.trans hgrow
    · obtain rfl := Option.some.inj (Except.ok.inj (hgrow'.symm.trans hgrow))
      exact ⟨hsize ▸ hlt, hv.length_eq⟩

theorem timeHeap_length_eq (hh : timeHeap cap = some h) : h.array.length = h.capacity := by
  obtain ⟨array, hnew, rfl⟩ := Option.map_eq_some_iff.1 hh
  unfold newArray at hnew
  split_ifs at hnew
  obtain rfl := Option.some.inj hnew
  exact List.length_replicate

/-- **When the heap grows enough**: in every run of `add_timer`, from every capacity but zero.  From
zero it does only as long as nothing is added. -/
theorem growsEnough_iff (hint : cap ≤ intMax) (hh : timeHeap cap = some h)
    (hlive : ∀ p ∈ timers, m.Live p) : GrowsEnough m h timers ↔ 1 ≤ cap ∨ timers = [] := by
  constructor
  · intro hg
    by_contra hnot
    obtain ⟨hcap, hne⟩ := not_or.1 hnot
    obtain ⟨p, timers, rfl⟩ := List.exists_cons_of_ne_nil hne
    obtain rfl : cap = 0 := by
      have hnonneg : 0 ≤ cap := by
        by_contra hneg
        rw [timeHeap, newArray, if_neg hneg] at hh
        cases hh
      omega
    obtain rfl := Option.some.inj hh
    -- the first timer is stored behind an array of no slots
    obtain ⟨u, hall, -⟩ := hg.length_eq [p] ⟨timers, rfl⟩
    cases hall
  · rintro (hcap | rfl)
    · exact (timeHeap_spec hcap hint hh).1.growsEnough hlive
    · constructor
      · intro pre hpre
        obtain rfl := List.prefix_nil.1 hpre
        exact ⟨h, rfl, timeHeap_length_eq hh⟩
      · intro pre p u v hpre
        exact absurd (List.prefix_nil.1 hpre) (List.append_ne_nil_of_right_ne_nil pre (by simp))

/-- Three timers, and room for one. -/
theorem growsEnough_iff_one :
    GrowsEnough ⟨[some ⟨3, none, none⟩, some ⟨1, none, none⟩, some ⟨2, none, none⟩], []⟩
      ⟨[none], 1, 0⟩ [0, 1, 2] :=
  (growsEnough_iff (by decide) (rfl : timeHeap 1 = _) (by decide)).2 (.inl le_rfl)

/-- A timer for a heap that was made with capacity zero. -/
theorem not_growsEnough_zero : ¬ ∀ (m : Store HeapTimer) (cap : ℤ) (h : Heap) (timers : List Addr),
    cap ≤ intMax → timeHeap cap = some h → (∀ p ∈ timers, m.Live p) → GrowsEnough m h timers := by
  intro hall
  have hg := hall ⟨[some ⟨1, none, none⟩], []⟩ 0 ⟨[], 0, 0⟩ [0] (by decide) rfl (by decide)
  obtain ⟨u, hrun, -⟩ := hg.length_eq [0] (List.prefix_refl _)
  cases hrun

end TimeHeap

end LinuxServer
