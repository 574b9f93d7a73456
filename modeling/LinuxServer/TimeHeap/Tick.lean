import LinuxServer.TimeHeap.Order

/-!
# What a tick fires

* `Recorded w`: a timer is as it was created, but for a callback that was cancelled.
* `TickExact w cur w' fired`: what a tick at `cur` is there for.

`Ticks.exact` says what the rounds of a tick do whose pops need one level, `tickExact_of_run` that
in a run all of whose pops do every tick fires exactly what is due.
-/

namespace LinuxServer

namespace TimeHeap

open Memory BinaryHeap

open scoped List

variable {m m' : Store HeapTimer} {h h' : Heap} {added : List Addr} {cur : ℤ} {calls : List Call}
  {w w' : World} {op : Op}

/-- The callback of a timer, if it is set. -/
def HeapTimer.call (t : HeapTimer) (p : Addr) : List Call :=
  t.cbFunc.toList.map fun cb => ⟨some p, cb, t.userData⟩

/-- The callback of the timer at `p`, if there is one and it is set. -/
def callAt (m : Store HeapTimer) (p : Addr) : List Call := (m.get? p).elim [] fun t => t.call p

/-! ### The rounds of a tick -/

theorem callback_eq {p : Addr} {t : HeapTimer} (hp : h.array[0]? = some (some p))
    (ht : m.get? p = some t) : h.callback m = .ok (callAt m p) := by
  simp [Heap.callback, load_eq_ok.2 hp, Store.read_eq_ok.2 ⟨p, rfl, ht⟩, callAt, ht,
    HeapTimer.call]

/-- When nothing is due the root, and with it every timer, expires later. -/
theorem Good.not_due (hg : Good added m h) (hdue : ¬ Due cur m h) {p : Addr}
    (hp : some p ∈ h.slots) : cur < keyOf m (some p) := by
  obtain ⟨i, hi, hpi⟩ := mem_slots_iff.1 hp
  obtain ⟨root, -, hroot, hlive, -⟩ := hg.shape.exists_root (Nat.zero_lt_of_lt hi)
  obtain ⟨t, ht⟩ := hlive.exists_get?
  have hroot_lt : cur < keyOf m (some root) := by
    have hkey : keyOf m (some root) = t.expire := by simp [keyOf, ht]
    rw [hkey]
    exact not_le.1 fun hle => hdue ⟨(Nat.zero_lt_of_lt hi).ne', root, t, hroot, ht, hle⟩
  rw [← key_of_getElem? hpi]
  rw [← key_of_getElem? hroot] at hroot_lt
  exact hroot_lt.trans_le (hg.ordered.root_le hi)

/-- The rounds fire, in order, the timers that are due. -/
theorem Ticks.exact (ht : Ticks cur m h calls m' h') (hg : Good added m h)
    (hone : ∀ m' h', TickPops cur m h m' h' → OneLevel m' h') :
    ∃ fired, m'.freed = m.freed ++ fired ∧ fired.Nodup ∧
      fired.Pairwise (fun p q => keyOf m (some p) ≤ keyOf m (some q)) ∧
      (∀ p, p ∈ fired ↔ some p ∈ h.slots ∧ keyOf m (some p) ≤ cur) ∧
      (∀ p, some p ∈ h'.slots ↔ some p ∈ h.slots ∧ cur < keyOf m (some p)) ∧
      calls = fired.flatMap (callAt m) := by
  induction ht with
  | stop hdue =>
    refine ⟨[], by simp, .nil, .nil, fun p => ?_, fun p => ?_, rfl⟩
    · refine iff_of_false List.not_mem_nil ?_
      rintro ⟨hp, hle⟩
      exact not_lt.2 hle (hg.not_due hdue hp)
    · exact ⟨fun hp => ⟨hp, hg.not_due hdue hp⟩, And.left⟩
  | @fire m m₁ m' h h₁ h' calls later hdue hcb hpop _ ih =>
    have hg₁ := hg.pop (hone m h (.here hdue)) hpop
    obtain ⟨fired, hfreed, hnodup, hsorted, hfired, hslots, rfl⟩ :=
      ih hg₁ fun m' h' hp => hone m' h' (.later hdue hpop hp)
    have h0 := Nat.pos_of_ne_zero hdue.1
    obtain ⟨root, hroot, rfl, -, -, hperm, -⟩ := hg.shape.of_pop (hg.pop_clear hpop) h0 hpop
    obtain ⟨-, root', t, hroot', hget, hle⟩ := hdue
    obtain rfl : root = root' := Option.some.inj (Option.some.inj (hroot.symm.trans hroot'))
    have hle : keyOf m (some root) ≤ cur := by simpa [keyOf, hget] using hle
    have hnew := hg.shape.root_notMem hperm
    have hmem : ∀ p, some p ∈ h.slots ↔ p = root ∨ some p ∈ h₁.slots := by
      intro p
      rw [← hperm.mem_iff, List.mem_cons, Option.some.injEq]
    have hne : ∀ p, some p ∈ h₁.slots → p ≠ root := by
      rintro p hp rfl
      exact hnew hp
    have hkey : ∀ p, some p ∈ h₁.slots → keyOf (m.erase root) (some p) = keyOf m (some p) :=
      fun p hp => keyOf_erase_of_ne (hne p hp)
    have hin : ∀ p ∈ fired, some p ∈ h₁.slots := fun p hp => ((hfired p).1 hp).1
    rw [callback_eq hroot hget] at hcb
    obtain rfl := Except.ok.inj hcb
    refine ⟨root :: fired, ?_, ?_, ?_, fun p => ?_, fun p => ?_, ?_⟩
    · rw [hfreed, Store.freed_erase, List.append_assoc, List.singleton_append]
    · exact List.nodup_cons.2 ⟨fun hr => hnew (hin root hr), hnodup⟩
    · refine List.pairwise_cons.2 ⟨fun q hq => ?_, ?_⟩
      · obtain ⟨i, hi, hqi⟩ := mem_slots_iff.1 ((hmem q).2 (.inr (hin q hq)))
        rw [← key_of_getElem? hroot, ← key_of_getElem? hqi]
        exact hg.ordered.root_le hi
      · refine hsorted.imp_of_mem fun {p q} hp hq hpq => ?_
        rwa [← hkey p (hin p hp), ← hkey q (hin q hq)]
    · rw [List.mem_cons, hmem, hfired]
      constructor
      · rintro (rfl | ⟨hp, hlt⟩)
        · exact ⟨.inl rfl, hle⟩
        · exact ⟨.inr hp, hkey p hp ▸ hlt⟩
      · rintro ⟨rfl | hp, hlt⟩
        · exact .inl rfl
        · exact .inr ⟨hp, (hkey p hp).symm ▸ hlt⟩
    · rw [hmem, hslots]
      constructor
      · rintro ⟨hp, hlt⟩
        exact ⟨.inr hp, hkey p hp ▸ hlt⟩
      · rintro ⟨rfl | hp, hlt⟩
        · exact absurd hlt (not_lt.2 hle)
        · exact ⟨hp, (hkey p hp).symm ▸ hlt⟩
    · rw [List.flatMap_cons]
      congr 1
      refine List.flatMap_congr ?_
      intro p hp
      rw [callAt, callAt, Store.get?_erase_of_ne (hne p (hin p hp))]

/-! ### Timers and their records -/

/-- A timer is as it was created, but for the callback of a cancelled one. -/
structure Recorded (w : World) : Prop where
  length : w.created.length = w.timers.fresh
  cancelled : ∀ p ∈ w.cancelled, p < w.timers.fresh
  cell : ∀ p t, w.timers.get? p = some t → ∃ t₀, w.created[p]? = some t₀ ∧
    t = if p ∈ w.cancelled then { t₀ with cbFunc := none } else t₀

/-- Only frees lead from `m` to `m'`. -/
def OnlyFrees (m m' : Store HeapTimer) : Prop :=
  m'.fresh = m.fresh ∧ ∀ p t, m'.get? p = some t → m.get? p = some t

theorem pop_onlyFrees (hp : h.pop m = .ok (m', h')) : OnlyFrees m m' := by
  unfold Heap.pop at hp
  split at hp
  · obtain ⟨rfl, rfl⟩ := Prod.mk.inj (Except.ok.inj hp)
    exact ⟨rfl, fun _ _ hget => hget⟩
  · simp only [bind_eq_ok] at hp
    obtain ⟨root, -, hp⟩ := hp
    split at hp
    · obtain ⟨rfl, rfl⟩ := Prod.mk.inj (Except.ok.inj hp)
      exact ⟨rfl, fun _ _ hget => hget⟩
    · simp only [bind_eq_ok, pure_eq_ok, Except.ok.injEq, Prod.mk.injEq] at hp
      obtain ⟨m₁, hfree, -, -, -, -, -, -, rfl, -⟩ := hp
      rcases Store.free_eq_ok.1 hfree with ⟨-, rfl⟩ | ⟨a, -, -, rfl⟩
      · exact ⟨rfl, fun _ _ hget => hget⟩
      · refine ⟨Store.fresh_erase, fun p t hget => ?_⟩
        rcases eq_or_ne p a with rfl | hne
        · rw [Store.get?_erase_self] at hget
          cases hget
        · rwa [Store.get?_erase_of_ne hne] at hget

theorem Ticks.onlyFrees (ht : Ticks cur m h calls m' h') : OnlyFrees m m' :=
  ht.rule (I := fun m₁ _ => OnlyFrees m m₁) (C := fun _ _ => True)
    (fun m₁ h₁ m₂ h₂ hI _ hp => by
      obtain ⟨hfresh, hget⟩ := pop_onlyFrees hp
      exact ⟨hfresh.trans hI.1, fun p t h => hI.2 p t (hget p t h)⟩)
    ⟨rfl, fun _ _ hget => hget⟩ fun _ _ _ => trivial

theorem Recorded.onlyFrees (hr : Recorded w) (hf : OnlyFrees w.timers m) :
    Recorded { w with timers := m, heap := h, calls := calls } where
  length := hr.length.trans hf.1.symm
  cancelled p hp := (hr.cancelled p hp).trans_eq hf.1.symm
  cell p t hget := hr.cell p t (hf.2 p t hget)

theorem Recorded.delete (hr : Recorded w) {p : Ptr} (hd : deleteTimer w.timers p = .ok m) :
    Recorded { w with timers := m, cancelled := w.cancelled ++ p.toList } := by
  rcases deleteTimer_eq_ok.1 hd with ⟨rfl, rfl⟩ | ⟨a, t, rfl, ha, rfl⟩
  · simpa using hr
  · refine ⟨hr.length.trans Store.fresh_set.symm, fun q hq => ?_, fun q t' hget => ?_⟩
    · rw [Store.fresh_set]
      rcases List.mem_append.1 hq with hq | hq
      · exact hr.cancelled q hq
      · obtain rfl := List.mem_singleton.1 hq
        exact Store.lt_fresh ha
    · rcases eq_or_ne q a with rfl | hne
      · obtain ⟨t₀, ht₀, rfl⟩ := hr.cell q t ha
        refine ⟨t₀, ht₀, ?_⟩
        rw [Store.get?_set_self (Store.live_of_get? ha)] at hget
        obtain rfl := Option.some.inj hget
        have hmem : q ∈ w.cancelled ++ (some q).toList :=
          List.mem_append_right _ (List.mem_singleton_self q)
        rw [if_pos hmem]
        split <;> rfl
      · rw [Store.get?_set_of_ne hne] at hget
        obtain ⟨t₀, ht₀, rfl⟩ := hr.cell q t' hget
        refine ⟨t₀, ht₀, ?_⟩
        simp only [Option.toList_some, List.mem_append, List.mem_singleton, hne, or_false]

theorem Recorded.new (hr : Recorded w) (t : HeapTimer) :
    Recorded { w with timers := w.timers.alloc t, created := w.created ++ [t] } where
  length := by rw [List.length_append, hr.length, Store.fresh_alloc, List.length_singleton]
  cancelled p hp := (hr.cancelled p hp).trans (by rw [Store.fresh_alloc]; exact Nat.lt_succ_self _)
  cell p t' hget := by
    rcases eq_or_ne p w.timers.fresh with rfl | hne
    · rw [Store.get?_alloc_fresh] at hget
      obtain rfl := Option.some.inj hget
      refine ⟨t, ?_, (if_neg fun hp => lt_irrefl _ (hr.cancelled _ hp)).symm⟩
      rw [List.getElem?_append_right hr.length.le, hr.length, Nat.sub_self]
      rfl
    · rw [Store.get?_alloc_of_ne hne] at hget
      obtain ⟨t₀, ht₀, rfl⟩ := hr.cell p t' hget
      refine ⟨t₀, ?_, rfl⟩
      rw [List.getElem?_append_left (List.getElem?_eq_some_iff.1 ht₀).1, ht₀]

theorem Recorded.step (hr : Recorded w) (hs : exec w op = .ok w') : Recorded w' := by
  cases op with
  | new t =>
    obtain rfl := Except.ok.inj hs
    exact hr.new t
  | add p =>
    simp only [exec, bind_eq_ok] at hs
    obtain ⟨r, -, hs⟩ := hs
    cases r with
    | none =>
      obtain rfl := Except.ok.inj hs
      exact hr
    | some h =>
      obtain rfl := Except.ok.inj hs
      exact ⟨hr.length, hr.cancelled, hr.cell⟩
  | delete p =>
    simp only [exec, bind_eq_ok] at hs
    obtain ⟨m, hm, hs⟩ := hs
    obtain rfl := Except.ok.inj hs
    exact hr.delete hm
  | pop =>
    simp only [exec, bind_eq_ok, Prod.exists] at hs
    obtain ⟨m, h, hp, hs⟩ := hs
    obtain rfl := Except.ok.inj hs
    exact hr.onlyFrees (pop_onlyFrees hp)
  | tick cur =>
    simp only [exec, bind_eq_ok, Prod.exists] at hs
    obtain ⟨m, h, calls, ht, hs⟩ := hs
    obtain rfl := Except.ok.inj hs
    exact hr.onlyFrees (ticks_of_tick ht).onlyFrees

/-- The callback set for a timer when it was created, unless it was cancelled. -/
def World.call (w : World) (p : Addr) : List Call :=
  if p ∈ w.cancelled then [] else w.created[p]?.elim [] fun t => t.call p

theorem Recorded.callAt_eq (hr : Recorded w) {p : Addr} (hp : w.timers.Live p) :
    callAt w.timers p = w.call p := by
  obtain ⟨t, ht⟩ := hp.exists_get?
  obtain ⟨t₀, ht₀, rfl⟩ := hr.cell p t ht
  rw [callAt, ht, World.call, ht₀]
  split <;> rfl

/-! ### Runs -/

/-- What a tick at `cur` is there for: it removes exactly the timers that are due, in the order of
their expires, calls the callbacks of those not cancelled, and leaves the others. -/
structure TickExact (w : World) (cur : ℤ) (w' : World) (fired : List Addr) : Prop where
  freed : w'.timers.freed = w.timers.freed ++ fired
  nodup : fired.Nodup
  sorted : fired.Pairwise fun p q => keyOf w.timers (some p) ≤ keyOf w.timers (some q)
  mem_fired : ∀ p, p ∈ fired ↔ some p ∈ w.heap.slots ∧ keyOf w.timers (some p) ≤ cur
  mem_slots : ∀ p, p ∈ w'.heap.slots ↔ p ∈ w.heap.slots ∧ cur < keyOf w.timers p
  slots_nodup : w'.heap.slots.Nodup
  calls : w'.calls = w.calls ++ fired.flatMap w.call

/-- **A tick fires exactly what is due**, in every run for whose pops, by themselves or in a tick,
one level is enough. -/
theorem tickExact_of_run {cap : ℤ} {ops : List Op} (hcap : 1 ≤ cap) (hint : cap ≤ intMax)
    (hh : timeHeap cap = some h)
    (hrun : (timeHeapLTS.guard (PopsMeet OneLevel)).Run (.init h) ops w)
    (hs : (timeHeapLTS.guard (PopsMeet OneLevel)).step w (.tick cur) w') :
    ∃ fired, TickExact w cur w' fired := by
  have hg : Good w.added w.timers w.heap :=
    hrun.invariant (I := fun w => Good w.added w.timers w.heap) (Good.init hcap hint hh)
      fun _ _ _ hg hs => good_step hs.1 hs.2 hg
  have hr : Recorded w := hrun.invariant ⟨rfl, by simp [World.init], by simp [World.init]⟩
    fun _ _ _ hr hs => hr.step hs.1.1
  have hg' := good_step hs.1 hs.2 hg
  obtain ⟨⟨hexec, -⟩, hone⟩ := hs
  have hexec : exec w (.tick cur) = .ok w' := hexec
  simp only [exec, bind_eq_ok, Prod.exists] at hexec
  obtain ⟨m', h', calls, ht, hexec⟩ := hexec
  obtain rfl := Except.ok.inj hexec
  obtain ⟨fired, hfreed, hnodup, hsorted, hfired, hslots, rfl⟩ :=
    (ticks_of_tick ht).exact hg fun m' h' hp => hone m' h' hp
  refine ⟨fired, hfreed, hnodup, hsorted, hfired, fun p => ?_, hg'.shape.nodup, ?_⟩
  · constructor
    · intro hp
      obtain ⟨a, rfl, -⟩ := (readable_iff_slots hg'.shape.size_le_length).1
        hg'.shape.readable p hp
      exact (hslots a).1 hp
    · rintro ⟨hp, hlt⟩
      obtain ⟨a, rfl, -⟩ := (readable_iff_slots hg.shape.size_le_length).1
        hg.shape.readable p hp
      exact (hslots a).2 ⟨hp, hlt⟩
  · have hcalls : fired.flatMap (callAt w.timers) = fired.flatMap w.call :=
      List.flatMap_congr fun p hp => hr.callAt_eq (hg.shape.live ((hfired p).1 hp).1)
    exact congrArg (w.calls ++ ·) hcalls

/-- Timers with the expires 5 and 4 were added. -/
def twoTimers : World :=
  ⟨⟨[some ⟨5, some 0, none⟩, some ⟨4, some 0, none⟩], []⟩, ⟨[some 1, some 0], 2, 2⟩,
    [⟨5, some 0, none⟩, ⟨4, some 0, none⟩], [0, 1], [], []⟩

theorem tickExact_of_run_two : ∃ w', exec twoTimers (.tick 4) = .ok w' ∧
    ∃ fired, TickExact twoTimers 4 w' fired := by
  have hplay : LTS.play exec Fresh (.init ⟨[none], 1, 0⟩) (addAll [5, 4]) = some twoTimers := by
    decide
  have hrun := (LTS.run_of_play hplay).mono (B := timeHeapLTS.guard (PopsMeet OneLevel))
    fun u op w hop hs => ⟨hs, popsMeet_addAll hop⟩
  have hexec : exec twoTimers (.tick 4) = .ok { twoTimers with
      timers := ⟨[some ⟨5, some 0, none⟩, none], [1]⟩
      heap := ⟨[some 0, some 0], 2, 1⟩
      calls := [⟨some 1, 0, none⟩] } := by decide
  exact ⟨_, hexec, tickExact_of_run (by decide) (by decide) (show timeHeap 1 = _ from rfl) hrun
    ⟨⟨hexec, trivial⟩, fun m h hp => oneLevel_of_le_four (hp.curSize_le.trans (by decide))⟩⟩

/-- A heap with the expires 1, 2, 10, 3, 4, 11 and 12: a tick at 4 leaves the timer with
expire 3. -/
theorem not_tickExact :
    ¬ ∀ (cap : ℤ) (h : Heap), 1 ≤ cap → cap ≤ intMax → timeHeap cap = some h →
      ∀ ops w cur w', timeHeapLTS.Run (.init h) ops w → timeHeapLTS.step w (.tick cur) w' →
        ∃ fired, TickExact w cur w' fired := by
  intro hall
  have hplay : (LTS.play exec Fresh (.init ⟨List.replicate 7 none, 7, 0⟩)
      (addAll [1, 2, 10, 3, 4, 11, 12])).bind (fun w => (exec w (.tick 4)).toOption.map fun w' =>
        (keyOf w.timers (some 3), decide (some 3 ∈ w'.heap.slots))) = some (3, true) := by
    decide +kernel
  obtain ⟨w, hw, hplay⟩ := Option.bind_eq_some_iff.1 hplay
  obtain ⟨w', hw', hplay⟩ := Option.map_eq_some_iff.1 hplay
  obtain ⟨hkey, hmem⟩ : keyOf w.timers (some 3) = 3 ∧ some 3 ∈ w'.heap.slots := by
    simpa using hplay
  have hexec : exec w (.tick 4) = .ok w' := by
    cases hr : exec w (.tick 4) with
    | error e => simp [hr, Except.toOption] at hw'
    | ok v => simpa [hr, Except.toOption] using hw'
  obtain ⟨fired, hexact⟩ := hall 7 _ (by decide) (by decide) rfl _ w 4 w' (LTS.run_of_play hw)
    ⟨hexec, trivial⟩
  have hlt := ((hexact.mem_slots _).1 hmem).2
  rw [hkey] at hlt
  exact absurd hlt (by decide)

end TimeHeap

end LinuxServer
