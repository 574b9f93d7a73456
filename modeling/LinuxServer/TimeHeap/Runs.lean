import LinuxServer.TimeHeap.Shape

/-!
# Runs of the time heap

* `Owns added m h`: the timers in the heap are those added and not freed.
* `Tidy m h`: what any slot points to is in the heap or freed.
* `Kept added m h`: both, which the calls keep.
* `Due cur m h`, `Ticks cur`: a round of `tick` that fires a timer, and all its rounds.
* `PopsMeet C w op`: every pop that the call makes, by itself or in a tick, is made where `C` holds.

`kept_of_run` is the invariant of the runs whose pops meet `Clear`; `PopsMeet.imp` passes from one
condition on the pops to another.
-/

namespace LinuxServer

namespace TimeHeap

open Memory BinaryHeap Relation

open scoped List

variable {m m' m₁ : Store HeapTimer} {h h' h₁ : Heap} {added : List Addr} {cur : ℤ}
  {calls : List Call}

/-- The timers in the heap are those added and not freed. -/
structure Owns (added : List Addr) (m : Store HeapTimer) (h : Heap) : Prop where
  shape : Shape m h
  mem_slots : ∀ p, some p ∈ h.slots ↔ p ∈ added ∧ p ∉ m.freed
  dead : ∀ p ∈ m.freed, p ∈ added ∧ p < m.fresh ∧ ¬ m.Live p

theorem Owns.init {cap : ℤ} (hcap : 1 ≤ cap) (hint : cap ≤ intMax) (hh : timeHeap cap = some h) :
    Owns [] Store.empty h := by
  obtain ⟨hs, h0⟩ := timeHeap_spec (m := Store.empty) hcap hint hh
  refine ⟨hs, fun p => ?_, fun p hp => absurd hp List.not_mem_nil⟩
  simp [Heap.slots, h0]

theorem Owns.of_live (ho : Owns added m h) (hfreed : m'.freed = m.freed)
    (hfresh : m.fresh ≤ m'.fresh) (hlive : ∀ p < m.fresh, m'.Live p ↔ m.Live p) :
    Owns added m' h where
  shape := ho.shape.of_live fun p hp => by
    have := ho.shape.live hp
    exact (hlive p this.lt_fresh).2 this
  mem_slots p := by rw [hfreed, ho.mem_slots]
  dead p hp := by
    obtain ⟨hadd, hlt, hdead⟩ := ho.dead p (hfreed ▸ hp)
    exact ⟨hadd, hlt.trans_le hfresh, fun hl => hdead ((hlive p hlt).1 hl)⟩

theorem Owns.new (ho : Owns added m h) (t : HeapTimer) : Owns added (m.alloc t) h := by
  refine ho.of_live rfl (by rw [Store.fresh_alloc]; exact Nat.le_succ _) ?_
  intro p hp
  rw [Store.Live, Store.get?_alloc_of_ne hp.ne, Store.Live]

theorem deleteTimer_eq_ok {p : Ptr} : deleteTimer m p = .ok m' ↔ (p = none ∧ m' = m) ∨
    ∃ a t, p = some a ∧ m.get? a = some t ∧ m' = m.set a { t with cbFunc := none } := by
  cases p with
  | none => simp [deleteTimer, eq_comm]
  | some a => simp [deleteTimer, Store.modify_eq_ok]

theorem Owns.delete (ho : Owns added m h) {p : Ptr} (hd : deleteTimer m p = .ok m') :
    Owns added m' h := by
  rcases deleteTimer_eq_ok.1 hd with ⟨-, rfl⟩ | ⟨a, t, -, ha, rfl⟩
  · exact ho
  · refine ho.of_live rfl Store.fresh_set.ge ?_
    intro q _
    rcases eq_or_ne q a with rfl | hne
    · exact iff_of_true (Store.live_of_get? (Store.get?_set_self (Store.live_of_get? ha)))
        (Store.live_of_get? ha)
    · rw [Store.Live, Store.get?_set_of_ne hne, Store.Live]

theorem Owns.add (ho : Owns added m h) {p : Addr} (hp : m.Live p) (hnew : p ∉ added)
    (ha : h.addTimer m (some p) = .ok (some h')) : Owns (added ++ [p]) m h' := by
  have hslot : some p ∉ h.slots := fun hmem => hnew ((ho.mem_slots p).1 hmem).1
  rcases addTimer_spec ho.shape hp hslot with hnone | ⟨h₁, hsome, hs₁, -, hperm, -⟩
  · rw [hnone] at ha
    cases ha
  · obtain rfl := Option.some.inj (Except.ok.inj (hsome.symm.trans ha))
    refine ⟨hs₁, fun q => ?_, fun q hq => ?_⟩
    · rw [hperm.mem_iff, List.mem_append, ho.mem_slots, List.mem_append, List.mem_singleton,
        List.mem_singleton, Option.some.injEq]
      constructor
      · rintro (⟨hq, hf⟩ | rfl)
        · exact ⟨.inl hq, hf⟩
        · exact ⟨.inr rfl, fun hf => (ho.dead q hf).2.2 hp⟩
      · rintro ⟨hq | hq, hf⟩
        · exact .inl ⟨hq, hf⟩
        · exact .inr hq
    · obtain ⟨hadd, hrest⟩ := ho.dead q hq
      exact ⟨List.mem_append_left _ hadd, hrest⟩

theorem Owns.pop (ho : Owns added m h) (hc : Clear m h) (hp : h.pop m = .ok (m', h')) :
    Owns added m' h' := by
  rcases Nat.eq_zero_or_pos h.curSize with h0 | h0
  · rw [pop_of_empty h0] at hp
    obtain ⟨rfl, rfl⟩ := Prod.mk.inj (Except.ok.inj hp)
    exact ho
  · obtain ⟨root, hroot, rfl, hs₁, -, hperm, -⟩ := ho.shape.of_pop hc h0 hp
    have hmem : some root ∈ h.slots := hperm.subset List.mem_cons_self
    have hlive := ho.shape.live hmem
    have hnodup := ho.shape.root_notMem hperm
    refine ⟨hs₁, fun q => ?_, fun q hq => ?_⟩
    · rw [Store.freed_erase, List.mem_append, List.mem_singleton, not_or, ← and_assoc,
        ← ho.mem_slots, ← hperm.mem_iff, List.mem_cons, Option.some.injEq]
      constructor
      · intro hq
        refine ⟨.inr hq, ?_⟩
        rintro rfl
        exact hnodup hq
      · rintro ⟨rfl | hq, hne⟩
        · exact absurd rfl hne
        · exact hq
    · rw [Store.freed_erase, List.mem_append, List.mem_singleton] at hq
      rw [Store.fresh_erase]
      rcases eq_or_ne q root with rfl | hne
      · refine ⟨((ho.mem_slots q).1 hmem).1, hlive.lt_fresh, ?_⟩
        rw [Store.Live, Store.get?_erase_self]
        simp
      · rw [Store.live_erase_of_ne hne]
        exact ho.dead q (hq.resolve_right hne)

/-- What the slots point to is in the heap or freed. -/
def Tidy (m : Store HeapTimer) (h : Heap) : Prop :=
  ∀ p, some p ∈ h.array → some p ∈ h.slots ∨ p ∈ m.freed

theorem Tidy.init {cap : ℤ} (hcap : 1 ≤ cap) (hh : timeHeap cap = some h) : Tidy m h := by
  intro p hp
  obtain ⟨n, rfl⟩ := Int.eq_ofNat_of_zero_le (show 0 ≤ cap by omega)
  simp only [timeHeap, newArray_of_nonneg, Option.map_some, Option.some.injEq] at hh
  subst hh
  cases List.eq_of_mem_replicate hp

theorem Tidy.of_freed (ht : Tidy m h) (hfreed : m'.freed = m.freed) : Tidy m' h := by
  intro p hp
  rw [hfreed]
  exact ht p hp

theorem Tidy.delete (ht : Tidy m h) {p : Ptr} (hd : deleteTimer m p = .ok m') : Tidy m' h := by
  refine ht.of_freed ?_
  rcases deleteTimer_eq_ok.1 hd with ⟨-, rfl⟩ | ⟨a, t, -, -, rfl⟩ <;> rfl

theorem Tidy.add (ht : Tidy m h) (hs : Shape m h) {p : Addr} (hp : m.Live p)
    (hnew : some p ∉ h.slots) (ha : h.addTimer m (some p) = .ok (some h')) : Tidy m h' := by
  rcases addTimer_spec hs hp hnew with hnone | ⟨h₁, hsome, -, -, hperm, -, hout⟩
  · rw [hnone] at ha
    cases ha
  · obtain rfl := Option.some.inj (Except.ok.inj (hsome.symm.trans ha))
    intro q hq
    obtain ⟨i, hq⟩ := List.mem_iff_getElem?.1 hq
    rcases Nat.lt_or_ge i h₁.curSize with hi | hi
    · exact .inl (mem_slots_iff.2 ⟨i, hi, hq⟩)
    · refine (ht q (List.mem_of_getElem? (hout i q hi hq))).imp_left ?_
      intro hslot
      exact hperm.mem_iff.2 (List.mem_append_left _ hslot)

theorem Tidy.pop (ht : Tidy m h) (hs : Shape m h) (hc : Clear m h)
    (hp : h.pop m = .ok (m', h')) : Tidy m' h' := by
  rcases Nat.eq_zero_or_pos h.curSize with h0 | h0
  · rw [pop_of_empty h0] at hp
    obtain ⟨rfl, rfl⟩ := Prod.mk.inj (Except.ok.inj hp)
    exact ht
  · obtain ⟨root, -, rfl, -, -, hperm, hsub⟩ := hs.of_pop hc h0 hp
    intro p hmem
    rw [Store.freed_erase, List.mem_append, List.mem_singleton]
    rcases ht p (hsub _ hmem) with hslot | hfreed
    · rcases List.mem_cons.1 (hperm.mem_iff.2 hslot) with heq | hslot
      · exact .inr (.inr (Option.some.inj heq))
      · exact .inl hslot
    · exact .inr (.inl hfreed)

/-! ### Ticks -/

/-- A round of `tick` fires the timer at the root. -/
def Due (cur : ℤ) (m : Store HeapTimer) (h : Heap) : Prop :=
  h.curSize ≠ 0 ∧ ∃ p t, h.array[0]? = some (some p) ∧ m.get? p = some t ∧ t.expire ≤ cur

/-- The rounds of `tick`. -/
inductive Ticks (cur : ℤ) : Store HeapTimer → Heap → List Call → Store HeapTimer → Heap → Prop where
  | stop {m : Store HeapTimer} {h : Heap} : ¬ Due cur m h → Ticks cur m h [] m h
  | fire {m m₁ m' : Store HeapTimer} {h h₁ h' : Heap} {calls later : List Call} : Due cur m h →
      h.callback m = .ok calls → h.pop m = .ok (m₁, h₁) → Ticks cur m₁ h₁ later m' h' →
      Ticks cur m h (calls ++ later) m' h'

/-- A tick that starts in `m` and `h` pops in `m'` and `h'`. -/
inductive TickPops (cur : ℤ) : Store HeapTimer → Heap → Store HeapTimer → Heap → Prop where
  | here {m : Store HeapTimer} {h : Heap} : Due cur m h → TickPops cur m h m h
  | later {m m₁ m' : Store HeapTimer} {h h₁ h' : Heap} : Due cur m h → h.pop m = .ok (m₁, h₁) →
      TickPops cur m₁ h₁ m' h' → TickPops cur m h m' h'

theorem curSize_of_pop {root : Addr} (h0 : h.curSize ≠ 0) (hroot : h.array[0]? = some (some root))
    (hp : h.pop m = .ok (m', h')) : h'.curSize = h.curSize - 1 := by
  have hempty : h.empty = false := by simp [Heap.empty, h0]
  simp only [Heap.pop, hempty, load_eq_ok.2 hroot, ok_bind, bind_eq_ok, pure_eq_ok,
    Except.ok.injEq, Prod.mk.injEq, Bool.false_eq_true, if_false, reduceCtorEq] at hp
  obtain ⟨_, -, _, -, _, -, _, -, -, rfl⟩ := hp
  rfl

/-- The loop stops, or fires the timer at the root and goes on. -/
theorem tickLoop_succ {fuel : ℕ} {tmp : Ptr} (htmp : h.array[0]? = some tmp)
    {r : Store HeapTimer × Heap × List Call} :
    tickLoop cur (fuel + 1) tmp m h = .ok r ↔
      (¬ Due cur m h ∧ (∀ p, h.curSize ≠ 0 → tmp = some p → m.Live p) ∧ r = (m, h, [])) ∨
        Due cur m h ∧ ∃ calls m₁ h₁ tmp₁ m' h' later, h.callback m = .ok calls ∧
          h.pop m = .ok (m₁, h₁) ∧ h₁.array[0]? = some tmp₁ ∧
          tickLoop cur fuel tmp₁ m₁ h₁ = .ok (m', h', later) ∧ r = (m', h', calls ++ later) := by
  rw [tickLoop]
  split_ifs with hstop
  · -- the heap is empty, or the root null
    have hdue : ¬ Due cur m h := by
      rintro ⟨h0, p, t, hp, -⟩
      rcases hstop with hempty | rfl
      · exact h0 (of_decide_eq_true hempty)
      · cases Option.some.inj (htmp.symm.trans hp)
    have hlive : ∀ p, h.curSize ≠ 0 → tmp = some p → m.Live p := by
      rintro p h0 rfl
      rcases hstop with hempty | hnone
      · exact absurd (of_decide_eq_true hempty) h0
      · cases hnone
    simp only [hdue, not_false_eq_true, true_and, false_and, or_false, pure_eq_ok,
      Except.ok.injEq]
    exact ⟨fun heq => ⟨hlive, heq.symm⟩, fun heq => heq.2.symm⟩
  · obtain ⟨hsize, hnone⟩ := not_or.1 hstop
    have h0 : h.curSize ≠ 0 := fun h0 => hsize (decide_eq_true h0)
    obtain ⟨p, rfl⟩ := Option.ne_none_iff_exists'.1 hnone
    cases hget : m.get? p with
    | none =>
      -- the pointer dangles
      have hdue : ¬ Due cur m h := by
        rintro ⟨-, q, t, hq, ht, -⟩
        obtain rfl := Option.some.inj (Option.some.inj (htmp.symm.trans hq))
        rw [hget] at ht
        cases ht
      have hdead : ¬ m.Live p := by simp [Store.Live, hget]
      simp [Store.read, hget, hdue, h0, hdead]
    | some t =>
      have hdue : Due cur m h ↔ t.expire ≤ cur := by
        constructor
        · rintro ⟨-, q, t', hq, ht, hle⟩
          obtain rfl := Option.some.inj (Option.some.inj (htmp.symm.trans hq))
          obtain rfl := Option.some.inj (hget.symm.trans ht)
          exact hle
        · exact fun hle => ⟨h0, p, t, htmp, hget, hle⟩
      have hlive : m.Live p := Store.live_of_get? hget
      simp only [Store.read, hget, ok_bind, hdue]
      split_ifs with hgt
      · have hle : ¬ t.expire ≤ cur := not_le.2 hgt
        simp [hle, h0, hlive, eq_comm]
      · have hle : t.expire ≤ cur := not_lt.1 hgt
        simp only [hle, not_true_eq_false, false_and, false_or, true_and, bind_eq_ok,
          load_eq_ok, pure_eq_ok, Except.ok.injEq, Prod.exists]
        constructor
        · rintro ⟨calls, hcb, m₁, h₁, hpop, tmp₁, htmp₁, m', h', later, hloop, rfl⟩
          exact ⟨calls, m₁, h₁, tmp₁, m', h', later, hcb, hpop, htmp₁, hloop, rfl⟩
        · rintro ⟨calls, m₁, h₁, tmp₁, m', h', later, hcb, hpop, htmp₁, hloop, rfl⟩
          exact ⟨calls, hcb, m₁, h₁, hpop, tmp₁, htmp₁, m', h', later, hloop, rfl⟩

theorem ticks_of_tickLoop {fuel : ℕ} {tmp : Ptr} (htmp : h.array[0]? = some tmp)
    (hfuel : h.curSize ≤ fuel) (hr : tickLoop cur fuel tmp m h = .ok (m', h', calls)) :
    Ticks cur m h calls m' h' := by
  induction fuel generalizing m h tmp calls with
  | zero =>
    obtain ⟨rfl, rfl, rfl⟩ : m' = m ∧ h' = h ∧ calls = [] := by
      simpa [tickLoop, eq_comm] using hr
    exact .stop fun hdue => hdue.1 (Nat.le_zero.1 hfuel)
  | succ fuel ih =>
    rcases (tickLoop_succ htmp).1 hr with ⟨hdue, -, heq⟩ |
      ⟨hdue, calls₁, m₁, h₁, tmp₁, m₂, h₂, later, hcb, hpop, htmp₁, hloop, heq⟩
    · obtain ⟨rfl, rfl, rfl⟩ : m' = m ∧ h' = h ∧ calls = [] := by simpa using heq
      exact .stop hdue
    · obtain ⟨rfl, rfl, rfl⟩ : m' = m₂ ∧ h' = h₂ ∧ calls = calls₁ ++ later := by simpa using heq
      have hsize : h₁.curSize = h.curSize - 1 := by
        obtain ⟨h0, p, -, hp, -⟩ := hdue
        exact curSize_of_pop h0 hp hpop
      exact .fire hdue hcb hpop (ih htmp₁ (by omega) hloop)

theorem ticks_of_tick (hr : h.tick m cur = .ok (m', h', calls)) : Ticks cur m h calls m' h' := by
  simp only [Heap.tick, bind_eq_ok, load_eq_ok] at hr
  obtain ⟨tmp, htmp, hloop⟩ := hr
  exact ticks_of_tickLoop htmp le_rfl hloop

/-- What every pop keeps that meets `C`, a tick keeps whose pops do. -/
theorem Ticks.rule {I C : Store HeapTimer → Heap → Prop}
    (hpop : ∀ m h m' h', I m h → C m h → h.pop m = .ok (m', h') → I m' h')
    (ht : Ticks cur m h calls m' h') (hI : I m h)
    (hC : ∀ m' h', TickPops cur m h m' h' → C m' h') : I m' h' := by
  induction ht with
  | stop => exact hI
  | fire hdue _ hp _ ih =>
    exact ih (hpop _ _ _ _ hI (hC _ _ (.here hdue)) hp) fun m' h' hpops =>
      hC m' h' (.later hdue hp hpops)

/-- The same for the states in which the tick pops. -/
theorem TickPops.rule {I C : Store HeapTimer → Heap → Prop}
    (hpop : ∀ m h m' h', I m h → C m h → h.pop m = .ok (m', h') → I m' h')
    (hp : TickPops cur m h m₁ h₁) (hI : I m h)
    (hC : ∀ m' h', TickPops cur m h m' h' → C m' h') : I m₁ h₁ := by
  induction hp with
  | here => exact hI
  | later hdue hp _ ih =>
    exact ih (hpop _ _ _ _ hI (hC _ _ (.here hdue)) hp) fun m' h' hpops =>
      hC m' h' (.later hdue hp hpops)

theorem TickPops.pop_ok (hp : TickPops cur m h m₁ h₁) (ht : Ticks cur m h calls m' h') :
    ∃ r, h₁.pop m₁ = .ok r := by
  induction hp generalizing calls with
  | here hdue =>
    cases ht with
    | stop hstop => exact absurd hdue hstop
    | fire _ _ hpop _ => exact ⟨_, hpop⟩
  | later hdue hpop _ ih =>
    cases ht with
    | stop hstop => exact absurd hdue hstop
    | fire _ _ hpop' hrest =>
      obtain ⟨rfl, rfl⟩ := Prod.mk.inj (Except.ok.inj (hpop.symm.trans hpop'))
      exact ih hrest

theorem TickPops.curSize_le (hp : TickPops cur m h m₁ h₁) : h₁.curSize ≤ h.curSize := by
  induction hp with
  | here => exact le_rfl
  | later hdue hpop _ ih =>
    obtain ⟨h0, p, -, hroot, -⟩ := hdue
    rw [curSize_of_pop h0 hroot hpop] at ih
    exact ih.trans (Nat.sub_le _ _)

/-- Every pop that a call makes is made where `C` holds. -/
def PopsMeet (C : Store HeapTimer → Heap → Prop) (w : World) : Op → Prop
  | .pop => C w.timers w.heap
  | .tick cur => ∀ m h, TickPops cur w.timers w.heap m h → C m h
  | _ => True

/-- When an invariant `I` that such pops keep and `C` imply `D`, a call whose pops meet `C` is one
whose pops meet `D`. -/
theorem PopsMeet.imp {I C D : Store HeapTimer → Heap → Prop} {w : World} {op : Op}
    (hpop : ∀ m h m' h', I m h → C m h → h.pop m = .ok (m', h') → I m' h')
    (himp : ∀ m h, I m h → C m h → D m h) (hI : I w.timers w.heap) (hC : PopsMeet C w op) :
    PopsMeet D w op := by
  cases op with
  | pop => exact himp _ _ hI hC
  | tick cur => exact fun m h hp => himp m h (hp.rule hpop hI hC) (hC m h hp)
  | new | add | delete => trivial

theorem PopsMeet.and {C D : Store HeapTimer → Heap → Prop} {w : World} {op : Op}
    (hC : PopsMeet C w op) (hD : PopsMeet D w op) : PopsMeet (fun m h => C m h ∧ D m h) w op := by
  cases op with
  | pop => exact ⟨hC, hD⟩
  | tick cur => exact fun m h hp => ⟨hC m h hp, hD m h hp⟩
  | new | add | delete => trivial

theorem popsMeet_ok {w w' : World} {op : Op} (hs : timeHeapLTS.step w op w') :
    PopsMeet (fun m h => ∃ r, h.pop m = .ok r) w op := by
  obtain ⟨hexec, -⟩ := hs
  have hexec : exec w op = .ok w' := hexec
  cases op with
  | pop =>
    obtain ⟨⟨m', h'⟩, hp, -⟩ := bind_eq_ok.1 hexec
    exact ⟨_, hp⟩
  | tick cur =>
    obtain ⟨⟨m', h', calls⟩, ht, -⟩ := bind_eq_ok.1 hexec
    exact fun m h hp => hp.pop_ok (ticks_of_tick ht)
  | new | add | delete => trivial

theorem step_rule {I : List Addr → Store HeapTimer → Heap → Prop}
    {C : Store HeapTimer → Heap → Prop}
    (hnew : ∀ {added m h} t, I added m h → I added (m.alloc t) h)
    (hadd : ∀ {added m h p h'}, I added m h → m.Live p → p ∉ added →
      h.addTimer m (some p) = .ok (some h') → I (added ++ [p]) m h')
    (hdelete : ∀ {added m h p m'}, I added m h → deleteTimer m p = .ok m' → I added m' h)
    (hpop : ∀ {added m h m' h'}, I added m h → C m h → h.pop m = .ok (m', h') → I added m' h')
    {w w' : World} {op : Op} (hs : timeHeapLTS.step w op w') (hC : PopsMeet C w op)
    (hI : I w.added w.timers w.heap) : I w'.added w'.timers w'.heap := by
  obtain ⟨hexec, hfresh⟩ := hs
  have hexec : exec w op = .ok w' := hexec
  cases op with
  | new t =>
    obtain rfl := Except.ok.inj hexec
    exact hnew t hI
  | add p =>
    simp only [exec, bind_eq_ok] at hexec
    obtain ⟨r, hr, hexec⟩ := hexec
    cases r with
    | none =>
      obtain rfl := Except.ok.inj hexec
      exact hI
    | some h =>
      obtain rfl := Except.ok.inj hexec
      cases p with
      | none =>
        obtain rfl := Option.some.inj (Except.ok.inj hr)
        simpa using hI
      | some p => exact hadd hI hfresh.1 hfresh.2 hr
  | delete p =>
    simp only [exec, bind_eq_ok] at hexec
    obtain ⟨m, hm, hexec⟩ := hexec
    obtain rfl := Except.ok.inj hexec
    exact hdelete hI hm
  | pop =>
    simp only [exec, bind_eq_ok, Prod.exists] at hexec
    obtain ⟨m, h, hp, hexec⟩ := hexec
    obtain rfl := Except.ok.inj hexec
    exact hpop hI hC hp
  | tick cur =>
    simp only [exec, bind_eq_ok, Prod.exists] at hexec
    obtain ⟨m, h, calls, ht, hexec⟩ := hexec
    obtain rfl := Except.ok.inj hexec
    exact (ticks_of_tick ht).rule (fun _ _ _ _ => hpop) hI hC

/-- The timers in the heap are those added and not freed, and the other slots hold no live ones. -/
structure Kept (added : List Addr) (m : Store HeapTimer) (h : Heap) : Prop
    extends Owns added m h where
  tidy : Tidy m h

theorem Kept.new (hk : Kept added m h) (t : HeapTimer) : Kept added (m.alloc t) h :=
  ⟨hk.toOwns.new t, hk.tidy.of_freed rfl⟩

theorem Kept.add (hk : Kept added m h) {p : Addr} (hp : m.Live p) (hnew : p ∉ added)
    (ha : h.addTimer m (some p) = .ok (some h')) : Kept (added ++ [p]) m h' := by
  have hslot : some p ∉ h.slots := fun hmem => hnew ((hk.mem_slots p).1 hmem).1
  exact ⟨hk.toOwns.add hp hnew ha, hk.tidy.add hk.shape hp hslot ha⟩

theorem Kept.delete (hk : Kept added m h) {p : Ptr} (hd : deleteTimer m p = .ok m') :
    Kept added m' h :=
  ⟨hk.toOwns.delete hd, hk.tidy.delete hd⟩

theorem Kept.pop (hk : Kept added m h) (hc : Clear m h) (hp : h.pop m = .ok (m', h')) :
    Kept added m' h' :=
  ⟨hk.toOwns.pop hc hp, hk.tidy.pop hk.shape hc hp⟩

theorem Kept.step {w w' : World} {op : Op} (hs : timeHeapLTS.step w op w')
    (hC : PopsMeet Clear w op) (hk : Kept w.added w.timers w.heap) :
    Kept w'.added w'.timers w'.heap :=
  step_rule (fun t hk => hk.new t) (fun hk hp hnew ha => hk.add hp hnew ha)
    (fun hk hd => hk.delete hd) Kept.pop hs hC hk

theorem Kept.init {cap : ℤ} (hcap : 1 ≤ cap) (hint : cap ≤ intMax) (hh : timeHeap cap = some h) :
    Kept [] Store.empty h :=
  ⟨.init hcap hint hh, .init hcap hh⟩

/-- **The heap holds the timers added and not freed**, in every run whose pops meet `Clear`. -/
theorem kept_of_run {cap : ℤ} {w : World} {ops : List Op} (hcap : 1 ≤ cap) (hint : cap ≤ intMax)
    (hh : timeHeap cap = some h) (hrun : (timeHeapLTS.guard (PopsMeet Clear)).Run (.init h) ops w) :
    Kept w.added w.timers w.heap :=
  hrun.invariant (I := fun w => Kept w.added w.timers w.heap) (Kept.init hcap hint hh)
    fun _ _ _ hk hs => hk.step hs.1 hs.2

/-! ### Runs that only add -/

/-- Timers with the expires `es` are allocated and added, in this order, to a new heap. -/
def addAll (es : List ℤ) : List Op :=
  es.zipIdx.flatMap fun (e, i) => [.new ⟨e, some 0, none⟩, .add (some i)]

theorem popsMeet_addAll {C : Store HeapTimer → Heap → Prop} {es : List ℤ} {w : World} {op : Op}
    (hop : op ∈ addAll es) : PopsMeet C w op := by
  obtain ⟨⟨e, i⟩, -, hop⟩ := List.mem_flatMap.1 hop
  simp only [List.mem_cons, List.not_mem_nil, or_false] at hop
  rcases hop with rfl | rfl <;> trivial

end TimeHeap

end LinuxServer
