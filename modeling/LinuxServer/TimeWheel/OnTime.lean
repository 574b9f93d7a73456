import LinuxServer.Agenda.Basic
import LinuxServer.TimeWheel.Tick

/-!
# The time wheel keeps an agenda

* `dueAt`: the tick in which a timer fires, from its slot, its rotation and the hand.
* `Pending L cur now p d`: the timer `p` is in the lists and fires in the tick `d`.
* `dueInside`: the tick in which a timer fires that a callback adds.
* `Refines w s`: the wheel keeps the agenda `s`.
* `lastSet p ops`: the callback and the data that the caller has given to the timer `p`.

`exec_refines`: every call does to the wheel what it is there to do to the agenda.
`fires_on_time`: every timer fires in the tick its timeout asks for.
-/

namespace LinuxServer

namespace TimeWheel

open Memory Node

variable {w w' : World} {s s' : Agenda Addr} {L : ℕ → List (Addr × TimerData)}
  {D S X : List (Addr × TimerData)} {cur now i j k r d : ℕ} {p q : Addr} {c : TimerData}

/-! ### When a timer fires -/

/-- The tick in which a timer in slot `i` with the rotation `r` fires, when `now` ticks are over and
the hand is at `cur`. -/
def dueAt (cur now i r : ℕ) : ℕ := now + 1 + (i + N - cur) % N + N * r

theorem dueAt_add (hcur : cur < N) :
    dueAt cur now ((cur + k % N) % N) (k / N) = now + 1 + k := by
  unfold dueAt N at *
  omega

theorem dueAt_next (hcur : cur < N) (hi : i < N) (hne : i ≠ cur) :
    dueAt ((cur + 1) % N) (now + 1) i r = dueAt cur now i r := by
  unfold dueAt N at *
  omega

theorem dueAt_round (hcur : cur < N) :
    dueAt ((cur + 1) % N) (now + 1) cur r = dueAt cur now cur (r + 1) := by
  unfold dueAt N at *
  omega

theorem dueAt_eq_next_iff (hcur : cur < N) (hi : i < N) :
    dueAt cur now i r = now + 1 ↔ i = cur ∧ r = 0 := by
  unfold dueAt N at *
  omega

/-- The timer `p` is in the lists and fires in the tick `d`. -/
def Pending (L : ℕ → List (Addr × TimerData)) (cur now : ℕ) (p : Addr) (d : ℕ) : Prop :=
  ∃ i < N, ∃ c, (p, c) ∈ L i ∧ d = dueAt cur now i c.rotation.toNat

theorem pending_update (hj : j < N) : Pending (Function.update L j X) cur now p d ↔
    (∃ c, (p, c) ∈ X ∧ d = dueAt cur now j c.rotation.toNat) ∨
      ∃ i < N, i ≠ j ∧ ∃ c, (p, c) ∈ L i ∧ d = dueAt cur now i c.rotation.toNat := by
  constructor
  · rintro ⟨i, hi, c, hc, hd⟩
    rcases eq_or_ne i j with rfl | hne
    · rw [Function.update_self] at hc
      exact .inl ⟨c, hc, hd⟩
    · rw [Function.update_of_ne hne] at hc
      exact .inr ⟨i, hi, hne, c, hc, hd⟩
  · rintro (⟨c, hc, hd⟩ | ⟨i, hi, hne, c, hc, hd⟩)
    · exact ⟨j, hj, c, by rwa [Function.update_self], hd⟩
    · exact ⟨i, hi, c, by rwa [Function.update_of_ne hne], hd⟩

theorem pending_iff (hj : j < N) : Pending L cur now p d ↔
    (∃ c, (p, c) ∈ L j ∧ d = dueAt cur now j c.rotation.toNat) ∨
      ∃ i < N, i ≠ j ∧ ∃ c, (p, c) ∈ L i ∧ d = dueAt cur now i c.rotation.toNat := by
  rw [← pending_update hj, Function.update_eq_self]

theorem pending_cons (hj : j < N) : Pending (Function.update L j ((q, c) :: L j)) cur now p d ↔
    (p = q ∧ d = dueAt cur now j c.rotation.toNat) ∨ Pending L cur now p d := by
  rw [pending_update hj, pending_iff hj, ← or_assoc]
  simp only [List.mem_cons, Prod.mk.injEq]
  refine or_congr_left ⟨?_, ?_⟩
  · rintro ⟨c', ⟨rfl, rfl⟩ | hc', hd⟩
    · exact .inl ⟨rfl, hd⟩
    · exact .inr ⟨c', hc', hd⟩
  · rintro (⟨rfl, hd⟩ | ⟨c', hc', hd⟩)
    · exact ⟨c, .inl ⟨rfl, rfl⟩, hd⟩
    · exact ⟨c', .inr hc', hd⟩

theorem pending_set (hj : j < N) (c' : TimerData) (hL : L j = D ++ (q, c) :: S)
    (hc : c'.rotation = c.rotation) :
    Pending (Function.update L j (D ++ (q, c') :: S)) cur now p d ↔ Pending L cur now p d := by
  rw [pending_update hj, pending_iff hj, hL]
  refine or_congr_left ?_
  simp only [List.mem_append, List.mem_cons, Prod.mk.injEq]
  constructor
  · rintro ⟨e, he | ⟨rfl, rfl⟩ | he, hd⟩
    · exact ⟨e, .inl he, hd⟩
    · exact ⟨c, .inr (.inl ⟨rfl, rfl⟩), hc ▸ hd⟩
    · exact ⟨e, .inr (.inr he), hd⟩
  · rintro ⟨e, he | ⟨rfl, rfl⟩ | he, hd⟩
    · exact ⟨e, .inl he, hd⟩
    · exact ⟨c', .inr (.inl ⟨rfl, rfl⟩), hc.symm ▸ hd⟩
    · exact ⟨e, .inr (.inr he), hd⟩

theorem pending_remove {m : Store TwTimer} {h : Wheel} (hr : Rep m h L) (hj : j < N)
    (hL : L j = D ++ (q, c) :: S) : Pending (Function.update L j (D ++ S)) cur now p d ↔
      p ≠ q ∧ Pending L cur now p d := by
  obtain ⟨hqD, hqS, -⟩ := (hL ▸ hr.chain j hj).notMem
  have hqj : q ∈ addrs (L j) := by simp [hL]
  have hother : ∀ i < N, i ≠ j → ∀ c, (q, c) ∉ L i :=
    fun i hi hne c hc => hne (hr.slot_inj hi hj (mem_addrs_of_mem hc) hqj)
  rw [pending_update hj, pending_iff hj, hL]
  constructor
  · rintro (⟨e, he, hd⟩ | ⟨i, hi, hne, e, he, hd⟩)
    · refine ⟨?_, .inl ⟨e, ?_, hd⟩⟩
      · rintro rfl
        rcases List.mem_append.1 he with he | he
        · exact hqD (mem_addrs_of_mem he)
        · exact hqS (mem_addrs_of_mem he)
      · rcases List.mem_append.1 he with he | he
        · exact List.mem_append_left _ he
        · exact List.mem_append_right _ (List.mem_cons_of_mem _ he)
    · refine ⟨?_, .inr ⟨i, hi, hne, e, he, hd⟩⟩
      rintro rfl
      exact hother i hi hne e he
  · rintro ⟨hpq, ⟨e, he, hd⟩ | hrest⟩
    · refine .inl ⟨e, ?_, hd⟩
      rcases List.mem_append.1 he with he | he
      · exact List.mem_append_left _ he
      · rcases List.mem_cons.1 he with he | he
        · exact absurd (congrArg Prod.fst he) hpq
        · exact List.mem_append_right _ he
    · exact .inr hrest

theorem mem_expired : (p, c) ∈ expired S ↔ (p, c) ∈ S ∧ c.rotation.toNat = 0 := by
  simp [expired]

theorem mem_survivors : (∃ c, (p, c) ∈ survivors S ∧ d = dueAt cur now j c.rotation.toNat) ↔
    ∃ c, (p, c) ∈ S ∧ c.rotation > 0 ∧ d = dueAt cur now j (c.rotation - 1).toNat := by
  simp only [survivors, List.mem_filterMap, Option.ite_none_right_eq_some, Option.some.injEq,
    Prod.exists, Prod.mk.injEq]
  constructor
  · rintro ⟨_, ⟨q, c, hc, hrot, rfl, rfl⟩, hd⟩
    exact ⟨c, hc, hrot, hd⟩
  · rintro ⟨c, hc, hrot, hd⟩
    exact ⟨_, ⟨p, c, hc, hrot, rfl, rfl⟩, hd⟩

theorem toNat_sub_one {r : ℤ} (hr : r > 0) : (r - 1).toNat + 1 = r.toNat := by
  omega

/-- The hand moves on: the timers due at this tick are gone, the others are due when they were. -/
theorem pending_tick (hcur : cur < N) :
    Pending (Function.update L cur (survivors (L cur))) ((cur + 1) % N) (now + 1) p d ↔
      Pending L cur now p d ∧ d ≠ now + 1 := by
  rw [pending_update hcur, pending_iff hcur, or_and_right, mem_survivors]
  refine or_congr ⟨?_, ?_⟩ ⟨?_, ?_⟩
  · rintro ⟨c, hc, hrot, rfl⟩
    rw [dueAt_round hcur, toNat_sub_one hrot]
    refine ⟨⟨c, hc, rfl⟩, fun hd => ?_⟩
    have h0 := ((dueAt_eq_next_iff hcur hcur).1 hd).2
    omega
  · rintro ⟨⟨c, hc, rfl⟩, hd⟩
    have hrot : c.rotation > 0 := Int.pos_iff_toNat_pos.2 <| Nat.pos_of_ne_zero fun hr =>
      hd ((dueAt_eq_next_iff hcur hcur).2 ⟨rfl, hr⟩)
    exact ⟨c, hc, hrot, by rw [dueAt_round hcur, toNat_sub_one hrot]⟩
  · rintro ⟨i, hi, hne, c, hc, rfl⟩
    rw [dueAt_next hcur hi hne]
    exact ⟨⟨i, hi, hne, c, hc, rfl⟩, fun hd => hne ((dueAt_eq_next_iff hcur hi).1 hd).1⟩
  · rintro ⟨⟨i, hi, hne, c, hc, rfl⟩, -⟩
    exact ⟨i, hi, hne, c, hc, (dueAt_next hcur hi hne).symm⟩

theorem pending_next_iff (hcur : cur < N) :
    Pending L cur now p (now + 1) ↔ p ∈ addrs (expired (L cur)) := by
  simp only [Pending, mem_addrs, mem_expired]
  constructor
  · rintro ⟨i, hi, c, hc, hd⟩
    obtain ⟨rfl, hrot⟩ := (dueAt_eq_next_iff hcur hi).1 hd.symm
    exact ⟨c, hc, hrot⟩
  · rintro ⟨c, hc, hrot⟩
    exact ⟨cur, hcur, c, hc, ((dueAt_eq_next_iff hcur hcur).2 ⟨rfl, hrot⟩).symm⟩

theorem map_timer_callsOf (hready : Ready S) : (callsOf S).map Call.timer = addrs (expired S) := by
  have hcall : ∀ e ∈ expired S, (callOf? e).map Call.timer = some e.1 := by
    intro e he
    obtain ⟨cb, hcb⟩ := Option.ne_none_iff_exists'.1 (hready e he)
    rw [callOf?, hcb]
    rfl
  rw [callsOf, List.map_filterMap, List.filterMap_congr hcall, List.filterMap_eq_map']
  rfl

/-! ### The agenda -/

/-- The wheel with the lists `L` keeps the agenda `s`. -/
structure RefinesWith (w : World) (s : Agenda Addr) (L : ℕ → List (Addr × TimerData)) : Prop where
  rep : Rep w.timers w.wheel L
  wf : s.WF
  now : s.now = w.ticks
  due : ∀ p d, s.due p = some d ↔ Pending L w.wheel.curSlot w.ticks p d
  armed : s.armed = w.added
  cancelled : s.cancelled = w.deleted
  fired : s.fired = w.calls.map fun e => (e.1, e.2.timer)
  fresh : ∀ p ∈ s.armed, p < w.timers.fresh

/-- The wheel keeps the agenda `s`. -/
def Refines (w : World) (s : Agenda Addr) : Prop := ∃ L, RefinesWith w s L

theorem refines_init : Refines .init (.empty Addr) :=
  ⟨fun _ => [],
    { rep := rep_init
      wf := Agenda.wf_empty
      now := rfl
      due := fun p d => by simp [Agenda.empty, Pending]
      armed := rfl
      cancelled := rfl
      fired := rfl
      fresh := fun p hp => absurd hp List.not_mem_nil }⟩

theorem RefinesWith.held_iff (h : RefinesWith w s L) : w.Held p ↔ s.due p ≠ none := by
  rw [h.wf.held, h.armed, h.cancelled, h.fired, World.Held, List.map_map]
  rfl

theorem RefinesWith.exists_mem (h : RefinesWith w s L) (hp : w.Held p) :
    ∃ i < N, ∃ D c S, L i = D ++ (p, c) :: S := by
  obtain ⟨d, hd⟩ := Option.ne_none_iff_exists'.1 (h.held_iff.1 hp)
  obtain ⟨i, hi, c, hc, -⟩ := (h.due p d).1 hd
  obtain ⟨D, S, hL⟩ := List.append_of_mem hc
  exact ⟨i, hi, D, c, S, hL⟩

theorem RefinesWith.held_of_mem (h : RefinesWith w s L) (hi : i < N) (hp : (p, c) ∈ L i) :
    w.Held p := by
  have hd := (h.due p _).2 ⟨i, hi, c, hp, rfl⟩
  exact h.held_iff.2 (by simp [hd])

/-- The events that a call may be for the agenda. -/
def Matches (op : Op) (ev : Agenda.Event Addr) : Prop :=
  ∀ p, ev = .cancel p → op = .delete (some p)

theorem RefinesWith.add {timeout : ℤ} (h : RefinesWith w s L) (ht : 0 ≤ timeout) :
    ∃ w' s', exec w (.add timeout) = .ok w' ∧
      Agenda.Step s (.arm w.timers.fresh (w.ticks + 1 + ticksOf timeout)) s' ∧ Refines w' s' := by
  obtain ⟨m, wheel, hexec, hcur, hfresh, -, hrep⟩ := exec_add h.rep ht
  have hnew : w.timers.fresh ∉ s.armed := fun hmem => lt_irrefl _ (h.fresh _ hmem)
  have hlt : s.now < w.ticks + 1 + ticksOf timeout := by
    rw [h.now]
    omega
  have hstep := Agenda.Step.arm hnew hlt
  refine ⟨_, _, hexec, hstep, Function.update L (w.wheel.slotFor timeout)
    ((w.timers.fresh, w.wheel.dataFor timeout) :: L (w.wheel.slotFor timeout)), ?_⟩
  have hdueAt : dueAt w.wheel.curSlot w.ticks (w.wheel.slotFor timeout)
      (w.wheel.dataFor timeout).rotation.toNat = w.ticks + 1 + ticksOf timeout := dueAt_add h.rep.cur
  refine
    { rep := hrep
      wf := h.wf.step hstep
      now := h.now
      due := fun p d => ?_
      armed := by rw [h.armed]
      cancelled := h.cancelled
      fired := h.fired
      fresh := fun p hp => ?_ }
  · dsimp only
    rw [hcur, pending_cons (slotFor_lt _ _), hdueAt, ← h.due]
    rcases eq_or_ne p w.timers.fresh with rfl | hne
    · have hnone : s.due w.timers.fresh = none := by
        by_contra hd
        exact hnew ((h.wf.held _).1 hd).1
      rw [Function.update_self, hnone]
      simp [eq_comm]
    · rw [Function.update_of_ne hne]
      simp [hne]
  · show p < m.fresh
    rw [hfresh]
    rcases List.mem_append.1 hp with hp | hp
    · exact (h.fresh p hp).trans (Nat.lt_succ_self _)
    · rw [List.mem_singleton.1 hp]
      exact Nat.lt_succ_self _

theorem RefinesWith.set {cb : ℕ} {data : Ptr} (h : RefinesWith w s L) (hp : w.Held p) :
    ∃ w', exec w (.set p cb data) = .ok w' ∧ Refines w' s := by
  obtain ⟨i, hi, D, c, S, hL⟩ := h.exists_mem hp
  obtain ⟨m, hexec, hfresh, -, hrep⟩ := exec_set h.rep hi hL
  refine ⟨_, hexec, Function.update L i
    (D ++ (p, { c with cbFunc := some cb, userData := data }) :: S), ?_⟩
  exact
    { h with
      rep := hrep
      due := fun q d => (h.due q d).trans (pending_set hi
        { c with cbFunc := some cb, userData := data } hL rfl).symm
      fresh := fun q hq => (h.fresh q hq).trans_eq hfresh.symm }

theorem RefinesWith.delete (h : RefinesWith w s L) (hp : w.Held p) :
    ∃ w' s', exec w (.delete (some p)) = .ok w' ∧ Agenda.Step s (.cancel p) s' ∧
      Refines w' s' := by
  obtain ⟨i, hi, D, c, S, hL⟩ := h.exists_mem hp
  obtain ⟨m, wheel, hexec, hcur, hfresh, -, hrep⟩ := exec_delete h.rep hi hL
  have hstep := Agenda.Step.cancel (h.held_iff.1 hp)
  refine ⟨_, _, hexec, hstep, Function.update L i (D ++ S), ?_⟩
  refine
    { rep := hrep
      wf := h.wf.step hstep
      now := h.now
      due := fun q d => ?_
      armed := h.armed
      cancelled := by rw [h.cancelled]
      fired := h.fired
      fresh := fun q hq => (h.fresh q hq).trans_eq hfresh.symm }
  dsimp only
  rw [hcur, pending_remove h.rep hi hL, ← h.due]
  rcases eq_or_ne q p with rfl | hne
  · simp
  · rw [Function.update_of_ne hne]
    simp [hne]

/-- The tick in which a timer fires that a callback adds in tick `now`: the slot of that tick comes
round again only after `N` further ticks. -/
def dueInside (now : ℕ) (timeout : ℤ) : ℕ :=
  now + ticksOf timeout + if N ∣ ticksOf timeout then N else 0

theorem ticksOf_pos (timeout : ℤ) : 0 < ticksOf timeout := by
  unfold ticksOf SI
  split_ifs with h <;> omega

theorem dueAt_inside (h : Wheel) (r : Request) :
    dueAt ((h.curSlot + 1) % N) (now + 1) (h.slotFor r.timeout) (h.dataOf r).rotation.toNat =
      dueInside (now + 1) r.timeout := by
  show dueAt _ _ ((h.curSlot + ticksOf r.timeout % N) % N) (ticksOf r.timeout / N) = _
  unfold dueInside dueAt N
  split_ifs <;> omega

theorem pending_entered {h : Wheel} {ts : List (Addr × Request)} :
    Pending (fun i => entered h ts i ++ L i) cur now p d ↔
      (∃ r, (p, r) ∈ ts ∧ d = dueAt cur now (h.slotFor r.timeout) (h.dataOf r).rotation.toNat) ∨
        Pending L cur now p d := by
  simp only [Pending, List.mem_append, mem_entered]
  constructor
  · rintro ⟨i, hi, c, ⟨r, hr, rfl, rfl⟩ | hc, hd⟩
    · exact .inl ⟨r, hr, hd⟩
    · exact .inr ⟨i, hi, c, hc, hd⟩
  · rintro (⟨r, hr, hd⟩ | ⟨i, hi, c, hc, hd⟩)
    · exact ⟨_, slotFor_lt h r.timeout, _, .inl ⟨r, hr, rfl, rfl⟩, hd⟩
    · exact ⟨i, hi, c, .inr hc, hd⟩

theorem map_fst_timersFor (fresh : Addr) (rs : List Request) :
    (timersFor fresh rs).map Prod.fst = List.range' fresh (timersFor fresh rs).length := by
  induction rs generalizing fresh with
  | nil => rfl
  | cons r rs ih =>
    unfold timersFor
    split_ifs
    · exact ih fresh
    · rw [List.map_cons, List.length_cons, List.range'_succ, ih]

theorem RefinesWith.ready (h : RefinesWith w s L) (hset : Legal w .tick) :
    Ready (L w.wheel.curSlot) := by
  rintro ⟨p, c⟩ he
  have hmem := (mem_expired.1 he).1
  obtain ⟨_, _, hget⟩ := h.rep.get? h.rep.cur hmem
  exact hset p _ (h.held_of_mem h.rep.cur hmem) hget

theorem RefinesWith.step_tick (h : RefinesWith w s L) : Agenda.Step s .tick
    { s with
      now := s.now + 1
      due := fun p => if s.due p = some (s.now + 1) then none else s.due p
      fired := s.fired ++ (addrs (expired (L w.wheel.curSlot))).map fun p => (s.now + 1, p) } := by
  refine .tick ?_ fun p => ?_
  · exact (h.rep.chain _ h.rep.cur).nodup.sublist (List.filter_sublist.map _)
  · rw [h.due, h.now, pending_next_iff h.rep.cur]

/-- What the callbacks add in tick `now + 1` is armed for its tick in the lists. -/
theorem mem_dueInside_iff {ts : List (Addr × Request)} (h : Wheel) :
    (p, d) ∈ ts.map (fun e => (e.1, dueInside (now + 1) e.2.timeout)) ↔ ∃ r, (p, r) ∈ ts ∧ d =
      dueAt ((h.curSlot + 1) % N) (now + 1) (h.slotFor r.timeout) (h.dataOf r).rotation.toNat := by
  simp only [List.mem_map, Prod.mk.injEq, Prod.exists, dueAt_inside]
  constructor
  · rintro ⟨q, r, hr, rfl, rfl⟩
    exact ⟨r, hr, rfl⟩
  · rintro ⟨r, hr, rfl⟩
    exact ⟨p, r, hr, rfl, rfl⟩

theorem due_after_iff {due : Option ℕ} {k : ℕ} :
    (if due = some k then none else due) = some d ↔ due = some d ∧ d ≠ k := by
  split_ifs with hk
  · rw [hk, Option.some.injEq]
    exact iff_of_false (by simp) fun hd => hd.2 hd.1.symm
  · exact ⟨fun hd => ⟨hd, fun hn => hk (hn ▸ hd)⟩, And.left⟩

/-- `tick` fires the timers that are due, and arms those that the callbacks add. -/
theorem RefinesWith.tickAdding (plan : Call → List Request) (h : RefinesWith w s L)
    (hset : Legal w .tick) :
    ∃ w' new s₁ s', w.tickAdding plan = .ok (w', new) ∧ w'.ticks = w.ticks + 1 ∧
      Agenda.Step s .tick s₁ ∧ (Agenda.agendaLTS Addr).Run s₁
        (new.map fun e => .arm e.1 (dueInside (w.ticks + 1) e.2.timeout)) s' ∧ Refines w' s' ∧
      ∀ e ∈ new, s'.due e.1 = some (dueInside (w.ticks + 1) e.2.timeout) := by
  have hcur := h.rep.cur
  have hready := h.ready hset
  have hstep := h.step_tick
  obtain ⟨m, wheel, htick, hcur', hfresh, -, hrep⟩ := tick_adding_spec plan h.rep hready
  obtain ⟨new, hnew⟩ : ∃ new, new = addedBy w.timers plan (L w.wheel.curSlot) := ⟨_, rfl⟩
  rw [← hnew] at hfresh hrep
  have haddrs : new.map Prod.fst = List.range' w.timers.fresh new.length := by
    rw [hnew, addedBy, map_fst_timersFor]
  have hmem : ∀ p ∈ new.map Prod.fst, w.timers.fresh ≤ p ∧ p < m.fresh := fun p hp =>
    hfresh ▸ List.mem_range'_1.1 (haddrs ▸ hp)
  -- what the callbacks add is armed after the tick
  have hkeys : (new.map fun e => (e.1, dueInside (w.ticks + 1) e.2.timeout)).map Prod.fst =
      new.map Prod.fst := List.map_map
  obtain ⟨s', hrun, hnow, harmed, hcancelled, hfired, hdue⟩ := Agenda.exists_arms
    (l := new.map fun e => (e.1, dueInside (w.ticks + 1) e.2.timeout)) (h.wf.step hstep)
    (by rw [hkeys, haddrs]; exact List.nodup_range') <| by
      rintro e he
      obtain ⟨⟨p, r⟩, hr, rfl⟩ := List.mem_map.1 he
      have hpos := ticksOf_pos r.timeout
      refine ⟨fun harmed => ?_, ?_⟩
      · exact absurd (h.fresh p harmed) (Nat.not_lt.2 (hmem p (List.mem_map.2 ⟨_, hr, rfl⟩)).1)
      · show s.now + 1 < dueInside (w.ticks + 1) r.timeout
        rw [h.now, dueInside]
        omega
  rw [List.map_map] at hrun
  rw [hkeys] at harmed
  have hexec : w.tickAdding plan = .ok ({ w with
      timers := m
      wheel
      ticks := w.ticks + 1
      added := w.added ++ new.map Prod.fst
      calls := w.calls ++ (callsOf (L w.wheel.curSlot)).map fun call =>
        (w.ticks + 1, call) }, new) := by
    rw [World.tickAdding, htick, hnew]
    rfl
  refine ⟨_, new, _, s', hexec, rfl, hstep, hrun, ⟨fun i => entered w.wheel new i ++
    Function.update L w.wheel.curSlot (survivors (L w.wheel.curSlot)) i, ?_⟩,
    fun e he => (hdue _ _).2 (.inl (List.mem_map.2 ⟨e, he, rfl⟩))⟩
  refine
    { rep := hrep
      wf := (h.wf.step hstep).run hrun
      now := hnow.trans (congrArg (· + 1) h.now)
      due := fun p d => ?_
      armed := by rw [harmed, h.armed]
      cancelled := hcancelled.trans h.cancelled
      fired := ?_
      fresh := fun q hq => ?_ }
  · dsimp only
    rw [hdue, hcur', pending_entered, pending_tick hcur, ← h.due]
    refine or_congr (mem_dueInside_iff w.wheel) ?_
    dsimp only
    rw [h.now]
    exact due_after_iff
  · rw [hfired]
    dsimp only
    rw [h.fired, h.now, List.map_append, List.map_map, ← map_timer_callsOf hready, List.map_map]
    rfl
  · show q < m.fresh
    rw [harmed] at hq
    rcases List.mem_append.1 hq with hq | hq
    · exact (h.fresh q hq).trans_le (hfresh ▸ Nat.le_add_right ..)
    · exact (hmem q hq).2

theorem tickAdding_none (w : World) :
    w.tickAdding (fun _ => []) = (exec w .tick).map fun u => (u, []) := by
  show (w.wheel.tick quiet w.timers >>= fun _ => _) = _
  unfold exec
  cases w.wheel.tick quiet w.timers with
  | error => rfl
  | ok r =>
    obtain ⟨timers, wheel, calls⟩ := r
    have hnone : calls.flatMap (fun _ => ([] : List Request)) = [] :=
      List.flatMap_eq_nil_iff.2 fun _ _ => rfl
    simp only [ok_bind, pure_eq_ok, Except.map, hnone, timersFor, List.map_nil, List.append_nil]

theorem RefinesWith.tick (h : RefinesWith w s L) (hset : Legal w .tick) :
    ∃ w' s', exec w .tick = .ok w' ∧ Agenda.Step s .tick s' ∧ Refines w' s' := by
  obtain ⟨w', new, s₁, s', hexec, -, hstep, hrun, href, -⟩ := h.tickAdding (fun _ => []) hset
  rw [tickAdding_none] at hexec
  cases hu : exec w .tick with
  | error =>
    rw [hu] at hexec
    cases hexec
  | ok u =>
    rw [hu] at hexec
    obtain ⟨rfl, rfl⟩ := Prod.mk.inj (Except.ok.inj hexec)
    obtain rfl := LTS.run_nil_iff.1 hrun
    exact ⟨u, s', rfl, hstep, href⟩

/-- Every call a program may make returns, and does to the agenda what it is there to do. -/
theorem exec_refines {op : Op} (h : Refines w s) (hlegal : Legal w op) :
    ∃ w' ev s', exec w op = .ok w' ∧ Agenda.Step s ev s' ∧ Matches op ev ∧ Refines w' s' := by
  obtain ⟨L, hL⟩ := h
  cases op with
  | add timeout =>
    by_cases ht : timeout < 0
    · have hexec : exec w (.add timeout) = .ok { w with added := w.added ++ [] } := by
        rw [exec, Wheel.addTimer, if_pos ht]
        rfl
      rw [List.append_nil] at hexec
      refine ⟨w, .skip, s, hexec, .skip, ?_, L, hL⟩
      rintro q ⟨⟩
    · obtain ⟨w', s', hexec, hstep, href⟩ := hL.add (Int.not_lt.1 ht)
      refine ⟨w', _, s', hexec, hstep, ?_, href⟩
      rintro q ⟨⟩
  | set p cb data =>
    obtain ⟨w', hexec, href⟩ := hL.set hlegal
    refine ⟨w', .skip, s, hexec, .skip, ?_, href⟩
    rintro q ⟨⟩
  | delete timer =>
    cases timer with
    | none =>
      have hexec : exec w (.delete none) = .ok { w with deleted := w.deleted ++ [] } := rfl
      rw [List.append_nil] at hexec
      refine ⟨w, .skip, s, hexec, .skip, ?_, L, hL⟩
      rintro q ⟨⟩
    | some p =>
      obtain ⟨w', s', hexec, hstep, href⟩ := hL.delete hlegal
      refine ⟨w', _, s', hexec, hstep, ?_, href⟩
      rintro q ⟨⟩
      rfl
  | tick =>
    obtain ⟨w', s', hexec, hstep, href⟩ := hL.tick hlegal
    refine ⟨w', _, s', hexec, hstep, ?_, href⟩
    rintro q ⟨⟩

/-- Every run of a wheel is one of its agenda. -/
theorem run_refines {ops : List Op} (hrun : timeWheelLTS.Run w ops w') (h : Refines w s) :
    ∃ evs s', (Agenda.agendaLTS Addr).Run s evs s' ∧ (∀ ev ∈ evs, ∃ op ∈ ops, Matches op ev) ∧
      Refines w' s' := by
  refine hrun.simulate h ?_
  intro u op v s hu hstep
  obtain ⟨v', ev, s', hexec, hs, hmatch, href⟩ := exec_refines hu hstep.2
  obtain rfl := Except.ok.inj (hexec.symm.trans hstep.1)
  exact ⟨ev, s', hs, hmatch, href⟩

/-! ### What is called -/

/-- What the caller has given to the timer `p`, its callback and its data, after one more call. -/
def setBy (p : Addr) (given : Option (ℕ × Ptr)) : Op → Option (ℕ × Ptr)
  | .set q cb data => if q = p then some (cb, data) else given
  | _ => given

/-- What the caller has given to the timer `p` last. -/
def lastSet (p : Addr) (ops : List Op) : Option (ℕ × Ptr) := ops.foldl (setBy p) none

/-- The timer `p` has the callback and the data given to it; the calls made for it had them. -/
structure Given (p : Addr) (given : Option (ℕ × Ptr)) (w : World)
    (L : ℕ → List (Addr × TimerData)) : Prop where
  content : ∀ i < N, ∀ c, (p, c) ∈ L i → c.cbFunc.map (fun cb => (cb, c.userData)) = given
  calls : ∀ e ∈ w.calls, e.2.timer = p → given = some (e.2.cbFunc, e.2.userData)

section Given

variable {given : Option (ℕ × Ptr)} {L' : ℕ → List (Addr × TimerData)}

theorem Given.of_sub (hg : Given p given w L) (hcalls : w'.calls = w.calls)
    (hL : ∀ i < N, ∀ c, (p, c) ∈ L' i → ∃ j < N, ∃ c₀, (p, c₀) ∈ L j ∧ c.cbFunc = c₀.cbFunc ∧
      c.userData = c₀.userData) : Given p given w' L' where
  content i hi c hc := by
    obtain ⟨j, hj, c₀, hc₀, hcb, hdata⟩ := hL i hi c hc
    rw [hcb, hdata]
    exact hg.content j hj c₀ hc₀
  calls := hcalls ▸ hg.calls

theorem Given.update (hg : Given p given w L) (hcalls : w'.calls = w.calls) (hj : j < N)
    (hX : ∀ c, (p, c) ∈ X → (p, c) ∈ L j) : Given p given w' (Function.update L j X) := by
  refine hg.of_sub hcalls fun i hi c hc => ?_
  rcases eq_or_ne i j with rfl | hne
  · rw [Function.update_self] at hc
    exact ⟨i, hi, c, hX c hc, rfl, rfl⟩
  · rw [Function.update_of_ne hne] at hc
    exact ⟨i, hi, c, hc, rfl, rfl⟩

theorem mem_callsOf {call : Call} : call ∈ callsOf S ↔
    ∃ c, (call.timer, c) ∈ expired S ∧ c.cbFunc = some call.cbFunc ∧ c.userData = call.userData := by
  simp only [callsOf, callOf?, List.mem_filterMap, Option.map_eq_some_iff, Prod.exists]
  constructor
  · rintro ⟨q, c, hc, cb, hcb, rfl⟩
    exact ⟨c, hc, hcb, rfl⟩
  · rintro ⟨c, hc, hcb, hdata⟩
    exact ⟨call.timer, c, hc, call.cbFunc, hcb, by rw [hdata]⟩

theorem Given.set {q : Addr} {cb : ℕ} {data : Ptr} (hg : Given p given w L)
    (h : RefinesWith w s L) (hlegal : Legal w (.set q cb data))
    (hexec : exec w (.set q cb data) = .ok w') :
    ∃ L', Rep w'.timers w'.wheel L' ∧ Given p (setBy p given (.set q cb data)) w' L' := by
  obtain ⟨i, hi, D, c, S, hL⟩ := h.exists_mem hlegal
  obtain ⟨m, hexec', -, -, hrep⟩ := exec_set h.rep hi hL
  obtain rfl := Except.ok.inj (hexec'.symm.trans hexec)
  refine ⟨_, hrep, ?_⟩
  rcases eq_or_ne q p with rfl | hne
  · -- no call has been made for `q`, and it is in the lists once
    rw [setBy, if_pos rfl]
    obtain ⟨hqD, hqS, -⟩ := (hL ▸ h.rep.chain i hi).notMem
    refine ⟨fun k hk c' hc' => ?_, fun e he hq => ?_⟩
    · rcases eq_or_ne k i with rfl | hki
      · rw [Function.update_self, List.mem_append, List.mem_cons] at hc'
        rcases hc' with hc' | heq | hc'
        · exact absurd (mem_addrs_of_mem hc') hqD
        · obtain rfl := congrArg Prod.snd heq
          rfl
        · exact absurd (mem_addrs_of_mem hc') hqS
      · rw [Function.update_of_ne hki] at hc'
        exact absurd (h.rep.slot_inj hk hi (mem_addrs_of_mem hc') (by simp [hL])) hki
    · exact absurd (List.mem_map.2 ⟨e, he, hq⟩) hlegal.2.2
  · rw [setBy, if_neg hne]
    refine hg.update rfl hi fun c' hc' => ?_
    rw [hL]
    simp only [List.mem_append, List.mem_cons, Prod.mk.injEq, hne.symm, false_and,
      false_or] at hc' ⊢
    exact hc'

theorem Given.tick (hg : Given p given w L) (h : RefinesWith w s L) (hlegal : Legal w .tick)
    (hexec : exec w .tick = .ok w') : ∃ L', Rep w'.timers w'.wheel L' ∧ Given p given w' L' := by
  have hcur := h.rep.cur
  obtain ⟨m, wheel, htick, -, -, -, hrep⟩ := tick_spec h.rep (h.ready hlegal)
  have hexec' : exec w .tick = .ok { w with
      timers := m
      wheel
      ticks := w.ticks + 1
      calls := w.calls ++ (callsOf (L w.wheel.curSlot)).map fun call =>
        (w.ticks + 1, call) } := by
    rw [exec, htick]
    rfl
  obtain rfl := Except.ok.inj (hexec'.symm.trans hexec)
  refine ⟨_, hrep, fun i hi c hc => ?_, fun e he hp => ?_⟩
  · rcases eq_or_ne i w.wheel.curSlot with rfl | hne
    · rw [Function.update_self, survivors, List.mem_filterMap] at hc
      obtain ⟨⟨q, c₀⟩, hc₀, hc⟩ := hc
      simp only [Option.ite_none_right_eq_some, Option.some.injEq, Prod.mk.injEq] at hc
      obtain ⟨-, rfl, rfl⟩ := hc
      exact hg.content _ hi c₀ hc₀
    · rw [Function.update_of_ne hne] at hc
      exact hg.content i hi c hc
  · rcases List.mem_append.1 he with he | he
    · exact hg.calls e he hp
    · obtain ⟨call, hcall, rfl⟩ := List.mem_map.1 he
      obtain ⟨c, hc, hcb, hdata⟩ := mem_callsOf.1 hcall
      have hgiven := hg.content _ hcur c (hp ▸ (mem_expired.1 hc).1)
      rw [hcb, hdata] at hgiven
      exact hgiven.symm

/-- Every call that a program may make leaves `p` and the calls made for it with what is given. -/
theorem Given.step {op : Op} (hg : Given p given w L) (h : RefinesWith w s L)
    (hp : p ∈ s.armed) (hlegal : Legal w op) (hexec : exec w op = .ok w') :
    ∃ L', Rep w'.timers w'.wheel L' ∧ Given p (setBy p given op) w' L' := by
  cases op with
  | add timeout =>
    by_cases ht : timeout < 0
    · rw [exec, Wheel.addTimer, if_pos ht] at hexec
      obtain rfl := Except.ok.inj hexec
      exact ⟨L, h.rep, hg.content, hg.calls⟩
    · obtain ⟨m, wheel, hexec', -, -, -, hrep⟩ := exec_add h.rep (Int.not_lt.1 ht)
      obtain rfl := Except.ok.inj (hexec'.symm.trans hexec)
      refine ⟨_, hrep, hg.update rfl (slotFor_lt _ _) fun c hc => ?_⟩
      refine (List.mem_cons.1 hc).resolve_left fun heq => ?_
      exact (h.fresh p hp).ne (congrArg Prod.fst heq)
  | set q cb data => exact hg.set h hlegal hexec
  | delete timer =>
    cases timer with
    | none =>
      obtain rfl := Except.ok.inj hexec
      exact ⟨L, h.rep, hg.content, hg.calls⟩
    | some q =>
      obtain ⟨i, hi, D, c, S, hL⟩ := h.exists_mem hlegal
      obtain ⟨m, wheel, hexec', -, -, -, hrep⟩ := exec_delete h.rep hi hL
      obtain rfl := Except.ok.inj (hexec'.symm.trans hexec)
      refine ⟨_, hrep, hg.update rfl hi fun c' hc' => ?_⟩
      rw [hL, List.mem_append, List.mem_cons]
      exact (List.mem_append.1 hc').imp_right .inr
  | tick => exact hg.tick h hlegal hexec

theorem RefinesWith.given_new {timeout : ℤ} (h : RefinesWith w s L) (ht : 0 ≤ timeout)
    (hexec : exec w (.add timeout) = .ok w') (h' : RefinesWith w' s' L')
    (hheld : w'.Held w.timers.fresh) : Given w.timers.fresh none w' L' := by
  obtain ⟨m, wheel, hexec', -, -, -, hrep⟩ := exec_add h.rep ht
  obtain rfl := Except.ok.inj (hexec'.symm.trans hexec)
  have hold : ∀ i < N, ∀ c, (w.timers.fresh, c) ∉ L i := fun i hi c hc =>
    (h.fresh _ (h.armed ▸ (h.held_of_mem hi hc).1)).ne rfl
  refine ⟨fun i hi c hc => ?_, fun e he hp => absurd (List.mem_map.2 ⟨e, he, hp⟩) hheld.2.2⟩
  rw [← hrep.unique h'.rep hi] at hc
  rcases eq_or_ne i (w.wheel.slotFor timeout) with rfl | hne
  · rw [Function.update_self, List.mem_cons] at hc
    rcases hc with heq | hc
    · obtain rfl := congrArg Prod.snd heq
      rfl
    · exact absurd hc (hold _ hi c)
  · rw [Function.update_of_ne hne] at hc
    exact absurd hc (hold i hi c)

/-- What is given to a timer is what its callback is called with. -/
theorem given_of_run {ops : List Op} (hrun : timeWheelLTS.Run w ops w') (h : RefinesWith w s L)
    (hg : Given p none w L) (hp : p ∈ s.armed) :
    ∃ s' L', RefinesWith w' s' L' ∧ Given p (lastSet p ops) w' L' ∧ p ∈ s'.armed := by
  induction hrun with
  | nil => exact ⟨s, L, h, hg, hp⟩
  | snoc _ hstep ih =>
    obtain ⟨s₁, L₁, h₁, hg₁, hp₁⟩ := ih
    obtain ⟨L', hrep, hg'⟩ := hg₁.step h₁ hp₁ hstep.2 hstep.1
    obtain ⟨v, ev, s', hexec, hs, -, L₂, h₂⟩ := exec_refines ⟨L₁, h₁⟩ hstep.2
    obtain rfl := Except.ok.inj (hexec.symm.trans hstep.1)
    refine ⟨s', L₂, h₂, ?_, Agenda.armed_of_step hs hp₁⟩
    rw [lastSet, List.foldl_append]
    refine hg'.of_sub rfl fun i hi c hc => ⟨i, hi, c, ?_, rfl, rfl⟩
    rwa [hrep.unique h₂.rep hi]

end Given

/-- The ticks in which the callback of a timer was called. -/
def World.calledAt (w : World) (p : Addr) : List ℕ :=
  (w.calls.filter fun e => e.2.timer = p).map Prod.fst

theorem Refines.calledAt (h : Refines w s) : w.calledAt p = s.firedAt p := by
  obtain ⟨L, hL⟩ := h
  rw [World.calledAt, Agenda.firedAt, hL.fired, List.filter_map, List.map_map]
  rfl

theorem ticksOf_eq {timeout : ℤ} (ht : 0 ≤ timeout) : ticksOf timeout = (max timeout 1).toNat := by
  unfold ticksOf SI
  split_ifs with h <;> omega

/-- **Timers fire on time.**  In a run from an empty wheel `add_timer` has returned the timer `p`.
If `p` is not deleted later its callback is called once, in tick `max(timeout, 1) + 1` from there
on; if it is deleted, still in the wheel, its callback is not called.  The callback called and the
data passed are those that the caller has given to the timer last.  Every call that the program may
make returns. -/
theorem fires_on_time {ops₁ ops₂ : List Op} {w₁ w₂ : World} {timeout : ℤ} {m : Store TwTimer}
    {wheel : Wheel} (h₁ : timeWheelLTS.Run .init ops₁ w₁)
    (hp : w₁.wheel.addTimer w₁.timers timeout = .ok (some p, m, wheel))
    (hadd : timeWheelLTS.step w₁ (.add timeout) w₂) (h₂ : timeWheelLTS.Run w₂ ops₂ w) :
    (.delete (some p) ∉ ops₂ → w.calledAt p =
      if w₁.ticks + ((max timeout 1).toNat + 1) ≤ w.ticks then
        [w₁.ticks + ((max timeout 1).toNat + 1)] else []) ∧
      (.delete (some p) ∈ ops₂ → w.calledAt p = []) ∧
      (∀ e ∈ w.calls, e.2.timer = p → lastSet p ops₂ = some (e.2.cbFunc, e.2.userData)) ∧
      ∀ op, Legal w op → ∃ w', timeWheelLTS.step w op w' := by
  have ht : 0 ≤ timeout := by
    by_contra hneg
    rw [Wheel.addTimer, if_pos (Int.not_le.1 hneg)] at hp
    simp at hp
  -- the run before, and the step that adds the timer, as steps of the agenda
  obtain ⟨_, s₁, -, -, L, hs₁⟩ := run_refines h₁ refines_init
  obtain ⟨w₂', s₂, hexec, harm, hs₂⟩ := hs₁.add ht
  obtain rfl : w₂' = w₂ := Except.ok.inj (hexec.symm.trans hadd.1)
  obtain rfl : w₁.timers.fresh = p := by
    obtain ⟨m', wheel', hadd', -⟩ := addTimer_spec hs₁.rep ht
    exact Option.some.inj (congrArg Prod.fst (Except.ok.inj (hadd'.symm.trans hp)))
  have hwf₂ : s₂.WF := hs₁.wf.step harm
  refine ⟨fun hdelete => ?_, fun hdelete => ?_, ?_, fun op hlegal => ?_⟩
  · obtain ⟨evs, s, hrun, hevs, hs⟩ := run_refines h₂ hs₂
    have hcancel : .cancel w₁.timers.fresh ∉ evs := by
      intro hmem
      obtain ⟨op, hop, hmatch⟩ := hevs _ hmem
      exact hdelete (hmatch _ rfl ▸ hop)
    have hfired := Agenda.firedAt_of_due hwf₂ (Agenda.due_of_arm harm) hrun hcancel
    obtain ⟨_, hL⟩ := id hs
    rwa [hL.now, ticksOf_eq ht, Nat.add_assoc, Nat.add_comm 1, ← hs.calledAt] at hfired
  · -- the deletion is made in a state `u` and leads to the state `v`
    obtain ⟨ops, ops', rfl⟩ := List.append_of_mem hdelete
    rw [List.append_cons] at h₂
    obtain ⟨v, hv, h₂⟩ := LTS.run_append_iff.1 h₂
    obtain ⟨u, hu, hstep⟩ := LTS.run_snoc_iff.1 hv
    obtain ⟨_, su, -, -, _, hsu⟩ := run_refines hu hs₂
    obtain ⟨v', sv, hexec', hcancel, hsv⟩ := hsu.delete hstep.2
    obtain rfl : v' = v := Except.ok.inj (hexec'.symm.trans hstep.1)
    obtain ⟨evs, s, hrun, -, hs⟩ := run_refines h₂ hsv
    have hdue := hsu.held_iff.1 hstep.2
    have harmed := Agenda.armed_of_step hcancel ((hsu.wf.held _).1 hdue).1
    rw [hs.calledAt, Agenda.silent harmed (Agenda.due_of_cancel hcancel) hrun,
      Agenda.firedAt_of_step hcancel, hsu.wf.firedAt_eq_nil hdue]
    rfl
  · obtain ⟨L₂, hL₂⟩ := hs₂
    have hheld : w₂'.Held w₁.timers.fresh := hL₂.held_iff.2 (by simp [Agenda.due_of_arm harm])
    have hg := hs₁.given_new ht hexec hL₂ hheld
    obtain ⟨_, _, -, hg', -⟩ := given_of_run h₂ hL₂ hg (hL₂.armed ▸ hheld.1)
    exact hg'.calls
  · obtain ⟨_, s, -, -, hs⟩ := run_refines h₂ hs₂
    obtain ⟨w', _, _, hexec', -, -, -⟩ := exec_refines hs hlegal
    exact ⟨w', hexec', hlegal⟩

theorem fires_on_time_zero : ∃ w, timeWheelLTS.Run .init
    [.add 0, .set 0 7 none, .add 60, .set 1 7 none, .tick, .tick, .tick] w ∧
      w.calledAt 0 = [2] := by
  let w₂ : World :=
    ⟨⟨[some (twTimer 0 1)], []⟩, ⟨(List.replicate N none).set 1 (some 0), 0⟩, [0], [], 0, []⟩
  have hadd : timeWheelLTS.step .init (.add 0) w₂ := ⟨rfl, trivial⟩
  have hplay : (LTS.play exec Legal w₂
      [.set 0 7 none, .add 60, .set 1 7 none, .tick, .tick, .tick]).map World.ticks = some 3 := rfl
  obtain ⟨w, hw, hticks⟩ := Option.map_eq_some_iff.1 hplay
  have hcalled := (fires_on_time .nil rfl hadd (LTS.run_of_play hw)).1 (by decide)
  rw [hticks] at hcalled
  exact ⟨w, .cons hadd (LTS.run_of_play hw), hcalled⟩

end TimeWheel

end LinuxServer
