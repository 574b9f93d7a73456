import LinuxServer.SortedList.Held

/-!
# Ticks with callbacks that add timers

A callback may add timers to the list that the tick is walking through: the timer that fires is
still at the head, and the new ones come to stand behind it, some of them among those that the
tick has still to come to.

* `adding plan`: callbacks that add the timers `plan` says.
* `Plans plan fresh L`: these are not due before the timer that adds them, and add nothing.
* `Swept`: what a tick makes of all timers, old and new.

`tickFor_adding` is about a tick with room for a round for each timer.
-/

namespace LinuxServer

namespace SortedList

open Memory SortedQueue Node

variable {m m' : Store UtilTimer} {l l' : TimerList} {L S : List (Addr × TimerData)} {a : Addr}
  {c : TimerData} {fresh : Addr} {datas datas' : List TimerData} {plan : Call → List TimerData}
  {fuel : ℕ} {cur : ℤ}

/-- Timers allocated and added one after the other. -/
def TimerList.addAll (m : Store UtilTimer) (l : TimerList) :
    List TimerData → Except Fault (Store UtilTimer × TimerList)
  | [] => pure (m, l)
  | data :: datas => do
    let (m, l) ← l.addTimer (m.alloc (utilTimer data)) (some m.fresh)
    TimerList.addAll m l datas

/-- Callbacks that only add timers: those that `plan` says for each call. -/
def adding (plan : Call → List TimerData) : Callback := fun call m l => l.addAll m (plan call)

/-- The timers that are allocated for `datas`, when the next address is `fresh`. -/
def timersFrom (fresh : Addr) : List TimerData → List (Addr × TimerData)
  | [] => []
  | data :: datas => (fresh, data) :: timersFrom (fresh + 1) datas

/-- What the callback of a timer adds. -/
def planOf (plan : Call → List TimerData) (e : Addr × TimerData) : List TimerData :=
  ((callOf? e).map plan).getD []

/-- The callbacks of the timers `L` add timers that have callbacks and expire no earlier than the
one that fires, and the callbacks of the timers added, from `fresh` on, add nothing. -/
structure Plans (plan : Call → List TimerData) (fresh : Addr) (L : List (Addr × TimerData)) :
    Prop where
  later : ∀ e ∈ L, ∀ data ∈ planOf plan e, deadline e ≤ data.expire
  set : ∀ e ∈ L, ∀ data ∈ planOf plan e, data.cbFunc ≠ none
  quiet : ∀ call : Call, fresh ≤ call.timer → plan call = []

/-- A round for each timer and for each one it adds. -/
def rounds (plan : Call → List TimerData) (L : List (Addr × TimerData)) : ℕ :=
  L.length + (L.flatMap (planOf plan)).length

/-! ### The timers a callback adds -/

theorem timersFrom_append : timersFrom fresh (datas ++ datas') =
    timersFrom fresh datas ++ timersFrom (fresh + datas.length) datas' := by
  induction datas generalizing fresh with
  | nil => rfl
  | cons data datas ih =>
    rw [List.cons_append, timersFrom, ih, timersFrom, List.length_cons, Nat.add_right_comm,
      Nat.add_assoc, List.cons_append]

theorem addrs_timersFrom : addrs (timersFrom fresh datas) = List.range' fresh datas.length := by
  induction datas generalizing fresh with
  | nil => rfl
  | cons data datas ih => rw [timersFrom, addrs_cons, ih, List.length_cons, List.range'_succ]

theorem mem_timersFrom {e : Addr × TimerData} (he : e ∈ timersFrom fresh datas) :
    fresh ≤ e.1 ∧ e.2 ∈ datas := by
  induction datas generalizing fresh with
  | nil => exact absurd he List.not_mem_nil
  | cons data datas ih =>
    rcases List.mem_cons.1 he with rfl | he
    · exact ⟨le_rfl, List.mem_cons_self⟩
    · obtain ⟨hle, hmem⟩ := ih he
      exact ⟨(Nat.le_succ fresh).trans hle, List.mem_cons_of_mem _ hmem⟩

theorem addAll_spec (datas : List TimerData) (hr : Rep m l L) :
    ∃ m' l', l.addAll m datas = .ok (m', l') ∧ m'.fresh = m.fresh + datas.length ∧
      m'.freed = m.freed ∧ Rep m' l' (enqueueAll deadline (timersFrom m.fresh datas) L) := by
  induction datas generalizing m l L with
  | nil => exact ⟨m, l, rfl, rfl, rfl, hr⟩
  | cons data datas ih =>
    obtain ⟨m₁, l₁, hadd, hfresh₁, hfreed₁, hr₁⟩ := addNew_spec hr data
    obtain ⟨m', l', hall, hfresh, hfreed, hrep⟩ := ih hr₁
    refine ⟨m', l', ?_, ?_, hfreed.trans hfreed₁, ?_⟩
    · rw [TimerList.addAll, hadd, ok_bind]
      exact hall
    · rw [hfresh, hfresh₁, List.length_cons, Nat.add_assoc, Nat.add_comm 1]
    · rwa [timersFrom, enqueueAll_cons, ← hfresh₁]

theorem planOf_of_call {e : Addr × TimerData} {call : Call} (h : callOf? e = some call) :
    planOf plan e = plan call := by
  rw [planOf, h]
  rfl

theorem Plans.planOf_new (h : Plans plan fresh L) {e : Addr × TimerData} (he : fresh ≤ e.1) :
    planOf plan e = [] := by
  cases hcb : e.2.cbFunc with
  | none => rw [planOf, callOf?, hcb]; rfl
  | some cb =>
    have hcall : callOf? e = some ⟨e.1, cb, e.2.userData⟩ := by rw [callOf?, hcb]; rfl
    rw [planOf_of_call hcall]
    exact h.quiet _ he

theorem Plans.new (h : Plans plan fresh ((a, c) :: S)) {e : Addr × TimerData}
    (he : e ∈ timersFrom fresh (planOf plan (a, c))) :
    deadline (a, c) ≤ deadline e ∧ e.2.cbFunc ≠ none := by
  have hmem := (mem_timersFrom he).2
  exact ⟨h.later (a, c) List.mem_cons_self e.2 hmem, h.set (a, c) List.mem_cons_self e.2 hmem⟩

/-- The timers behind one that has fired, and those that it has added, have callbacks. -/
theorem Plans.set_fire (h : Plans plan fresh ((a, c) :: S))
    (hset : ∀ e ∈ (a, c) :: S, e.2.cbFunc ≠ none) :
    ∀ e ∈ enqueueAll deadline (timersFrom fresh (planOf plan (a, c))) S, e.2.cbFunc ≠ none := by
  intro e he
  rcases List.mem_append.1 (enqueueAll_perm.mem_iff.1 he) with he | he
  · exact (h.new he).2
  · exact hset e (List.mem_cons_of_mem _ he)

/-- The plans of the timers behind one that has fired, and of those that it has added. -/
theorem Plans.fire (h : Plans plan fresh ((a, c) :: S)) :
    Plans plan (fresh + datas.length) (enqueueAll deadline (timersFrom fresh datas) S) := by
  have hcases : ∀ e ∈ enqueueAll deadline (timersFrom fresh datas) S,
      planOf plan e = [] ∨ e ∈ (a, c) :: S := by
    intro e he
    rcases List.mem_append.1 (enqueueAll_perm.mem_iff.1 he) with he | he
    · exact .inl (h.planOf_new (mem_timersFrom he).1)
    · exact .inr (List.mem_cons_of_mem _ he)
  refine ⟨fun e he data hdata => ?_, fun e he data hdata => ?_, fun call hle => ?_⟩
  · rcases hcases e he with hnone | hold
    · rw [hnone] at hdata
      exact absurd hdata List.not_mem_nil
    · exact h.later e hold data hdata
  · rcases hcases e he with hnone | hold
    · rw [hnone] at hdata
      exact absurd hdata List.not_mem_nil
    · exact h.set e hold data hdata
  · exact h.quiet call ((Nat.le_add_right _ _).trans hle)

/-- A timer that fires takes a round and leaves one for each timer it adds. -/
theorem Plans.rounds_fire (h : Plans plan fresh ((a, c) :: S)) :
    rounds plan (enqueueAll deadline (timersFrom fresh (planOf plan (a, c))) S) + 1 =
      rounds plan ((a, c) :: S) := by
  have hlen : (timersFrom fresh (planOf plan (a, c))).length = (planOf plan (a, c)).length := by
    rw [← List.length_map, ← addrs, addrs_timersFrom, List.length_range']
  have hnone : (timersFrom fresh (planOf plan (a, c))).flatMap (planOf plan) = [] :=
    List.flatMap_eq_nil_iff.2 fun e he => h.planOf_new (mem_timersFrom he).1
  have hperm : (enqueueAll deadline (timersFrom fresh (planOf plan (a, c))) S).Perm _ :=
    enqueueAll_perm
  have hplanned := (hperm.flatMap_right (planOf plan)).length_eq
  rw [List.flatMap_append, hnone, List.nil_append] at hplanned
  rw [rounds, rounds, hperm.length_eq, hplanned, List.length_append, hlen, List.flatMap_cons,
    List.length_append, List.length_cons]
  omega

/-! ### The tick -/

/-- The rounds of a tick: `fired` has fired, `kept` is left. -/
theorem tickLoop_adding (cur : ℤ) (hr : Rep m l L) (hsorted : Sorted deadline L)
    (hset : ∀ e ∈ L, e.2.cbFunc ≠ none) (hplans : Plans plan m.fresh L)
    (hfuel : rounds plan L ≤ fuel) :
    ∃ m' l' fired kept,
      tickLoop (adding plan) cur fuel l.head m l = .ok (m', l', fired.filterMap callOf?) ∧
      (∀ e ∈ fired, e.2.cbFunc ≠ none) ∧ m'.freed = m.freed ++ addrs fired ∧ Rep m' l' kept ∧
      Sorted deadline kept ∧
      Splits deadline cur (L ++ timersFrom m.fresh (fired.flatMap (planOf plan))) fired kept := by
  induction fuel generalizing m l L with
  | zero =>
    obtain rfl : L = [] := List.eq_nil_of_length_eq_zero (by rw [rounds] at hfuel; omega)
    exact ⟨m, l, [], [], rfl, fun e he => absurd he List.not_mem_nil, (List.append_nil _).symm, hr,
      .nil, .nil⟩
  | succ fuel ih =>
    rcases L with _ | ⟨⟨a, c⟩, S⟩
    · rw [hr.head]
      exact ⟨m, l, [], [], rfl, fun e he => absurd he List.not_mem_nil, (List.append_nil _).symm,
        hr, .nil, .nil⟩
    · by_cases hdue : c.expire ≤ cur
      · -- the timer fires, and what it adds comes to stand behind it
        obtain ⟨call, hcall⟩ := exists_callOf? (hset (a, c) List.mem_cons_self)
        have hplan : planOf plan (a, c) = plan call := planOf_of_call hcall
        obtain ⟨m₁, l₁, hall, hfresh₁, hfreed₁, hr₁⟩ := addAll_spec (planOf plan (a, c)) hr
        rw [enqueueAll_behind fun e he => (hplans.new he).1] at hr₁
        rw [hplan] at hall
        obtain ⟨m₂, l₂, hfresh₂, hfreed₂, -, hr₂, hround⟩ :=
          tickLoop_fire fuel hr hdue hcall (show adding plan call m l = _ from hall) hr₁
        have hfresh : m₂.fresh = m.fresh + (planOf plan (a, c)).length := hfresh₂.trans hfresh₁
        have hrounds := hplans.rounds_fire
        have hS : Sorted deadline S := (List.pairwise_cons.1 hsorted).2
        obtain ⟨m', l', fired, kept, hloop, hfired, hfreed, hrep, hkept, hsplits⟩ :=
          ih hr₂ hS.enqueueAll (hplans.set_fire hset) (hfresh ▸ hplans.fire) (by omega)
        refine ⟨m', l', (a, c) :: fired, kept, ?_, ?_, ?_, hrep, hkept, ?_⟩
        · rw [hround, hloop, List.filterMap_cons_some hcall]
          rfl
        · intro e he
          rcases List.mem_cons.1 he with rfl | he
          · exact hset (a, c) List.mem_cons_self
          · exact hfired e he
        · rw [hfreed, hfreed₂, hfreed₁, List.append_assoc]
          rfl
        · rw [List.flatMap_cons, timersFrom_append, ← hfresh]
          exact hsplits.cons hdue
      · -- no timer is due any more
        refine ⟨m, l, [], (a, c) :: S, tickLoop_stop hr (Int.not_le.1 hdue),
          fun e he => absurd he List.not_mem_nil, (List.append_nil _).symm, hr, hsorted, ?_⟩
        rw [List.flatMap_nil, timersFrom, List.append_nil]
        exact hsorted.splits_nil (Int.not_le.1 hdue)

/-- Of all timers, those that are due have been called, each once, and are freed, and the others are
in the list, the earliest first.  (`tail` has a meaning only when there are any.) -/
structure Swept (cur : ℤ) (all : List (Addr × TimerData)) (m m' : Store UtilTimer)
    (l' : TimerList) (calls : List Call) (kept : List (Addr × TimerData)) : Prop where
  calls_perm : calls.Perm ((all.filter fun e => deadline e ≤ cur).filterMap callOf?)
  called_perm : (calls.map Call.timer).Perm (addrs (all.filter fun e => deadline e ≤ cur))
  called_nodup : (calls.map Call.timer).Nodup
  freed : m'.freed = m.freed ++ calls.map Call.timer
  kept_perm : kept.Perm (all.filter fun e => cur < deadline e)
  kept_rep : Rep m' l' kept
  kept_sorted : Sorted deadline kept

theorem flatMap_calls : (L.filterMap callOf?).flatMap plan = L.flatMap (planOf plan) := by
  induction L with
  | nil => rfl
  | cons e L ih =>
    rw [List.flatMap_cons, planOf, ← ih]
    cases hcall : callOf? e with
    | none => rw [List.filterMap_cons_none hcall]; rfl
    | some call => rw [List.filterMap_cons_some hcall]; rfl

theorem nodup_timersFrom (hr : Rep m l L) :
    (addrs (L ++ timersFrom m.fresh datas)).Nodup := by
  rw [addrs_append, addrs_timersFrom]
  refine List.nodup_append'.2 ⟨hr.chain.nodup, List.nodup_range', fun p hold hnew => ?_⟩
  exact Nat.not_le.2 (hr.chain.live hold).lt_fresh (List.mem_range'_1.1 hnew).1

/-- **A tick with callbacks that add timers** calls all timers that are due, also those that are
added meanwhile, each once, and leaves the others in the list. -/
theorem tickFor_adding (hr : Rep m l L) (hsorted : Sorted deadline L)
    (hset : ∀ e ∈ L, e.2.cbFunc ≠ none) (hplans : Plans plan m.fresh L)
    (hfuel : rounds plan L ≤ fuel) :
    ∃ m' l' calls kept, l.tickFor (adding plan) fuel m cur = .ok (m', l', calls) ∧
      Swept cur (L ++ timersFrom m.fresh (calls.flatMap plan)) m m' l' calls kept := by
  obtain ⟨m', l', fired, kept, hloop, hfired, hfreed, hrep, hkept, hsplits⟩ :=
    tickLoop_adding cur hr hsorted hset hplans hfuel
  have hcalled := map_timer_calls hfired
  have hnodup : (addrs fired).Nodup := by
    have hall := (hsplits.perm.map Prod.fst).nodup_iff.2 (nodup_timersFrom hr)
    rw [List.map_append] at hall
    exact hall.of_append_left
  refine ⟨m', l', fired.filterMap callOf?, kept, ?_, ?_⟩
  · unfold TimerList.tickFor
    split_ifs with hhead
    · rw [hhead, tickLoop_none] at hloop
      exact hloop
    · exact hloop
  · rw [flatMap_calls]
    refine ⟨hsplits.due_perm.filterMap _, ?_, ?_, ?_, hsplits.rest_perm, hrep, hkept⟩
    · rw [hcalled]
      exact hsplits.due_perm.map Prod.fst
    · rwa [hcalled]
    · rw [hfreed, hcalled]

/-- The timer with the deadline 3 fires at 5 and adds one that is due at once and one that is not. -/
theorem tickFor_adding_three : ∃ m' l' calls kept,
    TimerList.tickFor (adding fun call => if call.timer = 0 then [⟨3, some 8, none⟩, ⟨9, some 8, none⟩]
      else []) 3 ⟨[some ⟨⟨3, some 7, none⟩, none, none⟩], []⟩ ⟨some 0, some 0⟩ 5 = .ok (m', l', calls) ∧
      Swept 5 ([(0, ⟨3, some 7, none⟩)] ++ timersFrom 1 (calls.flatMap fun call =>
        if call.timer = 0 then [⟨3, some 8, none⟩, ⟨9, some 8, none⟩] else []))
        ⟨[some ⟨⟨3, some 7, none⟩, none, none⟩], []⟩ m' l' calls kept := by
  have hr : Rep ⟨[some ⟨⟨3, some 7, none⟩, none, none⟩], []⟩ ⟨some 0, some 0⟩
      [(0, ⟨3, some 7, none⟩)] := ⟨rfl, fun _ => rfl, rfl, trivial⟩
  refine tickFor_adding hr (List.pairwise_singleton _ _) (by simp) ⟨?_, ?_, ?_⟩ (by decide)
  · simp [planOf, callOf?, deadline]
  · simp [planOf, callOf?]
  · intro call hcall
    exact if_neg (Nat.pos_iff_ne_zero.1 hcall)

end SortedList

end LinuxServer
