import LinuxServer.Alarms.Ticks
import LinuxServer.SortedList.Life
import LinuxServer.TimeWheel.OnTime

/-!
# The time wheel and the sorted list

A program that ticks a wheel could keep a list instead: it counts the ticks, adds each timer with
the tick its timeout ends in as the deadline, and ticks the list with the number of the tick.

* `Request`, `onWheel`, `onList`: what a program asks for, and the calls that do it.
* `Together w v a s`: a wheel and a list that were used in the same way.

`wheel_agrees_with_list`: they call the same callbacks in the same ticks.
-/

namespace LinuxServer

namespace WheelAndList

open Memory

open SortedList (Life LifeOp lifeLTS)
open TimeWheel (World Op TimerData timeWheelLTS N)

/-- What a program asks for.  The timers are numbered in the order in which they are added. -/
inductive Request where
  | add (timeout cbFunc : ℕ) (userData : Ptr)
  | delete (timer : Addr)
  | tick
  deriving DecidableEq, Repr

/-- A timer is added. -/
def Request.isAdd : Request → Bool
  | .add _ _ _ => true
  | .delete _ | .tick => false

/-- The program ticks. -/
def Request.isTick : Request → Bool
  | .tick => true
  | .add _ _ _ | .delete _ => false

/-- The calls on a wheel, when `n` timers were added before. -/
def onWheel (n : ℕ) : Request → List Op
  | .add timeout cbFunc userData => [.add timeout, .set n cbFunc userData]
  | .delete timer => [.delete (some timer)]
  | .tick => [.tick]

/-- The call on a list, after `now` ticks. -/
def onList (now : ℕ) : Request → List LifeOp
  | .add timeout cbFunc userData =>
    [.add ⟨(now + (max timeout 1 + 1) : ℕ), some cbFunc, userData⟩]
  | .delete timer => [.delete (some timer)]
  | .tick => [.tick (now + 1)]

/-- The calls on a wheel for all requests. -/
def wheelOps (rs : List Request) : List Op := LTS.numbered Request.isAdd onWheel 0 rs

/-- The calls on a list for all requests. -/
def listOps (rs : List Request) : List LifeOp := LTS.numbered Request.isTick onList 0 rs

variable {w w' w₁ : World} {v v' : Life} {a : Agenda Addr} {s : Alarms Addr ℤ}
  {L L' : ℕ → List (Addr × TimerData)} {rs : List Request} {p : Addr} {i : ℕ}
  {e : Addr × TimerData}

/-- The timers of a wheel and those that it has called have the callbacks that the list was
given. -/
structure Registered (w : World) (v : Life) (L : ℕ → List (Addr × TimerData)) : Prop where
  entered : ∀ i < N, ∀ e ∈ L i, v.Registered e.1 e.2.cbFunc e.2.userData
  calls : ∀ e ∈ w.calls, v.Registered e.2.timer (some e.2.cbFunc) e.2.userData

/-- A wheel and a list with the same timers, which have called the same ones. -/
structure Together (w : World) (v : Life) (a : Agenda Addr) (s : Alarms Addr ℤ) : Prop where
  wheel : ∃ L, TimeWheel.RefinesWith w a L ∧ Registered w v L
  list : SortedList.Refines v s
  counts : Alarms.Counts a s
  fresh : w.timers.fresh = v.timers.fresh

theorem together_init : Together .init .init (.empty Addr) (.empty Addr ℤ) := by
  obtain ⟨L, hL⟩ := TimeWheel.refines_init
  refine ⟨⟨L, hL, fun i hi e he => ?_, fun e he => ?_⟩, SortedList.refines_init,
    Alarms.counts_empty, rfl⟩
  · rw [hL.rep.unique TimeWheel.rep_init hi] at he
    cases he
  · cases he

theorem mem_of_add {timeout : ℤ} (hr : TimeWheel.Rep w.timers w.wheel L) (ht : 0 ≤ timeout)
    (hexec : TimeWheel.exec w (.add timeout) = .ok w')
    (hr' : TimeWheel.Rep w'.timers w'.wheel L') :
    w'.timers.fresh = w.timers.fresh + 1 ∧ w'.calls = w.calls ∧
      ∀ i < N, ∀ e ∈ L' i, e.1 = w.timers.fresh ∨ e ∈ L i := by
  obtain ⟨m, wheel, hadd, -, hfresh, -, hrep⟩ := TimeWheel.exec_add hr ht
  obtain rfl := Except.ok.inj (hadd.symm.trans hexec)
  refine ⟨hfresh, rfl, fun i hi e he => ?_⟩
  rw [hr'.unique hrep hi] at he
  rcases eq_or_ne i (w.wheel.slotFor timeout) with rfl | hne
  · rw [Function.update_self, List.mem_cons] at he
    exact he.imp (congrArg Prod.fst) id
  · rw [Function.update_of_ne hne] at he
    exact .inr he

theorem mem_of_set {cb : ℕ} {u : Ptr} (h : TimeWheel.RefinesWith w a L) (hp : w.Held p)
    (hexec : TimeWheel.exec w (.set p cb u) = .ok w')
    (hr' : TimeWheel.Rep w'.timers w'.wheel L') :
    w'.timers.fresh = w.timers.fresh ∧ w'.calls = w.calls ∧
      ∀ i < N, ∀ e ∈ L' i,
        (e.1 = p ∧ e.2.cbFunc = some cb ∧ e.2.userData = u) ∨ e.1 ≠ p ∧ e ∈ L i := by
  obtain ⟨j, hj, D, c, S, hL⟩ := h.exists_mem hp
  obtain ⟨m, hset, hfresh, -, hrep⟩ := TimeWheel.exec_set h.rep hj hL
  obtain rfl := Except.ok.inj (hset.symm.trans hexec)
  refine ⟨hfresh, rfl, fun i hi e he => ?_⟩
  rw [hr'.unique hrep hi] at he
  obtain ⟨hpD, hpS, -⟩ := (hL ▸ h.rep.chain j hj).notMem
  rcases eq_or_ne i j with rfl | hne
  · rw [Function.update_self, List.mem_append, List.mem_cons] at he
    rcases he with he | rfl | he
    · exact .inr ⟨fun hep => hpD (hep ▸ mem_addrs_of_mem he), by simp [hL, he]⟩
    · exact .inl ⟨rfl, rfl, rfl⟩
    · exact .inr ⟨fun hep => hpS (hep ▸ mem_addrs_of_mem he), by simp [hL, he]⟩
  · rw [Function.update_of_ne hne] at he
    refine .inr ⟨fun hep => hne ?_, he⟩
    exact h.rep.slot_inj hi hj (hep ▸ mem_addrs_of_mem he) (by simp [hL])

theorem fresh_of_exec {t : Alarms Addr ℤ} {op : LifeOp} (h : SortedList.Refines v s)
    (hexec : v.exec op = .ok v') (h' : SortedList.Refines v' t) :
    v'.timers.fresh = v.timers.fresh + op.datas.length := by
  obtain ⟨V, hV⟩ := h
  obtain ⟨V', hV'⟩ := h'
  rw [← hV'.kept.created, (SortedList.records_of_exec hexec).1, List.length_append,
    hV.kept.created]

theorem Together.add {timeout cb : ℕ} {u : Ptr} (ht : Together w v a s)
    (hwheel : timeWheelLTS.Run w (onWheel v.timers.fresh (.add timeout cb u)) w')
    (hlist : lifeLTS.Run v (onList w.ticks (.add timeout cb u)) v') :
    w'.ticks = w.ticks ∧ ∃ a' s', Together w' v' a' s' := by
  obtain ⟨L, hL, hreg⟩ := ht.wheel
  have hpos : (0 : ℤ) ≤ timeout := Int.natCast_nonneg _
  -- the list
  have hlist := LTS.run_singleton_iff.1 hlist
  obtain ⟨_, hV⟩ := ht.list
  obtain ⟨_, s', hexec, hstep, hlist'⟩ := hV.add hlist.2
  obtain rfl := Except.ok.inj (hlist.1.symm.trans hexec)
  have hcreated := (SortedList.records_of_exec hexec).1
  -- the wheel, in two calls
  obtain ⟨w₁, hadd, hset⟩ := LTS.run_append_iff.1
    (show timeWheelLTS.Run w ([.add timeout] ++ [.set v.timers.fresh cb u]) w' from hwheel)
  have hadd := LTS.run_singleton_iff.1 hadd
  have hset := LTS.run_singleton_iff.1 hset
  obtain ⟨_, a', hexec₁, hstep₁, L₁, hL₁⟩ := hL.add hpos
  obtain rfl := Except.ok.inj (hadd.1.symm.trans hexec₁)
  obtain ⟨hfresh₁, hcalls₁, hmem₁⟩ := mem_of_add hL.rep hpos hexec₁ hL₁.rep
  obtain ⟨_, hexec₂, L₂, hL₂⟩ := hL₁.set hset.2
  obtain rfl := Except.ok.inj (hset.1.symm.trans hexec₂)
  obtain ⟨hfresh₂, hcalls₂, hmem₂⟩ := mem_of_set hL₁ hset.2 hexec₂ hL₂.rep
  have hticks : w'.ticks = w.ticks := by
    rw [← hL₂.now, Agenda.now_of_step hstep₁, ← hL.now]
    rfl
  have hdeadline : ((w.ticks + (max timeout 1 + 1) : ℕ) : ℤ) =
      (w.ticks + 1 + TimeWheel.ticksOf timeout : ℕ) := by
    rw [TimeWheel.ticksOf_eq hpos]
    omega
  have hcounts : Alarms.Counts a' s' := by
    refine ht.counts.step hL.wf hstep₁ ?_
    rw [Alarms.eventAt, ht.fresh, ← hdeadline]
    exact hstep
  have hnew : v'.Registered w.timers.fresh (some cb) u := by
    refine ⟨⟨(w.ticks + (max timeout 1 + 1) : ℕ), some cb, u⟩, ?_, rfl, rfl⟩
    rw [hcreated, ht.fresh, ← hV.kept.created, LifeOp.datas, List.getElem?_concat_length]
  refine ⟨hticks, a', s', ⟨L₂, hL₂, ⟨fun i hi e he => ?_, fun c hc => ?_⟩⟩, hlist', hcounts, ?_⟩
  · rcases hmem₂ i hi e he with ⟨hep, hcb, hu⟩ | ⟨hne, he⟩
    · rw [hep, hcb, hu, ← ht.fresh]
      exact hnew
    · rcases hmem₁ i hi e he with hep | he
      · exact absurd (hep.trans ht.fresh) hne
      · exact (hreg.entered i hi e he).step hexec
  · rw [hcalls₂, hcalls₁] at hc
    exact (hreg.calls c hc).step hexec
  · rw [hfresh₂, hfresh₁, ht.fresh, fresh_of_exec ht.list hexec hlist']
    rfl

theorem Together.delete (ht : Together w v a s) (hwheel : timeWheelLTS.step w (.delete (some p)) w')
    (hlist : lifeLTS.step v (.delete (some p)) v') :
    w'.ticks = w.ticks ∧ ∃ a' s', Together w' v' a' s' := by
  obtain ⟨L, hL, hreg⟩ := ht.wheel
  -- the list
  obtain ⟨V, hV⟩ := ht.list
  obtain ⟨c, hc⟩ := mem_addrs.1 (hV.kept.held_iff.1 hlist.2.1)
  obtain ⟨D, S, rfl⟩ := List.append_of_mem hc
  obtain ⟨_, s', hexec, hstep, hlist'⟩ := hV.delete hlist.2.2
  obtain rfl := Except.ok.inj (hlist.1.symm.trans hexec)
  -- the wheel
  obtain ⟨_, a', hexec', hstep', L', hL'⟩ := hL.delete hwheel.2
  obtain rfl := Except.ok.inj (hwheel.1.symm.trans hexec')
  obtain ⟨j, hj, D', c', S', hLj⟩ := hL.exists_mem hwheel.2
  obtain ⟨m, wheel, hdelete, -, hfresh, -, hrep⟩ := TimeWheel.exec_delete hL.rep hj hLj
  obtain rfl := Except.ok.inj (hdelete.symm.trans hexec')
  refine ⟨rfl, a', s', ⟨L', hL', ⟨fun i hi e he => ?_, fun c hc => ?_⟩⟩, hlist',
    ht.counts.step hL.wf hstep' hstep, ?_⟩
  · rw [hL'.rep.unique hrep hi] at he
    refine (hreg.entered i hi e ?_).step hexec
    rcases eq_or_ne i j with rfl | hne
    · rw [Function.update_self, List.mem_append] at he
      rw [hLj]
      exact he.elim (List.mem_append_left _) fun he =>
        List.mem_append_right _ (List.mem_cons_of_mem _ he)
    · rwa [Function.update_of_ne hne] at he
  · exact (hreg.calls c hc).step hexec
  · rw [fresh_of_exec ht.list hexec hlist', ← ht.fresh]
    exact hfresh

theorem Together.tick (ht : Together w v a s) (hwheel : timeWheelLTS.step w .tick w')
    (hlist : lifeLTS.step v (.tick (w.ticks + 1)) v') :
    w'.ticks = w.ticks + 1 ∧ ∃ a' s', Together w' v' a' s' := by
  obtain ⟨L, hL, hreg⟩ := ht.wheel
  -- the list
  obtain ⟨V, hV⟩ := ht.list
  obtain ⟨_, s', hexec, hstep, hlist'⟩ := hV.tick (w.ticks + 1)
  obtain rfl := Except.ok.inj (hlist.1.symm.trans hexec)
  -- the wheel
  obtain ⟨_, a', hexec', hstep', L', hL'⟩ := hL.tick hwheel.2
  obtain rfl := Except.ok.inj (hwheel.1.symm.trans hexec')
  obtain ⟨m, wheel, htick, -, hfresh, -, hrep⟩ :=
    TimeWheel.tick_spec hL.rep (hL.ready hwheel.2)
  have hspec : TimeWheel.exec w .tick = .ok { w with
      timers := m
      wheel
      ticks := w.ticks + 1
      calls := w.calls ++ (TimeWheel.callsOf (L w.wheel.curSlot)).map
        fun call => (w.ticks + 1, call) } := by
    rw [TimeWheel.exec, htick]
    rfl
  obtain rfl := Except.ok.inj (hspec.symm.trans hexec')
  refine ⟨rfl, a', s', ⟨L', hL', ⟨fun i hi e he => ?_, fun c hc => ?_⟩⟩, hlist',
    ht.counts.step hL.wf hstep' (hL.now ▸ hstep), ?_⟩
  · rw [hL'.rep.unique hrep hi] at he
    rcases eq_or_ne i w.wheel.curSlot with rfl | hne
    · rw [Function.update_self, TimeWheel.survivors, List.mem_filterMap] at he
      obtain ⟨⟨q, c⟩, hc, hrot⟩ := he
      split_ifs at hrot
      obtain rfl := Option.some.inj hrot
      exact (hreg.entered _ hi _ hc).step hexec
    · rw [Function.update_of_ne hne] at he
      exact (hreg.entered i hi e he).step hexec
  · rcases List.mem_append.1 hc with hc | hc
    · exact (hreg.calls c hc).step hexec
    · obtain ⟨call, hcall, rfl⟩ := List.mem_map.1 hc
      obtain ⟨⟨q, c⟩, hq, hcall⟩ := List.mem_filterMap.1 hcall
      obtain ⟨cb, hcb, rfl⟩ := Option.map_eq_some_iff.1 hcall
      have hreg' := hreg.entered _ hL.rep.cur _ (TimeWheel.mem_expired.1 hq).1
      rw [hcb] at hreg'
      exact hreg'.step hexec
  · rw [fresh_of_exec ht.list hexec hlist', ← ht.fresh]
    exact hfresh

/-- A wheel and a list that are used in the same way stay together. -/
theorem together_of_run (hwheel : timeWheelLTS.Run .init (wheelOps rs) w)
    (hlist : lifeLTS.Run .init (listOps rs) v) :
    w.ticks = rs.countP Request.isTick ∧ v.timers.fresh = rs.countP Request.isAdd ∧
      ∃ a s, Together w v a s := by
  induction rs using List.reverseRecOn generalizing w v with
  | nil =>
    obtain rfl := LTS.run_nil_iff.1 hwheel
    obtain rfl := LTS.run_nil_iff.1 hlist
    exact ⟨rfl, rfl, _, _, together_init⟩
  | append_singleton rs r ih =>
    rw [wheelOps, LTS.numbered_append, Nat.zero_add] at hwheel
    obtain ⟨u, hu, hwheel⟩ := LTS.run_append_iff.1 hwheel
    rw [listOps, LTS.numbered_append, Nat.zero_add] at hlist
    obtain ⟨x, hx, hlist⟩ := LTS.run_append_iff.1 hlist
    obtain ⟨hticks, hadds, a, s, ht⟩ := ih hu hx
    rw [← hticks] at hlist
    rw [← hadds] at hwheel
    rw [List.countP_append, List.countP_append, ← hticks, ← hadds]
    cases r with
    | add timeout cb c =>
      obtain ⟨hticks', a', s', ht'⟩ := ht.add hwheel hlist
      have hfresh := fresh_of_exec ht.list (LTS.run_singleton_iff.1 hlist).1 ht'.list
      exact ⟨hticks', hfresh, a', s', ht'⟩
    | delete p =>
      have hlist := LTS.run_singleton_iff.1 hlist
      obtain ⟨hticks', a', s', ht'⟩ := ht.delete (LTS.run_singleton_iff.1 hwheel) hlist
      exact ⟨hticks', fresh_of_exec ht.list hlist.1 ht'.list, a', s', ht'⟩
    | tick =>
      have hlist := LTS.run_singleton_iff.1 hlist
      obtain ⟨hticks', a', s', ht'⟩ := ht.tick (LTS.run_singleton_iff.1 hwheel) hlist
      exact ⟨hticks', fresh_of_exec ht.list hlist.1 ht'.list, a', s', ht'⟩

/-- The callback and the data that the list was given for a timer. -/
def callbackOf (v : Life) (p : Addr) : Option ℕ × Ptr :=
  (v.created[p]?).elim (none, none) fun data => (data.cbFunc, data.userData)

theorem callbackOf_eq {cb : Option ℕ} {u : Ptr} (h : v.Registered p cb u) :
    callbackOf v p = (cb, u) := by
  obtain ⟨data, hdata, rfl, rfl⟩ := h
  rw [callbackOf, hdata]
  rfl

/-- **The wheel and the list agree.**  When a program that adds timers, deletes timers and ticks is
run with a wheel, and with a list that is told the number of each tick, both call the same callbacks
with the same data in the same ticks. -/
theorem wheel_agrees_with_list (hwheel : timeWheelLTS.Run .init (wheelOps rs) w)
    (hlist : lifeLTS.Run .init (listOps rs) v) :
    (w.calls.map fun e => ((e.1 : ℤ), e.2.timer, some e.2.cbFunc, e.2.userData)).Perm
      (v.calls.map fun e => (e.1, e.2.timer, some e.2.cbFunc, e.2.userData)) := by
  obtain ⟨-, -, a, s, ht⟩ := together_of_run hwheel hlist
  obtain ⟨L, hL, hreg⟩ := ht.wheel
  obtain ⟨V, hV⟩ := ht.list
  -- the same timers in the same ticks
  have hfired : (v.calls.map fun e => (e.2.timer, e.1)).Perm
      (w.calls.map fun e => (e.2.timer, (e.1 : ℤ))) := by
    have hperm := ht.counts.fired
    rwa [hV.fired, hL.fired, List.map_map] at hperm
  -- and each with what it was created with
  let describe : Addr × ℤ → ℤ × Addr × Option ℕ × Ptr := fun e => (e.2, e.1, callbackOf v e.1)
  have hwheelCalls : w.calls.map (fun e => ((e.1 : ℤ), e.2.timer, some e.2.cbFunc, e.2.userData)) =
      (w.calls.map fun e => (e.2.timer, (e.1 : ℤ))).map describe := by
    rw [List.map_map]
    refine List.map_congr_left fun e he => ?_
    simp [describe, callbackOf_eq (hreg.calls e he)]
  have hlistCalls : v.calls.map (fun e => (e.1, e.2.timer, some e.2.cbFunc, e.2.userData)) =
      (v.calls.map fun e => (e.2.timer, e.1)).map describe := by
    rw [List.map_map]
    refine List.map_congr_left fun e he => ?_
    simp [describe, callbackOf_eq (hV.kept.calls e he)]
  rw [hwheelCalls, hlistCalls]
  exact (hfired.map describe).symm

theorem wheel_agrees_with_list_two : ∃ w v,
    timeWheelLTS.Run .init (wheelOps [.add 1 7 none, .add 0 8 none, .delete 0, .tick, .tick]) w ∧
      lifeLTS.Run .init (listOps [.add 1 7 none, .add 0 8 none, .delete 0, .tick, .tick]) v ∧
      (w.calls.map fun e => ((e.1 : ℤ), e.2.timer, some e.2.cbFunc, e.2.userData)).Perm
        (v.calls.map fun e => (e.1, e.2.timer, some e.2.cbFunc, e.2.userData)) := by
  have hwheel : (LTS.play TimeWheel.exec TimeWheel.Legal .init
      (wheelOps [.add 1 7 none, .add 0 8 none, .delete 0, .tick, .tick])) = some _ := rfl
  have hlist : LTS.play Life.exec Life.Legal .init
      (listOps [.add 1 7 none, .add 0 8 none, .delete 0, .tick, .tick]) = some _ := rfl
  exact ⟨_, _, LTS.run_of_play hwheel, LTS.run_of_play hlist,
    wheel_agrees_with_list (LTS.run_of_play hwheel) (LTS.run_of_play hlist)⟩

end WheelAndList

end LinuxServer
