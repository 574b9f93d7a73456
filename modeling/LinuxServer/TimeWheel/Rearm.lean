import LinuxServer.TimeWheel.OnTime

/-!
# Timers that callbacks add

Runs of a wheel in which the callbacks of a tick may add timers.

* `Session`: a wheel with a record of where in the run each timer was added.
* `Armed.due`: the tick in which a timer fires.
* `Overtakes r r'`: both were added inside callbacks of one tick; the timeout of `r` is a multiple
  of a turn of the wheel, that of `r'` is not and ends before the next turn.

`fires_no_later_iff`: of two timers added at the same point of the run, the one with the shorter
timeout fires no later than the other one, unless the other one overtakes it.
-/

namespace LinuxServer

namespace TimeWheel

open Memory

/-- A timer that was added after `ticks` ticks, or inside a callback of the tick `ticks`. -/
structure Armed where
  timer : Addr
  timeout : ℤ
  ticks : ℕ
  inside : Bool
  deriving DecidableEq, Repr

/-- The tick in which it fires. -/
def Armed.due (r : Armed) : ℕ :=
  if r.inside then dueInside r.ticks r.timeout else r.ticks + 1 + ticksOf r.timeout

/-- The program of a wheel, with a record of the timers added. -/
structure Session extends World where
  armed : List Armed
  deriving DecidableEq, Repr

/-- What a program does. -/
inductive SessionOp where
  | add (timeout : ℤ)
  | set (timer : Addr) (cbFunc : ℕ) (userData : Ptr)
  | delete (timer : Ptr)
  /-- A tick, with the timers that the callbacks add. -/
  | tick (plan : Call → List Request)

/-- The same without the timers that the callbacks add. -/
def SessionOp.op : SessionOp → Op
  | .add timeout => .add timeout
  | .set timer cbFunc userData => .set timer cbFunc userData
  | .delete timer => .delete timer
  | .tick _ => .tick

/-- One call. -/
def Session.exec (w : Session) : SessionOp → Except Fault Session
  | .add timeout => do
    let (timer, timers, wheel) ← w.wheel.addTimer w.timers timeout
    pure { w with
      timers
      wheel
      added := w.added ++ timer.toList
      armed := w.armed ++ timer.toList.map fun p => ⟨p, timeout, w.ticks, false⟩ }
  | .set timer cbFunc userData => do
    let u ← TimeWheel.exec w.toWorld (.set timer cbFunc userData)
    pure { w with toWorld := u }
  | .delete timer => do
    let u ← TimeWheel.exec w.toWorld (.delete timer)
    pure { w with toWorld := u }
  | .tick plan => do
    let (u, new) ← w.toWorld.tickAdding plan
    pure ⟨u, w.armed ++ new.map fun e => ⟨e.1, e.2.timeout, u.ticks, true⟩⟩

/-- An empty wheel. -/
def Session.init : Session := ⟨.init, []⟩

/-- The calls of a program on a wheel whose callbacks may add timers. -/
def sessionLTS : LTS Session SessionOp :=
  (LTS.ofExec Session.exec).guard fun w op => Legal w.toWorld op.op

/-- The timer of `r` fires in no later tick than that of `r'`. -/
def NoLater (w : Session) (r r' : Armed) : Prop :=
  ∀ t ∈ w.calledAt r'.timer, ∃ t' ∈ w.calledAt r.timer, t' ≤ t

/-- Both are added inside a callback.  The slot of the running tick comes round for `r` after a
further turn of the wheel; `r'` goes to another slot and fires before. -/
def Overtakes (r' r : Armed) : Prop :=
  r.inside = true ∧ N ∣ ticksOf r.timeout ∧ ¬ N ∣ ticksOf r'.timeout ∧
    ticksOf r'.timeout < ticksOf r.timeout + N

instance (r' r : Armed) : Decidable (Overtakes r' r) := inferInstanceAs (Decidable (_ ∧ _ ∧ _ ∧ _))

variable {w w' : Session} {r r' : Armed} {op : SessionOp} {ops : List SessionOp}

/-- Each timer added is booked for its tick, in an agenda that the wheel keeps. -/
def Session.Books (w : Session) : Prop :=
  ∃ s, Refines w.toWorld s ∧ ∀ r ∈ w.armed, s.Booked r.timer r.due

theorem books_init : Session.init.Books :=
  ⟨.empty Addr, refines_init, fun _ hr => absurd hr List.not_mem_nil⟩

theorem Session.Books.add {timeout : ℤ} (h : w.Books) :
    ∃ w', w.exec (.add timeout) = .ok w' ∧ w'.Books := by
  obtain ⟨s, ⟨L, hL⟩, hbooked⟩ := h
  by_cases ht : timeout < 0
  · have hexec : w.exec (.add timeout) = .ok { w with
        added := w.added ++ []
        armed := w.armed ++ [] } := by
      rw [Session.exec, Wheel.addTimer, if_pos ht]
      rfl
    rw [List.append_nil, List.append_nil] at hexec
    exact ⟨w, hexec, s, ⟨L, hL⟩, hbooked⟩
  · obtain ⟨u, s', hexec, hstep, href⟩ := hL.add (Int.not_lt.1 ht)
    obtain ⟨m, wheel, hadd, -⟩ := addTimer_spec hL.rep (Int.not_lt.1 ht)
    rw [TimeWheel.exec, hadd] at hexec
    obtain rfl := Except.ok.inj hexec
    refine ⟨⟨_, w.armed ++ [⟨w.timers.fresh, timeout, w.ticks, false⟩]⟩, ?_, s', href, ?_⟩
    · rw [Session.exec, hadd]
      rfl
    · intro r hr
      rcases List.mem_append.1 hr with hr | hr
      · exact (hbooked r hr).step hstep
      · obtain rfl := List.mem_singleton.1 hr
        exact (hL.wf.step hstep).booked (Agenda.due_of_arm hstep)

theorem Session.Books.tick {plan : Call → List Request} (h : w.Books)
    (hlegal : Legal w.toWorld .tick) : ∃ w', w.exec (.tick plan) = .ok w' ∧ w'.Books := by
  obtain ⟨s, ⟨L, hL⟩, hbooked⟩ := h
  obtain ⟨u, new, s₁, s', hexec, hticks, hstep, hrun, href, hdue⟩ := hL.tickAdding plan hlegal
  refine ⟨⟨u, w.armed ++ new.map fun e => ⟨e.1, e.2.timeout, u.ticks, true⟩⟩, ?_, s', href, ?_⟩
  · rw [Session.exec, hexec]
    rfl
  · intro r hr
    rcases List.mem_append.1 hr with hr | hr
    · exact ((hbooked r hr).step hstep).run hrun
    · obtain ⟨e, he, rfl⟩ := List.mem_map.1 hr
      obtain ⟨_, hL'⟩ := id href
      refine hL'.wf.booked ((hdue e he).trans ?_)
      rw [← hticks]
      rfl

theorem Session.Books.exec (h : w.Books) (hlegal : Legal w.toWorld op.op) :
    ∃ w', w.exec op = .ok w' ∧ w'.Books := by
  cases op with
  | add timeout => exact h.add
  | tick plan => exact h.tick hlegal
  | set timer cbFunc userData =>
    obtain ⟨s, ⟨L, hL⟩, hbooked⟩ := h
    obtain ⟨u, hexec, href⟩ := hL.set hlegal
    refine ⟨{ w with toWorld := u }, ?_, s, href, hbooked⟩
    rw [Session.exec, hexec]
    rfl
  | delete timer =>
    obtain ⟨s, hs, hbooked⟩ := h
    obtain ⟨u, ev, s', hexec, hstep, -, href⟩ := exec_refines hs hlegal
    have hexec : TimeWheel.exec w.toWorld (.delete timer) = .ok u := hexec
    refine ⟨{ w with toWorld := u }, ?_, s', href, fun r hr => (hbooked r hr).step hstep⟩
    rw [Session.exec, hexec]
    rfl

theorem books_of_run (h : sessionLTS.Run .init ops w) : w.Books := by
  refine h.invariant (I := Session.Books) books_init fun u op v hu hstep => ?_
  obtain ⟨v', hexec, hv⟩ := hu.exec hstep.2
  obtain rfl := Except.ok.inj (hexec.symm.trans hstep.1)
  exact hv

/-- The callback of a timer that is not deleted is called in its tick. -/
theorem Session.Books.calledAt (h : w.Books) (hr : r ∈ w.armed) (hdelete : r.timer ∉ w.deleted) :
    w.calledAt r.timer = if r.due ≤ w.ticks then [r.due] else [] := by
  obtain ⟨s, hs, hbooked⟩ := h
  obtain ⟨L, hL⟩ := id hs
  rw [hs.calledAt, (hbooked r hr).firedAt_eq hL.wf (hL.cancelled ▸ hdelete), hL.now]

theorem ticksOf_mono {a b : ℤ} (hab : a ≤ b) : ticksOf a ≤ ticksOf b := by
  unfold ticksOf SI
  split_ifs <;> omega

theorem due_le_iff (hpoint : r.ticks = r'.ticks ∧ r.inside = r'.inside)
    (hle : r.timeout ≤ r'.timeout) : r.due ≤ r'.due ↔ ¬ Overtakes r' r := by
  have hticks := ticksOf_mono hle
  obtain ⟨hnow, hinside⟩ := hpoint
  unfold Armed.due Overtakes dueInside N
  rw [← hinside, hnow]
  cases r.inside with
  | false => simp [hticks]
  | true =>
    simp only [if_true, true_and]
    split_ifs <;> omega

/-- **Of two timers that were added at the same point of the run and not deleted, the one with the
shorter timeout fires no later**, unless the other one overtakes it. -/
theorem fires_no_later_iff (h : sessionLTS.Run .init ops w) (hr : r ∈ w.armed)
    (hr' : r' ∈ w.armed) (hpoint : r.ticks = r'.ticks ∧ r.inside = r'.inside)
    (hle : r.timeout ≤ r'.timeout) (hdelete : r.timer ∉ w.deleted)
    (hdelete' : r'.timer ∉ w.deleted) :
    NoLater w r r' ↔ (r'.due ≤ w.ticks → ¬ Overtakes r' r) := by
  have hw := books_of_run h
  rw [NoLater, hw.calledAt hr' hdelete', ← due_le_iff hpoint hle, hw.calledAt hr hdelete]
  by_cases hticks : r'.due ≤ w.ticks
  · rw [if_pos hticks, List.forall_mem_singleton]
    constructor
    · rintro ⟨t, ht, hdue⟩ -
      split_ifs at ht
      · obtain rfl := List.mem_singleton.1 ht
        exact hdue
      · cases ht
    · intro hdue
      have hdue := hdue hticks
      rw [if_pos (hdue.trans hticks)]
      exact ⟨_, List.mem_singleton_self _, hdue⟩
  · rw [if_neg hticks]
    exact iff_of_true (List.forall_mem_nil _) fun h => absurd h hticks

/-- A callback adds two timers. -/
theorem fires_no_later_iff_two : ∃ w, sessionLTS.Run .init
    [.add 0, .set 0 7 none, .tick fun _ => [], .tick fun _ => [⟨1, 8, none⟩, ⟨2, 9, none⟩],
      .tick fun _ => [], .tick fun _ => []] w ∧
      NoLater w ⟨1, 1, 2, true⟩ ⟨2, 2, 2, true⟩ := by
  have hplay : (LTS.play Session.exec (fun w op => Legal w.toWorld op.op) .init
      [.add 0, .set 0 7 none, .tick fun _ => [], .tick fun _ => [⟨1, 8, none⟩, ⟨2, 9, none⟩],
        .tick fun _ => [], .tick fun _ => []]).map (fun w => (w.armed, w.deleted)) =
      some ([⟨0, 0, 0, false⟩, ⟨1, 1, 2, true⟩, ⟨2, 2, 2, true⟩], []) := rfl
  obtain ⟨w, hw, hfields⟩ := Option.map_eq_some_iff.1 hplay
  obtain ⟨harmed, hdeleted⟩ := Prod.mk.inj hfields
  have hrun := LTS.run_of_play hw
  have hfirst : (⟨1, 1, 2, true⟩ : Armed) ∈ w.armed := by simp [harmed]
  have hsecond : (⟨2, 2, 2, true⟩ : Armed) ∈ w.armed := by simp [harmed]
  have hiff := fires_no_later_iff hrun hfirst hsecond ⟨rfl, rfl⟩ (by decide) (by simp [hdeleted])
    (by simp [hdeleted])
  exact ⟨w, hrun, hiff.2 fun _ => by decide⟩

/-- A callback adds timers with the timeouts 60 and 61. -/
theorem not_no_later_turn : ¬ ∀ ops w r r', sessionLTS.Run .init ops w → r ∈ w.armed →
    r' ∈ w.armed → r.ticks = r'.ticks ∧ r.inside = r'.inside → r.timeout ≤ r'.timeout →
      r.timer ∉ w.deleted → r'.timer ∉ w.deleted → NoLater w r r' := by
  intro hall
  have hplay : (LTS.play Session.exec (fun w op => Legal w.toWorld op.op) .init
      ([.add 0, .set 0 7 none, .tick fun _ => [], .tick fun _ => [⟨60, 8, none⟩, ⟨61, 9, none⟩]] ++
        List.replicate 61 (.tick fun _ => []))).map
        (fun w => (w.armed, w.deleted, w.calledAt 2, w.calledAt 1)) =
      some ([⟨0, 0, 0, false⟩, ⟨1, 60, 2, true⟩, ⟨2, 61, 2, true⟩], [], [63], []) := rfl
  obtain ⟨w, hw, hfields⟩ := Option.map_eq_some_iff.1 hplay
  simp only [Prod.mk.injEq] at hfields
  obtain ⟨harmed, hdeleted, hlate, hnone⟩ := hfields
  have hno := hall _ w ⟨1, 60, 2, true⟩ ⟨2, 61, 2, true⟩ (LTS.run_of_play hw) (by simp [harmed])
    (by simp [harmed]) ⟨rfl, rfl⟩ (by decide) (by simp [hdeleted]) (by simp [hdeleted])
  obtain ⟨t, ht, -⟩ := hno 63 (by simp [hlate])
  simp [hnone] at ht

end TimeWheel

end LinuxServer
