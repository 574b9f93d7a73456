import LinuxServer.LTS.Basic
import LinuxServer.Memory.Chain

/-!
# The time wheel

The class `time_wheel` of `time_wheel.cc`: `N` slots, each with a list of timers, and a hand that
moves on by one slot with each tick.

* `TwTimer`, `Wheel`: the classes.
* `addTimer`, `deleteTimer`, `tick`: the methods.
* `adding`: callbacks that add timers to the wheel.
* `destroy`: the destructor.
* `World`, `exec`, `timeWheelLTS`: the calls a program makes on one wheel.

Following a pointer that must not be followed is a `Fault`.
-/

namespace LinuxServer

namespace TimeWheel

open Memory

/-- What a timer holds besides its links; the callback and the client's data are known by their
addresses. -/
structure TimerData where
  rotation : ℤ
  timeSlot : ℕ
  cbFunc : Option ℕ
  userData : Ptr
  deriving DecidableEq, Repr

/-- `tw_timer` -/
structure TwTimer extends TimerData where
  next : Ptr
  prev : Ptr
  deriving DecidableEq, Repr

/-- `N`, the number of slots -/
def N : ℕ := 60

/-- `SI`, the time from one tick to the next -/
def SI : ℤ := 1

/-- `time_wheel` -/
structure Wheel where
  slots : List Ptr
  curSlot : ℕ
  deriving DecidableEq, Repr

/-- A callback that a tick makes: the timer, its `cb_func` and the `user_data` passed. -/
structure Call where
  timer : Addr
  cbFunc : ℕ
  userData : Ptr
  deriving DecidableEq, Repr

/-- `tw_timer(int rot, int ts)` -/
def twTimer (rot : ℤ) (ts : ℕ) : TwTimer := ⟨⟨rot, ts, none, none⟩, none, none⟩

/-- `time_wheel()` -/
def timeWheel : Wheel := ⟨List.replicate N none, 0⟩

/-- The number of ticks that a timeout makes. -/
def ticksOf (timeout : ℤ) : ℕ := if timeout < SI then 1 else (timeout / SI).toNat

/-- `add_timer`: the timer returned, and what the call leaves behind. -/
def Wheel.addTimer (m : Store TwTimer) (h : Wheel) (timeout : ℤ) :
    Except Fault (Ptr × Store TwTimer × Wheel) :=
  if timeout < 0 then pure (none, m, h)
  else do
    let ticks := ticksOf timeout
    let rotation : ℕ := ticks / N
    let ts := (h.curSlot + ticks % N) % N
    let timer := some m.fresh
    let m := m.alloc (twTimer rotation ts)
    let head ← load h.slots ts
    if head = none then do
      let slots ← store h.slots ts timer
      pure (timer, m, { h with slots })
    else do
      let m ← m.modify timer fun t => { t with next := head }
      let m ← m.modify head fun t => { t with prev := timer }
      let slots ← store h.slots ts timer
      pure (timer, m, { h with slots })

/-- `if(timer != nullptr) timer->prev = prev` -/
def setPrev (m : Store TwTimer) (timer prev : Ptr) : Except Fault (Store TwTimer) :=
  if timer = none then pure m else m.modify timer fun t => { t with prev }

/-- `timer->prev->next = timer->next`, and the same for the link back. -/
def unlink (m : Store TwTimer) (timer : Ptr) : Except Fault (Store TwTimer) := do
  let t ← m.read timer
  let m ← m.modify t.prev fun before => { before with next := t.next }
  let t ← m.read timer
  setPrev m t.next t.prev

/-- `delete_timer` -/
def Wheel.deleteTimer (m : Store TwTimer) (h : Wheel) :
    Ptr → Except Fault (Store TwTimer × Wheel)
  | none => pure (m, h)
  | some p => do
    let timer ← m.read (some p)
    let ts := timer.timeSlot
    let head ← load h.slots ts
    if some p = head then do
      let t ← m.read head
      let slots ← store h.slots ts t.next
      let m ← setPrev m t.next none
      let m ← m.free (some p)
      pure (m, { h with slots })
    else do
      let m ← unlink m (some p)
      let m ← m.free (some p)
      pure (m, h)

/-- The end of a round of `tick`, after the callback: the timer leaves the wheel.  The result
begins with the timer to go on with. -/
def Wheel.expire (m : Store TwTimer) (h : Wheel) (tmp : Ptr) :
    Except Fault (Ptr × Store TwTimer × Wheel) := do
  let head ← load h.slots h.curSlot
  if tmp = head then do
    let t ← m.read tmp
    -- the timer is freed before the new head loses its link back
    let slots ← store h.slots h.curSlot t.next
    let m ← m.free tmp
    let m ← setPrev m t.next none
    pure (t.next, m, { h with slots })
  else do
    let m ← unlink m tmp
    let t ← m.read tmp
    let m ← m.free tmp
    pure (t.next, m, h)

/-- What the callbacks do with the wheel. -/
abbrev Callback := Call → Store TwTimer → Wheel → Except Fault (Store TwTimer × Wheel)

/-- Callbacks that do not touch the wheel. -/
def quiet : Callback := fun _ m h => pure (m, h)

/-- A timer that a callback adds, with the callback and the data that it gives it. -/
structure Request where
  timeout : ℤ
  cbFunc : ℕ
  userData : Ptr
  deriving DecidableEq, Repr

/-- `add_timer`, and the caller sets the callback of the timer returned. -/
def Wheel.request (m : Store TwTimer) (h : Wheel) (r : Request) :
    Except Fault (Ptr × Store TwTimer × Wheel) := do
  let (timer, m, h) ← h.addTimer m r.timeout
  if timer = none then pure (timer, m, h)
  else do
    let m ← m.modify timer fun t =>
      { t with
        cbFunc := some r.cbFunc
        userData := r.userData }
    pure (timer, m, h)

/-- Timers added one after the other.  The result begins with those that were added. -/
def Wheel.requestAll (m : Store TwTimer) (h : Wheel) :
    List Request → Except Fault (List (Addr × Request) × Store TwTimer × Wheel)
  | [] => pure ([], m, h)
  | r :: rs => do
    let (timer, m, h) ← h.request m r
    let (timers, m, h) ← Wheel.requestAll m h rs
    pure (timer.toList.map (fun p => (p, r)) ++ timers, m, h)

/-- The timers that requests get, when the next address is `fresh`. -/
def timersFor (fresh : Addr) : List Request → List (Addr × Request)
  | [] => []
  | r :: rs =>
    if r.timeout < 0 then timersFor fresh rs else (fresh, r) :: timersFor (fresh + 1) rs

/-- Callbacks that only add timers: those that `plan` says for each call. -/
def adding (plan : Call → List Request) : Callback := fun call m h => do
  let (_, m, h) ← h.requestAll m (plan call)
  pure (m, h)

/-- `tmp->cb_func(tmp->user_data)` -/
def callOf (tmp : Addr) (t : TwTimer) : Except Fault Call :=
  match t.cbFunc with
  | none => .error .nullPointer
  | some cb => pure ⟨tmp, cb, t.userData⟩

/-- The loop of `tick`, with the calls it makes. -/
def tickLoop (callback : Callback) : ℕ → Ptr → Store TwTimer → Wheel →
    Except Fault (Store TwTimer × Wheel × List Call)
  | 0, _, m, h => pure (m, h, [])
  | _, none, m, h => pure (m, h, [])
  | fuel + 1, some tmp, m, h => do
    let t ← m.read (some tmp)
    if t.rotation > 0 then do
      -- the timer stays for another turn of the wheel
      let m ← m.modify (some tmp) fun t => { t with rotation := t.rotation - 1 }
      tickLoop callback fuel t.next m h
    else do
      let call ← callOf tmp t
      let (m, h) ← callback call m h
      let (tmp, m, h) ← h.expire m (some tmp)
      let (m, h, later) ← tickLoop callback fuel tmp m h
      pure (m, h, call :: later)

/-- `tick`.  A round comes to a timer that was in the slot when the tick began, so that there are
at most as many rounds as timers. -/
def Wheel.tick (callback : Callback) (m : Store TwTimer) (h : Wheel) :
    Except Fault (Store TwTimer × Wheel × List Call) := do
  let tmp ← load h.slots h.curSlot
  let (m, h, calls) ← tickLoop callback m.fresh tmp m h
  pure (m, { h with curSlot := (h.curSlot + 1) % N }, calls)

/-- The loop of `~time_wheel` over the timers of a slot, with the slot at its end. -/
def destroyLoop : ℕ → Ptr → Store TwTimer → Except Fault (Store TwTimer × Ptr)
  | 0, slot, m => pure (m, slot)
  | _, none, m => pure (m, none)
  | fuel + 1, some tmp, m => do
    let t ← m.read (some tmp)
    let slot := t.next
    let m ← m.free (some tmp)
    destroyLoop fuel slot m

/-- The loop of `~time_wheel` over the slots.  Each round of the inner loop frees a timer, so that
there are at most as many as timers. -/
def destroySlots : List Ptr → Store TwTimer → Except Fault (Store TwTimer × List Ptr)
  | [], m => pure (m, [])
  | slot :: slots, m => do
    let (m, slot) ← destroyLoop m.fresh slot m
    let (m, slots) ← destroySlots slots m
    pure (m, slot :: slots)

/-- `~time_wheel()` -/
def Wheel.destroy (m : Store TwTimer) (h : Wheel) : Except Fault (Store TwTimer × Wheel) := do
  let (m, slots) ← destroySlots h.slots m
  pure (m, { h with slots })

/-! ### Runs -/

/-- The timers of a program and its wheel.  Recorded are the timers added and deleted, the number
of ticks and, with the number of its tick, each call of a callback. -/
structure World where
  timers : Store TwTimer
  wheel : Wheel
  added : List Addr
  deleted : List Addr
  ticks : ℕ
  calls : List (ℕ × Call)
  deriving DecidableEq, Repr

/-- What a program does. -/
inductive Op where
  | add (timeout : ℤ)
  /-- The caller sets the callback of a timer. -/
  | set (timer : Addr) (cbFunc : ℕ) (userData : Ptr)
  | delete (timer : Ptr)
  | tick
  deriving DecidableEq, Repr

/-- One call. -/
def exec (w : World) : Op → Except Fault World
  | .add timeout => do
    let (timer, timers, wheel) ← w.wheel.addTimer w.timers timeout
    pure { w with timers, wheel, added := w.added ++ timer.toList }
  | .set timer cbFunc userData => do
    let timers ← w.timers.modify (some timer) fun t => { t with cbFunc := some cbFunc, userData }
    pure { w with timers }
  | .delete timer => do
    let (timers, wheel) ← w.wheel.deleteTimer w.timers timer
    pure { w with timers, wheel, deleted := w.deleted ++ timer.toList }
  | .tick => do
    let (timers, wheel, calls) ← w.wheel.tick quiet w.timers
    let ticks := w.ticks + 1
    pure { w with timers, wheel, ticks, calls := w.calls ++ calls.map fun call => (ticks, call) }

/-- A tick whose callbacks add timers, with the timers that they get, in the order of the calls. -/
def World.tickAdding (plan : Call → List Request) (w : World) :
    Except Fault (World × List (Addr × Request)) := do
  let (timers, wheel, calls) ← w.wheel.tick (adding plan) w.timers
  let ticks := w.ticks + 1
  let new := timersFor w.timers.fresh (calls.flatMap plan)
  pure ({ w with
    timers
    wheel
    ticks
    added := w.added ++ new.map Prod.fst
    calls := w.calls ++ calls.map fun call => (ticks, call) }, new)

/-- An empty wheel. -/
def World.init : World := ⟨.empty, timeWheel, [], [], 0, []⟩

/-- The timer was added and neither deleted nor fired. -/
def World.Held (w : World) (p : Addr) : Prop :=
  p ∈ w.added ∧ p ∉ w.deleted ∧ p ∉ w.calls.map fun e => e.2.timer

/-- What a program may do: set or delete timers that are in the wheel, and tick when the callbacks
of these are set. -/
def Legal (w : World) : Op → Prop
  | .set p _ _ | .delete (some p) => w.Held p
  | .tick => ∀ p t, w.Held p → w.timers.get? p = some t → t.cbFunc ≠ none
  | .add _ | .delete none => True

instance (w : World) (p : Addr) : Decidable (w.Held p) :=
  inferInstanceAs (Decidable (_ ∧ _ ∧ _))

instance (w : World) (op : Op) : Decidable (Legal w op) :=
  match op with
  | .set p _ _ | .delete (some p) => inferInstanceAs (Decidable (w.Held p))
  | .tick => decidable_of_iff
      (∀ p ∈ w.added, w.Held p → ∀ t ∈ w.timers.get? p, t.cbFunc ≠ none)
      ⟨fun h p t hp ht => h p hp.1 hp t ht, fun h p _ hp t ht => h p t hp ht⟩
  | .add _ | .delete none => .isTrue trivial

/-- The calls of a program on a wheel. -/
def timeWheelLTS : LTS World Op := (LTS.ofExec exec).guard Legal

end TimeWheel

end LinuxServer
