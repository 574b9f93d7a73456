import LinuxServer.LTS.Basic
import LinuxServer.Memory.Chain
import Mathlib.Data.Int.Notation

/-!
# The sorted list of timers

The class `sort_timer_list` of `sort_timer_list.cc`: a doubly linked list of timers, the earliest
first.

* `UtilTimer`, `TimerList`: the classes.
* `addTimer`, `adjustTimer`, `tick`: the methods.
* `World`, `exec`, `timerListLTS`: the calls a program makes on one list.

Following a pointer that must not be followed is a `Fault`.
-/

namespace LinuxServer

namespace SortedList

open Memory

/-- What a timer holds besides its links; the callback and the client's data are known by their
addresses. -/
structure TimerData where
  expire : ℤ
  cbFunc : Option ℕ
  userData : Ptr
  deriving DecidableEq, Repr

/-- `util_timer` -/
structure UtilTimer extends TimerData where
  prev : Ptr
  next : Ptr
  deriving DecidableEq, Repr

/-- `sort_timer_list` -/
structure TimerList where
  head : Ptr
  tail : Ptr
  deriving DecidableEq, Repr

/-- A callback that a tick makes: the timer, its `cb_func` and the `user_data` passed. -/
structure Call where
  timer : Addr
  cbFunc : ℕ
  userData : Ptr
  deriving DecidableEq, Repr

/-- `util_timer()`, whose other members the caller has set. -/
def utilTimer (data : TimerData) : UtilTimer := { data with prev := none, next := none }

/-- `sort_timer_list()` -/
def sortTimerList : TimerList := ⟨none, none⟩

/-- The assignments of `add_timer(timer, list_head)` that put `timer` between `prev` and `tmp`. -/
def linkBetween (m : Store UtilTimer) (prev timer tmp : Ptr) : Except Fault (Store UtilTimer) := do
  let m ← m.modify prev fun t => { t with next := timer }
  let m ← m.modify timer fun t => { t with next := tmp }
  let m ← m.modify tmp fun t => { t with prev := timer }
  m.modify timer fun t => { t with prev }

/-- The loop of `add_timer(timer, list_head)`, with `prev` and `tmp` where it ends. -/
def insertLoop (timer : Ptr) :
    ℕ → Store UtilTimer → Ptr → Ptr → Except Fault (Store UtilTimer × Ptr × Ptr)
  | 0, m, prev, tmp => pure (m, prev, tmp)
  | fuel + 1, m, prev, tmp =>
    if tmp = none then pure (m, prev, tmp)
    else do
      let t ← m.read timer
      let u ← m.read tmp
      if t.expire < u.expire then do
        -- the `break`, with `tmp` not null
        let m ← linkBetween m prev timer tmp
        pure (m, prev, tmp)
      else insertLoop timer fuel m tmp u.next

/-- `add_timer(timer, list_head)`.  The loop goes on from timer to timer, so that it makes at most
as many rounds as there are timers. -/
def TimerList.insert (m : Store UtilTimer) (l : TimerList) (timer listHead : Ptr) :
    Except Fault (Store UtilTimer × TimerList) := do
  let u ← m.read listHead
  let (m, prev, tmp) ← insertLoop timer m.fresh m listHead u.next
  if tmp = none then do
    let m ← m.modify prev fun t => { t with next := timer }
    let m ← m.modify timer fun t => { t with prev }
    let m ← m.modify timer fun t => { t with next := none }
    pure (m, { l with tail := timer })
  else pure (m, l)

/-- `add_timer(timer)` -/
def TimerList.addTimer (m : Store UtilTimer) (l : TimerList) (timer : Ptr) :
    Except Fault (Store UtilTimer × TimerList) :=
  if timer = none then pure (m, l)
  else if l.head = none then pure (m, ⟨timer, timer⟩)
  else do
    let t ← m.read timer
    let u ← m.read l.head
    if t.expire < u.expire then do
      let m ← m.modify timer fun t => { t with next := l.head }
      let m ← m.modify l.head fun t => { t with prev := timer }
      pure (m, { l with head := timer })
    else l.insert m timer l.head

/-- The end of `adjust_timer`: the timer is taken out of the list and put in again. -/
def TimerList.reinsert (m : Store UtilTimer) (l : TimerList) (timer : Ptr) :
    Except Fault (Store UtilTimer × TimerList) :=
  if timer = l.head then do
    let u ← m.read l.head
    let l := { l with head := u.next }
    let m ← m.modify l.head fun t => { t with prev := none }
    let m ← m.modify timer fun t => { t with next := none }
    l.insert m timer l.head
  else do
    let t ← m.read timer
    let m ← m.modify t.prev fun before => { before with next := t.next }
    let t ← m.read timer
    let m ← m.modify t.next fun after => { after with prev := t.prev }
    -- the search starts behind the timer's old place
    let t ← m.read timer
    l.insert m timer t.next

/-- `adjust_timer` -/
def TimerList.adjustTimer (m : Store UtilTimer) (l : TimerList) (timer : Ptr) :
    Except Fault (Store UtilTimer × TimerList) :=
  if timer = none then pure (m, l)
  else do
    let t ← m.read timer
    if t.next = none then pure (m, l)
    else do
      let u ← m.read t.next
      if t.expire < u.expire then pure (m, l) else l.reinsert m timer

/-- What the callbacks do with the list. -/
abbrev Callback := Call → Store UtilTimer → TimerList → Except Fault (Store UtilTimer × TimerList)

/-- Callbacks that do not touch the list. -/
def quiet : Callback := fun _ m l => pure (m, l)

/-- `tmp->cb_func(tmp->user_data)` -/
def callOf (tmp : Addr) (t : UtilTimer) : Except Fault Call :=
  match t.cbFunc with
  | none => .error .nullPointer
  | some cb => pure ⟨tmp, cb, t.userData⟩

/-- The end of a round of `tick`, after the callback: the timer at the head leaves the list. -/
def TimerList.expire (m : Store UtilTimer) (l : TimerList) (tmp : Ptr) :
    Except Fault (Store UtilTimer × TimerList) := do
  let t ← m.read tmp
  let l := { l with head := t.next }
  -- `tail` is left as it is, also when the list gets empty
  let m ← if l.head = none then pure m else m.modify l.head fun t => { t with prev := none }
  let m ← m.free tmp
  pure (m, l)

/-- The loop of `tick`, with the calls it makes. -/
def tickLoop (callback : Callback) (cur : ℤ) : ℕ → Ptr → Store UtilTimer → TimerList →
    Except Fault (Store UtilTimer × TimerList × List Call)
  | 0, _, m, l => pure (m, l, [])
  | _, none, m, l => pure (m, l, [])
  | fuel + 1, some tmp, m, l => do
    let t ← m.read (some tmp)
    if cur < t.expire then pure (m, l, [])
    else do
      let call ← callOf tmp t
      let (m, l) ← callback call m l
      let (m, l) ← l.expire m (some tmp)
      let (m, l, later) ← tickLoop callback cur fuel l.head m l
      pure (m, l, call :: later)

/-- `tick`, when the time is `cur`, with room for `fuel` rounds. -/
def TimerList.tickFor (callback : Callback) (fuel : ℕ) (m : Store UtilTimer) (l : TimerList)
    (cur : ℤ) : Except Fault (Store UtilTimer × TimerList × List Call) :=
  if l.head = none then pure (m, l, []) else tickLoop callback cur fuel l.head m l

/-- `tick` with callbacks that do not touch the list.  Each round frees a timer, so that there are
at most as many rounds as timers. -/
def TimerList.tick (m : Store UtilTimer) (l : TimerList) (cur : ℤ) :
    Except Fault (Store UtilTimer × TimerList × List Call) := l.tickFor quiet m.fresh m cur

/-! ### Runs -/

/-- The timers of a program and its list.  Recorded are the timers added and the callbacks made, in
order. -/
structure World where
  timers : Store UtilTimer
  list : TimerList
  added : List Addr
  calls : List Call
  deriving DecidableEq, Repr

/-- What a program does. -/
inductive Op where
  /-- A timer is allocated, its members but for the links are set, and it is added. -/
  | add (data : TimerData)
  /-- The deadline of a timer is put off, and the timer is adjusted. -/
  | delay (timer : Addr) (expire : ℤ)
  | tick (cur : ℤ)
  deriving DecidableEq, Repr

/-- One call. -/
def exec (w : World) : Op → Except Fault World
  | .add data => do
    let timer := w.timers.fresh
    let (timers, list) ← w.list.addTimer (w.timers.alloc (utilTimer data)) (some timer)
    pure { w with timers, list, added := w.added ++ [timer] }
  | .delay timer expire => do
    let timers ← w.timers.modify (some timer) fun t => { t with expire }
    let (timers, list) ← w.list.adjustTimer timers (some timer)
    pure { w with timers, list }
  | .tick cur => do
    let (timers, list, calls) ← w.list.tick w.timers cur
    pure { w with timers, list, calls := w.calls ++ calls }

/-- An empty list. -/
def World.init : World := ⟨.empty, sortTimerList, [], []⟩

/-- The timer was added and has not fired. -/
def World.Held (w : World) (p : Addr) : Prop := p ∈ w.added ∧ p ∉ w.calls.map Call.timer

instance (w : World) (p : Addr) : Decidable (w.Held p) := inferInstanceAs (Decidable (_ ∧ _))

/-- What a program may do: add timers with a callback and put off the deadline of timers in the
list. -/
def Legal (w : World) : Op → Prop
  | .add data => data.cbFunc ≠ none
  | .delay p e => w.Held p ∧ ∀ t, w.timers.get? p = some t → t.expire ≤ e
  | .tick _ => True

instance (w : World) (op : Op) : Decidable (Legal w op) :=
  match op with
  | .add data => inferInstanceAs (Decidable (data.cbFunc ≠ none))
  | .delay p e => decidable_of_iff (w.Held p ∧ ∀ t ∈ w.timers.get? p, t.expire ≤ e) Iff.rfl
  | .tick _ => .isTrue trivial

/-- The calls of a program on a list. -/
def timerListLTS : LTS World Op := (LTS.ofExec exec).guard Legal

end SortedList

end LinuxServer
