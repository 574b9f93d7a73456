import LinuxServer.LTS.Basic
import LinuxServer.Memory.Store
import Mathlib.Data.Int.Notation

/-!
# The time heap

The class `time_heap` of `time_heap.cc`: a binary heap of pointers to timers, in an array that
doubles when it is full.

* `HeapTimer`, `TimeHeap`: the classes.
* `addTimer`, `deleteTimer`, `top`, `pop`, `tick`, `percolateDown`, `resize`: the methods.
* `World`, `exec`, `timeHeapLTS`: the calls a program makes on one heap.

Following a pointer that must not be followed, and an access outside the array, are a `Fault`.
-/

namespace LinuxServer

namespace TimeHeap

open Memory

/-- `heap_timer`; the callback and the client's data are known by their addresses. -/
structure HeapTimer where
  expire : ℤ
  cbFunc : Option ℕ
  userData : Ptr
  deriving DecidableEq, Repr

/-- `time_heap` -/
structure Heap where
  array : List Ptr
  capacity : ℕ
  curSize : ℕ
  deriving DecidableEq, Repr

/-- A callback that a tick makes: the timer, its `cb_func` and the `user_data` passed. -/
structure Call where
  timer : Ptr
  cbFunc : ℕ
  userData : Ptr
  deriving DecidableEq, Repr

/-- `INT_MAX` -/
def intMax : ℕ := 2147483647

/-- `capacity << 1`: an `int`, which wraps around past `INT_MAX`. -/
def doubled (capacity : ℕ) : ℤ :=
  if 2 * capacity ≤ intMax then 2 * capacity else 2 * capacity - 4294967296

/-- An array of null pointers; a negative length throws `std::bad_array_new_length`. -/
def newArray (length : ℤ) : Option (List Ptr) :=
  if 0 ≤ length then some (List.replicate length.toNat none) else none

/-- `time_heap(int cap)` -/
def timeHeap (cap : ℤ) : Option Heap :=
  (newArray cap).map fun array => ⟨array, cap.toNat, 0⟩

/-- `array[i]->expire` -/
def expireAt (m : Store HeapTimer) (array : List Ptr) (i : ℕ) : Except Fault ℤ := do
  let timer ← m.read (← load array i)
  pure timer.expire

/-- `empty` -/
def Heap.empty (h : Heap) : Bool := h.curSize = 0

/-- `resize`; nothing when it throws. -/
def Heap.resize (h : Heap) : Except Fault (Option Heap) :=
  match newArray (doubled h.capacity) with
  | none => pure none
  | some tmp => do
    let array ← (List.range h.curSize).foldlM
      (fun tmp i => do store tmp i (← load h.array i)) tmp
    pure (some { h with array, capacity := (doubled h.capacity).toNat })

/-- The loop of `add_timer`, which looks for the slot of the new timer from the last slot up. -/
def addLoop (m : Store HeapTimer) (timer : Ptr) :
    ℕ → List Ptr → ℕ → Except Fault (List Ptr × ℕ)
  | 0, array, hole => pure (array, hole)
  | fuel + 1, array, hole =>
    if 0 < hole then do
      let parent := (hole - 1) >>> 1
      let above ← expireAt m array parent
      let new ← m.read timer
      if above ≤ new.expire then pure (array, hole)
      else do
        let array ← store array hole (← load array parent)
        addLoop m timer fuel array parent
    else pure (array, hole)

/-- The beginning of `add_timer`, which makes room; nothing when `resize` throws. -/
def Heap.grow (h : Heap) : Except Fault (Option Heap) :=
  if h.curSize ≥ h.capacity then h.resize else pure (some h)

/-- `add_timer`; nothing when `resize` throws. -/
def Heap.addTimer (m : Store HeapTimer) (h : Heap) : Ptr → Except Fault (Option Heap)
  | none => pure (some h)
  | some p => do
    -- `cur_size` is counted up only if `resize` does not throw
    match ← h.grow with
    | none => pure none
    | some h => do
      let (array, hole) ← addLoop m (some p) h.curSize h.array h.curSize
      let array ← store array hole (some p)
      pure (some { h with array, curSize := h.curSize + 1 })

/-- `delete_timer` -/
def deleteTimer (m : Store HeapTimer) : Ptr → Except Fault (Store HeapTimer)
  | none => pure m
  | some p => m.modify (some p) fun timer => { timer with cbFunc := none }

/-- `top` -/
def Heap.top (h : Heap) : Except Fault Ptr := if h.empty then pure none else load h.array 0

/-- The body of the loop of `percolate_down`: the slot whose timer moves into the hole, if one
does. -/
def percolateRound (m : Store HeapTimer) (curSize : ℕ) (array : List Ptr) (hole : ℕ) :
    Except Fault (Option ℕ) := do
  let child := hole <<< 1 ||| 1
  let child ←
    -- the sibling is in the slot `curSize` at most, just behind the heap
    if child ≤ curSize - 1 then do
      let right ← expireAt m array (child + 1)
      let left ← expireAt m array child
      pure (if right < left then child + 1 else child)
    else pure child
  -- compared is what the slot of the hole still points to, not the timer `tmp` to be put there
  let above ← expireAt m array hole
  let below ← expireAt m array child
  pure (if above > below then some child else none)

/-- The loop of `percolate_down`.  Its condition reads `(hole << 1) | (1 <= cur_size)`. -/
def percolateLoop (m : Store HeapTimer) (curSize : ℕ) :
    ℕ → List Ptr → ℕ → Except Fault (List Ptr × ℕ)
  | 0, _, hole => .error (.outOfBounds hole)
  | fuel + 1, array, hole =>
    if (hole <<< 1 ||| if 1 ≤ curSize then 1 else 0) ≠ 0 then do
      match ← percolateRound m curSize array hole with
      | some child => do
        let array ← store array hole (← load array child)
        percolateLoop m curSize fuel array child
      | none => pure (array, hole)
    else pure (array, hole)

/-- `percolate_down`.  The hole moves to a greater slot in each round that goes on and is read
there, so that the loop makes at most as many rounds as the array has slots. -/
def percolateDown (m : Store HeapTimer) (curSize : ℕ) (array : List Ptr) (hole : ℕ) :
    Except Fault (List Ptr) := do
  let tmp ← load array hole
  let (array, hole) ← percolateLoop m curSize (array.length + 1) array hole
  store array hole tmp

/-- `pop` -/
def Heap.pop (m : Store HeapTimer) (h : Heap) : Except Fault (Store HeapTimer × Heap) :=
  if h.empty then pure (m, h)
  else do
    let root ← load h.array 0
    if root = none then pure (m, h)
    else do
      let m ← m.free root
      let curSize := h.curSize - 1
      -- the slot given up keeps its pointer
      let array ← store h.array 0 (← load h.array curSize)
      let array ← percolateDown m curSize array 0
      pure (m, { h with array, curSize })

/-- The callback of the timer at the root, if it is set. -/
def Heap.callback (m : Store HeapTimer) (h : Heap) : Except Fault (List Call) := do
  let root ← load h.array 0
  let timer ← m.read root
  pure (timer.cbFunc.toList.map fun cb => ⟨root, cb, timer.userData⟩)

/-- The loop of `tick`; the callbacks leave the heap alone. -/
def tickLoop (cur : ℤ) : ℕ → Ptr → Store HeapTimer → Heap →
    Except Fault (Store HeapTimer × Heap × List Call)
  | 0, _, m, h => pure (m, h, [])
  | fuel + 1, tmp, m, h =>
    if h.empty ∨ tmp = none then pure (m, h, [])
    else do
      let timer ← m.read tmp
      if timer.expire > cur then pure (m, h, [])
      else do
        let calls ← h.callback m
        let (m, h) ← h.pop m
        let (m, h, later) ← tickLoop cur fuel (← load h.array 0) m h
        pure (m, h, calls ++ later)

/-- `tick`, when the time is `cur`.  Each round that goes on pops a timer. -/
def Heap.tick (m : Store HeapTimer) (h : Heap) (cur : ℤ) :
    Except Fault (Store HeapTimer × Heap × List Call) := do
  tickLoop cur h.curSize (← load h.array 0) m h

/-! ### Runs -/

/-- The timers a program has allocated and the heap it keeps them in.  The timers created, added
and cancelled and the callbacks made are recorded in order. -/
structure World where
  timers : Store HeapTimer
  heap : Heap
  created : List HeapTimer
  added : List Addr
  cancelled : List Addr
  calls : List Call
  deriving DecidableEq, Repr

/-- What a program does. -/
inductive Op where
  /-- A timer is allocated and its members are set. -/
  | new (timer : HeapTimer)
  | add (timer : Ptr)
  | delete (timer : Ptr)
  | pop
  | tick (cur : ℤ)
  deriving DecidableEq, Repr

/-- The call is a tick. -/
def Op.isTick : Op → Bool
  | .tick _ => true
  | _ => false

/-- One call.  An exception that `add_timer` throws is caught and changes nothing. -/
def exec (w : World) : Op → Except Fault World
  | .new timer =>
    pure { w with timers := w.timers.alloc timer, created := w.created ++ [timer] }
  | .add timer => do
    match ← w.heap.addTimer w.timers timer with
    | none => pure w
    | some heap => pure { w with heap, added := w.added ++ timer.toList }
  | .delete timer => do
    let timers ← deleteTimer w.timers timer
    pure { w with timers, cancelled := w.cancelled ++ timer.toList }
  | .pop => do
    let (timers, heap) ← w.heap.pop w.timers
    pure { w with timers, heap }
  | .tick cur => do
    let (timers, heap, calls) ← w.heap.tick w.timers cur
    pure { w with timers, heap, calls := w.calls ++ calls }

/-- A heap before the first call. -/
def World.init (h : Heap) : World := ⟨.empty, h, [], [], [], []⟩

/-- What is added is a timer that was not added before. -/
def Fresh (w : World) : Op → Prop
  | .add (some p) => w.timers.Live p ∧ p ∉ w.added
  | _ => True

instance (w : World) (op : Op) : Decidable (Fresh w op) :=
  match op with
  | .add (some p) => inferInstanceAs (Decidable (w.timers.Live p ∧ p ∉ w.added))
  | .new _ | .add none | .delete _ | .pop | .tick _ => .isTrue trivial

/-- The calls that do not fault and add no timer twice. -/
def timeHeapLTS : LTS World Op := (LTS.ofExec exec).guard Fresh

end TimeHeap

end LinuxServer
