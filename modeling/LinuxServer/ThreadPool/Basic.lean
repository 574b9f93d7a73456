import LinuxServer.LTS.Basic
import Mathlib.Logic.Function.Basic

/-!
# The thread pool

The class `thread_pool` of `thread_pool.cc`: threads that call `append` put requests into a queue
under a mutex and post a semaphore; the workers of the pool wait for the semaphore and take the
requests out again.

* `AppenderPc`, `WorkerPc`: where a thread is in `append` and in `run`.
* `Pool`: the pool's members, the threads and a record of what was accepted and taken.
* `next`, `poolLTS`: one step of one thread.

A step is an operation of the mutex or of the semaphore, the work on the queue between `lock` and
`unlock`, a test of `m_stop`, or the processing of a request.  That the work on the queue may be one
step is `workQueue_eq_of_holds`: while a thread is between `lock` and `unlock`, no step of another
one changes the queue.
-/

namespace LinuxServer

namespace ThreadPool

variable {W A T : Type*}

/-- Where a thread is in `append`. -/
inductive AppenderPc (T : Type*) where
  /-- Not in `append`. -/
  | idle
  /-- At `m_queue_locker.lock()`. -/
  | locking (request : Option T)
  /-- At the test of the queue's size and `push_back`. -/
  | pushing (request : Option T)
  /-- At `m_queue_locker.unlock()`, with the request accepted or not. -/
  | unlocking (accepted : Bool)
  /-- At `m_queue_stat.post()`. -/
  | posting
  deriving DecidableEq, Repr

/-- Where a worker is in `run`. -/
inductive WorkerPc (T : Type*) where
  /-- At the test of `m_stop`. -/
  | testing
  /-- At `m_queue_stat.wait()`. -/
  | waiting
  /-- At `m_queue_locker.lock()`. -/
  | locking
  /-- At the test `m_work_queue.empty()`, `front` and `pop_front`. -/
  | taking
  /-- At `m_queue_locker.unlock()`, with the request taken if there was one. -/
  | unlocking (taken : Option (Option T))
  /-- At `request->process()`. -/
  | processing (request : T)
  /-- Returned. -/
  | done
  deriving DecidableEq, Repr

/-- The members of the pool and its threads.  Recorded are the requests accepted, in the order of
`push_back`, the requests taken out with their workers, in the order of `pop_front`, and the
requests that each worker took. -/
structure Pool (W A T : Type*) where
  maxRequest : ℕ
  workQueue : List (Option T)
  queueLocker : Option (W ⊕ A)
  queueStat : ℕ
  worker : W → WorkerPc T
  appender : A → AppenderPc T
  accepted : List (Option T)
  taken : List (W × Option T)
  got : W → List (Option T)

/-- The steps. -/
inductive Action (W A T : Type*) where
  /-- `append` is called. -/
  | call (a : A) (request : Option T)
  | lock (t : W ⊕ A)
  | push (a : A)
  | unlock (t : W ⊕ A)
  | post (a : A)
  /-- `m_stop` is read in the condition of the loop. -/
  | test (w : W) (stop : Bool)
  | wait (w : W)
  /-- `sem_wait` fails. -/
  | interrupt (w : W)
  | take (w : W)
  | process (w : W)
  deriving DecidableEq, Repr

/-- The thread that makes the step. -/
def Action.thread : Action W A T → W ⊕ A
  | .call a _ | .push a | .post a => .inr a
  | .lock t | .unlock t => t
  | .test w _ | .wait w | .interrupt w | .take w | .process w => .inl w

/-- The pool after its constructor, before any thread has made a step. -/
def Pool.init (W A T : Type*) (maxRequest : ℕ) : Pool W A T where
  maxRequest := maxRequest
  workQueue := []
  queueLocker := none
  queueStat := 0
  worker _ := .testing
  appender _ := .idle
  accepted := []
  taken := []
  got _ := []

section Step

variable [DecidableEq W] [DecidableEq A]

/-- The worker `w` goes to `pc`. -/
def Pool.moveWorker (s : Pool W A T) (w : W) (pc : WorkerPc T) : Pool W A T :=
  { s with worker := Function.update s.worker w pc }

/-- The appending thread `a` goes to `pc`. -/
def Pool.moveAppender (s : Pool W A T) (a : A) (pc : AppenderPc T) : Pool W A T :=
  { s with appender := Function.update s.appender a pc }

/-- The work of `append` on the queue. -/
def Pool.push (s : Pool W A T) (a : A) (request : Option T) : Pool W A T :=
  if s.workQueue.length > s.maxRequest then s.moveAppender a (.unlocking false)
  else
    { s.moveAppender a (.unlocking true) with
      workQueue := s.workQueue ++ [request]
      accepted := s.accepted ++ [request] }

/-- The work of `run` on the queue. -/
def Pool.take (s : Pool W A T) (w : W) : Pool W A T :=
  match s.workQueue with
  | [] => s.moveWorker w (.unlocking none)
  | request :: rest =>
    { s.moveWorker w (.unlocking (some request)) with
      workQueue := rest
      taken := s.taken ++ [(w, request)]
      got := Function.update s.got w (s.got w ++ [request]) }

/-- Where a worker goes from `unlock`: a null request is dropped. -/
def WorkerPc.afterUnlock : Option (Option T) → WorkerPc T
  | none | some none => .testing
  | some (some request) => .processing request

/-- Where an appending thread goes from `unlock`. -/
def AppenderPc.afterUnlock (accepted : Bool) : AppenderPc T := if accepted then .posting else .idle

/-- One step, if it is possible. -/
def next (s : Pool W A T) : Action W A T → Option (Pool W A T)
  | .call a request => match s.appender a with
    | .idle => some (s.moveAppender a (.locking request))
    | _ => none
  | .lock (.inl w) => match s.worker w, s.queueLocker with
    | .locking, none => some { s.moveWorker w .taking with queueLocker := some (.inl w) }
    | _, _ => none
  | .lock (.inr a) => match s.appender a, s.queueLocker with
    | .locking request, none =>
      some { s.moveAppender a (.pushing request) with queueLocker := some (.inr a) }
    | _, _ => none
  | .push a => match s.appender a with
    | .pushing request => some (s.push a request)
    | _ => none
  | .unlock (.inl w) => match s.worker w with
    | .unlocking taken => some { s.moveWorker w (.afterUnlock taken) with queueLocker := none }
    | _ => none
  | .unlock (.inr a) => match s.appender a with
    | .unlocking accepted =>
      some { s.moveAppender a (.afterUnlock accepted) with queueLocker := none }
    | _ => none
  | .post a => match s.appender a with
    | .posting => some { s.moveAppender a .idle with queueStat := s.queueStat + 1 }
    | _ => none
  -- `while(m_stop != false)`: the loop ends as long as `m_stop` is false
  | .test w stop => match s.worker w with
    | .testing => some (s.moveWorker w (if stop ≠ false then .waiting else .done))
    | _ => none
  | .wait w => match s.worker w with
    | .waiting =>
      if 0 < s.queueStat then some { s.moveWorker w .locking with queueStat := s.queueStat - 1 }
      else none
    | _ => none
  -- the result of `wait` is not looked at
  | .interrupt w => match s.worker w with
    | .waiting => some (s.moveWorker w .locking)
    | _ => none
  | .take w => match s.worker w with
    | .taking => some (s.take w)
    | _ => none
  | .process w => match s.worker w with
    | .processing _ => some (s.moveWorker w .testing)
    | _ => none

/-- The steps of all threads, when `m_stop` may be read as a value that `stop` allows. -/
def poolLTS (W A T : Type*) [DecidableEq W] [DecidableEq A] (stop : Bool → Prop) :
    LTS (Pool W A T) (Action W A T) where
  step s l s' := next s l = some s' ∧ ∀ w b, l = .test w b → stop b

theorem deterministic (stop : Bool → Prop) : (poolLTS W A T stop).Deterministic :=
  fun _ _ _ _ h h' => Option.some.inj (h.1.symm.trans h'.1)

theorem reachable_of_foldlM {stop : Bool → Prop} {s s' : Pool W A T} {ls : List (Action W A T)}
    (h : ls.foldlM next s = some s') (hstop : ∀ w b, .test w b ∈ ls → stop b) :
    (poolLTS W A T stop).Reachable s s' := by
  induction ls generalizing s with
  | nil =>
    obtain rfl := Option.some.inj h
    exact .refl s
  | cons l ls ih =>
    rw [List.foldlM_cons] at h
    obtain ⟨u, hu, hrest⟩ := Option.bind_eq_some_iff.1 h
    have hstep : (poolLTS W A T stop).step s l u :=
      ⟨hu, fun w b hl => hstop w b (hl ▸ List.mem_cons_self)⟩
    obtain ⟨ops, hrun⟩ := ih hrest fun w b hl => hstop w b (List.mem_cons_of_mem _ hl)
    exact ⟨_, .cons hstep hrun⟩

end Step

end ThreadPool

end LinuxServer
