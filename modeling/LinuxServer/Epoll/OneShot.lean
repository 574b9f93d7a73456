import LinuxServer.Epoll.Basic
import LinuxServer.Holders.Basic
import LinuxServer.LTS.Basic
import Mathlib.Data.Int.Notation
import Mathlib.Logic.Function.Basic

/-!
# One worker for a one-shot connection

`main` and `worker` of `epoll_one_shot.cc`.  A connection is registered with `EPOLLONESHOT`: its
event is consumed when it is reported, and until the connection is registered again no further
event of it is.  For an event `main` fills the record `fds_for_new_worker` and creates a thread
that it passes the record's address.  The record is a variable of the block that handles the event,
so it is gone when `main` leaves the block; and `worker` ends without the value that it is declared
to return.

* `Program`: the registrations, the record, and where `main` and the workers are.  A worker's place
  also says for which descriptor's event it was created.
* `next`, `oneShotLTS`: one step of one thread, or what the kernel does in a call.  A worker that
  reads a record that is gone may read anything, and at the end of `worker` anything may follow.
* `HandsOver`: `main` waits in the block until the worker has read the record, the step drops no
  event, and the end of `worker` only ends the thread.
* `Served`: each worker serves its own descriptor, no two workers the same, and a connection whose
  event was consumed is in the hands of `main` or of a worker that gives it up only by closing it or
  arming it again.
* `served_of_handsOver`: so it is as long as the steps hand over; a step that does not can be
  followed by steps to a state where a connection is not served.
-/

namespace LinuxServer

namespace OneShot

open Epoll (Event maxEventNumber)

/-- The registration of a descriptor. -/
inductive ConnState where
  /-- Not open, and not registered. -/
  | closed
  /-- Its next event is reported. -/
  | armed
  /-- Its event was reported. -/
  | consumed
  deriving DecidableEq, Repr

structure Fds where
  epollFd : ℕ
  sockFd : ℕ
  deriving DecidableEq, Repr

/-- Where `main` is. -/
inductive MainPc where
  /-- At `epoll_wait`. -/
  | waiting
  /-- In the loop over the events, with the events still to handle. -/
  | handling (events : List Event)
  /-- At the assignment to `fds_for_new_worker.sock_fd`. -/
  | writingSock (fd : ℕ) (events : List Event)
  /-- At `pthread_create`. -/
  | creating (fd : ℕ) (events : List Event)
  /-- At the end of the record's block, with the number of the worker that has its address. -/
  | leaving (worker : Option ℕ) (events : List Event)
  /-- The loop is left. -/
  | left
  deriving DecidableEq, Repr

/-- Where a worker is; `event` is the descriptor whose event it was created for. -/
inductive WorkerPc where
  /-- Before its first step. -/
  | starting (event : ℕ)
  /-- `sock_fd` is read. -/
  | haveSock (event sockFd : ℕ)
  /-- At `recv`. -/
  | receiving (event sockFd epollFd : ℕ)
  /-- At `close`. -/
  | closing (event sockFd : ℕ)
  /-- At `reset_one_shot`. -/
  | rearming (event sockFd epollFd : ℕ)
  /-- At the end of the function. -/
  | ending
  | done
  deriving DecidableEq, Repr

structure Program where
  /-- `epoll_fd` of `main` -/
  epollFd : ℕ
  conn : ℕ → ConnState
  /-- `fds_for_new_worker` -/
  record : Fds
  pc : MainPc
  workers : List WorkerPc

/-- The steps. -/
inductive Action where
  /-- `epoll_wait` reports the events. -/
  | wait (events : List Event)
  /-- `epoll_wait` fails. -/
  | fail
  /-- `accept` returns a descriptor, which `add_fd` registers, or fails. -/
  | accept (connectionFd : Option ℕ)
  | writeEpoll
  | writeSock
  /-- `pthread_create` succeeds or not. -/
  | create (ok : Bool)
  /-- `main` leaves the block of the record. -/
  | leave
  /-- `something else happened` -/
  | other
  /-- The loop over the events ends. -/
  | again
  /-- The worker `i` reads `sock_fd` through the pointer, and gets `fd`. -/
  | readSock (i fd : ℕ)
  | readEpoll (i fd : ℕ)
  /-- `recv` returns `ret`, with `errno` equal to `EAGAIN` or not. -/
  | recv (i : ℕ) (ret : ℤ) (eagain : Bool)
  | close (i : ℕ)
  | rearm (i : ℕ)
  /-- The end of `worker` ends the thread. -/
  | finish (i : ℕ)
  /-- At the end of `worker` the program goes on as `s`. -/
  | undefined (i : ℕ) (s : Program)

/-- Before the first `epoll_wait`; the record's place may hold anything. -/
def Program.init (epollFd : ℕ) (record : Fds) : Program where
  epollFd := epollFd
  conn _ := .closed
  record := record
  pc := .waiting
  workers := []

/-- The descriptors whose events `main` has still to handle. -/
def MainPc.hands : MainPc → List ℕ
  | .handling events | .leaving _ events => events.filterMap Event.client?
  | .writingSock fd events | .creating fd events => fd :: events.filterMap Event.client?
  | .waiting | .left => []

/-- The worker whose record is not gone. -/
def MainPc.reader : MainPc → Option ℕ
  | .leaving worker _ => worker
  | .waiting | .handling _ | .writingSock _ _ | .creating _ _ | .left => none

/-- The descriptor whose event a live worker was created for. -/
def WorkerPc.event? : WorkerPc → Option ℕ
  | .starting event | .haveSock event _ | .receiving event _ _ | .closing event _
  | .rearming event _ _ => some event
  | .ending | .done => none

/-- The descriptor a live worker serves, once it has read it. -/
def WorkerPc.sockFd? : WorkerPc → Option ℕ
  | .haveSock _ sockFd | .receiving _ sockFd _ | .closing _ sockFd | .rearming _ sockFd _ =>
    some sockFd
  | .starting _ | .ending | .done => none

/-- The worker has still to read from the record. -/
def WorkerPc.isReading : WorkerPc → Bool
  | .starting _ | .haveSock _ _ => true
  | .receiving _ _ _ | .closing _ _ | .rearming _ _ _ | .ending | .done => false

/-- The worker `i` is there for the event of `fd`. -/
def Program.Serves (s : Program) (i fd : ℕ) : Prop :=
  s.workers[i]?.bind WorkerPc.event? = some fd

instance (s : Program) (i fd : ℕ) : Decidable (s.Serves i fd) :=
  inferInstanceAs (Decidable (_ = _))

/-- What the worker `i` may read where the record holds `value`. -/
def Program.Yields (s : Program) (i value fd : ℕ) : Prop := s.pc.reader = some i → fd = value

instance (s : Program) (i value fd : ℕ) : Decidable (s.Yields i value fd) :=
  inferInstanceAs (Decidable (_ → _))

/-- `epoll_wait` may report the events: other descriptors than `listen_fd` once each, and only those
registered whose event is not consumed. -/
def Program.Reports (s : Program) (events : List Event) : Prop :=
  events.length ≤ maxEventNumber ∧ (events.filterMap Event.client?).Nodup ∧
    ∀ fd ∈ events.filterMap Event.client?, s.conn fd = .armed

instance (s : Program) (events : List Event) : Decidable (s.Reports events) :=
  inferInstanceAs (Decidable (_ ∧ _ ∧ _))

/-- The registration of `fd` changes. -/
def Program.setConn (s : Program) (fd : ℕ) (st : ConnState) : Program :=
  { s with conn := Function.update s.conn fd st }

/-- The events of the descriptors are consumed. -/
def Program.consume (s : Program) (fds : List ℕ) : Program :=
  { s with conn := fun fd => if fd ∈ fds then .consumed else s.conn fd }

/-- The worker `i` goes to `pc`. -/
def Program.moveWorker (s : Program) (i : ℕ) (pc : WorkerPc) : Program :=
  { s with workers := s.workers.set i pc }

/-- `EPOLL_CTL_MOD` of a descriptor that `epoll_fd` has not registered fails. -/
def Program.resetOneShot (s : Program) (epollFd fd : ℕ) : Program :=
  if epollFd = s.epollFd ∧ s.conn fd ≠ .closed then s.setConn fd .armed else s

/-- One step, if it is possible. -/
def next (s : Program) : Action → Option Program
  | .wait events => match s.pc with
    | .waiting =>
      if s.Reports events then
        some { s.consume (events.filterMap Event.client?) with pc := .handling events }
      else none
    | _ => none
  | .fail => match s.pc with
    | .waiting => some { s with pc := .left }
    | _ => none
  | .accept connectionFd => match s.pc with
    | .handling (.listen :: events) => match connectionFd with
      | none => some { s with pc := .handling events }
      | some fd =>
        -- the kernel gives a descriptor that is not open
        if s.conn fd = .closed then some { s.setConn fd .armed with pc := .handling events }
        else none
    | _ => none
  | .writeEpoll => match s.pc with
    | .handling (.client fd true :: events) =>
      some { s with record.epollFd := s.epollFd, pc := .writingSock fd events }
    | _ => none
  | .writeSock => match s.pc with
    | .writingSock fd events => some { s with record.sockFd := fd, pc := .creating fd events }
    | _ => none
  -- the result of `pthread_create` is not looked at
  | .create ok => match s.pc with
    | .creating fd events =>
      some { s with
        pc := .leaving (if ok then some s.workers.length else none) events
        workers := if ok then s.workers ++ [.starting fd] else s.workers }
    | _ => none
  | .leave => match s.pc with
    | .leaving _ events => some { s with pc := .handling events }
    | _ => none
  | .other => match s.pc with
    | .handling (.client _ false :: events) => some { s with pc := .handling events }
    | _ => none
  | .again => match s.pc with
    | .handling [] => some { s with pc := .waiting }
    | _ => none
  -- a descriptor that is not open stands for every number that is none
  | .readSock i fd => match s.workers[i]? with
    | some (.starting event) =>
      if s.Yields i s.record.sockFd fd then some (s.moveWorker i (.haveSock event fd)) else none
    | _ => none
  | .readEpoll i fd => match s.workers[i]? with
    | some (.haveSock event sockFd) =>
      if s.Yields i s.record.epollFd fd then some (s.moveWorker i (.receiving event sockFd fd))
      else none
    | _ => none
  | .recv i ret eagain => match s.workers[i]? with
    | some (.receiving event sockFd epollFd) =>
      if ret = 0 then some (s.moveWorker i (.closing event sockFd))
      else if ret < 0 ∧ eagain = true then some (s.moveWorker i (.rearming event sockFd epollFd))
      else some s
    | _ => none
  | .close i => match s.workers[i]? with
    | some (.closing _ sockFd) => some ((s.setConn sockFd .closed).moveWorker i .ending)
    | _ => none
  | .rearm i => match s.workers[i]? with
    | some (.rearming _ sockFd epollFd) =>
      some ((s.resetOneShot epollFd sockFd).moveWorker i .ending)
    | _ => none
  | .finish i => match s.workers[i]? with
    | some .ending => some (s.moveWorker i .done)
    | _ => none
  -- `worker` is declared to return a `void*`, and returns nothing
  | .undefined i s' => match s.workers[i]? with
    | some .ending => some s'
    | _ => none

/-- The runs of the program. -/
def oneShotLTS : LTS Program Action := .ofNext next

/-- `main` leaves the block when no worker has still to read, `pthread_create` succeeds, no event
lacks the flag `EPOLLIN`, and the end of `worker` only ends the thread. -/
def HandsOver (s : Program) : Action → Prop
  | .leave => ∀ pc ∈ s.workers, pc.isReading = false
  | .create ok => ok = true
  | .other | .undefined _ _ => False
  | _ => True

instance (s : Program) (a : Action) : Decidable (HandsOver s a) :=
  match a with
  | .leave => inferInstanceAs (Decidable (∀ pc ∈ s.workers, pc.isReading = false))
  | .create ok => inferInstanceAs (Decidable (ok = true))
  | .other | .undefined _ _ => .isFalse id
  | .wait _ | .fail | .accept _ | .writeEpoll | .writeSock | .again | .readSock _ _
  | .readEpoll _ _ | .recv _ _ _ | .close _ | .rearm _ | .finish _ => .isTrue trivial

/-- The runs whose steps hand over. -/
def handOverLTS : LTS Program Action := oneShotLTS.guard HandsOver

/-- The worker `i` gives `fd` up by closing it or arming it again. -/
inductive GivesUp (i fd : ℕ) : Action → Program → Prop where
  | close {s : Program} : s.conn fd = .closed → GivesUp i fd (.close i) s
  | rearm {s : Program} : s.conn fd = .armed → GivesUp i fd (.rearm i) s

/-- In every run from `s` on the worker `i` closes `fd` or arms it again when it stops serving it;
and it can get there. -/
structure Program.Finishes (s : Program) (i fd : ℕ) : Prop where
  only : ∀ ops u a w, handOverLTS.Run s ops u → handOverLTS.step u a w → u.Serves i fd →
    ¬ w.Serves i fd → GivesUp i fd a w
  can : ∃ u, handOverLTS.Reachable s u ∧ ¬ u.Serves i fd

/-- The connections are served by one worker each. -/
structure Served (s : Program) : Prop where
  own : ∀ pc ∈ s.workers, ∀ event sockFd, pc.event? = some event → pc.sockFd? = some sockFd →
    sockFd = event
  exclusive : ∀ (i j : ℕ) pc pc' sockFd, s.workers[i]? = some pc → s.workers[j]? = some pc' →
    pc.sockFd? = some sockFd → pc'.sockFd? = some sockFd → i = j
  manned : ∀ fd, s.conn fd = .consumed → fd ∈ s.pc.hands ∨ ∃ i, s.Serves i fd ∧ s.Finishes i fd

/-- What a step can do. -/
inductive Moves (s : Program) : Action → Program → Prop where
  | wait {events} : s.pc = .waiting → s.Reports events → Moves s (.wait events)
      { s.consume (events.filterMap Event.client?) with pc := .handling events }
  | fail : s.pc = .waiting → Moves s .fail { s with pc := .left }
  | acceptNone {events} : s.pc = .handling (.listen :: events) →
      Moves s (.accept none) { s with pc := .handling events }
  | accept {fd events} : s.pc = .handling (.listen :: events) → s.conn fd = .closed →
      Moves s (.accept (some fd)) { s.setConn fd .armed with pc := .handling events }
  | writeEpoll {fd events} : s.pc = .handling (.client fd true :: events) →
      Moves s .writeEpoll { s with record.epollFd := s.epollFd, pc := .writingSock fd events }
  | writeSock {fd events} : s.pc = .writingSock fd events →
      Moves s .writeSock { s with record.sockFd := fd, pc := .creating fd events }
  | create {fd events ok} : s.pc = .creating fd events → Moves s (.create ok)
      { s with
        pc := .leaving (if ok then some s.workers.length else none) events
        workers := if ok then s.workers ++ [.starting fd] else s.workers }
  | leave {worker events} : s.pc = .leaving worker events →
      Moves s .leave { s with pc := .handling events }
  | other {fd events} : s.pc = .handling (.client fd false :: events) →
      Moves s .other { s with pc := .handling events }
  | again : s.pc = .handling [] → Moves s .again { s with pc := .waiting }
  | readSock {i fd event} : s.workers[i]? = some (.starting event) →
      s.Yields i s.record.sockFd fd →
      Moves s (.readSock i fd) (s.moveWorker i (.haveSock event fd))
  | readEpoll {i fd event sockFd} : s.workers[i]? = some (.haveSock event sockFd) →
      s.Yields i s.record.epollFd fd →
      Moves s (.readEpoll i fd) (s.moveWorker i (.receiving event sockFd fd))
  | recvClose {i event sockFd epollFd eagain} :
      s.workers[i]? = some (.receiving event sockFd epollFd) →
      Moves s (.recv i 0 eagain) (s.moveWorker i (.closing event sockFd))
  | recvRearm {i event sockFd epollFd ret} :
      s.workers[i]? = some (.receiving event sockFd epollFd) → ret < 0 →
      Moves s (.recv i ret true) (s.moveWorker i (.rearming event sockFd epollFd))
  | recv {i event sockFd epollFd ret eagain} :
      s.workers[i]? = some (.receiving event sockFd epollFd) → ret ≠ 0 →
      ¬ (ret < 0 ∧ eagain = true) → Moves s (.recv i ret eagain) s
  | close {i event sockFd} : s.workers[i]? = some (.closing event sockFd) →
      Moves s (.close i) ((s.setConn sockFd .closed).moveWorker i .ending)
  | rearm {i event sockFd epollFd} : s.workers[i]? = some (.rearming event sockFd epollFd) →
      Moves s (.rearm i) ((s.resetOneShot epollFd sockFd).moveWorker i .ending)
  | finish {i} : s.workers[i]? = some .ending → Moves s (.finish i) (s.moveWorker i .done)
  | undefined {i s'} : s.workers[i]? = some .ending → Moves s (.undefined i s') s'

variable {s s' : Program} {a : Action} {i fd event : ℕ} {pc : WorkerPc} {events : List Event}

theorem moves_of_next (h : next s a = some s') : Moves s a s' := by
  cases a with
  | wait events =>
    simp only [next] at h
    split at h
    · rename_i hpc
      split_ifs at h with hreports
      obtain rfl := Option.some.inj h
      exact .wait hpc hreports
    · cases h
  | accept connectionFd =>
    simp only [next] at h
    split at h
    · rename_i hpc
      split at h
      · obtain rfl := Option.some.inj h
        exact .acceptNone hpc
      · split_ifs at h with hclosed
        obtain rfl := Option.some.inj h
        exact .accept hpc hclosed
    · cases h
  | recv i ret eagain =>
    simp only [next] at h
    split at h
    · rename_i hpc
      split_ifs at h with hzero hagain
      · obtain rfl := Option.some.inj h
        subst hzero
        exact .recvClose hpc
      · obtain rfl := Option.some.inj h
        obtain ⟨hneg, rfl⟩ := hagain
        exact .recvRearm hpc hneg
      · obtain rfl := Option.some.inj h
        exact .recv hpc hzero hagain
    · cases h
  | readSock i fd =>
    simp only [next] at h
    split at h
    · rename_i hpc
      split_ifs at h with hyields
      obtain rfl := Option.some.inj h
      exact .readSock hpc hyields
    · cases h
  | readEpoll i fd =>
    simp only [next] at h
    split at h
    · rename_i hpc
      split_ifs at h with hyields
      obtain rfl := Option.some.inj h
      exact .readEpoll hpc hyields
    · cases h
  | fail | writeEpoll | writeSock | create _ | leave | other | again | close _ | rearm _ | finish _
  | undefined _ _ =>
    simp only [next] at h
    split at h
    · rename_i hpc
      obtain rfl := Option.some.inj h
      constructor
      exact hpc
    · cases h

/-- The descriptors whose events `main` has to handle or a worker was created for. -/
def Program.owned (s : Program) : List ℕ := s.pc.hands ++ s.workers.filterMap WorkerPc.event?

/-- `main` has written what it has to. -/
def Program.MainSound (s : Program) : Prop :=
  match s.pc with
  | .writingSock _ _ => s.record.epollFd = s.epollFd
  | .creating fd _ => s.record = ⟨s.epollFd, fd⟩
  | .waiting | .handling _ | .leaving _ _ | .left => True

/-- The worker `i` at `pc` has read, or will read, its own descriptor and `epoll_fd`. -/
def Program.WorkerSound (s : Program) (i : ℕ) : WorkerPc → Prop
  | .starting event => s.pc.reader = some i ∧ s.record = ⟨s.epollFd, event⟩
  | .haveSock event sockFd =>
    s.pc.reader = some i ∧ sockFd = event ∧ s.record.epollFd = s.epollFd
  | .receiving event sockFd epollFd | .rearming event sockFd epollFd =>
    sockFd = event ∧ epollFd = s.epollFd
  | .closing event sockFd => sockFd = event
  | .ending | .done => True

/-- A connection whose event is consumed has one owner, and the record holds what the worker that
reads it is to read. -/
structure Inv (s : Program) : Prop where
  nodup : s.owned.Nodup
  mem_owned : ∀ fd, fd ∈ s.owned ↔ s.conn fd = .consumed
  main : s.MainSound
  worker : ∀ i pc, s.workers[i]? = some pc → s.WorkerSound i pc

theorem inv_init (epollFd : ℕ) (record : Fds) : Inv (.init epollFd record) where
  nodup := List.nodup_nil
  mem_owned fd := by simp [Program.init, Program.owned, MainPc.hands]
  main := trivial
  worker := by simp [Program.init]

theorem WorkerSound.of_read (hpc : s.WorkerSound i pc) (hread : pc.isReading = false)
    (hepoll : s'.epollFd = s.epollFd) : s'.WorkerSound i pc := by
  cases pc with
  | starting | haveSock => cases hread
  | receiving | rearming => exact ⟨hpc.1, hpc.2.trans hepoll.symm⟩
  | closing | ending | done => exact hpc

theorem WorkerSound.isReading_eq (hpc : s.WorkerSound i pc) (hreader : s.pc.reader = none) :
    pc.isReading = false := by
  cases pc with
  | starting | haveSock => cases hreader.symm.trans hpc.1
  | receiving | closing | rearming | ending | done => rfl

theorem Inv.isReading_eq (hs : Inv s) (hreader : s.pc.reader = none) :
    ∀ pc ∈ s.workers, pc.isReading = false := by
  intro pc hpc
  obtain ⟨i, hi⟩ := List.mem_iff_getElem?.1 hpc
  exact WorkerSound.isReading_eq (hs.worker i pc hi) hreader

theorem Inv.worker_of_read (hs : Inv s) (hread : ∀ pc ∈ s.workers, pc.isReading = false)
    (hepoll : s'.epollFd = s.epollFd) (hi : s.workers[i]? = some pc) : s'.WorkerSound i pc :=
  WorkerSound.of_read (hs.worker i pc hi) (hread pc (List.mem_of_getElem? hi)) hepoll

/-- `main` makes a step outside the block of a record, and keeps what it has to handle. -/
theorem Inv.of_main (hs : Inv s) (hread : ∀ pc ∈ s.workers, pc.isReading = false)
    (hhands : s'.pc.hands = s.pc.hands) (hworkers : s'.workers = s.workers)
    (hepoll : s'.epollFd = s.epollFd)
    (hconn : ∀ fd, s'.conn fd = .consumed ↔ s.conn fd = .consumed) (hmain : s'.MainSound) :
    Inv s' := by
  have howned : s'.owned = s.owned := by
    rw [Program.owned, Program.owned, hhands, hworkers]
  refine ⟨howned ▸ hs.nodup, fun fd => ?_, hmain, fun i pc hi => ?_⟩
  · rw [howned, hs.mem_owned, hconn]
  · rw [hworkers] at hi
    exact hs.worker_of_read hread hepoll hi

theorem eq_of_getElem?_set {workers : List WorkerPc} {j : ℕ} {pc' : WorkerPc}
    (h : (workers.set i pc')[j]? = some pc) : j = i ∧ pc = pc' ∨ workers[j]? = some pc := by
  rw [List.getElem?_set] at h
  split_ifs at h with hij hlen
  · exact .inl ⟨hij.symm, (Option.some.inj h).symm⟩
  · exact .inr h

theorem Inv.moveWorker (hs : Inv s) {pc' : WorkerPc} (hi : s.workers[i]? = some pc)
    (hevent : pc'.event? = pc.event?) (hpc : s.WorkerSound i pc') : Inv (s.moveWorker i pc') where
  nodup := by
    rw [Program.owned, Program.moveWorker, Holders.filterMap_set_of_eq hi hevent]
    exact hs.nodup
  mem_owned fd := by
    rw [Program.owned, Program.moveWorker, Holders.filterMap_set_of_eq hi hevent]
    exact hs.mem_owned fd
  main := hs.main
  worker j q hj := by
    obtain ⟨rfl, rfl⟩ | hj := eq_of_getElem?_set hj
    · exact hpc
    · exact hs.worker j q hj

theorem Inv.consumed_of_worker (hs : Inv s) (hi : s.workers[i]? = some pc)
    (hevent : pc.event? = some fd) : s.conn fd = .consumed :=
  (hs.mem_owned fd).1 (List.mem_append_right _
    (List.mem_filterMap.2 ⟨pc, List.mem_of_getElem? hi, hevent⟩))

theorem resetOneShot_workers (s : Program) (epollFd fd : ℕ) :
    (s.resetOneShot epollFd fd).workers = s.workers := by
  unfold Program.resetOneShot
  split_ifs <;> rfl

theorem Inv.resetOneShot_eq (hs : Inv s) {sockFd epollFd : ℕ}
    (hi : s.workers[i]? = some (.rearming event sockFd epollFd)) :
    sockFd = event ∧ s.resetOneShot epollFd event = s.setConn event .armed := by
  obtain ⟨hsock, hepoll⟩ := hs.worker _ _ hi
  have hopen := hs.consumed_of_worker hi rfl
  exact ⟨hsock, if_pos ⟨hepoll, by simp [hopen]⟩⟩

/-- A worker comes to the end of the function: its event has no owner any more. -/
theorem owned_perm_of_ending (hi : s.workers[i]? = some pc) (hevent : pc.event? = some fd) :
    s.owned.Perm (fd :: (s.moveWorker i .ending).owned) :=
  ((Holders.filterMap_set_perm hi hevent rfl).append_left _).trans List.perm_middle

/-- A worker comes to the end of the function, and its connection is no longer consumed. -/
theorem Inv.leave (hs : Inv s) {st : ConnState} (hi : s.workers[i]? = some pc)
    (hevent : pc.event? = some fd) (hst : st ≠ .consumed) :
    Inv ((s.setConn fd st).moveWorker i .ending) := by
  have hperm : s.owned.Perm (fd :: ((s.setConn fd st).moveWorker i .ending).owned) :=
    owned_perm_of_ending hi hevent
  obtain ⟨hfd, hnodup⟩ := List.nodup_cons.1 (hperm.nodup_iff.1 hs.nodup)
  refine ⟨hnodup, fun fd' => ?_, hs.main, fun j q hj => ?_⟩
  · change _ ↔ Function.update s.conn fd st fd' = .consumed
    by_cases h : fd' = fd
    · subst h
      rw [Function.update_self]
      exact iff_of_false hfd hst
    · rw [Function.update_of_ne h, ← hs.mem_owned, hperm.mem_iff, List.mem_cons]
      exact (or_iff_right h).symm
  · obtain ⟨rfl, rfl⟩ | hj := eq_of_getElem?_set hj
    · trivial
    · exact hs.worker j q hj

theorem Inv.wait (hs : Inv s) (hpc : s.pc = .waiting) (hreports : s.Reports events) :
    Inv { s.consume (events.filterMap Event.client?) with pc := .handling events } := by
  obtain ⟨-, hnodup, harmed⟩ := hreports
  have howned : s.owned = s.workers.filterMap WorkerPc.event? := by
    rw [Program.owned, hpc]
    rfl
  refine ⟨List.nodup_append.2 ⟨hnodup, howned ▸ hs.nodup, ?_⟩, fun fd => ?_, trivial,
    fun i pc hi => ?_⟩
  · -- what is reported was armed, what a worker has was consumed
    rintro fd hfd _ hworker rfl
    have hconsumed := (hs.mem_owned fd).1 (howned ▸ hworker)
    rw [harmed fd hfd] at hconsumed
    cases hconsumed
  · change fd ∈ events.filterMap Event.client? ++ s.workers.filterMap WorkerPc.event? ↔
      (if fd ∈ events.filterMap Event.client? then _ else _) = _
    rw [List.mem_append, ← howned, hs.mem_owned]
    split_ifs with hfd
    · exact iff_of_true (.inl hfd) rfl
    · exact or_iff_right hfd
  · exact hs.worker_of_read (hs.isReading_eq (by rw [hpc]; rfl)) rfl hi

theorem Inv.accept (hs : Inv s) (hpc : s.pc = .handling (.listen :: events))
    (hclosed : s.conn fd = .closed) : Inv { s.setConn fd .armed with pc := .handling events } := by
  refine hs.of_main (hs.isReading_eq (by rw [hpc]; rfl)) (by rw [hpc]; rfl) rfl rfl
    (fun fd' => ?_) trivial
  change Function.update s.conn fd .armed fd' = .consumed ↔ _
  by_cases h : fd' = fd
  · subst h
    rw [Function.update_self, hclosed]
    simp
  · rw [Function.update_of_ne h]

/-- The new worker has the address of a record that holds its descriptor. -/
theorem Inv.create (hs : Inv s) (hpc : s.pc = .creating fd events) :
    Inv { s with
      pc := .leaving (some s.workers.length) events
      workers := s.workers ++ [.starting fd] } := by
  have hperm : s.owned.Perm ({ s with
      pc := .leaving (some s.workers.length) events
      workers := s.workers ++ [.starting fd] } : Program).owned := by
    rw [Program.owned, Program.owned, hpc, List.filterMap_append, ← List.append_assoc]
    exact (List.perm_append_singleton fd _).symm
  refine ⟨hperm.nodup_iff.1 hs.nodup, fun fd' => ?_, trivial, fun i pc hi => ?_⟩
  · rw [← hperm.mem_iff, hs.mem_owned]
  · by_cases hlt : i < s.workers.length
    · rw [List.getElem?_append_left hlt] at hi
      exact hs.worker_of_read (hs.isReading_eq (by rw [hpc]; rfl)) rfl hi
    · rw [List.getElem?_append_right (Nat.not_lt.1 hlt), List.getElem?_singleton] at hi
      split_ifs at hi with hzero
      obtain rfl := Option.some.inj hi
      have hmain := hs.main
      rw [Program.MainSound, hpc] at hmain
      have hlen : i = s.workers.length := by omega
      exact ⟨congrArg some hlen.symm, hmain⟩

theorem Inv.step (hs : Inv s) (h : Moves s a s') (hhands : HandsOver s a) : Inv s' := by
  cases h with
  | wait hpc hreports => exact hs.wait hpc hreports
  | fail hpc | acceptNone hpc | again hpc =>
    exact hs.of_main (hs.isReading_eq (by rw [hpc]; rfl)) (by rw [hpc]; rfl) rfl rfl
      (fun _ => .rfl) trivial
  | accept hpc hclosed => exact hs.accept hpc hclosed
  | writeEpoll hpc =>
    exact hs.of_main (hs.isReading_eq (by rw [hpc]; rfl)) (by rw [hpc]; rfl) rfl rfl
      (fun _ => .rfl) rfl
  | @writeSock fd events hpc =>
    have hepoll : s.record.epollFd = s.epollFd := by
      have hmain := hs.main
      rwa [Program.MainSound, hpc] at hmain
    exact hs.of_main (hs.isReading_eq (by rw [hpc]; rfl)) (by rw [hpc]; rfl) rfl rfl
      (fun _ => .rfl) (congrArg (Fds.mk · fd) hepoll)
  | create hpc =>
    obtain rfl := hhands
    exact hs.create hpc
  | leave hpc => exact hs.of_main hhands (by rw [hpc]; rfl) rfl rfl (fun _ => .rfl) trivial
  | other hpc => exact absurd hhands id
  | undefined => exact absurd hhands id
  | recv => exact hs
  | readSock hi hyields =>
    obtain ⟨hreader, hrecord⟩ := hs.worker _ _ hi
    have hsock := (hyields hreader).trans (congrArg Fds.sockFd hrecord)
    exact hs.moveWorker hi rfl ⟨hreader, hsock, congrArg Fds.epollFd hrecord⟩
  | readEpoll hi hyields =>
    obtain ⟨hreader, hsock, hepoll⟩ := hs.worker _ _ hi
    exact hs.moveWorker hi rfl ⟨hsock, (hyields hreader).trans hepoll⟩
  | recvClose hi =>
    have hpc := hs.worker _ _ hi
    exact hs.moveWorker hi rfl hpc.1
  | recvRearm hi _ =>
    have hpc := hs.worker _ _ hi
    exact hs.moveWorker hi rfl hpc
  | close hi =>
    obtain rfl := hs.worker _ _ hi
    exact hs.leave hi rfl (by decide)
  | rearm hi =>
    obtain ⟨rfl, hreset⟩ := hs.resetOneShot_eq hi
    rw [hreset]
    exact hs.leave hi rfl (by decide)
  | finish hi => exact hs.moveWorker hi rfl trivial

theorem Inv.of_run {ops : List Action} (hs : Inv s) (h : handOverLTS.Run s ops s') : Inv s' :=
  h.invariant hs fun _ _ _ hu hstep => hu.step (moves_of_next hstep.1) hstep.2

/-! ### A worker and its connection -/

theorem serves_of_getElem? (hi : s.workers[i]? = some pc) (hevent : pc.event? = some fd) :
    s.Serves i fd := by
  rw [Program.Serves, hi]
  exact hevent

theorem exists_pc_of_serves (h : s.Serves i fd) :
    ∃ pc, s.workers[i]? = some pc ∧ pc.event? = some fd := Option.bind_eq_some_iff.1 h

theorem not_serves_moveWorker (hi : s.workers[i]? = some pc) :
    ¬ (s.moveWorker i .ending).Serves i fd := by
  rw [Program.Serves, Program.moveWorker,
    List.getElem?_set_self (List.getElem?_eq_some_iff.1 hi).1]
  rintro ⟨⟩

theorem Program.Serves.moveWorker (h : s.Serves i fd) {j : ℕ} {pc' : WorkerPc}
    (hj : s.workers[j]? = some pc) (hevent : pc'.event? = pc.event?) :
    (s.moveWorker j pc').Serves i fd := by
  by_cases hij : i = j
  · subst hij
    obtain ⟨q, hi, hq⟩ := exists_pc_of_serves h
    obtain rfl := Option.some.inj (hi.symm.trans hj)
    refine serves_of_getElem? ?_ (hevent.trans hq)
    exact List.getElem?_set_self (List.getElem?_eq_some_iff.1 hi).1
  · rw [Program.Serves, Program.moveWorker, List.getElem?_set_ne (Ne.symm hij)]
    exact h

theorem eq_of_not_serves (h : s.Serves i fd) {j : ℕ} {pc' : WorkerPc}
    (hnot : ¬ (s.moveWorker j pc').Serves i fd) : j = i := by
  by_contra hij
  apply hnot
  rw [Program.Serves, Program.moveWorker, List.getElem?_set_ne hij]
  exact h

/-- A worker stops serving its connection by closing it or arming it again. -/
theorem Inv.givesUp (hs : Inv s) (h : Moves s a s') (hhands : HandsOver s a)
    (hserves : s.Serves i fd) (hnot : ¬ s'.Serves i fd) : GivesUp i fd a s' := by
  obtain ⟨pc, hi, hevent⟩ := exists_pc_of_serves hserves
  cases h with
  | wait | fail | acceptNone | accept | writeEpoll | writeSock | leave | other | again | recv =>
    exact absurd hserves hnot
  | undefined => exact absurd hhands id
  | create =>
    obtain rfl := hhands
    refine absurd (serves_of_getElem? ?_ hevent) hnot
    exact (List.getElem?_append_left (List.getElem?_eq_some_iff.1 hi).1).trans hi
  | readSock hj | readEpoll hj | recvClose hj | recvRearm hj | finish hj =>
    exact absurd (Program.Serves.moveWorker hserves hj (by rfl)) hnot
  | close hj =>
    obtain rfl := eq_of_not_serves (s := s.setConn _ _) hserves hnot
    obtain rfl := Option.some.inj (hi.symm.trans hj)
    obtain rfl := Option.some.inj hevent
    obtain rfl := hs.worker _ _ hi
    exact .close (Function.update_self ..)
  | @rearm j event sockFd epollFd hj =>
    have hserves' : (s.resetOneShot epollFd sockFd).Serves i fd := by
      rwa [Program.Serves, resetOneShot_workers]
    obtain rfl := eq_of_not_serves hserves' hnot
    obtain rfl := Option.some.inj (hi.symm.trans hj)
    obtain rfl := Option.some.inj hevent
    obtain ⟨rfl, hreset⟩ := hs.resetOneShot_eq hi
    rw [hreset]
    exact .rearm (Function.update_self ..)

theorem moveWorker_getElem? {pc' : WorkerPc} (hi : s.workers[i]? = some pc) :
    (s.moveWorker i pc').workers[i]? = some pc' :=
  List.getElem?_set_self (List.getElem?_eq_some_iff.1 hi).1

theorem moveWorker_moveWorker (s : Program) (i : ℕ) (pc pc' : WorkerPc) :
    (s.moveWorker i pc).moveWorker i pc' = s.moveWorker i pc' := by
  simp only [Program.moveWorker, List.set_set]

theorem exists_not_serves_of_step (hstep : handOverLTS.step s a s')
    (h : ∃ u, handOverLTS.Reachable s' u ∧ ¬ u.Serves i fd) :
    ∃ u, handOverLTS.Reachable s u ∧ ¬ u.Serves i fd := by
  obtain ⟨u, ⟨ops, hrun⟩, hu⟩ := h
  exact ⟨u, ⟨_, .cons hstep hrun⟩, hu⟩

theorem exists_not_serves_of_closing {sockFd : ℕ}
    (hi : s.workers[i]? = some (.closing event sockFd)) :
    ∃ u, handOverLTS.Reachable s u ∧ ¬ u.Serves i fd := by
  have hstep : handOverLTS.step s (.close i) ((s.setConn sockFd .closed).moveWorker i .ending) :=
    ⟨by simp [oneShotLTS, LTS.ofNext, next, hi], trivial⟩
  exact exists_not_serves_of_step hstep
    ⟨_, .refl _, not_serves_moveWorker (s := s.setConn sockFd .closed) hi⟩

theorem exists_not_serves_of_receiving {sockFd epollFd : ℕ}
    (hi : s.workers[i]? = some (.receiving event sockFd epollFd)) :
    ∃ u, handOverLTS.Reachable s u ∧ ¬ u.Serves i fd := by
  have hstep : handOverLTS.step s (.recv i 0 false) (s.moveWorker i (.closing event sockFd)) :=
    ⟨by simp [oneShotLTS, LTS.ofNext, next, hi], trivial⟩
  exact exists_not_serves_of_step hstep (exists_not_serves_of_closing (moveWorker_getElem? hi))

theorem exists_not_serves_of_haveSock {sockFd : ℕ}
    (hi : s.workers[i]? = some (.haveSock event sockFd)) :
    ∃ u, handOverLTS.Reachable s u ∧ ¬ u.Serves i fd := by
  have hstep : handOverLTS.step s (.readEpoll i s.record.epollFd)
      (s.moveWorker i (.receiving event sockFd s.record.epollFd)) :=
    ⟨by simp [oneShotLTS, LTS.ofNext, next, hi, Program.Yields], trivial⟩
  exact exists_not_serves_of_step hstep (exists_not_serves_of_receiving (moveWorker_getElem? hi))

/-- A worker can come to the end: its peer closes the connection. -/
theorem exists_not_serves (hi : s.workers[i]? = some pc) (hevent : pc.event? = some event) :
    ∃ u, handOverLTS.Reachable s u ∧ ¬ u.Serves i fd := by
  cases pc with
  | starting event' =>
    have hstep : handOverLTS.step s (.readSock i s.record.sockFd)
        (s.moveWorker i (.haveSock event' s.record.sockFd)) :=
      ⟨by simp [oneShotLTS, LTS.ofNext, next, hi, Program.Yields], trivial⟩
    exact exists_not_serves_of_step hstep (exists_not_serves_of_haveSock (moveWorker_getElem? hi))
  | haveSock => exact exists_not_serves_of_haveSock hi
  | receiving => exact exists_not_serves_of_receiving hi
  | closing => exact exists_not_serves_of_closing hi
  | rearming event' sockFd epollFd =>
    have hstep : handOverLTS.step s (.rearm i)
        ((s.resetOneShot epollFd sockFd).moveWorker i .ending) :=
      ⟨by simp [oneShotLTS, LTS.ofNext, next, hi], trivial⟩
    have hi' : (s.resetOneShot epollFd sockFd).workers[i]? = _ :=
      (congrArg (·[i]?) (resetOneShot_workers s epollFd sockFd)).trans hi
    exact exists_not_serves_of_step hstep ⟨_, .refl _, not_serves_moveWorker hi'⟩
  | ending | done => cases hevent

theorem Inv.finishes (hs : Inv s) (hi : s.workers[i]? = some pc) (hevent : pc.event? = some fd) :
    s.Finishes i fd where
  only _ _ _ _ hrun hstep hserves hnot :=
    (hs.of_run hrun).givesUp (moves_of_next hstep.1) hstep.2 hserves hnot
  can := exists_not_serves hi hevent

/-! ### The connections are served -/

theorem WorkerSound.sockFd_eq {sockFd : ℕ} (hpc : s.WorkerSound i pc)
    (hevent : pc.event? = some event) (hsock : pc.sockFd? = some sockFd) : sockFd = event := by
  cases pc with
  | starting | ending | done => cases hsock
  | closing =>
    obtain rfl := Option.some.inj hevent
    obtain rfl := Option.some.inj hsock
    exact hpc
  | receiving | rearming =>
    obtain rfl := Option.some.inj hevent
    obtain rfl := Option.some.inj hsock
    exact hpc.1
  | haveSock =>
    obtain rfl := Option.some.inj hevent
    obtain rfl := Option.some.inj hsock
    exact hpc.2.1

theorem exists_event {sockFd : ℕ} (hsock : pc.sockFd? = some sockFd) :
    ∃ event, pc.event? = some event := by
  cases pc with
  | starting | ending | done => cases hsock
  | haveSock | receiving | closing | rearming => exact ⟨_, rfl⟩

theorem Inv.served (hs : Inv s) : Served s where
  own pc hpc event sockFd hevent hsock := by
    obtain ⟨i, hi⟩ := List.mem_iff_getElem?.1 hpc
    exact WorkerSound.sockFd_eq (hs.worker i pc hi) hevent hsock
  exclusive i j pc pc' sockFd hi hj hsock hsock' := by
    -- what two workers serve is what they were created for
    obtain ⟨event, hevent⟩ := exists_event hsock
    obtain ⟨event', hevent'⟩ := exists_event hsock'
    obtain rfl := WorkerSound.sockFd_eq (hs.worker i pc hi) hevent hsock
    obtain rfl := WorkerSound.sockFd_eq (hs.worker j pc' hj) hevent' hsock'
    exact Holders.eq_of_held (List.nodup_append.1 hs.nodup).2.1 hi hj hevent hevent'
  manned fd hfd := by
    refine (List.mem_append.1 ((hs.mem_owned fd).2 hfd)).imp_right fun hworker => ?_
    obtain ⟨pc, hpc, hevent⟩ := List.mem_filterMap.1 hworker
    obtain ⟨i, hi⟩ := List.mem_iff_getElem?.1 hpc
    exact ⟨i, serves_of_getElem? hi hevent, hs.finishes hi hevent⟩

/-- `main` lets an event go that no worker was created for. -/
theorem owned_perm_of_dropped (hhands : s.pc.hands = fd :: s'.pc.hands)
    (hworkers : s'.workers = s.workers) : s.owned.Perm (fd :: s'.owned) := by
  rw [Program.owned, Program.owned, hhands, hworkers]
  exact .refl _

/-- An event is consumed, and nobody has it any more. -/
theorem Inv.not_served_of_dropped (hs : Inv s) (hperm : s.owned.Perm (fd :: s'.owned))
    (hconn : s'.conn = s.conn) : ¬ Served s' := by
  intro hserved
  have hfd : fd ∉ s'.owned := (List.nodup_cons.1 (hperm.nodup_iff.1 hs.nodup)).1
  have hconsumed : s'.conn fd = .consumed := by
    rw [hconn, ← hs.mem_owned, hperm.mem_iff]
    exact List.mem_cons_self
  obtain h | ⟨i, hserves, -⟩ := hserved.manned fd hconsumed
  · exact hfd (List.mem_append_left _ h)
  · obtain ⟨pc, hi, hevent⟩ := exists_pc_of_serves hserves
    exact hfd (List.mem_append_right _
      (List.mem_filterMap.2 ⟨pc, List.mem_of_getElem? hi, hevent⟩))

/-- A worker that reads `sock_fd` from a record that is gone may read another descriptor. -/
theorem exists_not_served_of_starting (hi : s.workers[i]? = some (.starting event))
    (hreader : s.pc.reader = none) : ∃ ops w, oneShotLTS.Run s ops w ∧ ¬ Served w := by
  have hstep : oneShotLTS.step s (.readSock i (event + 1))
      (s.moveWorker i (.haveSock event (event + 1))) := by
    simp [oneShotLTS, LTS.ofNext, next, hi, Program.Yields, hreader]
  refine ⟨_, _, .single hstep, fun hserved => ?_⟩
  have hown := hserved.own (.haveSock event (event + 1))
    (List.mem_set (List.getElem?_eq_some_iff.1 hi).1 _) event _ rfl rfl
  exact absurd hown (Nat.succ_ne_self event)

/-- A worker that reads `epoll_fd` from a record that is gone may re-arm nothing. -/
theorem Inv.exists_not_served_of_haveSock (hs : Inv s) {sockFd : ℕ} (hconn : s'.conn = s.conn)
    (howned : s'.owned = s.owned) (hi : s'.workers[i]? = some (.haveSock event sockFd))
    (hreader : s'.pc.reader = none) : ∃ ops w, oneShotLTS.Run s' ops w ∧ ¬ Served w := by
  have hread : oneShotLTS.step s' (.readEpoll i (s'.epollFd + 1))
      (s'.moveWorker i (.receiving event sockFd (s'.epollFd + 1))) := by
    simp [oneShotLTS, LTS.ofNext, next, hi, Program.Yields, hreader]
  have hrecv : oneShotLTS.step (s'.moveWorker i (.receiving event sockFd (s'.epollFd + 1)))
      (.recv i (-1) true) (s'.moveWorker i (.rearming event sockFd (s'.epollFd + 1))) := by
    simp [oneShotLTS, LTS.ofNext, next, moveWorker_getElem? hi, moveWorker_moveWorker]
  -- `EPOLL_CTL_MOD` fails on a descriptor that is not `epoll_fd`
  have hrearm : oneShotLTS.step (s'.moveWorker i (.rearming event sockFd (s'.epollFd + 1)))
      (.rearm i) (s'.moveWorker i .ending) := by
    have hmod : (s'.moveWorker i (.rearming event sockFd (s'.epollFd + 1))).resetOneShot
        (s'.epollFd + 1) sockFd = s'.moveWorker i (.rearming event sockFd (s'.epollFd + 1)) :=
      if_neg fun h => Nat.succ_ne_self _ h.1
    simp only [oneShotLTS, LTS.ofNext, next, moveWorker_getElem? hi, hmod, moveWorker_moveWorker]
  have hperm : s.owned.Perm (event :: (s'.moveWorker i .ending).owned) :=
    howned ▸ owned_perm_of_ending hi rfl
  exact ⟨_, _, .cons hread (.cons hrecv (.single hrearm)), hs.not_served_of_dropped hperm hconn⟩

/-- After a step that does not hand over, a connection is not served, or the worker that has still
to read the record may read anything. -/
theorem Inv.exists_not_served (hs : Inv s) (h : Moves s a s') (hhands : ¬ HandsOver s a)
    (hdefined : ∀ i w, a ≠ .undefined i w) : ∃ ops w, oneShotLTS.Run s' ops w ∧ ¬ Served w := by
  cases h with
  | @other fd events hpc =>
    have hhand : s.pc.hands = fd :: events.filterMap Event.client? := by
      rw [hpc]
      rfl
    exact ⟨[], _, .nil, hs.not_served_of_dropped (owned_perm_of_dropped hhand rfl) rfl⟩
  | @create fd events ok hpc =>
    have hhand : s.pc.hands = fd :: events.filterMap Event.client? := by
      rw [hpc]
      rfl
    obtain rfl := Bool.eq_false_iff.2 hhands
    exact ⟨[], _, .nil, hs.not_served_of_dropped (owned_perm_of_dropped hhand rfl) rfl⟩
  | @leave worker events hpc =>
    simp only [HandsOver, not_forall] at hhands
    obtain ⟨pc, hworker, hpc'⟩ := hhands
    obtain ⟨i, hi⟩ := List.mem_iff_getElem?.1 hworker
    cases pc with
    | starting event => exact exists_not_served_of_starting hi rfl
    | haveSock event sockFd =>
      refine hs.exists_not_served_of_haveSock rfl ?_ hi rfl
      rw [Program.owned, Program.owned, hpc]
      rfl
    | receiving | closing | rearming | ending | done => exact absurd rfl hpc'
  | undefined => exact absurd rfl (hdefined _ _)
  | wait | fail | acceptNone | accept | writeEpoll | writeSock | again | readSock | readEpoll
  | recvClose | recvRearm | recv | close | rearm | finish => exact absurd trivial hhands

theorem not_served_of_twice {record : Fds} {epollFd : ℕ} {conn : ℕ → ConnState} {pc : MainPc} :
    ¬ Served ⟨epollFd, conn, record, pc, [.receiving 0 0 epollFd, .receiving 0 0 epollFd]⟩ :=
  fun h => absurd (h.exclusive 0 1 _ _ 0 rfl rfl rfl rfl) Nat.zero_ne_one

/-- As long as the steps hand over, the connections are served; after a step that does not, they
need not be, and the end of `worker` may be such a step. -/
theorem served_of_handsOver (epollFd : ℕ) (record : Fds) (ops : List Action) (s : Program)
    (h : handOverLTS.Run (.init epollFd record) ops s) :
    Served s ∧
      (∀ a u, oneShotLTS.step s a u → ¬ HandsOver s a → (∀ i w, a ≠ .undefined i w) →
        ∃ ops' w, oneShotLTS.Run u ops' w ∧ ¬ Served w) ∧
      ∀ i : ℕ, s.workers[i]? = some .ending →
        ∃ w, oneShotLTS.step s (.undefined i w) w ∧ ¬ Served w := by
  have hs := (inv_init epollFd record).of_run h
  refine ⟨hs.served, fun a u hstep => hs.exists_not_served (moves_of_next hstep), fun i hi => ?_⟩
  exact ⟨⟨epollFd, s.conn, record, .left, _⟩, by simp [oneShotLTS, LTS.ofNext, next, hi],
    not_served_of_twice⟩

/-- Two clients: the block of each record is left when its worker has read both descriptors; the
first worker arms its connection again while the second one receives. -/
theorem served_of_handsOver_two : ∃ s, handOverLTS.Run (.init 3 ⟨0, 0⟩)
    [.wait [.listen], .accept (some 5), .again, .wait [.listen], .accept (some 6), .again,
      .wait [.client 5 true, .client 6 true], .writeEpoll, .writeSock, .create true,
      .readSock 0 5, .readEpoll 0 3, .leave, .writeEpoll, .recv 0 20 false, .writeSock,
      .create true, .readSock 1 6, .recv 0 (-1) true, .readEpoll 1 3, .leave, .rearm 0,
      .recv 1 7 false, .finish 0, .again, .wait [.client 5 true]] s ∧ Served s := by
  have hrun : handOverLTS.Run (.init 3 ⟨0, 0⟩)
      [.wait [.listen], .accept (some 5), .again, .wait [.listen], .accept (some 6), .again,
        .wait [.client 5 true, .client 6 true], .writeEpoll, .writeSock, .create true,
        .readSock 0 5, .readEpoll 0 3, .leave, .writeEpoll, .recv 0 20 false, .writeSock,
        .create true, .readSock 1 6, .recv 0 (-1) true, .readEpoll 1 3, .leave, .rearm 0,
        .recv 1 7 false, .finish 0, .again, .wait [.client 5 true]] _ :=
    LTS.run_guard_of_foldlM rfl
  exact ⟨_, hrun, (served_of_handsOver _ _ _ _ hrun).1⟩

/-- The first worker reads when the record of the second event is in the place of its own. -/
theorem not_served_two :
    ¬ ∀ epollFd record ops s, oneShotLTS.Run (.init epollFd record) ops s → Served s := by
  intro hall
  have hserved := hall 3 ⟨0, 0⟩ [.wait [.listen], .accept (some 5), .again, .wait [.listen],
    .accept (some 6), .again, .wait [.client 5 true, .client 6 true], .writeEpoll, .writeSock,
    .create true, .leave, .writeEpoll, .writeSock, .readSock 0 6, .create true, .readSock 1 6] _
    (LTS.run_of_foldlM rfl)
  exact absurd (hserved.exclusive 0 1 _ _ 6 rfl rfl rfl rfl) Nat.zero_ne_one

end OneShot

end LinuxServer
