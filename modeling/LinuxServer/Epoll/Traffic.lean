import LinuxServer.Epoll.OneShot
import LinuxServer.Epoll.Printed

/-!
# The bytes of a one-shot connection

The program of `epoll_one_shot.cc` together with what arrives for its connections.

* `Sock`: what the kernel keeps for a connection, with all that arrived and was received on it.
* `Traffic`, `Traffic.next`: the program and its sockets.  Bytes may arrive at any time,
  `epoll_wait` reports what is ready, a `recv` returns what is there, and `EPOLL_CTL_MOD` looks
  whether there is something to read at that time.
* `Sound t`: a connection that is armed is ready exactly when there is something to read.

`attended_of_run`: no wake-up is lost, whatever the order in which bytes arrive and the threads
run, as long as the steps hand over.
-/

namespace LinuxServer

namespace OneShot

open Epoll (Event maxEventNumber)

/-- A connection, as the kernel keeps it. -/
structure Sock where
  /-- The bytes to receive. -/
  inbox : List Byte
  peerClosed : Bool
  /-- Its event is in the ready list of `epoll_fd`. -/
  ready : Bool
  /-- All bytes that arrived. -/
  arrived : List Byte
  /-- All bytes that calls of `recv` returned. -/
  received : List Byte
  deriving DecidableEq, Repr

def Sock.new : Sock := ⟨[], false, false, [], []⟩

/-- A `recv` would not block. -/
def Sock.Readable (k : Sock) : Prop := k.inbox ≠ [] ∨ k.peerClosed = true

instance (k : Sock) : Decidable k.Readable := inferInstanceAs (Decidable (_ ∨ _))

/-- The next `n` bytes are received. -/
def Sock.take (k : Sock) (n : ℕ) : Sock :=
  { k with inbox := k.inbox.drop n, received := k.received ++ k.inbox.take n }

/-- Bytes arrive. -/
def Sock.push (k : Sock) (bytes : List Byte) : Sock :=
  { k with inbox := k.inbox ++ bytes, arrived := k.arrived ++ bytes }

/-- The end of the stream arrives. -/
def Sock.shut (k : Sock) : Sock := { k with peerClosed := true }

/-- The event is in the ready list or not. -/
def Sock.setReady (k : Sock) (ready : Bool) : Sock := { k with ready := ready }

/-- The socket after a `recv` that returns `ret`, with `errno` equal to `EAGAIN` or not, if it can
return this. -/
def Sock.recv (k : Sock) (ret : ℤ) (eagain : Bool) : Option Sock :=
  if ret = 0 then
    if k.inbox = [] ∧ k.peerClosed = true then some k else none
  else if ret < 0 then
    -- an error other than `EAGAIN` leaves what there is to receive
    if eagain = true ∧ k.Readable then none else some k
  else if ret.toNat ≤ bufferSize - 1 ∧ ret.toNat ≤ k.inbox.length then some (k.take ret.toNat)
  else none

/-- The program and its sockets. -/
structure Traffic where
  program : Program
  sock : ℕ → Sock

/-- The steps. -/
inductive Step where
  /-- A step of a thread. -/
  | prog (a : Action)
  /-- Bytes arrive. -/
  | arrive (fd : ℕ) (bytes : List Byte)
  /-- The end of the stream arrives. -/
  | shut (fd : ℕ)

/-- Before the first `epoll_wait`. -/
def Traffic.init (epollFd : ℕ) (record : Fds) : Traffic := ⟨.init epollFd record, fun _ => .new⟩

/-- Something arrived: the event is ready if it is asked for. -/
def Traffic.wake (t : Traffic) (fd : ℕ) (k : Sock) : Traffic :=
  let ready := k.ready || decide (t.program.conn fd = .armed)
  { t with sock := Function.update t.sock fd (k.setReady ready) }

/-- `epoll_wait` reports the events of the descriptors. -/
def report (sock : ℕ → Sock) (fds : List ℕ) (fd : ℕ) : Sock :=
  if fd ∈ fds then (sock fd).setReady false else sock fd

/-- `EPOLL_CTL_MOD` of the descriptor. -/
def rearm (sock : ℕ → Sock) (fd : ℕ) : ℕ → Sock :=
  Function.update sock fd ((sock fd).setReady (decide (sock fd).Readable))

/-- `epoll_wait` can report the event. -/
def Traffic.CanReport (t : Traffic) : Event → Prop
  | .listen => True
  | .client fd epollIn => epollIn = true ∧ (t.sock fd).ready = true

instance (t : Traffic) : DecidablePred t.CanReport := fun e =>
  match e with
  | .listen => .isTrue trivial
  | .client _ _ => inferInstanceAs (Decidable (_ ∧ _))

/-- The sockets after a step of the program, if the kernel can answer so. -/
def Traffic.kernel (t : Traffic) : Action → Option (ℕ → Sock)
  | .wait events =>
    if events ≠ [] ∧ ∀ e ∈ events, t.CanReport e then
      some (report t.sock (events.filterMap Event.client?))
    else none
  | .accept (some fd) => some (Function.update t.sock fd .new)
  | .recv i ret eagain => match t.program.workers[i]? with
    | some (.receiving _ sockFd _) =>
      if t.program.conn sockFd = .closed then
        if ret < 0 ∧ eagain = false then some t.sock else none
      else ((t.sock sockFd).recv ret eagain).map (Function.update t.sock sockFd)
    | _ => none
  | .rearm i => match t.program.workers[i]? with
    | some (.rearming _ sockFd epollFd) =>
      if epollFd = t.program.epollFd ∧ t.program.conn sockFd ≠ .closed then
        some (OneShot.rearm t.sock sockFd)
      else some t.sock
    | _ => none
  | .fail | .accept none | .writeEpoll | .writeSock | .create _ | .leave | .other | .again
  | .readSock _ _ | .readEpoll _ _ | .close _ | .finish _ | .undefined _ _ => some t.sock

/-- One step, if it is possible. -/
def Traffic.next (t : Traffic) : Step → Option Traffic
  | .prog a =>
    match OneShot.next t.program a, t.kernel a with
    | some program, some sock => some ⟨program, sock⟩
    | _, _ => none
  | .arrive fd bytes =>
    if t.program.conn fd ≠ .closed ∧ (t.sock fd).peerClosed = false ∧ bytes ≠ [] then
      some (t.wake fd ((t.sock fd).push bytes))
    else none
  | .shut fd =>
    if t.program.conn fd ≠ .closed ∧ (t.sock fd).peerClosed = false then
      some (t.wake fd (t.sock fd).shut)
    else none

/-- The runs of the program with what arrives. -/
def trafficLTS : LTS Traffic Step := .ofNext Traffic.next

/-- A step of the program hands over. -/
def Traffic.HandsOver (t : Traffic) : Step → Prop
  | .prog a => OneShot.HandsOver t.program a
  | .arrive _ _ | .shut _ => True

instance (t : Traffic) (l : Step) : Decidable (t.HandsOver l) :=
  match l with
  | .prog a => inferInstanceAs (Decidable (OneShot.HandsOver t.program a))
  | .arrive _ _ | .shut _ => .isTrue trivial

/-- The events that `main` has still to handle. -/
def MainPc.events : MainPc → List Event
  | .handling events | .writingSock _ events | .creating _ events | .leaving _ events => events
  | .waiting | .left => []

/-- What holds of a connection and its socket. -/
structure SockSound (t : Traffic) (fd : ℕ) : Prop where
  arrived : (t.sock fd).arrived = (t.sock fd).received ++ (t.sock fd).inbox
  armed : t.program.conn fd = .armed → ((t.sock fd).ready = true ↔ (t.sock fd).Readable)
  closed : t.program.conn fd = .closed → (t.sock fd).inbox = []
  closing : ∀ event, .closing event fd ∈ t.program.workers →
    (t.sock fd).inbox = [] ∧ (t.sock fd).peerClosed = true

/-- The program serves its connections, and the sockets are as it takes them to be. -/
structure Sound (t : Traffic) : Prop where
  inv : Inv t.program
  sock : ∀ fd, SockSound t fd
  flagged : ∀ fd, .client fd false ∉ t.program.pc.events

section Sockets

variable {k : Sock} {ready : Bool} {sock : ℕ → Sock} {fd fd' : ℕ} {fds : List ℕ}

@[simp] theorem Sock.inbox_setReady : (k.setReady ready).inbox = k.inbox := rfl

@[simp] theorem Sock.peerClosed_setReady : (k.setReady ready).peerClosed = k.peerClosed := rfl

@[simp] theorem Sock.ready_setReady : (k.setReady ready).ready = ready := rfl

@[simp] theorem Sock.arrived_setReady : (k.setReady ready).arrived = k.arrived := rfl

@[simp] theorem Sock.received_setReady : (k.setReady ready).received = k.received := rfl

@[simp] theorem Sock.readable_setReady : (k.setReady ready).Readable ↔ k.Readable := .rfl

theorem report_of_mem (h : fd ∈ fds) : report sock fds fd = (sock fd).setReady false := if_pos h

theorem report_of_notMem (h : fd ∉ fds) : report sock fds fd = sock fd := if_neg h

theorem rearm_self : rearm sock fd fd = (sock fd).setReady (decide (sock fd).Readable) :=
  Function.update_self ..

theorem rearm_of_ne (h : fd' ≠ fd) : rearm sock fd fd' = sock fd' := Function.update_of_ne h ..

end Sockets

variable {t t' : Traffic} {l : Step} {a : Action} {p : Program} {sock : ℕ → Sock} {fd : ℕ}
  {k : Sock}

/-! ### What a step does -/

theorem next_prog_eq_some (h : t.next (.prog a) = some t') :
    Moves t.program a t'.program ∧ t.kernel a = some t'.sock := by
  simp only [Traffic.next] at h
  split at h
  · rename_i program sock hprogram hsock
    obtain rfl := Option.some.inj h
    exact ⟨moves_of_next hprogram, hsock⟩
  · cases h

theorem Sock.recv_zero {eagain : Bool} {k' : Sock} (h : k.recv 0 eagain = some k') :
    k' = k ∧ k.inbox = [] ∧ k.peerClosed = true := by
  rw [Sock.recv, if_pos rfl] at h
  split_ifs at h with hend
  exact ⟨(Option.some.inj h).symm, hend⟩

theorem Sock.recv_again {ret : ℤ} {k' : Sock} (hret : ret < 0) (h : k.recv ret true = some k') :
    k' = k ∧ ¬ k.Readable := by
  rw [Sock.recv, if_neg hret.ne, if_pos hret] at h
  split_ifs at h with hread
  exact ⟨(Option.some.inj h).symm, fun hk => hread ⟨rfl, hk⟩⟩

theorem Sock.recv_data {ret : ℤ} {eagain : Bool} {k' : Sock} (hret : 0 < ret)
    (h : k.recv ret eagain = some k') : ∃ n, 0 < n ∧ n ≤ k.inbox.length ∧ k' = k.take n := by
  rw [Sock.recv, if_neg hret.ne', if_neg hret.le.not_gt] at h
  split_ifs at h with hlen
  exact ⟨ret.toNat, Int.pos_iff_toNat_pos.1 hret, hlen.2, (Option.some.inj h).symm⟩

theorem Sock.recv_failed {ret : ℤ} {k' : Sock} (hret : ret < 0)
    (h : k.recv ret false = some k') : k' = k := by
  rw [Sock.recv, if_neg hret.ne, if_pos hret, if_neg (by simp)] at h
  exact (Option.some.inj h).symm

/-! ### The invariant -/

theorem sound_init (epollFd : ℕ) (record : Fds) : Sound (.init epollFd record) where
  inv := inv_init epollFd record
  sock _ := ⟨rfl, by rintro ⟨⟩, fun _ => rfl, fun _ h => absurd h List.not_mem_nil⟩
  flagged _ := List.not_mem_nil

theorem SockSound.of_same (h : SockSound t fd) (hconn : p.conn fd = t.program.conn fd)
    (hsock : sock fd = t.sock fd)
    (hclosing : ∀ event, .closing event fd ∈ p.workers → .closing event fd ∈ t.program.workers) :
    SockSound ⟨p, sock⟩ fd where
  arrived := by
    rw [show (Traffic.mk p sock).sock fd = t.sock fd from hsock]
    exact h.arrived
  armed harmed := by
    rw [show (Traffic.mk p sock).sock fd = t.sock fd from hsock]
    exact h.armed (hconn ▸ harmed)
  closed hclosed := by
    rw [show (Traffic.mk p sock).sock fd = t.sock fd from hsock]
    exact h.closed (hconn ▸ hclosed)
  closing event hevent := by
    rw [show (Traffic.mk p sock).sock fd = t.sock fd from hsock]
    exact h.closing event (hclosing event hevent)

theorem closing_of_moveWorker {i event : ℕ} {pc : WorkerPc} (hpc : ∀ event, pc ≠ .closing event fd)
    (h : .closing event fd ∈ (p.moveWorker i pc).workers) : .closing event fd ∈ p.workers := by
  obtain h | h := List.mem_or_eq_of_mem_set h
  · exact h
  · exact absurd h.symm (hpc event)

/-- The worker's connection is open, so the kernel answers for it. -/
theorem Sound.kernel_recv (h : Sound t) {i event sockFd epollFd : ℕ} {ret : ℤ} {eagain : Bool}
    (hi : t.program.workers[i]? = some (.receiving event sockFd epollFd))
    (hk : t.kernel (.recv i ret eagain) = some sock) :
    ∃ k, (t.sock sockFd).recv ret eagain = some k ∧ sock = Function.update t.sock sockFd k := by
  have hopen : t.program.conn sockFd ≠ .closed := by
    obtain ⟨rfl, -⟩ := h.inv.worker _ _ hi
    rw [h.inv.consumed_of_worker hi rfl]
    nofun
  simp only [Traffic.kernel, hi, if_neg hopen] at hk
  obtain ⟨k, hrecv, rfl⟩ := Option.map_eq_some_iff.1 hk
  exact ⟨k, hrecv, rfl⟩

theorem Sound.wait (h : Sound t) {events : List Event} (hpc : t.program.pc = .waiting)
    (hreports : t.program.Reports events) (hcan : ∀ e ∈ events, t.CanReport e) :
    Sound ⟨{ t.program.consume (events.filterMap Event.client?) with pc := .handling events },
      report t.sock (events.filterMap Event.client?)⟩ := by
  refine ⟨h.inv.wait hpc hreports, fun fd => ?_, fun fd hfd => ?_⟩
  · by_cases hfd : fd ∈ events.filterMap Event.client?
    · -- its event is consumed
      have hconn : ({ t.program.consume (events.filterMap Event.client?) with
          pc := .handling events } : Program).conn fd = .consumed := if_pos hfd
      refine ⟨?_, fun hst => ?_, fun hst => ?_, fun event hevent => ?_⟩
      · simpa [report_of_mem hfd] using (h.sock fd).arrived
      · cases hconn.symm.trans hst
      · cases hconn.symm.trans hst
      · simpa [report_of_mem hfd] using (h.sock fd).closing event hevent
    · exact (h.sock fd).of_same (if_neg hfd) (report_of_notMem hfd) fun _ => id
  · cases (hcan _ hfd).1

theorem Sound.accept (h : Sound t) {events : List Event}
    (hpc : t.program.pc = .handling (.listen :: events)) (hclosed : t.program.conn fd = .closed) :
    Sound ⟨{ t.program.setConn fd .armed with pc := .handling events },
      Function.update t.sock fd .new⟩ := by
  refine ⟨h.inv.accept hpc hclosed, fun fd' => ?_, fun fd' hfd => ?_⟩
  · by_cases hfd : fd' = fd
    · subst hfd
      refine ⟨?_, fun _ => ?_, fun _ => ?_, fun event hevent => ?_⟩
      · simp [Sock.new]
      · simp [Sock.new, Sock.Readable]
      · simp [Sock.new]
      · -- a worker that closes it would own it
        obtain ⟨i, hi⟩ := List.mem_iff_getElem?.1 hevent
        obtain rfl := h.inv.worker _ _ hi
        cases hclosed.symm.trans (h.inv.consumed_of_worker hi rfl)
    · exact (h.sock fd').of_same (Function.update_of_ne hfd ..) (Function.update_of_ne hfd ..)
        fun _ => id
  · exact h.flagged fd' (by rw [hpc]; exact List.mem_cons_of_mem _ hfd)

theorem Sound.moveWorker (h : Sound t) {i : ℕ} {pc : WorkerPc}
    (hinv : Inv (t.program.moveWorker i pc))
    (hclosing : ∀ event fd, pc = .closing event fd →
      (t.sock fd).inbox = [] ∧ (t.sock fd).peerClosed = true) :
    Sound ⟨t.program.moveWorker i pc, t.sock⟩ := by
  refine ⟨hinv, fun fd => ?_, h.flagged⟩
  by_cases hpc : ∃ event, pc = .closing event fd
  · obtain ⟨event, rfl⟩ := hpc
    exact ⟨(h.sock fd).arrived, (h.sock fd).armed, (h.sock fd).closed,
      fun _ _ => hclosing event fd rfl⟩
  · exact (h.sock fd).of_same rfl rfl fun _ =>
      closing_of_moveWorker fun event hevent => hpc ⟨event, hevent⟩

theorem Sound.recv_data (h : Sound t) {n : ℕ} (hpos : 0 < n) (hn : n ≤ (t.sock fd).inbox.length)
    (hfd : t.program.conn fd = .consumed) :
    Sound ⟨t.program, Function.update t.sock fd ((t.sock fd).take n)⟩ := by
  refine ⟨h.inv, fun fd' => ?_, h.flagged⟩
  by_cases hfd' : fd' = fd
  · subst hfd'
    refine ⟨?_, fun hst => ?_, fun hst => ?_, fun event hevent => ?_⟩
    · simp only [Function.update_self, Sock.take, List.append_assoc, List.take_append_drop]
      exact (h.sock fd').arrived
    · cases hst.symm.trans hfd
    · cases hst.symm.trans hfd
    · have hnil := ((h.sock fd').closing event hevent).1
      rw [hnil] at hn
      exact absurd hpos (Nat.not_lt.2 hn)
  · exact (h.sock fd').of_same rfl (Function.update_of_ne hfd' ..) fun _ => id

theorem Sound.close (h : Sound t) {i event : ℕ}
    (hi : t.program.workers[i]? = some (.closing event fd))
    (hinv : Inv ((t.program.setConn fd .closed).moveWorker i .ending)) :
    Sound ⟨(t.program.setConn fd .closed).moveWorker i .ending, t.sock⟩ := by
  refine ⟨hinv, fun fd' => ?_, h.flagged⟩
  by_cases hfd : fd' = fd
  · subst hfd
    have hend := (h.sock fd').closing event (List.mem_of_getElem? hi)
    have hconn : ((t.program.setConn fd' .closed).moveWorker i .ending).conn fd' = .closed :=
      Function.update_self ..
    refine ⟨(h.sock fd').arrived, fun hst => ?_, fun _ => hend.1, fun _ _ => hend⟩
    cases hconn.symm.trans hst
  · refine (h.sock fd').of_same (Function.update_of_ne hfd ..) rfl fun event' hmem => ?_
    exact closing_of_moveWorker (p := t.program.setConn fd .closed) (by rintro _ ⟨⟩) hmem

/-- `EPOLL_CTL_MOD` sees what arrived since the last `recv`. -/
theorem Sound.rearm (h : Sound t) {i : ℕ} (hopen : t.program.conn fd = .consumed)
    (hinv : Inv ((t.program.setConn fd .armed).moveWorker i .ending)) :
    Sound ⟨(t.program.setConn fd .armed).moveWorker i .ending, OneShot.rearm t.sock fd⟩ := by
  refine ⟨hinv, fun fd' => ?_, h.flagged⟩
  have hback : ∀ event,
      .closing event fd' ∈ ((t.program.setConn fd .armed).moveWorker i .ending).workers →
        .closing event fd' ∈ t.program.workers := fun event hmem =>
    closing_of_moveWorker (p := t.program.setConn fd .armed) (by rintro _ ⟨⟩) hmem
  by_cases hfd : fd' = fd
  · subst hfd
    have hconn : ((t.program.setConn fd' .armed).moveWorker i .ending).conn fd' = .armed :=
      Function.update_self ..
    refine ⟨?_, fun _ => ?_, fun hst => ?_, fun event hevent => ?_⟩
    · simpa [rearm_self] using (h.sock fd').arrived
    · simp [rearm_self]
    · cases hconn.symm.trans hst
    · simpa [rearm_self] using (h.sock fd').closing event (hback event hevent)
  · exact (h.sock fd').of_same (Function.update_of_ne hfd ..) (rearm_of_ne hfd) hback

theorem Sound.prog (h : Sound t) (hm : Moves t.program a p) (hk : t.kernel a = some sock)
    (hhands : OneShot.HandsOver t.program a) : Sound ⟨p, sock⟩ := by
  have hinv := h.inv.step hm hhands
  cases hm with
  | wait hpc hreports =>
    simp only [Traffic.kernel] at hk
    split_ifs at hk with hcan
    obtain rfl := Option.some.inj hk
    exact h.wait hpc hreports hcan.2
  | accept hpc hclosed =>
    obtain rfl := Option.some.inj hk
    exact h.accept hpc hclosed
  | fail hpc =>
    obtain rfl := Option.some.inj hk
    exact ⟨hinv, fun fd => (h.sock fd).of_same rfl rfl fun _ => id, fun _ => List.not_mem_nil⟩
  | again hpc =>
    obtain rfl := Option.some.inj hk
    exact ⟨hinv, fun fd => (h.sock fd).of_same rfl rfl fun _ => id, fun _ => List.not_mem_nil⟩
  | acceptNone hpc | other hpc | writeEpoll hpc =>
    obtain rfl := Option.some.inj hk
    refine ⟨hinv, fun fd => (h.sock fd).of_same rfl rfl fun _ => id, fun fd hfd => ?_⟩
    exact h.flagged fd (by rw [hpc]; exact List.mem_cons_of_mem _ hfd)
  | writeSock hpc | leave hpc =>
    obtain rfl := Option.some.inj hk
    refine ⟨hinv, fun fd => (h.sock fd).of_same rfl rfl fun _ => id, fun fd hfd => ?_⟩
    exact h.flagged fd (by rw [hpc]; exact hfd)
  | create hpc =>
    obtain rfl := Option.some.inj hk
    obtain rfl := hhands
    refine ⟨hinv, fun fd => (h.sock fd).of_same rfl rfl fun event hevent => ?_, fun fd hfd => ?_⟩
    · obtain hevent | hevent := List.mem_append.1 hevent
      · exact hevent
      · cases List.mem_singleton.1 hevent
    · exact h.flagged fd (by rw [hpc]; exact hfd)
  | readSock | readEpoll | finish =>
    obtain rfl := Option.some.inj hk
    exact h.moveWorker hinv (by rintro _ _ ⟨⟩)
  | undefined => exact absurd hhands id
  | recvClose hi =>
    obtain ⟨k, hrecv, rfl⟩ := h.kernel_recv hi hk
    obtain ⟨rfl, hend⟩ := Sock.recv_zero hrecv
    rw [Function.update_eq_self]
    refine h.moveWorker hinv ?_
    rintro _ _ ⟨⟩
    exact hend
  | recvRearm hi hret =>
    obtain ⟨k, hrecv, rfl⟩ := h.kernel_recv hi hk
    obtain ⟨rfl, -⟩ := Sock.recv_again hret hrecv
    rw [Function.update_eq_self]
    exact h.moveWorker hinv (by rintro _ _ ⟨⟩)
  | @recv i event sockFd epollFd ret eagain hi hne hagain =>
    obtain ⟨k, hrecv, rfl⟩ := h.kernel_recv hi hk
    rcases lt_or_gt_of_ne hne with hneg | hpos
    · obtain rfl : eagain = false := by simpa [hneg] using hagain
      obtain rfl := Sock.recv_failed hneg hrecv
      rw [Function.update_eq_self]
      exact h
    · obtain ⟨n, hn, hlen, rfl⟩ := Sock.recv_data hpos hrecv
      obtain ⟨rfl, -⟩ := h.inv.worker _ _ hi
      exact h.recv_data hn hlen (h.inv.consumed_of_worker hi rfl)
  | close hi =>
    obtain rfl := Option.some.inj hk
    exact h.close hi hinv
  | @rearm i event sockFd epollFd hi =>
    have hpc := h.inv.worker _ _ hi
    obtain ⟨rfl, hreset⟩ := h.inv.resetOneShot_eq hi
    have hopen := h.inv.consumed_of_worker hi rfl
    obtain rfl := hpc.2
    rw [hreset] at hinv ⊢
    simp only [Traffic.kernel, hi, hopen] at hk
    obtain rfl := Option.some.inj hk
    exact h.rearm hopen hinv

theorem Sound.wake (h : Sound t) (hopen : t.program.conn fd ≠ .closed)
    (hpeer : (t.sock fd).peerClosed = false) (hread : k.Readable)
    (hk : k.arrived = k.received ++ k.inbox) : Sound (t.wake fd k) := by
  refine ⟨h.inv, fun fd' => ?_, h.flagged⟩
  by_cases hfd : fd' = fd
  · subst hfd
    refine ⟨?_, fun hst => ?_, fun hst => absurd hst hopen, fun event hevent => ?_⟩
    · simpa [Traffic.wake] using hk
    · have hst : t.program.conn fd' = .armed := hst
      simpa [Traffic.wake, hst] using hread
    · cases hpeer.symm.trans ((h.sock fd').closing event hevent).2
  · exact (h.sock fd').of_same rfl (Function.update_of_ne hfd ..) fun _ => id

theorem Sound.step (h : Sound t) (hs : trafficLTS.step t l t') (hhands : t.HandsOver l) :
    Sound t' := by
  have hs : t.next l = some t' := hs
  cases l with
  | prog a =>
    obtain ⟨hm, hk⟩ := next_prog_eq_some hs
    exact h.prog hm hk hhands
  | arrive fd bytes =>
    simp only [Traffic.next] at hs
    split_ifs at hs with hcan
    obtain rfl := Option.some.inj hs
    refine h.wake hcan.1 hcan.2.1 (.inl ?_) ?_
    · exact List.append_ne_nil_of_right_ne_nil _ hcan.2.2
    · rw [Sock.push, (h.sock fd).arrived, List.append_assoc]
  | shut fd =>
    simp only [Traffic.next] at hs
    split_ifs at hs with hcan
    obtain rfl := Option.some.inj hs
    exact h.wake hcan.1 hcan.2 (.inr rfl) (h.sock fd).arrived

theorem sound_of_run {epollFd : ℕ} {record : Fds} {steps : List Step}
    (hrun : (trafficLTS.guard Traffic.HandsOver).Run (.init epollFd record) steps t) : Sound t :=
  hrun.invariant (sound_init epollFd record) fun _ _ _ hu hs => hu.step hs.1 hs.2

/-! ### No wake-up is lost -/

/-- Somebody will look at the connection: `epoll_wait` reports it, or `main` has its event, or a
worker serves it. -/
def Traffic.Attended (t : Traffic) (fd : ℕ) : Prop :=
  t.program.conn fd = .armed ∧ (t.sock fd).ready = true ∨ fd ∈ t.program.pc.hands ∨
    ∃ pc ∈ t.program.workers, pc.event? = some fd ∧ ∀ sockFd, pc.sockFd? = some sockFd → sockFd = fd

/-- **No wake-up is lost.**  As long as the steps hand over, whatever the order in which bytes
arrive and the threads run: what was received is the beginning of what arrived; a connection that
was closed is received to the end; and an open connection with something to read is attended. -/
theorem attended_of_run {epollFd : ℕ} {record : Fds} {steps : List Step}
    (hrun : (trafficLTS.guard Traffic.HandsOver).Run (.init epollFd record) steps t) (fd : ℕ) :
    (t.sock fd).arrived = (t.sock fd).received ++ (t.sock fd).inbox ∧
      (t.program.conn fd = .closed → (t.sock fd).received = (t.sock fd).arrived) ∧
      (t.program.conn fd ≠ .closed → (t.sock fd).Readable → t.Attended fd) := by
  have h := sound_of_run hrun
  refine ⟨(h.sock fd).arrived, fun hclosed => ?_, fun hopen hread => ?_⟩
  · rw [(h.sock fd).arrived, (h.sock fd).closed hclosed, List.append_nil]
  · cases hst : t.program.conn fd with
    | closed => exact absurd hst hopen
    | armed => exact .inl ⟨hst, ((h.sock fd).armed hst).2 hread⟩
    | consumed =>
      obtain hmain | hworker := List.mem_append.1 ((h.inv.mem_owned fd).2 hst)
      · exact .inr (.inl hmain)
      · obtain ⟨pc, hpc, hevent⟩ := List.mem_filterMap.1 hworker
        obtain ⟨i, hi⟩ := List.mem_iff_getElem?.1 hpc
        exact .inr (.inr ⟨pc, hpc, hevent, fun sockFd hsock =>
          WorkerSound.sockFd_eq (h.inv.worker i pc hi) hevent hsock⟩)

/-- Two bytes arrive between the `recv` that fails with `EAGAIN` and `reset_one_shot`. -/
theorem attended_of_run_again : ∃ t, (trafficLTS.guard Traffic.HandsOver).Run (.init 3 ⟨0, 0⟩)
    [.prog (.wait [.listen]), .prog (.accept (some 5)), .arrive 5 [104], .prog .again,
      .prog (.wait [.client 5 true]), .prog .writeEpoll, .prog .writeSock, .prog (.create true),
      .prog (.readSock 0 5), .prog (.readEpoll 0 3), .prog .leave, .prog .again,
      .prog (.recv 0 1 false), .prog (.recv 0 (-1) true), .arrive 5 [105, 33],
      .prog (.rearm 0)] t ∧
    (t.sock 5).received = [104] ∧ (t.sock 5).inbox = [105, 33] ∧ t.Attended 5 := by
  have hrun : (trafficLTS.guard Traffic.HandsOver).Run (.init 3 ⟨0, 0⟩)
      [.prog (.wait [.listen]), .prog (.accept (some 5)), .arrive 5 [104], .prog .again,
        .prog (.wait [.client 5 true]), .prog .writeEpoll, .prog .writeSock, .prog (.create true),
        .prog (.readSock 0 5), .prog (.readEpoll 0 3), .prog .leave, .prog .again,
        .prog (.recv 0 1 false), .prog (.recv 0 (-1) true), .arrive 5 [105, 33],
        .prog (.rearm 0)] _ :=
    LTS.run_guard_of_foldlM rfl
  refine ⟨_, hrun, rfl, rfl, (attended_of_run hrun 5).2.2 ?_ (.inl ?_)⟩
  · nofun
  · nofun

end OneShot

end LinuxServer
