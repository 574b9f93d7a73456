import LinuxServer.Epoll.Handlers
import LinuxServer.LTS.Basic
import Mathlib.Logic.Function.Basic

/-!
# The event loop and its descriptors

The whole program of `epoll.cc`: the loop of `main`, with `et` or `lt` as the handler that it calls,
the descriptor table of the process, and what arrives for the connections.  A descriptor that is
closed may be given to the next connection.

* `Conn`: what the kernel keeps for a connection, with all that arrived and was received on it.
* `File`: what a descriptor refers to.
* `State`, `next`: the program and its connections.  Bytes, the end of a stream and connections may
  come in between any two calls.

`run_handled`: a handler does for an event what `et` and `lt` do by themselves, when nothing
arrives while it runs.
-/

namespace LinuxServer

namespace EventLoop

open Epoll (Event RecvResult bufferSize maxEventNumber)

/-- The handler that `main` calls. -/
inductive Handler where
  | lt
  | et
  deriving DecidableEq, Repr

/-- A connection, as the kernel keeps it. -/
structure Conn where
  /-- The bytes to receive. -/
  inbox : List Byte
  peerClosed : Bool
  /-- A `recv` has failed, and not with `EAGAIN`. -/
  failed : Bool
  closed : Bool
  /-- All bytes that arrived. -/
  arrived : List Byte
  /-- All bytes that calls of `recv` returned. -/
  received : List Byte
  deriving DecidableEq, Repr

def Conn.new : Conn := ⟨[], false, false, false, [], []⟩

/-- A `recv` would not block. -/
def Conn.Readable (k : Conn) : Prop := k.inbox ≠ [] ∨ k.peerClosed = true

instance (k : Conn) : Decidable k.Readable := inferInstanceAs (Decidable (_ ∨ _))

/-- All is received that will ever arrive. -/
def Conn.Ended (k : Conn) : Prop := k.inbox = [] ∧ k.peerClosed = true

instance (k : Conn) : Decidable k.Ended := inferInstanceAs (Decidable (_ ∧ _))

/-- The next `n` bytes are received. -/
def Conn.take (k : Conn) (n : ℕ) : Conn :=
  { k with inbox := k.inbox.drop n, received := k.received ++ k.inbox.take n }

/-- Bytes arrive. -/
def Conn.push (k : Conn) (bytes : List Byte) : Conn :=
  { k with inbox := k.inbox ++ bytes, arrived := k.arrived ++ bytes }

/-- The end of the stream arrives. -/
def Conn.shut (k : Conn) : Conn := { k with peerClosed := true }

def Conn.fail (k : Conn) : Conn := { k with failed := true }

def Conn.close (k : Conn) : Conn := { k with closed := true }

/-- The connection after a `recv` that returns the result, if it can. -/
def Conn.recv (k : Conn) : RecvResult → Option Conn
  | .data [] => if k.Ended then some k else none
  | .data bytes =>
    if bytes <+: k.inbox ∧ bytes.length ≤ bufferSize - 1 then some (k.take bytes.length) else none
  | .failed true => if k.Readable then none else some k
  | .failed false => some k.fail

/-- What a descriptor refers to. -/
inductive File where
  /-- It is not open. -/
  | none
  /-- The socket of `listen_fd`. -/
  | listen
  /-- `epoll_fd`, and what else the process has open. -/
  | other
  /-- The connection that was accepted as number `n`. -/
  | conn (n : ℕ)
  deriving DecidableEq, Repr

/-- Where the program is. -/
inductive Pc where
  /-- At `epoll_wait`. -/
  | waiting
  /-- In the loop over the events, with those still to handle. -/
  | handling (events : List Event)
  /-- At `recv` for a descriptor, with the events behind. -/
  | receiving (fd : ℕ) (events : List Event)
  /-- At `close` for a descriptor; the loop of `et` goes on behind it or not. -/
  | closing (fd : ℕ) (goesOn : Bool) (events : List Event)
  /-- The loop of `main` is left; at `close(listen_fd)`. -/
  | left
  /-- `main` has returned. -/
  | returned
  deriving DecidableEq, Repr

/-- `main` is in its loop. -/
def Pc.InLoop : Pc → Prop
  | .waiting | .handling _ | .receiving _ _ | .closing _ _ _ => True
  | .left | .returned => False

/-- The program, its descriptors and the connections that it has accepted. -/
structure State where
  pc : Pc
  /-- `listen_fd` of `main` -/
  listenFd : ℕ
  file : ℕ → File
  conn : ℕ → Conn
  accepted : ℕ

/-- The steps. -/
inductive Action where
  /-- `epoll_wait` reports the events. -/
  | wait (events : List Event)
  /-- `epoll_wait` fails. -/
  | fail
  /-- `accept` returns a descriptor or fails; `add_fd` registers it. -/
  | accept (connectionFd : Option ℕ)
  /-- The handler comes to a descriptor to read. -/
  | read
  | recv (result : RecvResult)
  | close
  /-- `something else happened` -/
  | other
  /-- The handler returns. -/
  | ret
  /-- `main` closes `listen_fd` and returns. -/
  | exit
  /-- Bytes arrive. -/
  | arrive (n : ℕ) (bytes : List Byte)
  /-- The end of the stream arrives. -/
  | shut (n : ℕ)
  deriving DecidableEq, Repr

/-- Before the first `epoll_wait`, with the other descriptors that are open. -/
def State.init (listenFd : ℕ) (isOpen : ℕ → Bool) : State where
  pc := .waiting
  listenFd := listenFd
  file fd := if fd = listenFd then .listen else if isOpen fd then .other else .none
  conn _ := .new
  accepted := 0

/-- The descriptor refers to a connection of which `P` holds. -/
def State.Has (s : State) (fd : ℕ) (P : Conn → Prop) : Prop :=
  ∃ n, s.file fd = .conn n ∧ P (s.conn n)

/-- `epoll_wait` can report an event with the `EPOLLIN` flag set or not; connections are
level-triggered. -/
def State.ReadyFor (s : State) (epollIn : Bool) : File → Prop
  | .conn n => epollIn = true → (s.conn n).Readable
  | .none | .listen | .other => False

instance (s : State) (epollIn : Bool) : DecidablePred (s.ReadyFor epollIn) := fun file =>
  match file with
  | .conn n => inferInstanceAs (Decidable (epollIn = true → (s.conn n).Readable))
  | .none | .listen | .other => inferInstanceAs (Decidable False)

/-- `epoll_wait` can report the event. -/
def State.CanReport (s : State) : Event → Prop
  | .listen => True
  | .client fd epollIn => s.ReadyFor epollIn (s.file fd)

instance (s : State) : DecidablePred s.CanReport := fun e =>
  match e with
  | .listen => .isTrue trivial
  | .client fd epollIn => inferInstanceAs (Decidable (s.ReadyFor epollIn (s.file fd)))

/-- The descriptors of connections among the events. -/
def clients (events : List Event) : List ℕ := events.filterMap Event.client?

/-- `epoll_wait` may report the events, each descriptor once. -/
def State.Reports (s : State) (events : List Event) : Prop :=
  events ≠ [] ∧ events.length ≤ maxEventNumber ∧ (clients events).Nodup ∧
    ∀ e ∈ events, s.CanReport e

instance (s : State) (events : List Event) : Decidable (s.Reports events) :=
  inferInstanceAs (Decidable (_ ∧ _ ∧ _ ∧ _))

/-- A connection is accepted and gets the descriptor. -/
def State.openConn (s : State) (fd : ℕ) : State :=
  { s with
    file := Function.update s.file fd (.conn s.accepted)
    conn := Function.update s.conn s.accepted .new
    accepted := s.accepted + 1 }

/-- The connections after a `recv` on the descriptor, if it can return the result. -/
def State.recv (s : State) (fd : ℕ) (result : RecvResult) : Option (ℕ → Conn) :=
  match s.file fd with
  | .conn n => ((s.conn n).recv result).map (Function.update s.conn n)
  -- `EBADF`, `ENOTSOCK`
  | .none | .listen | .other => if result = .failed false then some s.conn else none

/-- `close` -/
def State.close (s : State) (fd : ℕ) : State :=
  { s with
    file := Function.update s.file fd .none
    conn := match s.file fd with
      | .conn n => Function.update s.conn n (s.conn n).close
      | .none | .listen | .other => s.conn }

/-- Where the handler goes on behind `recv`. -/
def afterRecv (h : Handler) (fd : ℕ) (events : List Event) (result : RecvResult) : Pc :=
  match h with
  | .lt => if result.ret ≤ 0 then .closing fd false events else .handling events
  | .et =>
    if result.ret < 0 then
      if result = .failed true then .handling events else .closing fd false events
    else if result.ret = 0 then .closing fd true events
    else .receiving fd events

def State.goTo (s : State) (pc : Pc) : State := { s with pc := pc }

def State.setConn (s : State) (n : ℕ) (k : Conn) : State :=
  { s with conn := Function.update s.conn n k }

/-- One step, if it is possible. -/
def next (h : Handler) (s : State) : Action → Option State
  | .wait events => match s.pc with
    | .waiting => if s.Reports events then some (s.goTo (.handling events)) else none
    | _ => none
  | .fail => match s.pc with
    | .waiting => some (s.goTo .left)
    | _ => none
  | .accept connectionFd => match s.pc with
    | .handling (.listen :: events) => match connectionFd with
      | some fd =>
        if s.file fd = .none then some ((s.openConn fd).goTo (.handling events)) else none
      -- `add_fd` is called with `-1`, and so fail `epoll_ctl` and `fcntl`
      | none => some (s.goTo (.handling events))
    | _ => none
  | .read => match s.pc with
    | .handling (.client fd true :: events) => some (s.goTo (.receiving fd events))
    | _ => none
  | .recv result => match s.pc with
    | .receiving fd events => match s.recv fd result with
      | some conn => some { s with pc := afterRecv h fd events result, conn := conn }
      | none => none
    | _ => none
  | .close => match s.pc with
    | .closing fd goesOn events =>
      some ((s.close fd).goTo (if goesOn then .receiving fd events else .handling events))
    | _ => none
  | .other => match s.pc with
    | .handling (.client _ false :: events) => some (s.goTo (.handling events))
    | _ => none
  | .ret => match s.pc with
    | .handling [] => some (s.goTo .waiting)
    | _ => none
  | .exit => match s.pc with
    | .left => some ((s.close s.listenFd).goTo .returned)
    | _ => none
  | .arrive n bytes =>
    if n < s.accepted ∧ (s.conn n).closed = false ∧ (s.conn n).peerClosed = false ∧ bytes ≠ [] then
      some (s.setConn n ((s.conn n).push bytes))
    else none
  | .shut n =>
    if n < s.accepted ∧ (s.conn n).closed = false ∧ (s.conn n).peerClosed = false then
      some (s.setConn n (s.conn n).shut)
    else none

/-- The runs of the program, with what arrives in between. -/
def loopLTS (h : Handler) : LTS State Action := .ofNext (next h)

/-- What a step can do. -/
inductive Moves (h : Handler) (s : State) : Action → State → Prop where
  | wait {events} : s.pc = .waiting → s.Reports events →
      Moves h s (.wait events) (s.goTo (.handling events))
  | fail : s.pc = .waiting → Moves h s .fail (s.goTo .left)
  | accept {fd events} : s.pc = .handling (.listen :: events) → s.file fd = .none →
      Moves h s (.accept (some fd)) ((s.openConn fd).goTo (.handling events))
  | acceptNone {events} : s.pc = .handling (.listen :: events) →
      Moves h s (.accept none) (s.goTo (.handling events))
  | read {fd events} : s.pc = .handling (.client fd true :: events) →
      Moves h s .read (s.goTo (.receiving fd events))
  | recv {fd n events result k} : s.pc = .receiving fd events → s.file fd = .conn n →
      (s.conn n).recv result = some k →
      Moves h s (.recv result) ((s.setConn n k).goTo (afterRecv h fd events result))
  | recvBad {fd events} : s.pc = .receiving fd events → (∀ n, s.file fd ≠ .conn n) →
      Moves h s (.recv (.failed false)) (s.goTo (.closing fd false events))
  | close {fd goesOn events} : s.pc = .closing fd goesOn events →
      Moves h s .close
        ((s.close fd).goTo (if goesOn then .receiving fd events else .handling events))
  | other {fd events} : s.pc = .handling (.client fd false :: events) →
      Moves h s .other (s.goTo (.handling events))
  | ret : s.pc = .handling [] → Moves h s .ret (s.goTo .waiting)
  | exit : s.pc = .left → Moves h s .exit ((s.close s.listenFd).goTo .returned)
  | arrive {n bytes} : n < s.accepted → (s.conn n).closed = false → (s.conn n).peerClosed = false →
      bytes ≠ [] → Moves h s (.arrive n bytes) (s.setConn n ((s.conn n).push bytes))
  | shut {n} : n < s.accepted → (s.conn n).closed = false → (s.conn n).peerClosed = false →
      Moves h s (.shut n) (s.setConn n (s.conn n).shut)

variable {h : Handler} {s s' : State} {a : Action} {events : List Event} {fd n : ℕ} {k k' : Conn}
  {result : RecvResult}

theorem moves_of_next (hs : next h s a = some s') : Moves h s a s' := by
  cases a with
  | wait events =>
    simp only [next] at hs
    split at hs
    · rename_i hpc
      split_ifs at hs with hreports
      obtain rfl := Option.some.inj hs
      exact .wait hpc hreports
    · cases hs
  | accept connectionFd =>
    simp only [next] at hs
    split at hs
    · rename_i hpc
      cases connectionFd with
      | some fd =>
        dsimp only at hs
        split_ifs at hs with hfd
        obtain rfl := Option.some.inj hs
        exact .accept hpc hfd
      | none =>
        obtain rfl := Option.some.inj hs
        exact .acceptNone hpc
    · cases hs
  | recv result =>
    simp only [next] at hs
    split at hs
    · rename_i fd events hpc
      split at hs
      · rename_i conn hrecv
        obtain rfl := Option.some.inj hs
        cases hfile : s.file fd with
        | conn n =>
          simp only [State.recv, hfile] at hrecv
          obtain ⟨k, hk, rfl⟩ := Option.map_eq_some_iff.1 hrecv
          exact .recv hpc hfile hk
        | none | listen | other =>
          simp only [State.recv, hfile] at hrecv
          split_ifs at hrecv with hresult
          obtain rfl := Option.some.inj hrecv
          subst hresult
          have hafter : afterRecv h fd events (.failed false) = .closing fd false events := by
            cases h <;> rfl
          rw [hafter]
          exact .recvBad hpc (by rw [hfile]; nofun)
      · cases hs
    · cases hs
  | arrive n bytes =>
    simp only [next] at hs
    split_ifs at hs with hn
    obtain rfl := Option.some.inj hs
    exact .arrive hn.1 hn.2.1 hn.2.2.1 hn.2.2.2
  | shut n =>
    simp only [next] at hs
    split_ifs at hs with hn
    obtain rfl := Option.some.inj hs
    exact .shut hn.1 hn.2.1 hn.2.2
  | fail | read | close | other | ret | exit =>
    simp only [next] at hs
    split at hs
    · rename_i hpc
      obtain rfl := Option.some.inj hs
      constructor
      exact hpc
    · cases hs

/-! ### What a `recv` does -/

theorem Conn.recv_end (hk : k.recv (.data []) = some k') : k' = k ∧ k.Ended := by
  rw [Conn.recv] at hk
  split_ifs at hk with hend
  exact ⟨(Option.some.inj hk).symm, hend⟩

theorem Conn.recv_again (hk : k.recv (.failed true) = some k') : k' = k ∧ ¬ k.Readable := by
  rw [Conn.recv] at hk
  split_ifs at hk with hread
  exact ⟨(Option.some.inj hk).symm, hread⟩

theorem Conn.recv_failed (hk : k.recv (.failed false) = some k') : k' = k.fail :=
  (Option.some.inj hk).symm

theorem Conn.recv_data {bytes : List Byte} (hne : bytes ≠ [])
    (hk : k.recv (.data bytes) = some k') :
    k' = k.take bytes.length ∧ bytes <+: k.inbox := by
  obtain ⟨b, bytes, rfl⟩ := List.exists_cons_of_ne_nil hne
  rw [Conn.recv] at hk
  split_ifs at hk with hpre
  · exact ⟨(Option.some.inj hk).symm, hpre.1⟩
  · exact nofun

section Operations

@[simp] theorem State.file_goTo {pc : Pc} : (s.goTo pc).file = s.file := rfl

@[simp] theorem State.conn_goTo {pc : Pc} : (s.goTo pc).conn = s.conn := rfl

@[simp] theorem State.conn_setConn_self : (s.setConn n k).conn n = k := Function.update_self ..

theorem State.conn_setConn_of_ne {m : ℕ} (hm : m ≠ n) : (s.setConn n k).conn m = s.conn m :=
  Function.update_of_ne hm ..

@[simp] theorem State.file_close_self : (s.close fd).file fd = .none := Function.update_self ..

theorem State.file_close_of_ne {fd' : ℕ} (hfd : fd' ≠ fd) : (s.close fd).file fd' = s.file fd' :=
  Function.update_of_ne hfd ..

theorem State.conn_close_self (hfd : s.file fd = .conn n) :
    (s.close fd).conn n = (s.conn n).close := by
  simp [State.close, hfd]

theorem State.conn_close_of_ne {m : ℕ} (hm : s.file fd ≠ .conn m) :
    (s.close fd).conn m = s.conn m := by
  cases hfd : s.file fd with
  | none | listen | other => simp [State.close, hfd]
  | conn n =>
    have hne : m ≠ n := fun hmn => hm (hmn ▸ hfd)
    simp [State.close, hfd, hne]

end Operations

/-! ### The handlers -/

/-- The step that makes a call of a handler. -/
def actionOf : Epoll.Call → Action
  | .accept => .accept none
  | .recv _ result => .recv result
  | .close _ => .close

/-- The kernel has the descriptor in the state `c`. -/
def State.At (s : State) (fd : ℕ) (c : Epoll.Conn) : Prop :=
  if c.closed then s.file fd = .none
  else s.Has fd fun k => k.inbox = c.pending ∧ k.peerClosed = c.peerClosed

/-- What the handler does for a readable descriptor when nothing arrives. -/
def handled (h : Handler) (rounds fd : ℕ) (c : Epoll.Conn) : Epoll.Handled Epoll.Conn :=
  match h with
  | .lt => Epoll.ltEvent Epoll.socket (.client fd true, c)
  | .et => Epoll.etEvent Epoll.socket rounds (.client fd true, c)

theorem step_recv (hpc : s.pc = .receiving fd events) (hfd : s.file fd = .conn n)
    (hr : (s.conn n).recv result = some k) :
    (loopLTS h).step s (.recv result) ((s.setConn n k).goTo (afterRecv h fd events result)) := by
  show next h s (.recv result) = _
  simp only [next, hpc, State.recv, hfd, hr, Option.map_some]
  rfl

theorem step_recvBad (hpc : s.pc = .receiving fd events) (hfd : s.file fd = .none) :
    (loopLTS h).step s (.recv (.failed false)) (s.goTo (.closing fd false events)) := by
  show next h s (.recv (.failed false)) = _
  simp only [next, hpc, State.recv, hfd, if_true]
  cases h <;> rfl

theorem step_close (goesOn : Bool) (hpc : s.pc = .closing fd goesOn events) :
    (loopLTS h).step s .close
      ((s.close fd).goTo (if goesOn then .receiving fd events else .handling events)) := by
  show next h s .close = _
  simp only [next, hpc]

/-- `recv` fails on a descriptor that is closed, and is followed by `close`. -/
theorem run_closed (hpc : s.pc = .receiving fd events) (hfd : s.file fd = .none) :
    (loopLTS h).Run s [.recv (.failed false), .close]
      (((s.goTo (.closing fd false events)).close fd).goTo (.handling events)) :=
  .cons (step_recvBad hpc hfd) (.single (step_close false rfl))

theorem Conn.recv_take (hne : k.inbox ≠ []) :
    ∃ k', k.recv (.data (k.inbox.take (bufferSize - 1))) = some k' ∧
      k'.inbox = k.inbox.drop (bufferSize - 1) ∧ k'.peerClosed = k.peerClosed := by
  refine ⟨k.take (k.inbox.take (bufferSize - 1)).length, ?_, ?_, rfl⟩
  · have hpre := List.take_prefix (bufferSize - 1) k.inbox
    have hlen := List.length_take_le (bufferSize - 1) k.inbox
    obtain ⟨b, bytes, hbytes⟩ := List.exists_cons_of_ne_nil (Epoll.take_ne_nil hne)
    rw [hbytes] at hpre hlen ⊢
    exact if_pos ⟨hpre, hlen⟩
  · show k.inbox.drop (k.inbox.take (bufferSize - 1)).length = _
    have hsplit := List.take_append_drop (bufferSize - 1) k.inbox
    calc k.inbox.drop (k.inbox.take (bufferSize - 1)).length
        = (k.inbox.take (bufferSize - 1) ++ k.inbox.drop (bufferSize - 1)).drop
            (k.inbox.take (bufferSize - 1)).length := by rw [hsplit]
      _ = k.inbox.drop (bufferSize - 1) := List.drop_left

theorem afterRecv_data (fd : ℕ) (events : List Event) {bytes : List Byte} (hne : bytes ≠ []) :
    afterRecv .et fd events (.data bytes) = .receiving fd events ∧
      afterRecv .lt fd events (.data bytes) = .handling events := by
  have hpos : 0 < (RecvResult.data bytes).ret := Int.natCast_pos.2 (List.length_pos_iff.2 hne)
  exact ⟨by rw [afterRecv, if_neg hpos.le.not_gt, if_neg hpos.ne'],
    by rw [afterRecv, if_neg (not_le.2 hpos)]⟩

/-- `et` reads on as long as the loop of the program does. -/
theorem run_etLoop {c : Epoll.Conn} {rounds : ℕ} (hpc : s.pc = .receiving fd events)
    (hat : s.At fd c) (hret : (Epoll.etLoop Epoll.socket fd rounds c).returned = true) :
    ∃ s', (loopLTS .et).Run s ((Epoll.etLoop Epoll.socket fd rounds c).calls.map actionOf) s' ∧
      s'.pc = .handling events ∧ s'.At fd (Epoll.etLoop Epoll.socket fd rounds c).state := by
  induction rounds generalizing s c with
  | zero => cases hret
  | succ rounds ih =>
    obtain ⟨pending, peerClosed, closed⟩ := c
    cases closed with
    | true =>
      have hrecv : Epoll.socket.recv (bufferSize - 1) ⟨pending, peerClosed, true⟩ =
        (.failed false, ⟨pending, peerClosed, true⟩) := rfl
      rw [Epoll.etLoop_failed hrecv]
      exact ⟨_, run_closed hpc hat, rfl, State.file_close_self⟩
    | false =>
      obtain ⟨n, hn, rfl, rfl⟩ := hat
      by_cases hinbox : (s.conn n).inbox = []
      · rw [hinbox] at hret ⊢
        cases hpeer : (s.conn n).peerClosed with
        | false =>
          have hblock : (s.conn n).recv (.failed true) = some (s.conn n) := by
            simp [Conn.recv, Conn.Readable, hinbox, hpeer]
          have hrecv : Epoll.socket.recv (bufferSize - 1) ⟨[], false, false⟩ =
            (.failed true, ⟨[], false, false⟩) := rfl
          rw [Epoll.etLoop_again hrecv]
          refine ⟨_, .single (step_recv hpc hn hblock), rfl, n, hn, ?_⟩
          rw [State.conn_goTo, State.conn_setConn_self]
          exact ⟨hinbox, hpeer⟩
        | true =>
          -- the loop goes on behind `close`
          have hend : (s.conn n).recv (.data []) = some (s.conn n) := by
            simp [Conn.recv, Conn.Ended, hinbox, hpeer]
          have hrecv : Epoll.socket.recv (bufferSize - 1) ⟨[], true, false⟩ =
            (.data [], ⟨[], true, false⟩) := rfl
          rw [hpeer, Epoll.etLoop_end hrecv] at hret
          rw [Epoll.etLoop_end hrecv]
          set s₁ := (s.setConn n (s.conn n)).goTo (.closing fd true events)
          obtain ⟨s', hrun, hpc', hat'⟩ := ih (s := (s₁.close fd).goTo (.receiving fd events))
            (c := ⟨[], true, true⟩) rfl (State.file_close_self (s := s₁)) hret
          refine ⟨s', .cons (step_recv hpc hn hend) (.cons ?_ hrun), hpc', hat'⟩
          exact step_close true rfl
      · obtain ⟨k, hk, hinbox', hpeer'⟩ := Conn.recv_take hinbox
        have hstep := step_recv (h := .et) hpc hn hk
        rw [(afterRecv_data fd events (Epoll.take_ne_nil hinbox)).1] at hstep
        rw [Epoll.etLoop_data (Epoll.socket_data hinbox) (Epoll.take_ne_nil hinbox)] at hret ⊢
        have hat : ((s.setConn n k).goTo (.receiving fd events)).At fd
            ⟨(s.conn n).inbox.drop (bufferSize - 1), (s.conn n).peerClosed, false⟩ := by
          refine ⟨n, hn, ?_⟩
          rw [State.conn_goTo, State.conn_setConn_self]
          exact ⟨hinbox', hpeer'⟩
        obtain ⟨s', hrun, hpc', hat'⟩ := ih rfl hat hret
        exact ⟨s', .cons hstep hrun, hpc', hat'⟩

/-- `lt` reads once, as the loop of the program does. -/
theorem run_ltEvent {c : Epoll.Conn} (hpc : s.pc = .receiving fd events) (hat : s.At fd c) :
    ∃ s', (loopLTS .lt).Run s
        ((Epoll.ltEvent Epoll.socket (.client fd true, c)).calls.map actionOf) s' ∧
      s'.pc = .handling events ∧
      s'.At fd (Epoll.ltEvent Epoll.socket (.client fd true, c)).state := by
  obtain ⟨pending, peerClosed, closed⟩ := c
  cases closed with
  | true => exact ⟨_, run_closed hpc hat, rfl, State.file_close_self⟩
  | false =>
    obtain ⟨n, hn, rfl, rfl⟩ := hat
    by_cases hinbox : (s.conn n).inbox = []
    · -- the end of the stream or `EAGAIN`, and `close`
      have hclose : ∀ result, (s.conn n).recv result = some (s.conn n) → result.ret ≤ 0 →
          ∃ s', (loopLTS .lt).Run s [.recv result, .close] s' ∧ s'.pc = .handling events ∧
            s'.file fd = .none := by
        intro result hr hret
        have hstep := step_recv (h := .lt) hpc hn hr
        rw [afterRecv, if_pos hret] at hstep
        exact ⟨_, .cons hstep (.single (step_close false rfl)), rfl,
          State.file_close_self⟩
      rw [hinbox]
      cases hpeer : (s.conn n).peerClosed with
      | false =>
        refine hclose (.failed true) ?_ (by decide)
        simp [Conn.recv, Conn.Readable, hinbox, hpeer]
      | true =>
        refine hclose (.data []) ?_ (by decide)
        simp [Conn.recv, Conn.Ended, hinbox, hpeer]
    · obtain ⟨k, hk, hinbox', hpeer'⟩ := Conn.recv_take hinbox
      have hstep := step_recv (h := .lt) hpc hn hk
      rw [(afterRecv_data fd events (Epoll.take_ne_nil hinbox)).2] at hstep
      rw [Epoll.lt_socket_data hinbox]
      refine ⟨_, .single hstep, rfl, n, hn, ?_⟩
      rw [State.conn_goTo, State.conn_setConn_self]
      exact ⟨hinbox', hpeer'⟩

/-- The calls that `et` and `lt` make for an event are steps of the program, which leave the
descriptor as they do. -/
theorem run_handled {c : Epoll.Conn} {rounds : ℕ}
    (hpc : s.pc = .handling (.client fd true :: events)) (hat : s.At fd c)
    (hret : (handled h rounds fd c).returned = true) :
    ∃ s', (loopLTS h).Run s (.read :: (handled h rounds fd c).calls.map actionOf) s' ∧
      s'.pc = .handling events ∧ s'.At fd (handled h rounds fd c).state := by
  have hread : (loopLTS h).step s .read (s.goTo (.receiving fd events)) := by
    show next h s .read = _
    simp only [next, hpc]
  cases h with
  | lt =>
    obtain ⟨s', hrun, hpc', hat'⟩ := run_ltEvent (s := s.goTo (.receiving fd events)) rfl hat
    exact ⟨s', .cons hread hrun, hpc', hat'⟩
  | et =>
    obtain ⟨s', hrun, hpc', hat'⟩ := run_etLoop (s := s.goTo (.receiving fd events)) rfl hat hret
    exact ⟨s', .cons hread hrun, hpc', hat'⟩

end EventLoop

end LinuxServer
