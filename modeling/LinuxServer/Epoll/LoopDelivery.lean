import LinuxServer.Counting.Basic
import LinuxServer.Epoll.Descriptors
import Mathlib.Algebra.Order.BigOperators.Group.Finset

/-!
# The event loop delivers

What the program of `epoll.cc` does when nothing new happens, with either handler: no connection
comes in, no byte arrives, and no `recv` on a connection fails but with `EAGAIN`.

* `ownLTS h`: the steps of the program by itself.
* `State.work`: the steps that are still to be made at most.
* `Delivered s u`: in `u` all is received that had arrived in `s`.

`loop_delivers`: left alone the program comes back to `epoll_wait` for good, and all is received.
-/

namespace LinuxServer

namespace EventLoop

open Epoll (Event RecvResult bufferSize maxEventNumber)

variable {h : Handler} {isOpen : ℕ → Bool} {s s' u : State} {a : Action} {events : List Event}
  {fd n : ℕ} {k k' : Conn} {result : RecvResult}

/-! ### The steps still to be made -/

/-- The event is that a descriptor is readable. -/
def isIn : Event → Bool
  | .client _ epollIn => epollIn
  | .listen => false

/-- The program can make the step by itself, and no call fails that need not. -/
def State.Own (s : State) : Action → Prop
  | .wait events => events.all isIn
  | .recv (.failed false) => ∀ fd events n, s.pc = .receiving fd events → s.file fd ≠ .conn n
  | .fail | .exit | .accept (some _) | .arrive _ _ | .shut _ => False
  | _ => True

/-- The steps that the program makes when it is left alone. -/
def ownLTS (h : Handler) : LTS State Action := (loopLTS h).guard State.Own

/-- A step for each byte, and one for the end of the stream. -/
def Conn.units (k : Conn) : ℕ := k.inbox.length + if k.closed then 0 else 1

def State.units (s : State) : ℕ := ∑ n ∈ Finset.range s.accepted, (s.conn n).units

/-- The descriptor is open, for a connection. -/
def State.isConn (s : State) (fd : ℕ) : Bool :=
  match s.file fd with
  | .conn _ => true
  | .none | .listen | .other => false

/-- The descriptor is readable. -/
def State.isReadable (s : State) (fd : ℕ) : Bool :=
  match s.file fd with
  | .conn n => decide (s.conn n).Readable
  | .none | .listen | .other => false

/-- The program has an event in hand behind which a connection has fewer units. -/
def State.hasEvent (s : State) : Bool :=
  match s.pc with
  | .waiting | .left | .returned => false
  | .handling events => events.any isIn
  | .receiving fd events => s.isReadable fd || events.any isIn
  | .closing fd _ events => s.isConn fd || events.any isIn

/-- The steps of a batch of events. -/
def batchWork (events : List Event) : ℕ := 1 + 6 * events.length

/-- The steps until the program waits, but for those of a `recv` that takes bytes. -/
def State.pcWork (s : State) : ℕ :=
  match s.pc with
  | .waiting | .left | .returned => 0
  | .handling events => batchWork events
  | .receiving fd events =>
    batchWork events + if s.isReadable fd then 5 else if s.isConn fd then 1 else 3
  | .closing _ goesOn events => batchWork events + if goesOn then 4 else 2

/-- More steps than a batch of events makes. -/
def maxBatchWork : ℕ := 8 * maxEventNumber

/-- The steps still to be made at most. -/
def State.work (s : State) : ℕ :=
  maxBatchWork * (s.units - s.hasEvent.toNat) + s.pcWork

theorem work_lt_of_le (hunits : s'.units + s.hasEvent.toNat ≤ s.units + s'.hasEvent.toNat)
    (hpc : s'.pcWork < s.pcWork) : s'.work < s.work := by
  have hle : s'.units - s'.hasEvent.toNat ≤ s.units - s.hasEvent.toNat := by omega
  have hmul := Nat.mul_le_mul_left maxBatchWork hle
  unfold State.work
  omega

/-- A step that takes a unit that no event has announced. -/
theorem work_lt_of_lt (hunits : s'.units + s.hasEvent.toNat < s.units + s'.hasEvent.toNat)
    (hs : s'.hasEvent.toNat ≤ s'.units) (hpc : s'.pcWork < s.pcWork + maxBatchWork) :
    s'.work < s.work := by
  have hle : s'.units - s'.hasEvent.toNat + 1 ≤ s.units - s.hasEvent.toNat := by omega
  have hmul := Nat.mul_le_mul_left maxBatchWork hle
  unfold State.work
  rw [Nat.mul_add, Nat.mul_one] at hmul
  omega

theorem State.isConn_eq (hfd : s.file fd = .conn n) : s.isConn fd = true := by
  rw [State.isConn, hfd]

theorem State.isConn_eq_false (hfd : ∀ n, s.file fd ≠ .conn n) : s.isConn fd = false := by
  cases hfile : s.file fd with
  | none | listen | other => rw [State.isConn, hfile]
  | conn n => exact absurd hfile (hfd n)

theorem State.isReadable_eq (hfd : s.file fd = .conn n) :
    s.isReadable fd = decide (s.conn n).Readable := by
  rw [State.isReadable, hfd]

theorem State.isReadable_eq_false (hfd : ∀ n, s.file fd ≠ .conn n) : s.isReadable fd = false := by
  cases hfile : s.file fd with
  | none | listen | other => rw [State.isReadable, hfile]
  | conn n => exact absurd hfile (hfd n)

theorem State.exists_conn_of_isConn (hfd : s.isConn fd = true) : ∃ n, s.file fd = .conn n := by
  by_contra hnone
  rw [State.isConn_eq_false fun n hn => hnone ⟨n, hn⟩] at hfd
  cases hfd

theorem State.exists_conn_of_isReadable (hfd : s.isReadable fd = true) :
    ∃ n, s.file fd = .conn n := by
  by_contra hnone
  rw [State.isReadable_eq_false fun n hn => hnone ⟨n, hn⟩] at hfd
  cases hfd

theorem State.Pending.exists_conn (hp : s.Pending events) (hin : events.any isIn = true) :
    ∃ fd n, s.file fd = .conn n := by
  obtain ⟨e, he, hisIn⟩ := List.any_eq_true.1 hin
  cases e with
  | listen => cases hisIn
  | client fd epollIn =>
    obtain ⟨n, hn, -⟩ := hp.2 fd epollIn he
    exact ⟨fd, n, hn⟩

theorem Sound.hasEvent_le (hs : Sound h isOpen s) : s.hasEvent.toNat ≤ s.units := by
  cases hevent : s.hasEvent with
  | false => exact Nat.zero_le _
  | true =>
    have hconn : ∃ fd n, s.file fd = .conn n := by
      have hat := hs.pc
      unfold State.hasEvent at hevent
      cases hpc : s.pc with
      | waiting | left | returned =>
        rw [hpc] at hevent
        cases hevent
      | handling events =>
        rw [hpc] at hat hevent
        exact hat.exists_conn hevent
      | receiving fd events =>
        rw [hpc] at hat hevent
        rcases Bool.or_eq_true_iff.1 hevent with hread | hin
        · exact ⟨fd, State.exists_conn_of_isReadable hread⟩
        · exact hat.1.exists_conn hin
      | closing fd goesOn events =>
        rw [hpc] at hat hevent
        rcases Bool.or_eq_true_iff.1 hevent with hopen | hin
        · exact ⟨fd, State.exists_conn_of_isConn hopen⟩
        · exact hat.1.exists_conn hin
    obtain ⟨fd, n, hn⟩ := hconn
    obtain ⟨hlt, hopen⟩ := hs.held.refers fd n hn
    have hone : 1 ≤ (s.conn n).units := by
      simp only [Conn.units, hopen]
      exact Nat.le_add_left 1 _
    exact hone.trans (Finset.single_le_sum (f := fun n => (s.conn n).units)
      (fun _ _ => Nat.zero_le _) (Finset.mem_range.2 hlt))

theorem State.units_setConn (hn : n < s.accepted) (k : Conn) :
    (s.setConn n k).units + (s.conn n).units = s.units + k.units :=
  Counting.sum_update Conn.units s.conn (Finset.mem_range.2 hn) k

theorem State.units_close (hn : n < s.accepted) (hfd : s.file fd = .conn n)
    (hopen : (s.conn n).closed = false) : (s.close fd).units + 1 = s.units := by
  have hsum := Counting.sum_update Conn.units s.conn (Finset.mem_range.2 hn) (s.conn n).close
  have hconn : (s.close fd).conn = Function.update s.conn n (s.conn n).close := by
    rw [State.close, hfd]
  have hunits : (s.conn n).close.units + 1 = (s.conn n).units := by
    simp only [Conn.units, Conn.close, hopen, if_true, Bool.false_eq_true, if_false]
  simp only [State.units, hconn] at hsum ⊢
  show ∑ m ∈ Finset.range s.accepted, _ + 1 = _
  omega

theorem Conn.units_take {m : ℕ} (hm : m ≤ k.inbox.length) : (k.take m).units + m = k.units := by
  show (k.inbox.drop m).length + (if k.closed then 0 else 1) + m =
    k.inbox.length + if k.closed then 0 else 1
  rw [List.length_drop]
  omega

theorem State.setConn_self : s.setConn n (s.conn n) = s := by
  rw [State.setConn, Function.update_eq_self]

theorem work_wait (hs : Sound h isOpen s) (hpc : s.pc = .waiting) (hreports : s.Reports events)
    (hown : s.Own (.wait events)) : (s.goTo (.handling events)).work < s.work := by
  have hle := (hs.wait hpc hreports).hasEvent_le
  have hevent : s.hasEvent = false := by rw [State.hasEvent, hpc]
  have hin : events.any isIn = true := by
    obtain ⟨e, he⟩ := List.exists_mem_of_ne_nil events hreports.1
    exact List.any_eq_true.2 ⟨e, he, List.all_eq_true.1 hown e he⟩
  have hevent' : (s.goTo (.handling events)).hasEvent = true := hin
  have hbatch : (s.goTo (.handling events)).pcWork = 1 + 6 * events.length := rfl
  have hlen := hreports.2.1
  refine work_lt_of_lt ?_ hle ?_
  · rw [hevent, hevent']
    exact Nat.lt_succ_self _
  · rw [hbatch, maxBatchWork]
    rw [maxEventNumber] at hlen ⊢
    omega

theorem work_recv (hs : Sound h isOpen s) (hpc : s.pc = .receiving fd events)
    (hfile : s.file fd = .conn n) {bytes : List Byte} (hne : bytes ≠ [])
    (hr : (s.conn n).recv (.data bytes) = some k) :
    ((s.setConn n k).goTo (afterRecv h fd events (.data bytes))).work < s.work := by
  have hsound := hs.recv hpc hfile hr
  obtain ⟨rfl, hpre⟩ := Conn.recv_data hne hr
  obtain ⟨b, bytes, rfl⟩ := List.exists_cons_of_ne_nil hne
  have hread : (s.conn n).Readable := .inl (by
    rintro hnil
    rw [hnil] at hpre
    exact hne (List.prefix_nil.1 hpre))
  have hunits := State.units_setConn (hs.held.refers fd n hfile).1
    ((s.conn n).take (b :: bytes).length)
  have htake : ((s.conn n).take (b :: bytes).length).units + (bytes.length + 1) =
      (s.conn n).units := Conn.units_take hpre.length_le
  have hevent : s.hasEvent = true := by
    rw [State.hasEvent, hpc]
    simp [State.isReadable_eq hfile, hread]
  have hwork : s.pcWork = batchWork events + 5 := by
    rw [State.pcWork, hpc]
    simp [State.isReadable_eq hfile, hread]
  set s' := s.setConn n ((s.conn n).take (b :: bytes).length) with hs'
  cases h with
  | lt =>
    have hafter : afterRecv .lt fd events (.data (b :: bytes)) = .handling events := rfl
    rw [hafter]
    refine work_lt_of_le ?_ ?_
    · show s'.units + _ ≤ _
      rw [hevent, Bool.toNat_true]
      omega
    · rw [hwork]
      exact Nat.lt_add_of_pos_right (by decide)
  | et =>
    have hafter : afterRecv .et fd events (.data (b :: bytes)) = .receiving fd events := rfl
    rw [hafter] at hsound ⊢
    have hfile' : (s'.goTo (.receiving fd events)).file fd = .conn n := hfile
    by_cases hread' : (s'.conn n).Readable
    · -- the rest of the bytes announces itself
      have hevent' : (s'.goTo (.receiving fd events)).hasEvent = true := by
        show (State.isReadable _ fd || _) = true
        rw [State.isReadable_eq hfile', State.conn_goTo]
        simp [hread']
      refine work_lt_of_lt ?_ hsound.hasEvent_le ?_
      · show s'.units + _ < _
        rw [hevent, hevent', Bool.toNat_true]
        omega
      · show batchWork events + (if State.isReadable _ fd = true then 5 else _) < _
        rw [State.isReadable_eq hfile', State.conn_goTo, hwork]
        simp [hread', maxBatchWork, maxEventNumber]
    · refine work_lt_of_le ?_ ?_
      · show s'.units + _ ≤ _
        rw [hevent, Bool.toNat_true]
        omega
      · show batchWork events + (if State.isReadable _ fd = true then 5 else _) < _
        rw [State.isReadable_eq hfile', State.isConn_eq hfile', State.conn_goTo, hwork]
        simp [hread']

theorem work_recv_end (hpc : s.pc = .receiving fd events) (hfile : s.file fd = .conn n)
    (hend : (s.conn n).Ended) :
    (s.goTo (afterRecv h fd events (.data []))).work < s.work := by
  have hread : (s.conn n).Readable := .inr hend.2
  have hwork : s.pcWork = batchWork events + 5 := by
    rw [State.pcWork, hpc]
    simp [State.isReadable_eq hfile, hread]
  have hclosing : ∀ goesOn, afterRecv h fd events (.data []) = .closing fd goesOn events →
      (s.goTo (afterRecv h fd events (.data []))).hasEvent = true := by
    intro goesOn hafter
    rw [hafter]
    show (State.isConn _ fd || _) = true
    rw [State.isConn_eq (s := s.goTo (.closing fd goesOn events)) hfile, Bool.true_or]
  cases h with
  | lt =>
    refine work_lt_of_le ?_ ?_
    · rw [hclosing false rfl]
      exact Nat.add_le_add_left (Bool.toNat_le _) _
    · rw [hwork]
      exact Nat.add_lt_add_left (by decide) _
  | et =>
    refine work_lt_of_le ?_ ?_
    · rw [hclosing true rfl]
      exact Nat.add_le_add_left (Bool.toNat_le _) _
    · rw [hwork]
      exact Nat.add_lt_add_left (by decide) _

theorem work_read (hs : Sound h isOpen s) (hpc : s.pc = .handling (.client fd true :: events)) :
    (s.goTo (.receiving fd events)).work < s.work := by
  have hat := hs.pc
  rw [hpc] at hat
  obtain ⟨n, hn, hread⟩ := hat.2 fd true List.mem_cons_self
  have hreadable : (s.goTo (.receiving fd events)).isReadable fd = true :=
    (State.isReadable_eq (s := s.goTo (.receiving fd events)) hn).trans
      (decide_eq_true (hread rfl))
  have hevent : s.hasEvent = true := by
    rw [State.hasEvent, hpc]
    rfl
  refine work_lt_of_le ?_ ?_
  · rw [hevent]
    show s.units + 1 ≤ s.units + (State.isReadable _ fd || _).toNat
    rw [hreadable]
    exact Nat.le_refl _
  · have hwork : s.pcWork = 1 + 6 * (events.length + 1) := by
      rw [State.pcWork, hpc]
      rfl
    rw [hwork]
    show batchWork events + (if State.isReadable _ fd = true then 5 else _) < _
    rw [hreadable, batchWork]
    simp only [if_true]
    omega

theorem work_recvBad (hpc : s.pc = .receiving fd events) (hfile : ∀ n, s.file fd ≠ .conn n) :
    (s.goTo (.closing fd false events)).work < s.work := by
  have hevent : s.hasEvent = events.any isIn := by
    rw [State.hasEvent, hpc]
    show (s.isReadable fd || _) = _
    rw [State.isReadable_eq_false hfile, Bool.false_or]
  have hevent' : (s.goTo (.closing fd false events)).hasEvent = events.any isIn := by
    show (State.isConn _ fd || _) = _
    rw [State.isConn_eq_false (s := s.goTo (.closing fd false events)) hfile, Bool.false_or]
  have hwork : s.pcWork = batchWork events + 3 := by
    rw [State.pcWork, hpc]
    show batchWork events + (if s.isReadable fd = true then 5 else _) = _
    rw [State.isReadable_eq_false hfile, State.isConn_eq_false hfile]
    rfl
  refine work_lt_of_le (Nat.le_of_eq ?_) ?_
  · rw [hevent, hevent']
    rfl
  · rw [hwork]
    exact Nat.lt_succ_self _

theorem work_recv_again (hpc : s.pc = .receiving fd events) (hfile : s.file fd = .conn n)
    (hblock : ¬ (s.conn n).Readable) :
    (s.goTo (afterRecv .et fd events (.failed true))).work < s.work := by
  have hreadable : s.isReadable fd = false := by
    rw [State.isReadable_eq hfile]
    exact decide_eq_false hblock
  have hafter : afterRecv .et fd events (.failed true) = .handling events := rfl
  rw [hafter]
  refine work_lt_of_le (Nat.le_of_eq ?_) ?_
  · rw [State.hasEvent, State.hasEvent, hpc]
    show s.units + (s.isReadable fd || _).toNat = _
    rw [hreadable, Bool.false_or]
    rfl
  · rw [State.pcWork, State.pcWork, hpc]
    show batchWork events < batchWork events + (if s.isReadable fd = true then 5 else _)
    rw [hreadable, State.isConn_eq hfile]
    exact Nat.lt_succ_self _

theorem work_close (hs : Sound h isOpen s) {goesOn : Bool}
    (hpc : s.pc = .closing fd goesOn events) :
    ((s.close fd).goTo (if goesOn then .receiving fd events else .handling events)).work <
      s.work := by
  set s' := (s.close fd).goTo (if goesOn then .receiving fd events else .handling events) with hs'
  have hat := hs.pc
  rw [hpc] at hat
  have hnone : ∀ n, s'.file fd ≠ .conn n := by
    intro n hn
    have hself : s'.file fd = .none := State.file_close_self
    cases hself.symm.trans hn
  have hevent' : s'.hasEvent = events.any isIn := by
    unfold State.hasEvent
    cases goesOn with
    | false => rfl
    | true =>
      show (s'.isReadable fd || _) = _
      rw [State.isReadable_eq_false hnone, Bool.false_or]
  have hwork' : s'.pcWork < s.pcWork := by
    rw [State.pcWork, State.pcWork, hpc]
    cases goesOn with
    | false => exact Nat.lt_add_of_pos_right (by decide)
    | true =>
      show batchWork events + (if s'.isReadable fd = true then 5 else _) < _
      rw [State.isReadable_eq_false hnone, State.isConn_eq_false hnone]
      exact Nat.lt_succ_self _
  have hevent : s.hasEvent = (s.isConn fd || events.any isIn) := by rw [State.hasEvent, hpc]
  refine work_lt_of_le ?_ hwork'
  rw [hevent, hevent']
  by_cases hconn : ∃ n, s.file fd = .conn n
  · obtain ⟨n, hn⟩ := hconn
    obtain ⟨hlt, hopen⟩ := hs.held.refers fd n hn
    have hunits : s'.units + 1 = s.units := State.units_close hlt hn hopen
    rw [State.isConn_eq hn, Bool.true_or, Bool.toNat_true]
    omega
  · -- `close` finds nothing
    have hbad : ∀ n, s.file fd ≠ .conn n := fun n hn => hconn ⟨n, hn⟩
    have hsame : (s.close fd).conn = s.conn := by
      funext m
      exact State.conn_close_of_ne (hbad m)
    have hunits : s'.units = s.units := by
      show ∑ n ∈ Finset.range s.accepted, ((s.close fd).conn n).units = s.units
      rw [hsame]
      rfl
    rw [State.isConn_eq_false hbad, Bool.false_or, hunits]

theorem Sound.work_lt (hs : Sound h isOpen s) (hstep : (ownLTS h).step s a s') :
    s'.work < s.work := by
  obtain ⟨hstep, hown⟩ := hstep
  have hat := hs.pc
  cases moves_of_next hstep with
  | wait hpc hreports => exact work_wait hs hpc hreports hown
  | fail | exit | accept | arrive | shut => exact hown.elim
  | @acceptNone events hpc | @other fd events hpc =>
    refine work_lt_of_le (Nat.le_of_eq ?_) ?_
    · simp only [State.hasEvent, hpc]
      rfl
    · simp only [State.pcWork, hpc]
      exact Nat.add_lt_add_left (Nat.mul_lt_mul_of_pos_left (Nat.lt_succ_self _) (by decide)) 1
  | read hpc => exact work_read hs hpc
  | @recv fd n events result k hpc hfile hr =>
    rcases result with bytes | _ | _
    · by_cases hne : bytes = []
      · subst hne
        obtain ⟨rfl, hend⟩ := Conn.recv_end hr
        rw [State.setConn_self]
        exact work_recv_end hpc hfile hend
      · exact work_recv hs hpc hfile hne hr
    · exact absurd hfile (hown fd events n hpc)
    · obtain ⟨rfl, hblock⟩ := Conn.recv_again hr
      rw [State.setConn_self]
      cases h with
      | lt =>
        rw [hpc] at hat
        obtain ⟨-, -, ⟨m, hm, hread⟩ | ⟨⟨⟩, -⟩⟩ := hat
        obtain rfl := File.conn.inj (hm.symm.trans hfile)
        exact absurd (hread rfl) hblock
      | et => exact work_recv_again hpc hfile hblock
  | recvBad hpc hfile => exact work_recvBad hpc hfile
  | close hpc => exact work_close hs hpc
  | @ret hpc =>
    refine work_lt_of_le (Nat.le_of_eq ?_) ?_
    · simp only [State.hasEvent, hpc]
      rfl
    · simp only [State.pcWork, hpc]
      exact Nat.succ_pos _

/-! ### Steps of the program alone -/

/-- What stays the same while the program is left alone from `s` on. -/
structure Alone (h : Handler) (isOpen : ℕ → Bool) (s u : State) : Prop where
  sound : Sound h isOpen u
  pc : u.pc.InLoop
  accepted : u.accepted = s.accepted
  arrived : ∀ n, (u.conn n).arrived = (s.conn n).arrived
  peerClosed : ∀ n, (u.conn n).peerClosed = (s.conn n).peerClosed
  failed : ∀ n, (u.conn n).failed = (s.conn n).failed

/-- What the program does not change of a connection. -/
def Conn.Same (k k' : Conn) : Prop :=
  k'.arrived = k.arrived ∧ k'.peerClosed = k.peerClosed ∧ k'.failed = k.failed

theorem Conn.Same.refl (k : Conn) : k.Same k := ⟨rfl, rfl, rfl⟩

theorem Conn.recv_same (hresult : result ≠ .failed false) (hr : k.recv result = some k') :
    k.Same k' := by
  rcases result with bytes | _ | _
  · by_cases hne : bytes = []
    · subst hne
      obtain ⟨rfl, -⟩ := Conn.recv_end hr
      exact .refl _
    · obtain ⟨rfl, -⟩ := Conn.recv_data hne hr
      exact ⟨rfl, rfl, rfl⟩
  · exact absurd rfl hresult
  · obtain ⟨rfl, -⟩ := Conn.recv_again hr
    exact .refl _

theorem State.close_same (s : State) (fd m : ℕ) : (s.conn m).Same ((s.close fd).conn m) := by
  by_cases hm : s.file fd = .conn m
  · rw [State.conn_close_self hm]
    exact ⟨rfl, rfl, rfl⟩
  · rw [State.conn_close_of_ne hm]
    exact .refl _

theorem inLoop_afterRecv : (afterRecv h fd events result).InLoop := by
  cases h with
  | lt =>
    unfold afterRecv
    split_ifs <;> exact trivial
  | et =>
    unfold afterRecv
    split_ifs <;> exact trivial

theorem same_of_own (hstep : (ownLTS h).step s a s') :
    s'.pc.InLoop ∧ s'.accepted = s.accepted ∧ ∀ n, (s.conn n).Same (s'.conn n) := by
  obtain ⟨hstep, hown⟩ := hstep
  cases moves_of_next hstep with
  | fail | exit | accept | arrive | shut => exact hown.elim
  | wait | acceptNone | read | recvBad | other | ret => exact ⟨trivial, rfl, fun n => .refl _⟩
  | @recv fd n events result k hpc' hfile hr =>
    refine ⟨inLoop_afterRecv, rfl, fun m => ?_⟩
    by_cases hm : m = n
    · rw [hm, State.conn_goTo, State.conn_setConn_self]
      refine Conn.recv_same ?_ hr
      rintro rfl
      exact hown fd events n hpc' hfile
    · rw [State.conn_goTo, State.conn_setConn_of_ne hm]
      exact .refl _
  | @close fd goesOn events =>
    refine ⟨?_, rfl, s.close_same fd⟩
    cases goesOn <;> exact trivial

theorem Alone.step (hu : Alone h isOpen s u) (hstep : (ownLTS h).step u a s') :
    Alone h isOpen s s' := by
  obtain ⟨hpc, haccepted, hsame⟩ := same_of_own hstep
  exact ⟨hu.sound.step hstep.1, hpc, haccepted.trans hu.accepted,
    fun n => (hsame n).1.trans (hu.arrived n), fun n => (hsame n).2.1.trans (hu.peerClosed n),
    fun n => (hsame n).2.2.trans (hu.failed n)⟩

/-! ### Where the program stops -/

theorem Conn.exists_recv (k : Conn) :
    ∃ result k', k.recv result = some k' ∧ result ≠ .failed false := by
  cases hinbox : k.inbox with
  | cons b bytes =>
    refine ⟨.data [b], k.take 1, ?_, fun hr => by cases hr⟩
    simp [Conn.recv, hinbox, bufferSize]
  | nil =>
    cases hpeer : k.peerClosed with
    | true =>
      refine ⟨.data [], k, ?_, fun hr => by cases hr⟩
      simp [Conn.recv, Conn.Ended, hinbox, hpeer]
    | false =>
      refine ⟨.failed true, k, ?_, fun hr => by cases hr⟩
      simp [Conn.recv, Conn.Readable, hinbox, hpeer]

/-- The program can make no step by itself. -/
def Quiet (h : Handler) (u : State) : Prop := ∀ a, u.Own a → next h u a = none

theorem quiet_of_stuck (hstuck : ∀ a v, ¬ (ownLTS h).step u a v) : Quiet h u := by
  intro a hown
  by_contra hnext
  obtain ⟨v, hv⟩ := Option.ne_none_iff_exists'.1 hnext
  exact hstuck a v ⟨hv, hown⟩

theorem Quiet.waiting (hq : Quiet h u) (hpc : u.pc.InLoop) : u.pc = .waiting := by
  cases hat : u.pc with
  | waiting => rfl
  | handling events =>
    cases events with
    | nil =>
      have hnext := hq .ret trivial
      simp [next, hat] at hnext
    | cons e events =>
      rcases e with _ | ⟨fd, _ | _⟩
      · have hnext := hq (.accept none) trivial
        simp [next, hat] at hnext
      · have hnext := hq .other trivial
        simp [next, hat] at hnext
      · have hnext := hq .read trivial
        simp [next, hat] at hnext
  | receiving fd events =>
    by_cases hconn : ∃ n, u.file fd = .conn n
    · obtain ⟨n, hn⟩ := hconn
      obtain ⟨result, k, hr, hne⟩ := (u.conn n).exists_recv
      have hown : u.Own (.recv result) := by
        rcases result with bytes | _ | _
        · exact trivial
        · exact absurd rfl hne
        · exact trivial
      have hnext := hq (.recv result) hown
      simp [next, hat, State.recv, hn, hr] at hnext
    · have hbad : ∀ n, u.file fd ≠ .conn n := fun n hn => hconn ⟨n, hn⟩
      have hown : u.Own (.recv (.failed false)) := by
        intro fd' events' n hpc'
        obtain ⟨rfl, -⟩ := Pc.receiving.inj (hat.symm.trans hpc')
        exact hbad n
      have hnext := hq (.recv (.failed false)) hown
      cases hfile : u.file fd with
      | conn n => exact absurd hfile (hbad n)
      | none | listen | other => simp [next, hat, State.recv, hfile] at hnext
  | closing fd goesOn events =>
    have hnext := hq .close trivial
    simp [next, hat] at hnext
  | left | returned =>
    rw [hat] at hpc
    exact hpc.elim

theorem Quiet.not_readable (hq : Quiet h u) (hpc : u.pc = .waiting) (hfd : u.file fd = .conn n) :
    ¬ (u.conn n).Readable := by
  intro hread
  have hreports : u.Reports [.client fd true] := by
    have hlen : 1 ≤ maxEventNumber := by decide
    refine ⟨List.cons_ne_nil _ _, hlen, List.nodup_singleton fd, fun e he => ?_⟩
    obtain rfl := List.mem_singleton.1 he
    show u.ReadyFor true (u.file fd)
    rw [hfd]
    exact fun _ => hread
  have hnext := hq (.wait [.client fd true]) rfl
  simp [next, hpc, hreports] at hnext

/-- All is done: the program waits, all that had arrived in `s` is received, and the connections
that the peers have closed are closed, unless a `recv` had failed. -/
structure Delivered (s u : State) : Prop where
  pc : u.pc = .waiting
  received : ∀ n < s.accepted, (s.conn n).failed = false →
    (u.conn n).received = (s.conn n).arrived
  closed : ∀ n < s.accepted, (s.conn n).failed = false →
    (u.conn n).closed = (s.conn n).peerClosed

theorem Quiet.delivered (hq : Quiet h u) (hu : Alone h isOpen s u) : Delivered s u := by
  have hpc := hq.waiting hu.pc
  have hconn : ∀ n < s.accepted, (s.conn n).failed = false →
      (u.conn n).inbox = [] ∧ (u.conn n).closed = (u.conn n).peerClosed := by
    intro n hn hfailed
    rw [← hu.accepted] at hn
    rw [← hu.failed] at hfailed
    cases hclosed : (u.conn n).closed with
    | true =>
      rcases (hu.sound.conn n).closed hclosed with hend | hfail
      · exact ⟨hend.1, hend.2.symm⟩
      · cases hfailed.symm.trans hfail
    | false =>
      obtain ⟨fd, hfd⟩ := hu.sound.held.held n hn hclosed
      have hread := hq.not_readable hpc hfd
      rw [Conn.Readable, not_or, not_not] at hread
      exact ⟨hread.1, (Bool.eq_false_iff.2 hread.2).symm⟩
  refine ⟨hpc, fun n hn hfailed => ?_, fun n hn hfailed => ?_⟩
  · rw [← hu.arrived, (hu.sound.conn n).stream, (hconn n hn hfailed).1, List.append_nil]
  · rw [(hconn n hn hfailed).2, hu.peerClosed]

/-- **The event loop delivers.**  With either handler, from every state of a run in which
`epoll_wait` has not failed: the steps that the program makes by itself come to an end, whatever
`epoll_wait` reports first and however much a `recv` returns; and where they end all that had
arrived is received, in order, and exactly the connections that their peers have closed are closed,
but for those on which a `recv` has failed. -/
theorem loop_delivers (h : Handler) (listenFd : ℕ) (isOpen : ℕ → Bool) {actions : List Action}
    (hrun : (loopLTS h).Run (.init listenFd isOpen) actions s) (hpc : s.pc.InLoop) :
    (∀ as u, (ownLTS h).Run s as u → as.length ≤ s.work) ∧
      (∃ u, (ownLTS h).Reachable s u ∧ Delivered s u) ∧
      ∀ u, (ownLTS h).Reachable s u → (∀ a v, ¬ (ownLTS h).step u a v) → Delivered s u := by
  have halone : Alone h isOpen s s :=
    ⟨sound_of_run hrun, hpc, rfl, fun _ => rfl, fun _ => rfl, fun _ => rfl⟩
  exact LTS.comes_to_rest State.work halone (fun _ _ _ hu hs => hu.step hs)
    (fun _ _ _ hu hs => hu.sound.work_lt hs) fun _ hu hstuck => (quiet_of_stuck hstuck).delivered hu

theorem loop_delivers_two : ∃ s, (s.conn 0).arrived = [104, 105] ∧
    ∃ u, (ownLTS .et).Reachable s u ∧ Delivered s u := by
  have hrun : (loopLTS .et).Run (.init 3 (· < 5)) [.wait [.listen], .accept (some 5),
      .arrive 0 [104, 105], .ret, .shut 0] _ := LTS.run_of_foldlM rfl
  exact ⟨_, rfl, (loop_delivers .et 3 (· < 5) hrun trivial).2.1⟩

end EventLoop

end LinuxServer
