import LinuxServer.Epoll.EventLoop

/-!
# Each descriptor is closed for its own connection

`et` goes on reading behind `close`, and so calls `close` again.  The descriptor is free in between,
but the program has one thread: no connection can have got it.

* `State.Pending s events`: the events still to handle are of open descriptors, as reported.
* `State.Held`: each connection has a descriptor until it is closed.
* `Sound`: what holds of the program, its descriptors and its connections.

`serves_of_run`: with either handler each connection is read in order and closed once, behind the
end of its stream or an error; besides, only `main` closes a descriptor, `listen_fd`.
-/

namespace LinuxServer

namespace EventLoop

open Epoll (Event RecvResult)

/-- The events still to handle are of different descriptors, and each is of an open connection that
has not been read since. -/
def State.Pending (s : State) (events : List Event) : Prop :=
  (clients events).Nodup ∧
    ∀ fd epollIn, .client fd epollIn ∈ events → s.Has fd fun k => epollIn = true → k.Readable

/-- What holds where the program is. -/
def PcSound (h : Handler) (s : State) : Pc → Prop
  | .waiting | .left | .returned => True
  | .handling events => s.Pending events
  -- the loop of `et` comes back behind `close`
  | .receiving fd events => s.Pending events ∧ fd ∉ clients events ∧
      (s.Has fd (fun k => h = .lt → k.Readable) ∨ h = .et ∧ s.file fd = .none)
  | .closing fd goesOn events => s.Pending events ∧ fd ∉ clients events ∧
      (goesOn = true → h = .et) ∧
      (s.Has fd (fun k => k.Ended ∨ goesOn = false ∧ k.failed = true) ∨
        goesOn = false ∧ s.file fd = .none)

/-- A connection is received in order, and closed behind its end or an error. -/
structure Conn.Sound (k : Conn) : Prop where
  stream : k.arrived = k.received ++ k.inbox
  closed : k.closed = true → k.Ended ∨ k.failed = true

/-- Each connection has a descriptor until it is closed, and no other descriptor is touched until
`main` closes `listen_fd`. -/
structure State.Held (s : State) (isOpen : ℕ → Bool) : Prop where
  refers : ∀ fd n, s.file fd = .conn n → n < s.accepted ∧ (s.conn n).closed = false
  unique : ∀ fd fd' n, s.file fd = .conn n → s.file fd' = .conn n → fd = fd'
  held : ∀ n < s.accepted, (s.conn n).closed = false → ∃ fd, s.file fd = .conn n
  others : ∀ fd, s.file fd = .other ↔ isOpen fd = true ∧ fd ≠ s.listenFd
  listen : s.pc ≠ .returned → s.file s.listenFd = .listen

/-- The program, its descriptors and its connections. -/
structure Sound (h : Handler) (isOpen : ℕ → Bool) (s : State) : Prop where
  pc : PcSound h s s.pc
  held : s.Held isOpen
  conn : ∀ n, (s.conn n).Sound

/-- A connection has one descriptor while it is open, is received in order, and is closed behind the
end of its stream or an error. -/
structure State.Serves (s : State) (n : ℕ) : Prop where
  received : (s.conn n).received <+: (s.conn n).arrived
  opened : (s.conn n).closed = false → ∃! fd, s.file fd = .conn n
  closed : (s.conn n).closed = true → (∀ fd, s.file fd ≠ .conn n) ∧
    ((s.conn n).received = (s.conn n).arrived ∧ (s.conn n).peerClosed = true ∨
      (s.conn n).failed = true)

variable {h : Handler} {s s' : State} {a : Action} {events : List Event} {fd n : ℕ} {k k' : Conn}
  {result : RecvResult} {isOpen : ℕ → Bool}

theorem mem_clients {epollIn : Bool} (he : .client fd epollIn ∈ events) : fd ∈ clients events :=
  List.mem_filterMap.2 ⟨_, he, rfl⟩

theorem State.Has.frame {P Q : Conn → Prop} (hs : s.Has fd P)
    (hsame : ∀ n, s.file fd = .conn n → s'.file fd = .conn n ∧ (P (s.conn n) → Q (s'.conn n))) :
    s'.Has fd Q := by
  obtain ⟨n, hfile, hP⟩ := hs
  exact ⟨n, (hsame n hfile).1, (hsame n hfile).2 hP⟩

theorem State.Pending.frame (hs : s.Pending events)
    (hsame : ∀ fd ∈ clients events, ∀ n, s.file fd = .conn n →
      s'.file fd = .conn n ∧ ((s.conn n).Readable → (s'.conn n).Readable)) : s'.Pending events :=
  ⟨hs.1, fun fd epollIn he => (hs.2 fd epollIn he).frame fun n hfile =>
    ⟨(hsame fd (mem_clients he) n hfile).1,
      fun hread hin => (hsame fd (mem_clients he) n hfile).2 (hread hin)⟩⟩

theorem State.Pending.tail {e : Event} (hs : s.Pending (e :: events)) : s.Pending events := by
  refine ⟨?_, fun fd epollIn he => hs.2 fd epollIn (List.mem_cons_of_mem e he)⟩
  exact hs.1.sublist ((List.sublist_cons_self e events).filterMap _)

theorem State.Pending.notMem {epollIn : Bool} (hs : s.Pending (.client fd epollIn :: events)) :
    fd ∉ clients events := (List.nodup_cons.1 hs.1).1

theorem PcSound.grow {pc : Pc} (hs : PcSound h s pc) (hfile : s'.file = s.file)
    (hread : ∀ n, (s.conn n).Readable → (s'.conn n).Readable)
    (hend : ∀ n, (s.conn n).Ended → (s'.conn n).Ended)
    (hfailed : ∀ n, (s.conn n).failed = true → (s'.conn n).failed = true) : PcSound h s' pc := by
  have hpending : ∀ events, s.Pending events → s'.Pending events := fun events hp =>
    hp.frame fun fd _ n hfd => ⟨by rwa [hfile], hread n⟩
  cases pc with
  | waiting | left | returned => exact trivial
  | handling events => exact hpending events hs
  | receiving fd events =>
    refine ⟨hpending events hs.1, hs.2.1, hs.2.2.imp (fun hhas => ?_) (fun hnone => ?_)⟩
    · exact hhas.frame fun n hfd => ⟨by rwa [hfile], fun hk hlt => hread n (hk hlt)⟩
    · exact ⟨hnone.1, by rw [hfile, hnone.2]⟩
  | closing fd goesOn events =>
    refine ⟨hpending events hs.1, hs.2.1, hs.2.2.1, hs.2.2.2.imp (fun hhas => ?_) (fun hnone => ?_)⟩
    · exact hhas.frame fun n hfd =>
        ⟨by rwa [hfile], fun hk => hk.imp (hend n) fun hk => ⟨hk.1, hfailed n hk.2⟩⟩
    · exact ⟨hnone.1, by rw [hfile, hnone.2]⟩

theorem sound_init (h : Handler) (listenFd : ℕ) (isOpen : ℕ → Bool) :
    Sound h isOpen (.init listenFd isOpen) := by
  refine ⟨trivial, ⟨fun fd n hfd => ?_, fun fd fd' n hfd => ?_, fun n hn => ?_, fun fd => ?_,
    fun _ => if_pos rfl⟩, fun n => ⟨rfl, nofun⟩⟩
  · simp only [State.init] at hfd
    split_ifs at hfd
  · simp only [State.init] at hfd
    split_ifs at hfd
  · exact absurd hn (Nat.not_lt_zero n)
  · simp only [State.init]
    split_ifs with hlisten hother <;> simp [*]

theorem State.Held.goTo {pc : Pc} (hs : s.Held isOpen) (hreturned : s.pc ≠ .returned) :
    (s.goTo pc).Held isOpen :=
  ⟨hs.refers, hs.unique, hs.held, hs.others, fun _ => hs.listen hreturned⟩

theorem Sound.goTo {pc : Pc} (hs : Sound h isOpen s) (hreturned : s.pc ≠ .returned)
    (hpc : PcSound h s pc) : Sound h isOpen (s.goTo pc) := ⟨hpc, hs.held.goTo hreturned, hs.conn⟩

theorem State.Held.setConn (hs : s.Held isOpen) (hk : k.closed = (s.conn n).closed) :
    (s.setConn n k).Held isOpen := by
  have hclosed : ∀ m, ((s.setConn n k).conn m).closed = (s.conn m).closed := by
    intro m
    by_cases hm : m = n
    · rw [hm, State.conn_setConn_self, hk]
    · rw [State.conn_setConn_of_ne hm]
  refine ⟨fun fd m hfd => ?_, hs.unique, fun m hm hopen => ?_, hs.others, hs.listen⟩
  · rw [hclosed]
    exact hs.refers fd m hfd
  · rw [hclosed] at hopen
    exact hs.held m hm hopen

theorem Sound.setConn (hs : Sound h isOpen s) (hpc : PcSound h (s.setConn n k) s.pc)
    (hclosed : k.closed = (s.conn n).closed) (hk : k.Sound) :
    Sound h isOpen (s.setConn n k) := by
  refine ⟨hpc, hs.held.setConn hclosed, fun m => ?_⟩
  by_cases hm : m = n
  · rwa [hm, State.conn_setConn_self]
  · rw [State.conn_setConn_of_ne hm]
    exact hs.conn m

theorem Sound.grow (hs : Sound h isOpen s) (hclosed : k.closed = (s.conn n).closed) (hk : k.Sound)
    (hread : (s.conn n).Readable → k.Readable) (hend : (s.conn n).Ended → k.Ended)
    (hfailed : (s.conn n).failed = true → k.failed = true) : Sound h isOpen (s.setConn n k) := by
  have hone : ∀ {P : Conn → Prop}, (P (s.conn n) → P k) →
      ∀ m, P (s.conn m) → P ((s.setConn n k).conn m) := by
    intro P hP m hm
    by_cases hmn : m = n
    · subst hmn
      rw [State.conn_setConn_self]
      exact hP hm
    · rwa [State.conn_setConn_of_ne hmn]
  have hpc : PcSound h (s.setConn n k) s.pc :=
    hs.pc.grow rfl (hone hread) (hone hend) (hone (P := fun k => k.failed = true) hfailed)
  exact hs.setConn hpc hclosed hk

theorem Conn.Sound.push (hk : k.Sound) (hopen : k.closed = false) (bytes : List Byte) :
    (k.push bytes).Sound := by
  refine ⟨?_, fun hclosed => by cases hopen.symm.trans hclosed⟩
  show k.arrived ++ bytes = k.received ++ (k.inbox ++ bytes)
  rw [hk.stream, List.append_assoc]

theorem Conn.Sound.shut (hk : k.Sound) : k.shut.Sound :=
  ⟨hk.stream, fun hclosed => (hk.closed hclosed).imp_left fun hend => ⟨hend.1, rfl⟩⟩

theorem Conn.Sound.recv (hk : k.Sound) (hopen : k.closed = false) (hr : k.recv result = some k') :
    k'.Sound ∧ k'.closed = false := by
  rcases result with bytes | _ | _
  · by_cases hne : bytes = []
    · subst hne
      obtain ⟨rfl, -⟩ := Conn.recv_end hr
      exact ⟨hk, hopen⟩
    · obtain ⟨rfl, -⟩ := Conn.recv_data hne hr
      refine ⟨⟨?_, fun hclosed => by cases hopen.symm.trans hclosed⟩, hopen⟩
      show k.arrived = k.received ++ k.inbox.take bytes.length ++ k.inbox.drop bytes.length
      rw [List.append_assoc, List.take_append_drop, hk.stream]
  · obtain rfl := Conn.recv_failed hr
    exact ⟨⟨hk.stream, fun _ => .inr rfl⟩, hopen⟩
  · obtain ⟨rfl, -⟩ := Conn.recv_again hr
    exact ⟨hk, hopen⟩

/-- Where the handler goes on behind `recv` on an open connection. -/
theorem pcSound_afterRecv (hfile : s'.file fd = .conn n) (hk : s'.conn n = k')
    (hpending : s'.Pending events) (hfd : fd ∉ clients events) (hread : h = .lt → k.Readable)
    (hr : k.recv result = some k') : PcSound h s' (afterRecv h fd events result) := by
  have hhas : ∀ {P : Conn → Prop}, P k' → s'.Has fd P := fun hP => ⟨n, hfile, by rwa [hk]⟩
  rcases result with bytes | _ | _
  · by_cases hne : bytes = []
    · subst hne
      obtain ⟨rfl, hend⟩ := Conn.recv_end hr
      cases h with
      | lt => exact ⟨hpending, hfd, nofun, .inl (hhas (.inl hend))⟩
      | et => exact ⟨hpending, hfd, fun _ => rfl, .inl (hhas (.inl hend))⟩
    · obtain ⟨het, hlt⟩ := afterRecv_data fd events hne
      cases h with
      | lt =>
        rw [hlt]
        exact hpending
      | et =>
        rw [het]
        exact ⟨hpending, hfd, .inl (hhas nofun)⟩
  · obtain rfl := Conn.recv_failed hr
    cases h with
    | lt | et => exact ⟨hpending, hfd, nofun, .inl (hhas (.inr ⟨rfl, rfl⟩))⟩
  · obtain ⟨rfl, hblock⟩ := Conn.recv_again hr
    cases h with
    | lt => exact absurd (hread rfl) hblock
    | et => exact hpending

theorem Sound.recv (hs : Sound h isOpen s) (hpc : s.pc = .receiving fd events)
    (hfile : s.file fd = .conn n) (hr : (s.conn n).recv result = some k) :
    Sound h isOpen ((s.setConn n k).goTo (afterRecv h fd events result)) := by
  have hopen := (hs.held.refers fd n hfile).2
  obtain ⟨hk, hclosed⟩ := (hs.conn n).recv hopen hr
  have hat := hs.pc
  rw [hpc] at hat
  obtain ⟨hpending, hfd, hhas⟩ := hat
  have hread : h = .lt → (s.conn n).Readable := by
    intro hlt
    rcases hhas with ⟨m, hm, hread⟩ | ⟨-, hnone⟩
    · obtain rfl := File.conn.inj (hm.symm.trans hfile)
      exact hread hlt
    · cases hnone.symm.trans hfile
  -- the events behind are of other connections
  have hrest : (s.setConn n k).Pending events := by
    refine hpending.frame fun fd' hfd' m hm => ⟨hm, fun hread => ?_⟩
    have hmn : m ≠ n := by
      rintro rfl
      exact hfd (hs.held.unique fd' fd m hm hfile ▸ hfd')
    rwa [State.conn_setConn_of_ne hmn]
  refine ⟨?_, ?_, fun m => ?_⟩
  · have hpc' : PcSound h (s.setConn n k) (afterRecv h fd events result) :=
      pcSound_afterRecv hfile State.conn_setConn_self hrest hfd hread hr
    exact hpc'
  · have hreturned : (s.setConn n k).pc ≠ .returned := by
      show s.pc ≠ .returned
      rw [hpc]
      nofun
    exact (hs.held.setConn (hclosed.trans hopen.symm)).goTo hreturned
  · by_cases hm : m = n
    · rw [hm, State.conn_goTo, State.conn_setConn_self]
      exact hk
    · rw [State.conn_goTo, State.conn_setConn_of_ne hm]
      exact hs.conn m

theorem Conn.Sound.close (hk : k.Sound) (hend : k.Ended ∨ k.failed = true) : k.close.Sound :=
  ⟨hk.stream, fun _ => hend⟩

/-- A descriptor is closed, which is `listen_fd` only when `main` returns. -/
theorem State.Held.close (hs : s.Held isOpen) {pc : Pc} (hfd : s.file fd ≠ .other)
    (hlisten : pc ≠ .returned → s.pc ≠ .returned ∧ fd ≠ s.listenFd) :
    ((s.close fd).goTo pc).Held isOpen := by
  have hfile : ∀ {fd' m}, (s.close fd).file fd' = .conn m → fd' ≠ fd ∧ s.file fd' = .conn m := by
    intro fd' m hm
    have hne : fd' ≠ fd := by
      rintro rfl
      rw [State.file_close_self] at hm
      cases hm
    rw [State.file_close_of_ne hne] at hm
    exact ⟨hne, hm⟩
  refine ⟨fun fd' m hm => ?_, fun fd₁ fd₂ m h₁ h₂ => ?_, fun m hm hopen => ?_, fun fd' => ?_,
    fun hpc => ?_⟩
  · obtain ⟨hne, hm⟩ := hfile hm
    rw [State.conn_goTo, State.conn_close_of_ne fun hfd => hne (hs.unique fd' fd m hm hfd)]
    exact hs.refers fd' m hm
  · exact hs.unique fd₁ fd₂ m (hfile h₁).2 (hfile h₂).2
  · rw [State.conn_goTo] at hopen
    by_cases hfd : s.file fd = .conn m
    · rw [State.conn_close_self hfd] at hopen
      cases hopen
    · rw [State.conn_close_of_ne hfd] at hopen
      obtain ⟨fd', hfd'⟩ := hs.held m hm hopen
      have hne : fd' ≠ fd := by
        rintro rfl
        exact hfd hfd'
      exact ⟨fd', by rwa [State.file_goTo, State.file_close_of_ne hne]⟩
  · rw [State.file_goTo]
    refine Iff.trans ?_ (hs.others fd')
    by_cases hne : fd' = fd
    · subst hne
      rw [State.file_close_self]
      exact iff_of_false nofun hfd
    · rw [State.file_close_of_ne hne]
  · obtain ⟨hreturned, hne⟩ := hlisten hpc
    exact (State.file_close_of_ne hne.symm).trans (hs.listen hreturned)

theorem Sound.close (hs : Sound h isOpen s) {goesOn : Bool}
    (hpc : s.pc = .closing fd goesOn events) :
    Sound h isOpen
      ((s.close fd).goTo (if goesOn then .receiving fd events else .handling events)) := by
  have hat := hs.pc
  rw [hpc] at hat
  obtain ⟨hpending, hfd, het, hclose⟩ := hat
  have hother : s.file fd ≠ .other := by
    intro hother
    rcases hclose with ⟨n, hn, -⟩ | ⟨-, hnone⟩
    · cases hother.symm.trans hn
    · cases hother.symm.trans hnone
  have hrest : (s.close fd).Pending events := by
    refine hpending.frame fun fd' hfd' m hm => ?_
    have hne : fd' ≠ fd := by
      rintro rfl
      exact hfd hfd'
    rw [State.file_close_of_ne hne, State.conn_close_of_ne]
    · exact ⟨hm, id⟩
    · exact fun hm' => hne (hs.held.unique fd' fd m hm hm')
  refine ⟨?_, ?_, fun m => ?_⟩
  · cases goesOn with
    | false => exact hrest
    | true => exact ⟨hrest, hfd, .inr ⟨het rfl, State.file_close_self⟩⟩
  · refine hs.held.close hother fun _ => ⟨by rw [hpc]; nofun, ?_⟩
    rintro rfl
    have hlisten := hs.held.listen (by rw [hpc]; nofun)
    rcases hclose with ⟨n, hn, -⟩ | ⟨-, hnone⟩
    · cases hlisten.symm.trans hn
    · cases hlisten.symm.trans hnone
  · rw [State.conn_goTo]
    by_cases hm : s.file fd = .conn m
    · rw [State.conn_close_self hm]
      rcases hclose with ⟨n, hn, hend⟩ | ⟨-, hnone⟩
      · obtain rfl := File.conn.inj (hm.symm.trans hn)
        exact (hs.conn m).close (hend.imp_right And.right)
      · cases hnone.symm.trans hm
    · rw [State.conn_close_of_ne hm]
      exact hs.conn m

theorem Sound.accept (hs : Sound h isOpen s) (hpc : s.pc = .handling (.listen :: events))
    (hfd : s.file fd = .none) : Sound h isOpen ((s.openConn fd).goTo (.handling events)) := by
  have hat := hs.pc
  rw [hpc] at hat
  have hfile : ∀ {fd' m}, s.file fd' = .conn m →
      (s.openConn fd).file fd' = .conn m ∧ (s.openConn fd).conn m = s.conn m := by
    intro fd' m hm
    refine ⟨(Function.update_of_ne ?_ ..).trans hm, Function.update_of_ne ?_ ..⟩
    · rintro rfl
      cases hfd.symm.trans hm
    · exact (hs.held.refers fd' m hm).1.ne
  have hself : (s.openConn fd).file fd = .conn s.accepted := Function.update_self ..
  have hcases : ∀ {fd' m}, (s.openConn fd).file fd' = .conn m →
      fd' = fd ∧ m = s.accepted ∨ s.file fd' = .conn m := by
    intro fd' m hm
    by_cases hne : fd' = fd
    · subst hne
      exact .inl ⟨rfl, File.conn.inj (hm.symm.trans hself)⟩
    · exact .inr ((Function.update_of_ne hne ..).symm.trans hm)
  have hnew : (s.openConn fd).conn s.accepted = .new := Function.update_self ..
  refine ⟨?_, ⟨fun fd' m hm => ?_, fun fd₁ fd₂ m h₁ h₂ => ?_, fun m hm hopen => ?_, fun fd' => ?_,
    fun _ => ?_⟩, fun m => ?_⟩
  · have hpending : (s.openConn fd).Pending events :=
      hat.tail.frame fun fd' _ m hm => ⟨(hfile hm).1, fun hread => by rwa [(hfile hm).2]⟩
    exact hpending
  · rcases hcases hm with ⟨-, rfl⟩ | hm
    · exact ⟨Nat.lt_succ_self _, by rw [State.conn_goTo, hnew]; rfl⟩
    · obtain ⟨hlt, hopen⟩ := hs.held.refers fd' m hm
      exact ⟨Nat.lt_succ_of_lt hlt, by rwa [State.conn_goTo, (hfile hm).2]⟩
  · rcases hcases h₁ with ⟨rfl, rfl⟩ | h₁'
    · rcases hcases h₂ with ⟨rfl, -⟩ | h₂
      · rfl
      · exact absurd (hs.held.refers fd₂ _ h₂).1 (lt_irrefl _)
    · rcases hcases h₂ with ⟨rfl, rfl⟩ | h₂
      · exact absurd (hs.held.refers fd₁ _ h₁').1 (lt_irrefl _)
      · exact hs.held.unique fd₁ fd₂ m h₁' h₂
  · by_cases hlt : m = s.accepted
    · subst hlt
      exact ⟨fd, hself⟩
    · have hm : m < s.accepted + 1 := hm
      rw [State.conn_goTo, show (s.openConn fd).conn m = s.conn m from
        Function.update_of_ne hlt ..] at hopen
      obtain ⟨fd', hfd'⟩ := hs.held.held m (by omega) hopen
      exact ⟨fd', (hfile hfd').1⟩
  · refine Iff.trans ?_ (hs.held.others fd')
    by_cases hne : fd' = fd
    · subst hne
      rw [State.file_goTo, hself, hfd]
      exact iff_of_false nofun nofun
    · rw [State.file_goTo, show (s.openConn fd).file fd' = s.file fd' from
        Function.update_of_ne hne ..]
  · have hlisten := hs.held.listen (by rw [hpc]; nofun)
    refine (Function.update_of_ne (fun hne : s.listenFd = fd => ?_) ..).trans hlisten
    rw [hne] at hlisten
    cases hfd.symm.trans hlisten
  · rw [State.conn_goTo]
    by_cases hm : m = s.accepted
    · rw [hm, hnew]
      exact ⟨rfl, nofun⟩
    · rw [show (s.openConn fd).conn m = s.conn m from Function.update_of_ne hm ..]
      exact hs.conn m

theorem Sound.wait (hs : Sound h isOpen s) (hpc : s.pc = .waiting) (hreports : s.Reports events) :
    Sound h isOpen (s.goTo (.handling events)) := by
  refine hs.goTo (by rw [hpc]; nofun) ⟨hreports.2.2.1, fun fd epollIn he => ?_⟩
  have hready : s.ReadyFor epollIn (s.file fd) := hreports.2.2.2 _ he
  cases hfile : s.file fd with
  | none | listen | other =>
    rw [hfile] at hready
    exact hready.elim
  | conn n =>
    rw [hfile] at hready
    exact ⟨n, hfile, hready⟩

theorem Sound.step (hs : Sound h isOpen s) (hstep : (loopLTS h).step s a s') :
    Sound h isOpen s' := by
  have hat := hs.pc
  cases moves_of_next hstep with
  | wait hpc hreports => exact hs.wait hpc hreports
  | fail hpc | ret hpc => exact hs.goTo (by rw [hpc]; nofun) trivial
  | exit hpc =>
    have hlisten := hs.held.listen (by rw [hpc]; nofun)
    have hconn : (s.close s.listenFd).conn = s.conn := by
      funext n
      refine State.conn_close_of_ne fun hn => ?_
      cases hlisten.symm.trans hn
    refine ⟨trivial, hs.held.close ?_ fun h => absurd rfl h, fun n => ?_⟩
    · rw [hlisten]
      nofun
    · rw [State.conn_goTo, hconn]
      exact hs.conn n
  | accept hpc hfd => exact hs.accept hpc hfd
  | acceptNone hpc | other hpc =>
    rw [hpc] at hat
    exact hs.goTo (by rw [hpc]; nofun) hat.tail
  | @read fd events hpc =>
    rw [hpc] at hat
    have hhas := hat.2 fd true List.mem_cons_self
    refine hs.goTo (by rw [hpc]; nofun)
      ⟨hat.tail, hat.notMem, .inl (hhas.frame fun n hn => ⟨hn, ?_⟩)⟩
    exact fun hread _ => hread rfl
  | recv hpc hfile hr => exact hs.recv hpc hfile hr
  | @recvBad fd events hpc hfile =>
    rw [hpc] at hat
    obtain ⟨hpending, hfd, ⟨n, hn, -⟩ | ⟨-, hnone⟩⟩ := hat
    · exact absurd hn (hfile n)
    · exact hs.goTo (by rw [hpc]; nofun) ⟨hpending, hfd, nofun, .inr ⟨rfl, hnone⟩⟩
  | close hpc => exact hs.close hpc
  | arrive hn hopen hpeer hne =>
    refine hs.grow rfl ((hs.conn _).push hopen _) (fun hread => ?_) (fun hend => ?_) id
    · exact hread.imp (fun hinbox => by simp [Conn.push, hinbox]) id
    · cases hpeer.symm.trans hend.2
  | shut hn hopen hpeer =>
    refine hs.grow rfl (hs.conn _).shut (fun hread => .inr rfl) (fun hend => ?_) id
    cases hpeer.symm.trans hend.2

theorem sound_of_run {listenFd : ℕ} {actions : List Action}
    (hrun : (loopLTS h).Run (.init listenFd isOpen) actions s) : Sound h isOpen s :=
  hrun.invariant (sound_init h listenFd isOpen) fun _ _ _ hs hstep => hs.step hstep

theorem listenFd_of_run {listenFd : ℕ} {actions : List Action}
    (hrun : (loopLTS h).Run (.init listenFd isOpen) actions s) : s.listenFd = listenFd := by
  refine hrun.invariant (I := fun s => s.listenFd = listenFd) rfl fun u a w hu hstep => ?_
  cases moves_of_next hstep <;> exact hu

theorem Sound.serves (hs : Sound h isOpen s) (hn : n < s.accepted) : s.Serves n := by
  refine ⟨⟨_, (hs.conn n).stream.symm⟩, fun hopen => ?_, fun hclosed => ⟨fun fd hfd => ?_, ?_⟩⟩
  · obtain ⟨fd, hfd⟩ := hs.held.held n hn hopen
    exact ⟨fd, hfd, fun fd' hfd' => hs.held.unique fd' fd n hfd' hfd⟩
  · cases hclosed.symm.trans (hs.held.refers fd n hfd).2
  · refine ((hs.conn n).closed hclosed).imp_left fun hend => ⟨?_, hend.2⟩
    rw [(hs.conn n).stream, hend.1, List.append_nil]

/-- **Each descriptor is closed for its own connection.**  With either handler, whatever arrives in
between and whichever descriptors the connections get: each connection has one descriptor until it
is closed, which happens behind the end of its stream or an error; `close` finds such a connection
or, when `et` calls it again, nothing; `listen_fd` stays open until `main` returns, and the other
descriptors of the process stay open. -/
theorem serves_of_run (h : Handler) (listenFd : ℕ) (isOpen : ℕ → Bool) {actions : List Action}
    (hrun : (loopLTS h).Run (.init listenFd isOpen) actions s) :
    (∀ n < s.accepted, s.Serves n) ∧
      (∀ fd, s.file fd = .other ↔ isOpen fd = true ∧ fd ≠ listenFd) ∧
      (s.pc ≠ .returned → s.file listenFd = .listen) ∧
      ∀ fd goesOn events, s.pc = .closing fd goesOn events →
        s.file fd = .none ∨ s.Has fd fun k => k.Ended ∨ k.failed = true := by
  have hs := sound_of_run hrun
  obtain rfl := listenFd_of_run hrun
  refine ⟨fun n hn => hs.serves hn, hs.held.others, hs.held.listen, fun fd goesOn events hpc => ?_⟩
  have hat := hs.pc
  rw [hpc] at hat
  obtain ⟨-, -, -, hhas | ⟨-, hnone⟩⟩ := hat
  · exact .inr (hhas.frame fun n hn => ⟨hn, fun hk => hk.imp_right And.right⟩)
  · exact .inl hnone

/-- The end of a stream, the next connection with the same descriptor, and the end of `main`. -/
def reuseActions : List Action :=
  [.wait [.listen], .accept (some 5), .arrive 0 [104, 105], .ret, .shut 0,
    .wait [.client 5 true, .listen], .read, .recv (.data [104, 105]), .recv (.data []), .close,
    .recv (.failed false), .close, .accept (some 5), .ret, .fail, .exit]

theorem serves_of_run_reuse : ∃ s, (loopLTS .et).Run (.init 3 (· < 5)) reuseActions s ∧
    s.file 5 = .conn 1 ∧ s.file 3 = .none ∧ s.Serves 0 ∧ s.Serves 1 := by
  have hrun : (loopLTS .et).Run (.init 3 (· < 5)) reuseActions _ := LTS.run_of_foldlM rfl
  have hserves := (serves_of_run .et 3 (· < 5) hrun).1
  exact ⟨_, hrun, rfl, rfl, hserves 0 (by decide), hserves 1 (by decide)⟩

end EventLoop

end LinuxServer
