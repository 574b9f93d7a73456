import LinuxServer.Epoll.Basic
import LinuxServer.LTS.Basic
import Mathlib.Data.Int.Notation

/-!
# Accepting on an edge-triggered descriptor

The event loop of `main` in `epoll.cc` with its handler `et`.  The listening descriptor is
registered with `EPOLLET`: it is reported once for the connections that arrive until it is reported.
`et` calls `accept` once for each report, and does not look at its result: when it fails for want of
a descriptor, the connection goes on waiting.

* `Server`: the accept backlog, the edge that `epoll_wait` has still to report, and where the
  program is.
* `next`, `etLTS`: one step of the program, or the arrival of a connection.
* `NoneLeft s`: where `et` has returned and no edge is pending, no connection waits.
* `Drains s a`: the step leaves no connection behind.
* `none_left_of_drains`: so it is as long as the steps drain; a step that does not drain can be
  followed by steps to a state with a connection left behind.
-/

namespace LinuxServer

namespace Epoll

/-- Where the program is. -/
inductive ServerPc where
  /-- At `epoll_wait`; `et` has returned. -/
  | waiting
  /-- In the loop of `et`, with the events still to handle. -/
  | handling (events : List Event)
  /-- At `recv` for a descriptor, with the events behind. -/
  | receiving (fd : ℕ) (events : List Event)
  /-- The loop of `main` is left. -/
  | left
  deriving DecidableEq, Repr

/-- The events still to handle. -/
def ServerPc.events : ServerPc → List Event
  | .handling events | .receiving _ events => events
  | .waiting | .left => []

/-- The program and what the kernel holds for `listen_fd`. -/
structure Server where
  /-- The connections to accept. -/
  backlog : ℕ
  /-- A connection has arrived since `listen_fd` was last reported. -/
  edge : Bool
  pc : ServerPc
  deriving DecidableEq, Repr

/-- The steps. -/
inductive Action where
  /-- A connection arrives. -/
  | arrive
  /-- `epoll_wait` reports the events. -/
  | wait (events : List Event)
  /-- `epoll_wait` fails. -/
  | fail
  /-- `accept` takes a connection, or fails and leaves what waits. -/
  | accept (taken : Bool)
  /-- The loop of `et` comes to a descriptor to read. -/
  | read
  /-- `recv` returns. -/
  | recv (ret : ℤ)
  /-- `something else happened` -/
  | other
  /-- `et` returns. -/
  | ret
  deriving DecidableEq, Repr

/-- After `add_fd(epoll_fd, listen_fd, true)`, with the connections that have arrived before. -/
def Server.init (backlog : ℕ) : Server := ⟨backlog, 0 < backlog, .waiting⟩

/-- `epoll_wait` may report the events: `listen_fd` once, and only when an edge is pending. -/
def Server.Reports (s : Server) (events : List Event) : Prop :=
  events ≠ [] ∧ events.length ≤ maxEventNumber ∧ events.count .listen ≤ 1 ∧
    (.listen ∈ events → s.edge = true)

instance (s : Server) (events : List Event) : Decidable (s.Reports events) :=
  inferInstanceAs (Decidable (_ ∧ _ ∧ _ ∧ _))

/-- One step, if it is possible. -/
def next (s : Server) : Action → Option Server
  | .arrive => some { s with backlog := s.backlog + 1, edge := true }
  | .wait events => match s.pc with
    | .waiting =>
      if s.Reports events then
        some { s with edge := s.edge && decide (.listen ∉ events), pc := .handling events }
      else none
    | _ => none
  | .fail => match s.pc with
    | .waiting => some { s with pc := .left }
    | _ => none
  -- `EAGAIN` where none waits, and `EMFILE` or `ENFILE` at any time; `add_fd` then fails on `-1`
  | .accept taken => match s.pc with
    | .handling (.listen :: events) =>
      if taken then
        if 0 < s.backlog then
          some { s with backlog := s.backlog - 1, pc := .handling events }
        else none
      else some { s with pc := .handling events }
    | _ => none
  | .read => match s.pc with
    | .handling (.client fd true :: events) => some { s with pc := .receiving fd events }
    | _ => none
  -- the loop goes on until `recv` fails, also when the peer has closed
  | .recv ret => match s.pc with
    | .receiving _ events => some (if ret < 0 then { s with pc := .handling events } else s)
    | _ => none
  | .other => match s.pc with
    | .handling (.client _ false :: events) => some { s with pc := .handling events }
    | _ => none
  | .ret => match s.pc with
    | .handling [] => some { s with pc := .waiting }
    | _ => none

/-- The runs of the program, with connections arriving in between. -/
def etLTS : LTS Server Action := .ofNext next

/-- Where `et` has returned and no edge is pending for `listen_fd`, no connection waits. -/
def NoneLeft (s : Server) : Prop :=
  s.pc = .waiting ∨ s.pc = .left → s.edge = false → s.backlog = 0

/-- Unless a further connection has arrived since `listen_fd` was reported: `accept` takes the last
connection, or fails where none waits. -/
def Drains (s : Server) : Action → Prop
  | .accept taken => s.backlog ≤ taken.toNat ∨ s.edge = true
  | _ => True

instance (s : Server) (a : Action) : Decidable (Drains s a) :=
  match a with
  | .accept _ => inferInstanceAs (Decidable (_ ∨ _))
  | .arrive | .wait _ | .fail | .read | .recv _ | .other | .ret => .isTrue trivial

/-- What a step can do. -/
inductive Moves (s : Server) : Action → Server → Prop where
  | arrive : Moves s .arrive { s with backlog := s.backlog + 1, edge := true }
  | wait {events} : s.pc = .waiting → s.Reports events →
      Moves s (.wait events)
        { s with edge := s.edge && decide (.listen ∉ events), pc := .handling events }
  | fail : s.pc = .waiting → Moves s .fail { s with pc := .left }
  | accept {events} : s.pc = .handling (.listen :: events) → 0 < s.backlog →
      Moves s (.accept true) { s with backlog := s.backlog - 1, pc := .handling events }
  | acceptNone {events} : s.pc = .handling (.listen :: events) →
      Moves s (.accept false) { s with pc := .handling events }
  | read {fd events} : s.pc = .handling (.client fd true :: events) →
      Moves s .read { s with pc := .receiving fd events }
  | recvLast {fd events ret} : s.pc = .receiving fd events → ret < 0 →
      Moves s (.recv ret) { s with pc := .handling events }
  | recv {fd events ret} : s.pc = .receiving fd events → ¬ ret < 0 → Moves s (.recv ret) s
  | other {fd events} : s.pc = .handling (.client fd false :: events) →
      Moves s .other { s with pc := .handling events }
  | ret : s.pc = .handling [] → Moves s .ret { s with pc := .waiting }

variable {s s' : Server} {a : Action} {events : List Event} {n : ℕ} {ops : List Action}

theorem moves_of_next (h : next s a = some s') : Moves s a s' := by
  cases a with
  | arrive =>
    obtain rfl := Option.some.inj h
    exact .arrive
  | wait events =>
    simp only [next] at h
    split at h
    · rename_i hpc
      split_ifs at h with hreports
      obtain rfl := Option.some.inj h
      exact .wait hpc hreports
    · cases h
  | recv ret =>
    simp only [next] at h
    split at h
    · rename_i hpc
      split_ifs at h with hret
      · obtain rfl := Option.some.inj h
        exact .recvLast hpc hret
      · obtain rfl := Option.some.inj h
        exact .recv hpc hret
    · cases h
  | accept taken =>
    simp only [next] at h
    split at h
    · rename_i hpc
      split_ifs at h with htaken hwaits
      · obtain rfl := Option.some.inj h
        obtain rfl := htaken
        exact .accept hpc hwaits
      · obtain rfl := Option.some.inj h
        obtain rfl := Bool.eq_false_iff.2 htaken
        exact .acceptNone hpc
    · cases h
  | fail | read | other | ret =>
    simp only [next] at h
    split at h
    · rename_i hpc
      obtain rfl := Option.some.inj h
      constructor
      exact hpc
    · cases h

/-- A connection that waits is still to be reported, or the report is still to be handled. -/
def Attended (s : Server) : Prop := s.edge = true ∨ s.backlog = 0 ∨ .listen ∈ s.pc.events

/-- The events to handle hold `listen_fd` once at most. -/
def ListenOnce (s : Server) : Prop := s.pc.events.count .listen ≤ 1

theorem attended_init (n : ℕ) : Attended (.init n) := by
  cases n with
  | zero => exact .inr (.inl rfl)
  | succ n => exact .inl (decide_eq_true (Nat.succ_pos n))

theorem Attended.noneLeft (hs : Attended s) : NoneLeft s := by
  intro hpc hedge
  have hevents : s.pc.events = [] := by rcases hpc with hpc | hpc <;> rw [hpc] <;> rfl
  obtain h | h | h := hs
  · rw [h] at hedge
    cases hedge
  · exact h
  · rw [hevents] at h
    cases h

theorem Attended.step (hs : Attended s) (h : Moves s a s') (hdrains : Drains s a) :
    Attended s' := by
  cases h with
  | arrive => exact .inl rfl
  | @wait events hpc hreports =>
    by_cases hlisten : .listen ∈ events
    · exact .inr (.inr hlisten)
    · -- `listen_fd` is not among the events, so what was to be reported still is
      obtain h | h | h := hs
      · exact .inl (by simp [h, hlisten])
      · exact .inr (.inl h)
      · rw [hpc] at h
        cases h
  | accept =>
    obtain h | h := hdrains
    · exact .inr (.inl (Nat.sub_eq_zero_of_le h))
    · exact .inl h
  | acceptNone =>
    obtain h | h := hdrains
    · exact .inr (.inl (Nat.le_zero.1 h))
    · exact .inl h
  | recv => exact hs
  | fail hpc | read hpc | recvLast hpc _ | other hpc | ret hpc =>
    simpa [Attended, hpc, ServerPc.events] using hs

theorem ListenOnce.step (hs : ListenOnce s) (h : Moves s a s') : ListenOnce s' := by
  cases h with
  | arrive | recv => exact hs
  | wait _ hreports => exact hreports.2.2.1
  | fail | ret => exact Nat.zero_le _
  | accept hpc _ | acceptNone hpc | read hpc | recvLast hpc _ | other hpc =>
    rw [ListenOnce, hpc] at hs
    exact (List.Sublist.count_le _ (by simp [ServerPc.events])).trans hs

theorem listenOnce_of_run (h : etLTS.Run (.init n) ops s) : ListenOnce s :=
  h.invariant (Nat.zero_le _) fun _ _ _ hu hstep => hu.step (moves_of_next hstep)

theorem notMem_of_listenOnce (hs : ListenOnce s) (hpc : s.pc = .handling (.listen :: events)) :
    .listen ∉ events := by
  rw [ListenOnce, hpc, ServerPc.events, List.count_cons_self] at hs
  exact List.count_eq_zero.1 (by omega)

theorem exists_return (hpc : s.pc = .handling events) (hlisten : .listen ∉ events) :
    ∃ ops, etLTS.Run s ops { s with pc := .waiting } := by
  induction events generalizing s with
  | nil => exact ⟨[.ret], .single (by simp [etLTS, LTS.ofNext, next, hpc])⟩
  | cons event events ih =>
    obtain ⟨hne, hrest⟩ := not_or.1 fun h => hlisten (List.mem_cons.2 h)
    obtain ⟨ops, hops⟩ := ih (s := { s with pc := .handling events }) rfl hrest
    cases event with
    | listen => exact absurd rfl hne
    | client fd epollIn =>
      cases epollIn with
      | true =>
        have hread : etLTS.step s .read { s with pc := .receiving fd events } := by
          simp [etLTS, LTS.ofNext, next, hpc]
        have hrecv : etLTS.step { s with pc := .receiving fd events } (.recv (-1))
            { s with pc := .handling events } := by
          simp [etLTS, LTS.ofNext, next]
        exact ⟨_, .cons hread (.cons hrecv hops)⟩
      | false =>
        have hother : etLTS.step s .other { s with pc := .handling events } := by
          simp [etLTS, LTS.ofNext, next, hpc]
        exact ⟨_, .cons hother hops⟩

/-- `et` returns, and a connection goes on waiting. -/
theorem exists_left_behind (hpc : s.pc = .handling events) (hlisten : .listen ∉ events)
    (hedge : s.edge = false) (hbacklog : s.backlog ≠ 0) :
    ∃ ops v, etLTS.Run s ops v ∧ ¬ NoneLeft v := by
  obtain ⟨ops, hops⟩ := exists_return hpc hlisten
  exact ⟨ops, _, hops, fun hleft => hbacklog (hleft (.inl rfl) hedge)⟩

/-- As long as the steps drain, no connection is left behind; after a step of a run that does not,
`et` can return with one left behind. -/
theorem none_left_of_drains (n : ℕ) (ops : List Action) (s : Server) :
    ((etLTS.guard Drains).Run (.init n) ops s → NoneLeft s) ∧
      (etLTS.Run (.init n) ops s → ∀ a u, etLTS.step s a u → ¬ Drains s a →
        ∃ ops' v, etLTS.Run u ops' v ∧ ¬ NoneLeft v) := by
  constructor
  · intro h
    exact (h.invariant (attended_init n)
      fun _ _ _ hu hstep => hu.step (moves_of_next hstep.1) hstep.2).noneLeft
  · intro h a u hstep hdrains
    have honce := listenOnce_of_run h
    cases moves_of_next hstep with
    | @accept events hpc _ =>
      obtain ⟨hbacklog, hedge⟩ := not_or.1 hdrains
      have hlisten := notMem_of_listenOnce honce hpc
      exact exists_left_behind rfl hlisten (Bool.eq_false_iff.2 hedge)
        (Nat.sub_ne_zero_of_lt (Nat.not_le.1 hbacklog))
    | @acceptNone events hpc =>
      obtain ⟨hbacklog, hedge⟩ := not_or.1 hdrains
      have hlisten := notMem_of_listenOnce honce hpc
      exact exists_left_behind rfl hlisten (Bool.eq_false_iff.2 hedge)
        fun hzero => hbacklog (Nat.le_zero.2 hzero)
    | _ => exact absurd trivial hdrains

/-- The second connection arrives while `et` handles the report of the first one. -/
theorem none_left_of_drains_two :
    ((etLTS.guard Drains).Run (.init 0)
      [.arrive, .wait [.client 7 true, .listen], .read, .arrive, .recv 30, .recv (-1),
        .accept true, .ret, .wait [.listen], .accept true, .ret] ⟨0, false, .waiting⟩) ∧
      NoneLeft ⟨0, false, .waiting⟩ := by
  have hrun : (etLTS.guard Drains).Run (.init 0)
      [.arrive, .wait [.client 7 true, .listen], .read, .arrive, .recv 30, .recv (-1),
        .accept true, .ret, .wait [.listen], .accept true, .ret] ⟨0, false, .waiting⟩ :=
    LTS.run_guard_of_foldlM rfl
  exact ⟨hrun, (none_left_of_drains 0 _ _).1 hrun⟩

/-- Two connections arrive before `listen_fd` is reported; one is accepted. -/
theorem not_none_left_two : ¬ ∀ n ops s, etLTS.Run (.init n) ops s → NoneLeft s := by
  intro hall
  have hrun : etLTS.Run (.init 0) [.arrive, .arrive, .wait [.listen], .accept true, .ret]
      ⟨1, false, .waiting⟩ := LTS.run_of_foldlM rfl
  exact absurd (hall _ _ _ hrun (.inl rfl) rfl) Nat.one_ne_zero

end Epoll

end LinuxServer
