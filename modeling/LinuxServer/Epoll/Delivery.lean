import LinuxServer.Counting.Basic
import LinuxServer.Epoll.Traffic
import Mathlib.Algebra.BigOperators.Group.Finset.Basic
import Mathlib.Algebra.Order.BigOperators.Group.Finset

/-!
# Everything that arrives is received

What the program of `epoll_one_shot.cc` does when nothing new happens: no connection comes in, no
byte arrives, and no call fails but with `EAGAIN`.

* `Traffic.work`: the steps that are still to be made at most.
* `ownLTS`: the steps of the threads by themselves.
* `Delivered t u`: in `u` all is received that had arrived in `t`.

`delivers`: left alone the threads come to a stop, and where they stop all is received.
-/

namespace LinuxServer

namespace OneShot

open Epoll (Event maxEventNumber)

variable {t u v : Traffic} {l : Step} {a : Action} {p : Program} {sock : ℕ → Sock} {fd : ℕ}
  {F : Finset ℕ}

/-! ### The steps still to be made -/

/-- The steps that an event in the ready list makes at most. -/
def eventWork : ℕ := 11

/-- A step for each byte, and those that the event makes. -/
def Sock.work (k : Sock) : ℕ := k.inbox.length + if k.ready = true then eventWork else 0

/-- The steps of a worker, and those of the event that `reset_one_shot` makes ready. -/
def WorkerPc.work (sock : ℕ → Sock) : WorkerPc → ℕ
  | .starting _ => 5
  | .haveSock _ _ => 4
  | .receiving _ _ _ => 3
  | .closing _ _ => 2
  | .rearming _ fd _ => 2 + if (sock fd).Readable then eventWork else 0
  | .ending => 1
  | .done => 0

/-- The steps of `main` until it waits, and those of the workers that it creates. -/
def MainPc.work : MainPc → ℕ
  | .handling events => 1 + 9 * events.length
  | .writingSock _ events => 9 + 9 * events.length
  | .creating _ events => 8 + 9 * events.length
  | .leaving _ events => 2 + 9 * events.length
  | .waiting | .left => 0

/-- The steps still to be made, when the connections are in `F`. -/
def Traffic.work (F : Finset ℕ) (t : Traffic) : ℕ :=
  ∑ fd ∈ F, (t.sock fd).work + (t.program.workers.map (WorkerPc.work t.sock)).sum +
    t.program.pc.work

/-- A step of a thread that needs no new connection and no failure of a call. -/
def Step.isOwn : Step → Bool
  | .prog (.wait events) => events.all fun e => e.client?.isSome
  | .prog .fail | .prog (.accept (some _)) => false
  | .prog (.recv _ ret eagain) => !(decide (ret < 0) && !eagain)
  | .prog _ => true
  | .arrive _ _ | .shut _ => false

/-- The steps that the threads make when they are left alone. -/
def ownLTS : LTS Traffic Step := (trafficLTS.guard Traffic.HandsOver).guard fun _ l => l.isOwn

/-- The open connections are in `F`. -/
def Within (F : Finset ℕ) (s : Program) : Prop := ∀ fd ∉ F, s.conn fd = .closed

theorem work_worker_mono {sock' : ℕ → Sock} (h : ∀ fd, (sock' fd).Readable → (sock fd).Readable)
    (pc : WorkerPc) : pc.work sock' ≤ pc.work sock := by
  cases pc with
  | rearming event fd epollFd =>
    simp only [WorkerPc.work]
    split_ifs with hread' hread
    · exact Nat.le_refl _
    · exact absurd (h fd hread') hread
    · exact Nat.le_add_right _ _
    · exact Nat.le_refl _
  | starting | haveSock | receiving | closing | ending | done => exact Nat.le_refl _

theorem work_workers_mono {sock' : ℕ → Sock}
    (h : ∀ fd, (sock' fd).Readable → (sock fd).Readable) (workers : List WorkerPc) :
    (workers.map (WorkerPc.work sock')).sum ≤ (workers.map (WorkerPc.work sock)).sum := by
  induction workers with
  | nil => exact Nat.le_refl _
  | cons pc workers ih =>
    rw [List.map_cons, List.map_cons, List.sum_cons, List.sum_cons]
    exact Nat.add_le_add (work_worker_mono h pc) ih

theorem sum_report {fds : List ℕ} (hnodup : fds.Nodup) (hF : ∀ fd ∈ fds, fd ∈ F)
    (hready : ∀ fd ∈ fds, (t.sock fd).ready = true) :
    ∑ fd ∈ F, (report t.sock fds fd).work + eventWork * fds.length =
      ∑ fd ∈ F, (t.sock fd).work := by
  have hcount : ∑ fd ∈ F, (if fd ∈ fds then eventWork else 0) = eventWork * fds.length := by
    have hfilter : F.filter (· ∈ fds) = fds.toFinset := by
      ext fd
      simp only [Finset.mem_filter, List.mem_toFinset]
      exact ⟨And.right, fun h => ⟨hF fd h, h⟩⟩
    rw [← Finset.sum_filter, hfilter, Finset.sum_const_nat fun _ _ => rfl,
      List.toFinset_card_of_nodup hnodup, Nat.mul_comm]
  rw [← hcount, ← Finset.sum_add_distrib]
  refine Finset.sum_congr rfl fun fd _ => ?_
  by_cases hfd : fd ∈ fds
  · simp [report_of_mem, hfd, Sock.work, hready fd hfd]
  · simp [report_of_notMem, hfd]

theorem work_moveWorker {i : ℕ} {pc pc' : WorkerPc} (hi : t.program.workers[i]? = some pc)
    (hwork : pc'.work t.sock < pc.work t.sock) :
    Traffic.work F ⟨t.program.moveWorker i pc', t.sock⟩ < t.work F := by
  have hsum := Holders.sum_map_set (WorkerPc.work t.sock) hi pc'
  simp only [Traffic.work, Program.moveWorker]
  omega

theorem work_main {pc : MainPc} (hpc : p.pc = pc) (hworkers : p.workers = t.program.workers)
    (hwork : pc.work < t.program.pc.work) : Traffic.work F ⟨p, t.sock⟩ < t.work F := by
  simp only [Traffic.work, hpc, hworkers]
  omega

theorem Within.mem {s : Program} (h : Within F s) (hopen : s.conn fd ≠ .closed) : fd ∈ F := by
  by_contra hfd
  exact hopen (h fd hfd)

theorem work_wait {events : List Event} (hF : Within F t.program)
    (hpc : t.program.pc = .waiting) (hreports : t.program.Reports events) (hne : events ≠ [])
    (hcan : ∀ e ∈ events, t.CanReport e) (hown : ∀ e ∈ events, e.client?.isSome) :
    Traffic.work F
      ⟨{ t.program.consume (events.filterMap Event.client?) with pc := .handling events },
        report t.sock (events.filterMap Event.client?)⟩ < t.work F := by
  have hready : ∀ fd ∈ events.filterMap Event.client?, (t.sock fd).ready = true := by
    intro fd hfd
    obtain ⟨e, he, hclient⟩ := List.mem_filterMap.1 hfd
    cases e with
    | listen => cases hclient
    | client fd' epollIn =>
      obtain rfl := Option.some.inj hclient
      exact (hcan _ he).2
  have hsum := sum_report (t := t) (F := F) hreports.2.1
    (fun fd hfd => hF.mem (by rw [hreports.2.2 fd hfd]; nofun)) hready
  have hlen : (events.filterMap Event.client?).length = events.length :=
    List.filterMap_length_eq_length.2 hown
  have hread : ∀ fd, (report t.sock (events.filterMap Event.client?) fd).Readable →
      (t.sock fd).Readable := by
    intro fd hfd
    by_cases hmem : fd ∈ events.filterMap Event.client?
    · simpa [report_of_mem hmem] using hfd
    · rwa [report_of_notMem hmem] at hfd
  have hworkers := work_workers_mono hread t.program.workers
  have hpos : 0 < events.length := List.length_pos_iff.2 hne
  rw [hlen, eventWork] at hsum
  simp only [Traffic.work, Program.consume, MainPc.work, hpc]
  omega

theorem work_recv {n : ℕ} (hpos : 0 < n) (hn : n ≤ (t.sock fd).inbox.length) (hfd : fd ∈ F) :
    Traffic.work F ⟨t.program, Function.update t.sock fd ((t.sock fd).take n)⟩ < t.work F := by
  have hsum := Counting.sum_update Sock.work t.sock hfd ((t.sock fd).take n)
  have hread : ∀ fd', (Function.update t.sock fd ((t.sock fd).take n) fd').Readable →
      (t.sock fd').Readable := by
    intro fd' hfd'
    by_cases h : fd' = fd
    · subst h
      exact .inl (List.ne_nil_of_length_pos (Nat.lt_of_lt_of_le hpos hn))
    · rwa [Function.update_of_ne h] at hfd'
  have hworkers := work_workers_mono hread t.program.workers
  have hsock : ((t.sock fd).take n).work + n = (t.sock fd).work := by
    show ((t.sock fd).inbox.drop n).length + (if (t.sock fd).ready = true then eventWork else 0) +
      n = (t.sock fd).inbox.length + (if (t.sock fd).ready = true then eventWork else 0)
    rw [List.length_drop]
    omega
  simp only [Traffic.work]
  omega

theorem work_rearm {i event epollFd : ℕ} (hfd : fd ∈ F)
    (hi : t.program.workers[i]? = some (.rearming event fd epollFd)) :
    Traffic.work F ⟨(t.program.setConn fd .armed).moveWorker i .ending, rearm t.sock fd⟩ <
      t.work F := by
  have hsum := Counting.sum_update Sock.work t.sock hfd
    ((t.sock fd).setReady (decide (t.sock fd).Readable))
  have hread : ∀ fd', (rearm t.sock fd fd').Readable → (t.sock fd').Readable := by
    intro fd' hfd'
    by_cases h : fd' = fd
    · subst h
      simpa [rearm_self] using hfd'
    · rwa [rearm_of_ne h] at hfd'
  have hworkers := work_workers_mono hread (t.program.workers.set i .ending)
  have hset := Holders.sum_map_set (WorkerPc.work t.sock) hi .ending
  have hsock : ((t.sock fd).setReady (decide (t.sock fd).Readable)).work ≤
      (t.sock fd).work + if (t.sock fd).Readable then eventWork else 0 := by
    simp only [Sock.work, Sock.inbox_setReady, Sock.ready_setReady, decide_eq_true_eq]
    split_ifs <;> omega
  simp only [WorkerPc.work] at hset
  rw [rearm] at hworkers ⊢
  simp only [Traffic.work, Program.moveWorker, Program.setConn]
  omega

/-- A step that is not paid for by something new uses up work. -/
theorem Sound.work_lt (h : Sound t) (hF : Within F t.program)
    (hs : (trafficLTS.guard Traffic.HandsOver).step t l u) (hown : l.isOwn) :
    u.work F < t.work F := by
  obtain ⟨hs, hhands⟩ := hs
  cases l with
  | arrive | shut => cases hown
  | prog a =>
    obtain ⟨hm, hk⟩ := next_prog_eq_some hs
    obtain ⟨p, sock⟩ := u
    dsimp only at hm hk
    cases hm with
    | wait hpc hreports =>
      simp only [Traffic.kernel] at hk
      split_ifs at hk with hcan
      obtain rfl := Option.some.inj hk
      exact work_wait hF hpc hreports hcan.1 hcan.2 (List.all_eq_true.1 hown)
    | accept | fail => cases hown
    | acceptNone hpc | writeEpoll hpc | other hpc =>
      obtain rfl := Option.some.inj hk
      refine work_main rfl rfl ?_
      simp only [hpc, MainPc.work, List.length_cons]
      omega
    | writeSock hpc | leave hpc | again hpc =>
      obtain rfl := Option.some.inj hk
      refine work_main rfl rfl ?_
      simp only [hpc, MainPc.work]
      omega
    | create hpc =>
      obtain rfl := Option.some.inj hk
      obtain rfl : _ = true := hhands
      simp only [Traffic.work, hpc, if_pos, List.map_append, List.sum_append, List.map_cons,
        List.map_nil, List.sum_cons, List.sum_nil, WorkerPc.work, MainPc.work]
      omega
    | readSock hi | readEpoll hi | finish hi =>
      obtain rfl := Option.some.inj hk
      exact work_moveWorker hi (Nat.lt_succ_self _)
    | recvClose hi =>
      obtain ⟨k, hrecv, rfl⟩ := h.kernel_recv hi hk
      obtain ⟨rfl, -⟩ := Sock.recv_zero hrecv
      rw [Function.update_eq_self]
      exact work_moveWorker hi (Nat.lt_succ_self _)
    | recvRearm hi hret =>
      obtain ⟨k, hrecv, rfl⟩ := h.kernel_recv hi hk
      obtain ⟨rfl, hread⟩ := Sock.recv_again hret hrecv
      rw [Function.update_eq_self]
      refine work_moveWorker hi ?_
      simp only [WorkerPc.work, if_neg hread]
      decide
    | @recv i event sockFd epollFd ret eagain hi hne hagain =>
      obtain ⟨k, hrecv, rfl⟩ := h.kernel_recv hi hk
      rcases lt_or_gt_of_ne hne with hneg | hpos
      · have heagain : eagain = true := by simpa [Step.isOwn, hneg] using hown
        exact absurd ⟨hneg, heagain⟩ hagain
      · obtain ⟨n, hn, hlen, rfl⟩ := Sock.recv_data hpos hrecv
        obtain ⟨rfl, -⟩ := h.inv.worker _ _ hi
        refine work_recv hn hlen (hF.mem ?_)
        intro hclosed
        cases (h.inv.consumed_of_worker hi rfl).symm.trans hclosed
    | undefined => exact absurd hhands id
    | close hi =>
      obtain rfl := Option.some.inj hk
      exact work_moveWorker (t := ⟨t.program.setConn _ .closed, t.sock⟩) hi (Nat.lt_succ_self _)
    | @rearm i event sockFd epollFd hi =>
      have hpc := h.inv.worker _ _ hi
      obtain ⟨rfl, hreset⟩ := h.inv.resetOneShot_eq hi
      have hopen := h.inv.consumed_of_worker hi rfl
      obtain rfl := hpc.2
      rw [hreset]
      simp only [Traffic.kernel, hi, hopen] at hk
      obtain rfl := Option.some.inj hk
      have hfd := hF.mem fun hclosed => by cases hopen.symm.trans hclosed
      exact work_rearm hfd hi

/-! ### Steps of the threads alone -/

theorem closed_of_moves {s s' : Program} (hm : Moves s a s') (hhands : OneShot.HandsOver s a)
    (ha : ∀ fd, a ≠ .accept (some fd)) (hclosed : s.conn fd = .closed) : s'.conn fd = .closed := by
  cases hm with
  | wait hpc hreports =>
    refine (if_neg fun hfd => ?_).trans hclosed
    cases hclosed.symm.trans (hreports.2.2 fd hfd)
  | accept => exact absurd rfl (ha _)
  | @close i event sockFd hi =>
    by_cases hfd : fd = sockFd
    · subst hfd
      exact Function.update_self ..
    · exact (Function.update_of_ne hfd ..).trans hclosed
  | @rearm i event sockFd epollFd hi =>
    show (s.resetOneShot epollFd sockFd).conn fd = .closed
    unfold Program.resetOneShot
    split_ifs with hopen
    · refine (Function.update_of_ne ?_ ..).trans hclosed
      rintro rfl
      exact hopen.2 hclosed
    · exact hclosed
  | undefined => exact absurd hhands id
  | fail | acceptNone | writeEpoll | writeSock | create | leave | other | again | readSock
  | readEpoll | recvClose | recvRearm | recv | finish => exact hclosed

theorem exists_within {epollFd : ℕ} {record : Fds} {steps : List Step}
    (hrun : (trafficLTS.guard Traffic.HandsOver).Run (.init epollFd record) steps t) :
    ∃ F, Within F t.program := by
  refine hrun.invariant (I := fun t => ∃ F, Within F t.program) ⟨∅, fun _ _ => rfl⟩ ?_
  rintro u l v ⟨F, hF⟩ ⟨hs, hhands⟩
  have hs : u.next l = some v := hs
  cases l with
  | prog a =>
    obtain ⟨hm, -⟩ := next_prog_eq_some hs
    by_cases ha : ∃ fd, a = .accept (some fd)
    · obtain ⟨fd, rfl⟩ := ha
      refine ⟨insert fd F, fun fd' hfd' => ?_⟩
      rw [Finset.mem_insert, not_or] at hfd'
      obtain ⟨p, sock⟩ := v
      cases hm with
      | accept => exact (Function.update_of_ne hfd'.1 ..).trans (hF fd' hfd'.2)
    · exact ⟨F, fun fd hfd => closed_of_moves hm hhands (fun fd' h => ha ⟨fd', h⟩) (hF fd hfd)⟩
  | arrive | shut =>
    simp only [Traffic.next] at hs
    split_ifs at hs
    obtain rfl := Option.some.inj hs
    exact ⟨F, hF⟩

/-- What stays the same while the threads are left alone from `t` on. -/
structure Alone (F : Finset ℕ) (t u : Traffic) : Prop where
  sound : Sound u
  within : Within F u.program
  pc : u.program.pc ≠ .left
  arrived : ∀ fd, (u.sock fd).arrived = (t.sock fd).arrived
  peerClosed : ∀ fd, (u.sock fd).peerClosed = (t.sock fd).peerClosed

theorem left_of_moves {s s' : Program} (hm : Moves s a s') (hhands : OneShot.HandsOver s a)
    (ha : a ≠ .fail) (hpc : s.pc ≠ .left) : s'.pc ≠ .left := by
  cases hm with
  | undefined => exact absurd hhands id
  | fail => exact absurd rfl ha
  | rearm =>
    show (s.resetOneShot _ _).pc ≠ .left
    unfold Program.resetOneShot
    split_ifs <;> exact hpc
  | readSock | readEpoll | recvClose | recvRearm | recv | close | finish => exact hpc
  | wait | acceptNone | accept | writeEpoll | writeSock | create | leave | other | again =>
    intro hleft
    cases hleft

theorem Sock.recv_same {k k' : Sock} {ret : ℤ} {eagain : Bool} (h : k.recv ret eagain = some k') :
    k'.arrived = k.arrived ∧ k'.peerClosed = k.peerClosed := by
  unfold Sock.recv at h
  split_ifs at h <;> obtain rfl := Option.some.inj h <;> exact ⟨rfl, rfl⟩

theorem kernel_same (hk : t.kernel a = some sock) (ha : ∀ fd, a ≠ .accept (some fd)) (fd : ℕ) :
    (sock fd).arrived = (t.sock fd).arrived ∧ (sock fd).peerClosed = (t.sock fd).peerClosed := by
  have hone : ∀ {fd' : ℕ} {k : Sock}, k.arrived = (t.sock fd').arrived ∧
      k.peerClosed = (t.sock fd').peerClosed →
        (Function.update t.sock fd' k fd).arrived = (t.sock fd).arrived ∧
          (Function.update t.sock fd' k fd).peerClosed = (t.sock fd).peerClosed := by
    intro fd' k hk
    by_cases hfd : fd = fd'
    · subst hfd
      rwa [Function.update_self]
    · rw [Function.update_of_ne hfd]
      exact ⟨rfl, rfl⟩
  cases a with
  | wait events =>
    simp only [Traffic.kernel] at hk
    split_ifs at hk
    obtain rfl := Option.some.inj hk
    rw [report]
    split_ifs <;> exact ⟨rfl, rfl⟩
  | accept connectionFd =>
    cases connectionFd with
    | none =>
      obtain rfl := Option.some.inj hk
      exact ⟨rfl, rfl⟩
    | some fd => exact absurd rfl (ha fd)
  | recv i ret eagain =>
    simp only [Traffic.kernel] at hk
    split at hk
    · split_ifs at hk
      · obtain rfl := Option.some.inj hk
        exact ⟨rfl, rfl⟩
      · obtain ⟨k, hrecv, rfl⟩ := Option.map_eq_some_iff.1 hk
        exact hone (Sock.recv_same hrecv)
    · cases hk
  | rearm i =>
    simp only [Traffic.kernel] at hk
    split at hk
    · split_ifs at hk
      · obtain rfl := Option.some.inj hk
        exact hone ⟨rfl, rfl⟩
      · obtain rfl := Option.some.inj hk
        exact ⟨rfl, rfl⟩
    · cases hk
  | fail | writeEpoll | writeSock | create | leave | other | again | readSock | readEpoll | close
  | finish | undefined =>
    obtain rfl := Option.some.inj hk
    exact ⟨rfl, rfl⟩

theorem Alone.step (h : Alone F t u) (hs : ownLTS.step u l v) : Alone F t v := by
  obtain ⟨⟨hs, hhands⟩, hown⟩ := hs
  have hsound := h.sound.step hs hhands
  have hs : u.next l = some v := hs
  cases l with
  | arrive | shut => cases hown
  | prog a =>
    obtain ⟨hm, hk⟩ := next_prog_eq_some hs
    have haccept : ∀ fd, a ≠ .accept (some fd) := by
      rintro fd rfl
      cases hown
    have hfail : a ≠ .fail := by
      rintro rfl
      cases hown
    exact ⟨hsound, fun fd hfd => closed_of_moves hm hhands haccept (h.within fd hfd),
      left_of_moves hm hhands hfail h.pc,
      fun fd => ((kernel_same hk haccept fd).1).trans (h.arrived fd),
      fun fd => ((kernel_same hk haccept fd).2).trans (h.peerClosed fd)⟩

/-! ### Where the threads stop -/

/-- No thread can make a step by itself. -/
def Quiet (u : Traffic) : Prop := ∀ l : Step, l.isOwn → u.HandsOver l → u.next l = none

theorem quiet_of_stuck (h : ∀ l v, ¬ ownLTS.step u l v) : Quiet u := by
  intro l hown hhands
  by_contra hnext
  obtain ⟨v, hv⟩ := Option.ne_none_iff_exists'.1 hnext
  exact h l v ⟨⟨hv, hhands⟩, hown⟩

theorem Sock.exists_recv (k : Sock) :
    ∃ ret eagain k', k.recv ret eagain = some k' ∧ (Step.prog (.recv 0 ret eagain)).isOwn := by
  cases hinbox : k.inbox with
  | cons b bytes => exact ⟨1, false, k.take 1, by simp [Sock.recv, hinbox, bufferSize], rfl⟩
  | nil =>
    cases hpeer : k.peerClosed with
    | true => exact ⟨0, false, k, by simp [Sock.recv, hinbox, hpeer], rfl⟩
    | false =>
      exact ⟨-1, true, k, by simp [Sock.recv, Sock.Readable, hinbox, hpeer], rfl⟩

theorem Quiet.worker (hq : Quiet u) (h : Sound u) : ∀ pc ∈ u.program.workers, pc = .done := by
  intro pc hpc
  obtain ⟨i, hi⟩ := List.mem_iff_getElem?.1 hpc
  cases pc with
  | starting event =>
    have hnext := hq (.prog (.readSock i u.program.record.sockFd)) rfl trivial
    simp [Traffic.next, next, Traffic.kernel, hi, Program.Yields] at hnext
  | haveSock event sockFd =>
    have hnext := hq (.prog (.readEpoll i u.program.record.epollFd)) rfl trivial
    simp [Traffic.next, next, Traffic.kernel, hi, Program.Yields] at hnext
  | receiving event sockFd epollFd =>
    obtain ⟨rfl, -⟩ := h.inv.worker _ _ hi
    have hopen := h.inv.consumed_of_worker hi rfl
    obtain ⟨ret, eagain, k, hrecv, hown⟩ := (u.sock sockFd).exists_recv
    have hnext := hq (.prog (.recv i ret eagain)) hown trivial
    have hkernel : u.kernel (.recv i ret eagain) = some (Function.update u.sock sockFd k) := by
      simp [Traffic.kernel, hi, hopen, hrecv]
    simp only [Traffic.next, next, hi, hkernel] at hnext
    split_ifs at hnext
  | closing event sockFd =>
    have hnext := hq (.prog (.close i)) rfl trivial
    simp [Traffic.next, next, Traffic.kernel, hi] at hnext
  | rearming event sockFd epollFd =>
    have hnext := hq (.prog (.rearm i)) rfl trivial
    simp only [Traffic.next, next, Traffic.kernel, hi] at hnext
    split_ifs at hnext
  | ending =>
    have hnext := hq (.prog (.finish i)) rfl trivial
    simp [Traffic.next, next, Traffic.kernel, hi] at hnext
  | done => rfl

theorem Quiet.main (hq : Quiet u) (h : Sound u) (hleft : u.program.pc ≠ .left) :
    u.program.pc = .waiting := by
  cases hpc : u.program.pc with
  | waiting => rfl
  | handling events =>
    cases events with
    | nil =>
      have hnext := hq (.prog .again) rfl trivial
      simp [Traffic.next, next, Traffic.kernel, hpc] at hnext
    | cons e events =>
      rcases e with _ | ⟨fd, _ | _⟩
      · have hnext := hq (.prog (.accept none)) rfl trivial
        simp [Traffic.next, next, Traffic.kernel, hpc] at hnext
      · exact absurd (by rw [hpc]; exact List.mem_cons_self) (h.flagged fd)
      · have hnext := hq (.prog .writeEpoll) rfl trivial
        simp [Traffic.next, next, Traffic.kernel, hpc] at hnext
  | writingSock fd events =>
    have hnext := hq (.prog .writeSock) rfl trivial
    simp [Traffic.next, next, Traffic.kernel, hpc] at hnext
  | creating fd events =>
    have hnext := hq (.prog (.create true)) rfl rfl
    simp [Traffic.next, next, Traffic.kernel, hpc] at hnext
  | leaving worker events =>
    -- no worker has still to read the record
    have hhands : u.HandsOver (.prog .leave) := fun pc hpc => by
      rw [hq.worker h pc hpc]
      rfl
    have hnext := hq (.prog .leave) rfl hhands
    simp [Traffic.next, next, Traffic.kernel, hpc] at hnext
  | left => exact absurd hpc hleft

theorem Quiet.not_ready (hq : Quiet u) (hpc : u.program.pc = .waiting)
    (hfd : u.program.conn fd = .armed) : (u.sock fd).ready = false := by
  by_contra hready
  rw [Bool.not_eq_false] at hready
  have hnext := hq (.prog (.wait [.client fd true])) rfl trivial
  simp [Traffic.next, next, Traffic.kernel, Traffic.CanReport, Program.Reports, Event.client?,
    maxEventNumber, hpc, hfd, hready] at hnext

/-- All is done: `main` waits, no worker is left, all that had arrived in `t` is received, and the
connections that the peers have closed are closed. -/
structure Delivered (t u : Traffic) : Prop where
  pc : u.program.pc = .waiting
  worker : ∀ pc ∈ u.program.workers, pc = .done
  received : ∀ fd, (u.sock fd).received = (t.sock fd).arrived
  closed : ∀ fd, (t.sock fd).peerClosed = true → u.program.conn fd = .closed

theorem Quiet.delivered (hq : Quiet u) (h : Alone F t u) : Delivered t u := by
  have hworker := hq.worker h.sound
  have hpc := hq.main h.sound h.pc
  -- nobody has an event, so no event is consumed
  have hopen : ∀ fd, u.program.conn fd ≠ .consumed := by
    intro fd hfd
    obtain hmain | hevent := List.mem_append.1 ((h.sound.inv.mem_owned fd).2 hfd)
    · rw [hpc] at hmain
      cases hmain
    · obtain ⟨pc, hmem, hevent⟩ := List.mem_filterMap.1 hevent
      rw [hworker pc hmem] at hevent
      cases hevent
  have hread : ∀ fd, u.program.conn fd = .armed → ¬ (u.sock fd).Readable := by
    intro fd hfd hread
    have hready := ((h.sound.sock fd).armed hfd).2 hread
    rw [hq.not_ready hpc hfd] at hready
    cases hready
  refine ⟨hpc, hworker, fun fd => ?_, fun fd hpeer => ?_⟩
  · have hinbox : (u.sock fd).inbox = [] := by
      cases hst : u.program.conn fd with
      | closed => exact (h.sound.sock fd).closed hst
      | armed =>
        by_contra hne
        exact hread fd hst (.inl hne)
      | consumed => exact absurd hst (hopen fd)
    rw [← h.arrived, (h.sound.sock fd).arrived, hinbox, List.append_nil]
  · cases hst : u.program.conn fd with
    | closed => rfl
    | armed => exact absurd (.inr ((h.peerClosed fd).trans hpeer)) (hread fd hst)
    | consumed => exact absurd hst (hopen fd)

/-- **Everything that arrives is received.**  From every state of a run whose steps hand over and in
which `epoll_wait` has not failed: the steps that the threads make by themselves come to an end,
whatever their order, and where they end all that had arrived is received, in order, and every
connection that its peer has closed is closed. -/
theorem delivers {epollFd : ℕ} {record : Fds} {steps : List Step}
    (hrun : (trafficLTS.guard Traffic.HandsOver).Run (.init epollFd record) steps t)
    (hmain : t.program.pc ≠ .left) :
    (∃ n, ∀ ls u, ownLTS.Run t ls u → ls.length ≤ n) ∧
      (∃ u, ownLTS.Reachable t u ∧ Delivered t u) ∧
      ∀ u, ownLTS.Reachable t u → (∀ l v, ¬ ownLTS.step u l v) → Delivered t u := by
  obtain ⟨F, hF⟩ := exists_within hrun
  have halone : Alone F t t := ⟨sound_of_run hrun, hF, hmain, fun _ => rfl, fun _ => rfl⟩
  obtain ⟨hle, hrest⟩ := LTS.comes_to_rest (P := Delivered t) (Traffic.work F) halone
    (fun _ _ _ h hs => h.step hs) (fun _ _ _ h hs => h.sound.work_lt h.within hs.1 hs.2)
    fun _ h hstuck => (quiet_of_stuck hstuck).delivered h
  exact ⟨⟨t.work F, hle⟩, hrest⟩

theorem delivers_two : ∃ t, (t.sock 5).arrived = [104, 105] ∧
    ∃ u, ownLTS.Reachable t u ∧ Delivered t u := by
  have hrun : (trafficLTS.guard Traffic.HandsOver).Run (.init 3 ⟨0, 0⟩)
      [.prog (.wait [.listen]), .prog (.accept (some 5)), .arrive 5 [104], .prog .again,
        .prog (.wait [.client 5 true]), .arrive 5 [105], .shut 5] _ := LTS.run_guard_of_foldlM rfl
  exact ⟨_, rfl, (delivers hrun nofun).2.1⟩

end OneShot

end LinuxServer
