import LinuxServer.Select.Basic
import Mathlib.Algebra.Group.Int.Defs
import Mathlib.Data.Finset.Insert

/-!
# A connection with a timeout

`unblock_connect`: `connect` on a socket that does not block, and `select` until the connection is
there or the time is over.  `write_fds` is watched as the stack holds it, with `sock_fd` added: it
is `read_fds` that is cleared.

* `Socket`: what the calls on `sock_fd` do.
* `Environment`: what `write_fds` holds at first, and when the other descriptors are ready.
* `unblockConnect sock env time`: the descriptor returned, and what becomes of the socket.
* `result sock time`: what the function is for.
* `Undisturbed sock env time`: no other descriptor in `write_fds` comes before the connection.

`agrees_iff`: two environments that do not disturb the socket make no difference, and only these.
`connects_of_returned`: in any environment, a socket that is returned is connected.
-/

namespace LinuxServer

namespace Connect

open Memory Select

/-- `O_NONBLOCK` -/
def oNonblock : ℕ := 2048

/-- How a connection in progress ends. -/
structure Completion where
  /-- The microseconds from the call of `select` on. -/
  time : ℕ
  /-- `SO_ERROR`; nothing when `getsockopt` fails. -/
  error : Option ℤ
  deriving DecidableEq, Repr

/-- What `connect` does. -/
inductive ConnectResult where
  /-- The result is 0. -/
  | connected
  /-- `EINPROGRESS`; there is nothing for a connection that does not end. -/
  | inProgress (completion : Option Completion)
  /-- Another error; so it is when there is no socket. -/
  | failed
  deriving DecidableEq, Repr

/-- What the calls on `sock_fd` do. -/
structure Socket where
  /-- `sock_fd` -/
  fd : ℕ
  /-- The flags of a new socket. -/
  flags : ℕ
  connect : ConnectResult
  deriving DecidableEq, Repr

/-- What is not of the socket. -/
structure Environment where
  /-- What the stack holds in the place of `write_fds`. -/
  writeFds : FdSet
  /-- Whether another descriptor is ready for writing, at a time. -/
  ready : Fin fdSetSize → ℕ → Bool

/-- What `unblock_connect` returns, and the flags of the socket; none when it is closed. -/
structure Outcome where
  ret : ℤ
  flags : Option ℕ
  deriving DecidableEq, Repr

/-- The old flags, and those set. -/
def setNonBlocking (oldOption : ℕ) : ℕ × ℕ := (oldOption, oldOption ||| oNonblock)

/-- The descriptors, with `sock_fd` among them: it is ready from the end of the connection on. -/
def readyWith (sockFd : ℕ) (completion : Option Completion) (env : Environment)
    (fd : Fin fdSetSize) (t : ℕ) : Bool :=
  if fd.val = sockFd then completion.any fun c => c.time ≤ t else env.ready fd t

/-- `unblock_connect`, from `set_non_blocking` on; `time` is in seconds. -/
def unblockConnect (sock : Socket) (env : Environment) (time : ℤ) : Except Fault Outcome :=
  let (fdOpt, flags) := setNonBlocking sock.flags
  match sock.connect with
  | .connected => pure ⟨sock.fd, some fdOpt⟩
  | .failed => pure ⟨-1, some flags⟩
  | .inProgress completion => do
    let _readFds := fdZero
    let writeFds ← fdSet sock.fd env.writeFds
    let (ret, writeFds) := select (readyWith sock.fd completion env) (sock.fd + 1) writeFds
      (time * 10 ^ 6)
    if ret ≤ 0 then pure ⟨-1, none⟩
    else if !(← fdIsSet sock.fd writeFds) then pure ⟨-1, none⟩
    else
      match completion.bind Completion.error with
      | none => pure ⟨-1, none⟩
      | some error => if error ≠ 0 then pure ⟨-1, none⟩ else pure ⟨sock.fd, some fdOpt⟩

/-- It ends well within the timeout. -/
def ConnectResult.Within (timeout : ℤ) : ConnectResult → Prop
  | .connected => True
  | .inProgress none => False
  | .inProgress (some c) => c.error = some 0 ∧ c.time ≤ timeout
  | .failed => False

instance (timeout : ℤ) : DecidablePred (ConnectResult.Within timeout)
  | .connected => inferInstanceAs (Decidable True)
  | .inProgress none => inferInstanceAs (Decidable False)
  | .inProgress (some c) => inferInstanceAs (Decidable (c.error = some 0 ∧ c.time ≤ timeout))
  | .failed => inferInstanceAs (Decidable False)

/-- The connection is there within `time` seconds, without an error. -/
def Connects (sock : Socket) (time : ℤ) : Prop := sock.connect.Within (time * 10 ^ 6)

instance (sock : Socket) (time : ℤ) : Decidable (Connects sock time) :=
  inferInstanceAs (Decidable (sock.connect.Within (time * 10 ^ 6)))

/-- The descriptor that is connected, or -1. -/
def result (sock : Socket) (time : ℤ) : ℤ := if Connects sock time then sock.fd else -1

/-- What is returned. -/
def returned (sock : Socket) (env : Environment) (time : ℤ) : Except Fault ℤ :=
  (unblockConnect sock env time).map Outcome.ret

/-- In two environments the same is returned, and it is the result. -/
structure Agrees (sock : Socket) (time : ℤ) (env₁ env₂ : Environment) : Prop where
  same : returned sock env₁ time = returned sock env₂ time
  result : returned sock env₁ time = .ok (result sock time)

/-- No other descriptor in `write_fds` comes before the connection. -/
structure Undisturbed (sock : Socket) (env : Environment) (time : ℤ) : Prop where
  /-- A connection in progress has a descriptor that fits an `fd_set`. -/
  inSet : ∀ completion, sock.connect = .inProgress completion → sock.fd < fdSetSize
  /-- What `write_fds` holds below it is not ready before the connection is there. -/
  notBefore : ∀ c, sock.connect = .inProgress (some c) → Connects sock time →
    ∀ fd ∈ env.writeFds, fd.val < sock.fd → ∀ t < c.time, env.ready fd t = false

variable {sock : Socket} {env env₁ env₂ : Environment} {time : ℤ} {completion : Option Completion}
  {c : Completion}

/-! ### One run -/

theorem undisturbed_of_ne (h : ∀ completion, sock.connect ≠ .inProgress completion) :
    Undisturbed sock env time :=
  ⟨fun _ h' => absurd h' (h _), fun _ h' => absurd h' (h _)⟩

theorem returned_connected (h : sock.connect = .connected) :
    returned sock env time = .ok sock.fd := by
  rw [returned, unblockConnect, h]
  rfl

theorem returned_failed (h : sock.connect = .failed) : returned sock env time = .ok (-1) := by
  rw [returned, unblockConnect, h]
  rfl

/-- `FD_SET` writes behind the set. -/
theorem returned_of_le (h : sock.connect = .inProgress completion) (hfd : fdSetSize ≤ sock.fd) :
    returned sock env time = .error (.outOfBounds sock.fd) := by
  rw [returned, unblockConnect, h]
  simp only [fdSet, dif_neg (not_lt.2 hfd), error_bind]
  rfl

/-- What `select` watches. -/
def watched (sock : Socket) (env : Environment) (hfd : sock.fd < fdSetSize) : FdSet :=
  {fd ∈ insert ⟨sock.fd, hfd⟩ env.writeFds | fd.val < sock.fd + 1}

/-- What `select` finds. -/
def found (sock : Socket) (completion : Option Completion) (env : Environment) (time : ℤ)
    (hfd : sock.fd < fdSetSize) : FdSet :=
  firstReady (readyWith sock.fd completion env) (watched sock env hfd) (time * 10 ^ 6).toNat

theorem returned_of_neg (h : sock.connect = .inProgress completion) (hfd : sock.fd < fdSetSize)
    (htime : time < 0) : returned sock env time = .ok (-1) := by
  rw [returned, unblockConnect, h]
  simp only [fdSet, dif_pos hfd, ok_bind, select_of_neg (show time * 10 ^ 6 < 0 by omega)]
  rfl

theorem returned_of_nonneg (h : sock.connect = .inProgress completion) (hfd : sock.fd < fdSetSize)
    (htime : 0 ≤ time) : returned sock env time =
      .ok (if ⟨sock.fd, hfd⟩ ∈ found sock completion env time hfd ∧
        completion.bind Completion.error = some 0 then sock.fd else -1) := by
  have hselect : select (readyWith sock.fd completion env) (sock.fd + 1)
      (insert ⟨sock.fd, hfd⟩ env.writeFds) (time * 10 ^ 6) =
        (((found sock completion env time hfd).card : ℤ), found sock completion env time hfd) :=
    select_of_nonneg (by omega)
  rw [returned, unblockConnect, h]
  simp only [fdSet, dif_pos hfd, ok_bind, hselect, fdIsSet]
  by_cases hmem : ⟨sock.fd, hfd⟩ ∈ found sock completion env time hfd
  · have hcard : ¬ ((found sock completion env time hfd).card : ℤ) ≤ 0 := by
      have hpos := Finset.card_pos.2 ⟨_, hmem⟩
      omega
    simp only [if_neg hcard, hmem, decide_true, Bool.not_true, Bool.false_eq_true, if_false,
      true_and]
    cases completion.bind Completion.error with
    | none => rfl
    | some error =>
      by_cases herror : error = 0
      · rw [herror]
        rfl
      · simp only [ne_eq, herror, not_false_eq_true, if_true, Option.some.injEq, if_false]
        rfl
  · simp only [hmem, decide_false, Bool.not_false, if_true, false_and, if_false, ite_self]
    rfl

@[simp] theorem readyWith_self (hfd : sock.fd < fdSetSize) (t : ℕ) :
    readyWith sock.fd completion env ⟨sock.fd, hfd⟩ t = completion.any fun c => c.time ≤ t :=
  if_pos rfl

theorem readyWith_of_ne {sockFd : ℕ} {fd : Fin fdSetSize} (h : fd.val ≠ sockFd) (t : ℕ) :
    readyWith sockFd completion env fd t = env.ready fd t :=
  if_neg h

theorem mem_watched {hfd : sock.fd < fdSetSize} {fd : Fin fdSetSize} :
    fd ∈ watched sock env hfd ↔ fd.val = sock.fd ∨ fd ∈ env.writeFds ∧ fd.val < sock.fd := by
  rw [watched, Finset.mem_filter, Finset.mem_insert, Fin.ext_iff, Nat.lt_succ_iff]
  constructor
  · rintro ⟨heq | hmem, hle⟩
    · exact Or.inl heq
    · exact hle.eq_or_lt.imp id fun hlt => ⟨hmem, hlt⟩
  · rintro (heq | ⟨hmem, hlt⟩)
    · exact ⟨Or.inl heq, heq.le⟩
    · exact ⟨Or.inr hmem, hlt.le⟩

theorem notMem_found (hfd : sock.fd < fdSetSize) :
    ⟨sock.fd, hfd⟩ ∉ found sock none env time hfd :=
  notMem_firstReady fun t => readyWith_self hfd t

theorem mem_found (hfd : sock.fd < fdSetSize) :
    ⟨sock.fd, hfd⟩ ∈ found sock (some c) env time hfd ↔ c.time ≤ (time * 10 ^ 6).toNat ∧
      ∀ fd ∈ env.writeFds, fd.val < sock.fd → ∀ t < c.time, env.ready fd t = false := by
  have hfrom : ∀ t, readyWith sock.fd (some c) env ⟨sock.fd, hfd⟩ t ↔ c.time ≤ t := fun t => by
    rw [readyWith_self, Option.any_some, decide_eq_true_eq]
  rw [found, mem_firstReady_of_from (mem_watched.2 (Or.inl rfl)) hfrom]
  refine and_congr_right fun _ =>
    ⟨fun hbefore fd hmem hlt t ht => ?_, fun hbefore t ht fd hmem => ?_⟩
  · rw [← readyWith_of_ne hlt.ne t]
    exact hbefore t ht fd (mem_watched.2 (Or.inr ⟨hmem, hlt⟩))
  · rcases mem_watched.1 hmem with heq | ⟨hmem, hlt⟩
    · obtain rfl : fd = ⟨sock.fd, hfd⟩ := Fin.ext heq
      rw [← Bool.not_eq_true, hfrom, not_le]
      exact ht
    · rw [readyWith_of_ne hlt.ne]
      exact hbefore fd hmem hlt t ht

theorem connects_of_connected (h : sock.connect = .connected) : Connects sock time := by
  rw [Connects, h]
  exact True.intro

theorem not_connects_failed (h : sock.connect = .failed) : ¬ Connects sock time := by
  rw [Connects, h]
  exact not_false

theorem not_connects_none (h : sock.connect = .inProgress none) : ¬ Connects sock time := by
  rw [Connects, h]
  exact not_false

theorem connects_iff (h : sock.connect = .inProgress (some c)) :
    Connects sock time ↔ c.error = some 0 ∧ c.time ≤ time * 10 ^ 6 := by
  rw [Connects, h]
  exact Iff.rfl

theorem returned_of_connects (h : sock.connect = .inProgress (some c)) (hfd : sock.fd < fdSetSize)
    (hc : Connects sock time) : returned sock env time = .ok sock.fd ↔
      ∀ fd ∈ env.writeFds, fd.val < sock.fd → ∀ t < c.time, env.ready fd t = false := by
  obtain ⟨herror, hle⟩ := (connects_iff h).1 hc
  have htimeout : c.time ≤ (time * 10 ^ 6).toNat := by omega
  have hfound : ⟨sock.fd, hfd⟩ ∈ found sock (some c) env time hfd ↔
      ∀ fd ∈ env.writeFds, fd.val < sock.fd → ∀ t < c.time, env.ready fd t = false :=
    (mem_found hfd).trans (and_iff_right htimeout)
  rw [returned_of_nonneg h hfd (by omega), ← hfound]
  split_ifs with hmem
  · exact iff_of_true rfl hmem.1
  · refine iff_of_false (fun heq => ?_) fun hmem' => hmem ⟨hmem', herror⟩
    have hneg := Except.ok.inj heq
    omega

/-- Without such a connection -1 is returned, whatever comes. -/
theorem returned_of_not_connects (h : sock.connect = .inProgress completion)
    (hfd : sock.fd < fdSetSize) (hc : ¬ Connects sock time) :
    returned sock env time = .ok (-1) := by
  rcases lt_or_ge time 0 with htime | htime
  · exact returned_of_neg h hfd htime
  · rw [returned_of_nonneg h hfd htime, if_neg]
    rintro ⟨hmem, herror⟩
    cases completion with
    | none => exact notMem_found hfd hmem
    | some c =>
      have hle := ((mem_found hfd).1 hmem).1
      exact hc ((connects_iff h).2 ⟨herror, by omega⟩)

/-- **One run**: the result is returned when nothing comes before the connection. -/
theorem returned_eq_result_iff :
    returned sock env time = .ok (result sock time) ↔ Undisturbed sock env time := by
  cases h : sock.connect with
  | connected =>
    rw [returned_connected h, result, if_pos (connects_of_connected h)]
    exact iff_of_true rfl (undisturbed_of_ne fun completion h' => by cases h.symm.trans h')
  | failed =>
    rw [returned_failed h, result, if_neg (not_connects_failed h)]
    exact iff_of_true rfl (undisturbed_of_ne fun completion h' => by cases h.symm.trans h')
  | inProgress completion =>
    rcases lt_or_ge sock.fd fdSetSize with hfd | hfd
    · by_cases hc : Connects sock time
      · cases completion with
        | none => exact absurd hc (not_connects_none h)
        | some c =>
          rw [result, if_pos hc, returned_of_connects h hfd hc]
          refine ⟨fun hbefore => ⟨fun _ _ => hfd, fun c' h' _ => ?_⟩, fun hu => hu.notBefore c h hc⟩
          cases h.symm.trans h'
          exact hbefore
      · rw [result, if_neg hc, returned_of_not_connects h hfd hc]
        exact iff_of_true rfl ⟨fun _ _ => hfd, fun _ _ hc' => absurd hc' hc⟩
    · rw [returned_of_le h hfd]
      refine iff_of_false (fun heq => ?_) fun hu => absurd (hu.inSet _ h) (not_lt.2 hfd)
      cases heq

theorem returned_of_cleared (hfds : env.writeFds = fdZero) (hfd : sock.fd < fdSetSize) :
    returned sock env time = .ok (result sock time) := by
  refine returned_eq_result_iff.2 ⟨fun _ _ => hfd, fun _ _ _ fd hmem => ?_⟩
  rw [hfds] at hmem
  exact absurd hmem (Finset.notMem_empty fd)

theorem connects_of_returned (hr : returned sock env time = .ok sock.fd) : Connects sock time := by
  by_contra hc
  have hminus : returned sock env time = .ok (-1) → False := fun h => by
    have hneg := Except.ok.inj (hr.symm.trans h)
    omega
  cases h : sock.connect with
  | connected => exact hc (connects_of_connected h)
  | failed => exact hminus (returned_failed h)
  | inProgress completion =>
    rcases lt_or_ge sock.fd fdSetSize with hfd | hfd
    · exact hminus (returned_of_not_connects h hfd hc)
    · cases hr.symm.trans (returned_of_le h hfd)

/-- The socket that is returned has its old flags, and the one that is not is closed, unless
`connect` fails. -/
theorem unblockConnect_flags {o : Outcome} (ho : unblockConnect sock env time = .ok o) :
    o.flags = if 0 ≤ o.ret then some sock.flags
      else if sock.connect = .failed then some (sock.flags ||| oNonblock) else none := by
  unfold unblockConnect at ho
  cases h : sock.connect with
  | connected =>
    rw [h] at ho
    cases ho
    exact (if_pos (Int.natCast_nonneg _)).symm
  | failed =>
    rw [h] at ho
    cases ho
    rfl
  | inProgress completion =>
    rw [h] at ho
    obtain ⟨writeFds, -, ho⟩ := bind_eq_ok.1 ho
    dsimp only at ho
    split_ifs at ho with hret
    · cases ho
      rfl
    · obtain ⟨isSet, -, ho⟩ := bind_eq_ok.1 ho
      cases isSet with
      | false =>
        cases ho
        rfl
      | true =>
        cases herror : completion.bind Completion.error with
        | none =>
          rw [herror] at ho
          cases ho
          rfl
        | some error =>
          simp only [herror, Bool.not_true, Bool.false_eq_true, if_false] at ho
          split_ifs at ho
          · cases ho
            rfl
          · cases ho
            exact (if_pos (Int.natCast_nonneg _)).symm

/-! ### Two runs -/

/-- **What is returned depends on the socket alone**, unless another descriptor in `write_fds` is
ready before the connection. -/
theorem agrees_iff :
    Agrees sock time env₁ env₂ ↔ Undisturbed sock env₁ time ∧ Undisturbed sock env₂ time := by
  rw [← returned_eq_result_iff, ← returned_eq_result_iff]
  constructor
  · rintro ⟨hsame, hresult⟩
    exact ⟨hresult, hsame ▸ hresult⟩
  · rintro ⟨h₁, h₂⟩
    exact ⟨h₁.trans h₂.symm, h₁⟩

/-- A socket whose connection is there after a microsecond. -/
def afterOne : Socket := ⟨3, 0, .inProgress (some ⟨1, some 0⟩)⟩

/-- `STDOUT_FILENO` -/
def stdout : Fin fdSetSize := ⟨1, by decide⟩

/-- Nothing in `write_fds`, or `stdout`, which can be written at once. -/
theorem not_agrees_stdout : ¬ ∀ (sock : Socket) (time : ℤ) (env₁ env₂ : Environment),
    Agrees sock time env₁ env₂ := by
  intro hall
  have hagrees := hall afterOne 10 ⟨fdZero, fun _ _ => true⟩ ⟨{stdout}, fun _ _ => true⟩
  have hu := returned_eq_result_iff.1 (hagrees.same ▸ hagrees.result)
  have hready := hu.notBefore ⟨1, some 0⟩ rfl (by decide) stdout (Finset.mem_singleton_self stdout)
    (by decide) 0 (by decide)
  cases hready

end Connect

end LinuxServer
