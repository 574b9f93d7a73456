import LinuxServer.Connect.Unblock

/-!
# Two ways to connect in time

`timeout_connect` lets `connect` block, on a socket with `SO_SNDTIMEO`; `unblock_connect` waits in
`select`.

* `Course`: how a connection goes, whatever the call that waits for it.
* `timeoutConnect a time`: the descriptor returned, and what becomes of the socket.

`timeoutConnect_iff`: `timeout_connect` keeps to its time, unless that is zero.  `connects_alike`:
the two return the same where nothing in `write_fds` comes before the connection.
`unblockConnect_sound`: whatever `write_fds` holds, `unblock_connect` returns a socket that is
connected, or closes it; `timeoutConnect_open`: `timeout_connect` never closes its own.
-/

namespace LinuxServer

namespace Connect

open Memory Select

/-- How a connection goes. -/
inductive Course where
  /-- It succeeds or fails at once; the error is 0 where it succeeds. -/
  | atOnce (error : ℤ)
  /-- It does so after some microseconds. -/
  | after (time : ℕ) (error : ℤ)
  /-- Nothing is heard. -/
  | never
  deriving DecidableEq, Repr

/-- A new socket, and how its connection goes. -/
structure Attempt where
  /-- `sock_fd` -/
  fd : ℕ
  /-- The flags of a new socket. -/
  flags : ℕ
  course : Course
  deriving DecidableEq, Repr

/-- What `connect` does on a socket that does not block. -/
def Course.unblocked : Course → ConnectResult
  | .atOnce error => if error = 0 then .connected else .failed
  | .after time error => .inProgress (some ⟨time, some error⟩)
  | .never => .inProgress none

/-- The socket, as `unblock_connect` has it. -/
def Attempt.socket (a : Attempt) : Socket := ⟨a.fd, a.flags, a.course.unblocked⟩

/-- `EINPROGRESS` -/
def eInProgress : ℤ := 115

/-- The microseconds that `SO_SNDTIMEO` allows: zero seconds are no limit. -/
def sndTimeout (time : ℤ) : Option ℕ := if time = 0 then none else some (time * 10 ^ 6).toNat

/-- The error of a `connect` that blocks, 0 when it succeeds; nothing when it does not return. -/
def Course.blocked (timeout : Option ℕ) : Course → Option ℤ
  | .atOnce error => some error
  | .after time error => match timeout with
    | none => some error
    | some limit => some (if time ≤ limit then error else eInProgress)
  | .never => timeout.map fun _ => eInProgress

/-- `timeout_connect`; `time` is in seconds.  Nothing is returned when `connect` does not return. -/
def timeoutConnect (a : Attempt) (time : ℤ) : Option Outcome := do
  let error ← a.course.blocked (sndTimeout time)
  if error ≠ 0 then
    -- the socket is left open, after the time as after another error
    if error = eInProgress then pure ⟨-1, some a.flags⟩ else pure ⟨-1, some a.flags⟩
  else pure ⟨a.fd, some a.flags⟩

/-- The outcome is there without waiting, or it is an error. -/
def Course.Prompt : Course → Prop
  | .atOnce _ => True
  | .after time error => time = 0 ∨ error ≠ 0
  | .never => False

instance : DecidablePred Course.Prompt
  | .atOnce _ => inferInstanceAs (Decidable True)
  | .after time error => inferInstanceAs (Decidable (time = 0 ∨ error ≠ 0))
  | .never => inferInstanceAs (Decidable False)

variable {sock : Socket} {env : Environment} {time : ℤ} {a : Attempt} {o : Outcome}

@[simp] theorem Attempt.fd_socket : a.socket.fd = a.fd := rfl

theorem timeoutConnect_ret (a : Attempt) (time : ℤ) :
    (timeoutConnect a time).map Outcome.ret =
      (a.course.blocked (sndTimeout time)).map
        fun error => if error = 0 then (a.fd : ℤ) else -1 := by
  unfold timeoutConnect
  cases a.course.blocked (sndTimeout time) with
  | none => rfl
  | some error =>
    by_cases herror : error = 0
    · subst herror
      rfl
    · simp [herror]

theorem sndTimeout_pos (htime : 0 < time) : sndTimeout time = some (time * 10 ^ 6).toNat :=
  if_neg htime.ne'

theorem fd_ne_minus_one (fd : ℕ) : (fd : ℤ) ≠ -1 := by omega

/-- **When `timeout_connect` connects in time**: for every time but zero.  Zero is no limit: the
result is returned when it comes at once or is an error. -/
theorem timeoutConnect_iff (a : Attempt) (htime : 0 ≤ time) :
    (timeoutConnect a time).map Outcome.ret = some (result a.socket time) ↔
      0 < time ∨ a.course.Prompt := by
  rw [timeoutConnect_ret]
  cases hcourse : a.course with
  | atOnce error =>
    have hconnects : Connects a.socket time ↔ error = 0 := by
      simp only [Connects, Attempt.socket, hcourse, Course.unblocked]
      split_ifs with herror <;> simp [ConnectResult.Within, herror]
    rw [result, if_congr hconnects rfl rfl]
    exact iff_of_true rfl (.inr trivial)
  | after t error =>
    have hconnects : Connects a.socket time ↔ error = 0 ∧ t ≤ time * 10 ^ 6 := by
      simp [Connects, Attempt.socket, hcourse, Course.unblocked, ConnectResult.Within]
    rw [result, if_congr hconnects rfl rfl]
    rcases htime.eq_or_lt with rfl | hpos
    · -- `connect` waits for as long as it takes
      have hlimit : sndTimeout 0 = none := rfl
      rw [hlimit]
      show some (if error = 0 then (a.fd : ℤ) else -1) = _ ↔ 0 < 0 ∨ (t = 0 ∨ error ≠ 0)
      by_cases herror : error = 0
      · have hne := fd_ne_minus_one a.fd
        simp [herror, hne]
      · simp [herror]
    · rw [sndTimeout_pos hpos]
      refine iff_of_true ?_ (.inl hpos)
      have ht : t ≤ (time * 10 ^ 6).toNat ↔ (t : ℤ) ≤ time * 10 ^ 6 := by omega
      show some (if (if t ≤ (time * 10 ^ 6).toNat then error else eInProgress) = 0 then
        (a.fd : ℤ) else -1) = some (if error = 0 ∧ (t : ℤ) ≤ time * 10 ^ 6 then (a.fd : ℤ) else -1)
      by_cases hle : (t : ℤ) ≤ time * 10 ^ 6
      · rw [if_pos (ht.2 hle), if_congr (and_iff_left hle) rfl rfl]
      · rw [if_neg (mt ht.1 hle), if_neg fun h : error = 0 ∧ _ => hle h.2]
        rfl
  | never =>
    have hconnects : ¬ Connects a.socket time := by
      simp [Connects, Attempt.socket, hcourse, Course.unblocked, ConnectResult.Within]
    rw [result, if_neg hconnects]
    rcases htime.eq_or_lt with rfl | hpos
    · exact iff_of_false (fun h => by cases h) (fun h => by cases h <;> contradiction)
    · rw [sndTimeout_pos hpos]
      exact iff_of_true rfl (.inl hpos)

theorem timeoutConnect_of_not_prompt (hprompt : ¬ a.course.Prompt)
    (ho : timeoutConnect a 0 = some o) : o.ret = a.fd := by
  have hret := timeoutConnect_ret a 0
  rw [ho] at hret
  cases hcourse : a.course with
  | atOnce error =>
    rw [hcourse] at hprompt
    exact absurd trivial hprompt
  | after t error =>
    rw [hcourse] at hprompt hret
    have herror : error = 0 := of_not_not fun h => hprompt (.inr h)
    subst herror
    exact Option.some.inj hret
  | never =>
    rw [hcourse] at hret
    cases hret

theorem returned_cases {r : ℤ} (hr : returned sock env time = .ok r) : r = sock.fd ∨ r = -1 := by
  cases h : sock.connect with
  | connected => exact .inl (Except.ok.inj (hr.symm.trans (returned_connected h)))
  | failed => exact .inr (Except.ok.inj (hr.symm.trans (returned_failed h)))
  | inProgress completion =>
    rcases lt_or_ge sock.fd fdSetSize with hfd | hfd
    · rcases lt_or_ge time 0 with htime | htime
      · exact .inr (Except.ok.inj (hr.symm.trans (returned_of_neg h hfd htime)))
      · rw [returned_of_nonneg h hfd htime] at hr
        rw [← Except.ok.inj hr]
        exact ite_eq_or_eq _ _ _
    · cases hr.symm.trans (returned_of_le h hfd)

/-- **The two ways agree**: `timeout_connect` and `unblock_connect` return the same when no other
descriptor in `write_fds` comes before the connection, and the time is not zero or there is
nothing to wait for; else they do not. -/
theorem connects_alike (a : Attempt) (env : Environment) (htime : 0 ≤ time) :
    ((timeoutConnect a time).map fun o => .ok o.ret) = some (returned a.socket env time) ↔
      Undisturbed a.socket env time ∧ (0 < time ∨ a.course.Prompt) := by
  have hiff := timeoutConnect_iff a htime
  by_cases hlimit : 0 < time ∨ a.course.Prompt
  · obtain ⟨o, ho, hret⟩ := Option.map_eq_some_iff.1 (hiff.2 hlimit)
    rw [ho, ← returned_eq_result_iff, Option.map_some, hret, Option.some.injEq, and_iff_left hlimit]
    exact eq_comm
  · refine iff_of_false (fun hsame => ?_) fun h => hlimit h.2
    obtain ⟨hzero, hprompt⟩ := not_or.1 hlimit
    obtain rfl : time = 0 := by omega
    obtain ⟨o, ho, hreturned⟩ := Option.map_eq_some_iff.1 hsame
    -- `timeout_connect` has waited, and `unblock_connect` returns only what is there at once
    have hfd := timeoutConnect_of_not_prompt hprompt ho
    rw [hfd] at hreturned
    have hconnects : Connects a.socket 0 := connects_of_returned hreturned.symm
    refine hlimit (hiff.1 ?_)
    rw [ho, result, if_pos hconnects, Option.map_some, hfd, Attempt.fd_socket]

/-- A connection that is there after a microsecond, and nothing in `write_fds`. -/
theorem connects_alike_empty : ∃ a env, a.course = .after 1 0 ∧
    ((timeoutConnect a 10).map fun o => .ok o.ret) = some (returned a.socket env 10) := by
  refine ⟨⟨3, 0, .after 1 0⟩, ⟨fdZero, fun _ _ => true⟩, rfl, ?_⟩
  refine (connects_alike ⟨3, 0, .after 1 0⟩ ⟨fdZero, fun _ _ => true⟩ (by decide)).2 ⟨?_, by decide⟩
  exact returned_eq_result_iff.1 (returned_of_cleared rfl (by decide))

/-! ### What becomes of the socket -/

theorem timeoutConnect_open (ho : timeoutConnect a time = some o) : o.flags = some a.flags := by
  obtain ⟨error, -, ho⟩ := Option.bind_eq_some_iff.1 ho
  split_ifs at ho <;> cases ho <;> rfl

theorem exists_returned (env : Environment) (time : ℤ) (hfd : sock.fd < fdSetSize) :
    ∃ r, returned sock env time = .ok r := by
  cases h : sock.connect with
  | connected => exact ⟨_, returned_connected h⟩
  | failed => exact ⟨_, returned_failed h⟩
  | inProgress completion =>
    rcases lt_or_ge time 0 with htime | htime
    · exact ⟨_, returned_of_neg h hfd htime⟩
    · exact ⟨_, returned_of_nonneg h hfd htime⟩

theorem exists_outcome (env : Environment) (time : ℤ) (hfd : sock.fd < fdSetSize) :
    ∃ o, unblockConnect sock env time = .ok o := by
  obtain ⟨r, hr⟩ := exists_returned env time hfd
  cases ho : unblockConnect sock env time with
  | error e =>
    rw [returned, ho] at hr
    cases hr
  | ok o => exact ⟨o, rfl⟩

/-- What `unblock_connect` does with the socket when it returns. -/
theorem outcome_cases (ho : unblockConnect sock env time = .ok o) :
    o = ⟨sock.fd, some sock.flags⟩ ∧ Connects sock time ∨
      o = ⟨-1, none⟩ ∧ sock.connect ≠ .failed ∨
      o = ⟨-1, some (sock.flags ||| oNonblock)⟩ ∧ sock.connect = .failed := by
  have hflags := unblockConnect_flags ho
  have hret : returned sock env time = .ok o.ret := by
    rw [returned, ho]
    rfl
  obtain ⟨ret, flags⟩ := o
  dsimp only at hflags hret
  rcases returned_cases hret with rfl | rfl
  · rw [if_pos (Int.natCast_nonneg _)] at hflags
    subst hflags
    exact .inl ⟨rfl, connects_of_returned hret⟩
  · rw [if_neg (by decide)] at hflags
    subst hflags
    by_cases hfailed : sock.connect = .failed
    · rw [if_pos hfailed]
      exact .inr (.inr ⟨rfl, hfailed⟩)
    · rw [if_neg hfailed]
      exact .inr (.inl ⟨rfl, hfailed⟩)

/-- **No socket is lost after `select`.**  Whatever `write_fds` holds and whatever is ready when,
`unblock_connect` on a descriptor that fits an `fd_set` returns a socket that is connected in time,
with its old flags, or closes it; only one that cannot connect at all is left open, and does not
block. -/
theorem unblockConnect_sound (sock : Socket) (env : Environment) (time : ℤ)
    (hfd : sock.fd < fdSetSize) : ∃ o, unblockConnect sock env time = .ok o ∧
      (o = ⟨sock.fd, some sock.flags⟩ ∧ Connects sock time ∨
        o = ⟨-1, none⟩ ∧ sock.connect ≠ .failed ∨
        o = ⟨-1, some (sock.flags ||| oNonblock)⟩ ∧ sock.connect = .failed) := by
  obtain ⟨o, ho⟩ := exists_outcome env time hfd
  exact ⟨o, ho, outcome_cases ho⟩

/-- `stdout` is in `write_fds` and can be written at once: the socket is closed, though its
connection is there after a microsecond. -/
theorem unblockConnect_sound_stdout : ∃ env : Environment, stdout ∈ env.writeFds ∧
    Connects afterOne 10 ∧ unblockConnect afterOne env 10 = .ok ⟨-1, none⟩ := by
  refine ⟨⟨{stdout}, fun _ _ => true⟩, Finset.mem_singleton_self stdout, by decide, ?_⟩
  obtain ⟨o, ho, ⟨rfl, hconnects⟩ | ⟨rfl, -⟩ | ⟨-, hfailed⟩⟩ :=
    unblockConnect_sound afterOne ⟨{stdout}, fun _ _ => true⟩ 10 (by decide)
  · -- `stdout` comes before the connection
    have hfd : returned afterOne ⟨{stdout}, fun _ _ => true⟩ 10 = .ok afterOne.fd := by
      rw [returned, ho]
      rfl
    have hready := (returned_of_connects rfl (by decide) hconnects).1 hfd stdout
      (Finset.mem_singleton_self stdout) (by decide) 0 (by decide)
    cases hready
  · exact ho
  · cases hfailed

end Connect

end LinuxServer
