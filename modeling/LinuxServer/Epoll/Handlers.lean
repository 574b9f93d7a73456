import LinuxServer.CString.Basic
import LinuxServer.Epoll.Basic
import Mathlib.Data.Int.Order.Basic

/-!
# The handlers of a descriptor

What `et` and `lt` of `epoll.cc` do with a descriptor that is reported as readable.  `et` reads on
until a `recv` fails, also behind the end of the stream; `lt` reads once for each report.

* `Kernel σ`: what `recv` and `close` do with a descriptor.
* `et`, `lt`: the handlers, with the calls they make.
* `scripted`: a descriptor whose `recv` calls return given results while it is open.
* `socket`: a descriptor with bytes to receive.

`closesOnce_iff`: when `et` closes no descriptor twice.  `et_lt_deliver`: on a socket `et`, and `lt`
as often as it takes, receive the same pieces.
-/

namespace LinuxServer

namespace Epoll

/-- `BUFFER_SIZE` -/
def bufferSize : ℕ := 10

/-- What a `recv` returns. -/
inductive RecvResult where
  /-- The number of the bytes received, zero at the end of the stream. -/
  | data (bytes : List Byte)
  /-- `-1`, with `errno` equal to `EAGAIN` or `EWOULDBLOCK` or not. -/
  | failed (again : Bool)
  deriving DecidableEq, Repr

/-- The value returned. -/
def RecvResult.ret : RecvResult → ℤ
  | .data bytes => bytes.length
  | .failed _ => -1

/-- What the kernel does with a descriptor in the state `σ`. -/
structure Kernel (σ : Type*) where
  /-- `recv` into a buffer of the length given. -/
  recv : ℕ → σ → RecvResult × σ
  close : σ → σ

/-- A call that a handler makes. -/
inductive Call where
  | accept
  | recv (fd : ℕ) (result : RecvResult)
  | close (fd : ℕ)
  deriving DecidableEq, Repr

/-- The descriptor of the call. -/
def Call.fd? : Call → Option ℕ
  | .accept => none
  | .recv fd _ | .close fd => some fd

/-- What a handler has done for an event. -/
structure Handled (σ : Type*) where
  calls : List Call
  /-- The descriptor afterwards. -/
  state : σ
  /-- The handler is done with the event. -/
  returned : Bool

section Code

variable {σ : Type*} (K : Kernel σ)

/-- The loop of `et`, for some rounds. -/
def etLoop (fd : ℕ) : ℕ → σ → Handled σ
  | 0, s => ⟨[], s, false⟩
  | rounds + 1, s =>
    let (result, s) := K.recv (bufferSize - 1) s
    if result.ret < 0 then
      if result = .failed true then ⟨[.recv fd result], s, true⟩
      else ⟨[.recv fd result, .close fd], K.close s, true⟩
    else if result.ret = 0 then
      -- the loop goes on behind `close`
      let rest := etLoop fd rounds (K.close s)
      { rest with calls := .recv fd result :: .close fd :: rest.calls }
    else
      let rest := etLoop fd rounds s
      { rest with calls := .recv fd result :: rest.calls }

/-- The body of the loop of `et` over the events, each with the state of its descriptor. -/
def etEvent (rounds : ℕ) : Event × σ → Handled σ
  | (.listen, s) => ⟨[.accept], s, true⟩
  | (.client fd true, s) => etLoop K fd rounds s
  | (.client _ false, s) => ⟨[], s, true⟩

/-- `et`, with so many rounds for each descriptor. -/
def et (rounds : ℕ) (events : List (Event × σ)) : List (Handled σ) := events.map (etEvent K rounds)

/-- The body of the loop of `lt` over the events. -/
def ltEvent : Event × σ → Handled σ
  | (.listen, s) => ⟨[.accept], s, true⟩
  | (.client fd true, s) =>
    let (result, s) := K.recv (bufferSize - 1) s
    if result.ret ≤ 0 then ⟨[.recv fd result, .close fd], K.close s, true⟩
    else ⟨[.recv fd result], s, true⟩
  | (.client _ false, s) => ⟨[], s, true⟩

/-- `lt` -/
def lt (events : List (Event × σ)) : List (Handled σ) := events.map (ltEvent K)

variable {K} {fd rounds : ℕ} {s s' : σ}

theorem etLoop_again (h : K.recv (bufferSize - 1) s = (.failed true, s')) :
    etLoop K fd (rounds + 1) s = ⟨[.recv fd (.failed true)], s', true⟩ := by
  rw [etLoop, h]
  rfl

theorem etLoop_failed (h : K.recv (bufferSize - 1) s = (.failed false, s')) :
    etLoop K fd (rounds + 1) s = ⟨[.recv fd (.failed false), .close fd], K.close s', true⟩ := by
  rw [etLoop, h]
  rfl

theorem etLoop_end (h : K.recv (bufferSize - 1) s = (.data [], s')) :
    etLoop K fd (rounds + 1) s = { etLoop K fd rounds (K.close s') with
      calls := .recv fd (.data []) :: .close fd :: (etLoop K fd rounds (K.close s')).calls } := by
  rw [etLoop, h]
  rfl

theorem etLoop_data {bytes : List Byte} (h : K.recv (bufferSize - 1) s = (.data bytes, s'))
    (hne : bytes ≠ []) :
    etLoop K fd (rounds + 1) s = { etLoop K fd rounds s' with
      calls := .recv fd (.data bytes) :: (etLoop K fd rounds s').calls } := by
  have hpos : 0 < bytes.length := List.length_pos_iff.2 hne
  have hret : (RecvResult.data bytes).ret = bytes.length := rfl
  rw [etLoop, h]
  show (if (RecvResult.data bytes).ret < 0 then _ else _) = _
  rw [if_neg (by omega), if_neg (by omega)]

end Code

/-! ### Closing once -/

/-- A descriptor whose `recv` calls return `results` in turn while it is open. -/
structure Scripted where
  closed : Bool
  results : ℕ → RecvResult

/-- A `recv` on a closed descriptor fails with `EBADF`. -/
def scripted : Kernel Scripted where
  recv _ s :=
    if s.closed then (.failed false, s)
    else (s.results 0, { s with results := fun i => s.results (i + 1) })
  close s := { s with closed := true }

/-- No descriptor is closed twice, or read or closed when it is closed. -/
structure ClosesOnce (calls : List Call) : Prop where
  once : ∀ fd, calls.count (.close fd) ≤ 1
  untouched : ∀ pre fd post, calls = pre ++ .close fd :: post → ∀ call ∈ post, call.fd? ≠ some fd

/-- The first of the results that is no data is the end of the stream. -/
def EndsStream (results : ℕ → RecvResult) : Prop :=
  ∃ k, results k = .data [] ∧ ∀ j < k, 0 < (results j).ret

variable {fd rounds : ℕ} {results : ℕ → RecvResult} {pre calls : List Call}

theorem scripted_recv (results : ℕ → RecvResult) {n : ℕ} :
    scripted.recv n ⟨false, results⟩ = (results 0, ⟨false, fun i => results (i + 1)⟩) := rfl

theorem endsStream_cons (h : 0 < (results 0).ret) :
    EndsStream results ↔ EndsStream fun i => results (i + 1) := by
  constructor
  · rintro ⟨k, hend, hdata⟩
    obtain ⟨k, rfl⟩ : ∃ i, k = i + 1 := Nat.exists_eq_add_one.2 <| Nat.pos_of_ne_zero fun h0 => by
      rw [h0] at hend
      rw [hend] at h
      exact absurd h (lt_irrefl 0)
    exact ⟨k, hend, fun j hj => hdata (j + 1) (Nat.succ_lt_succ hj)⟩
  · rintro ⟨k, hend, hdata⟩
    refine ⟨k + 1, hend, fun j hj => ?_⟩
    cases j with
    | zero => exact h
    | succ j => exact hdata j (Nat.lt_of_succ_lt_succ hj)

/-- Before the end of the stream a descriptor is closed in the last call, if at all. -/
theorem etLoop_calls (fd rounds : ℕ) (h : ¬ EndsStream results) :
    ∃ pre, (∀ fd', Call.close fd' ∉ pre) ∧
      ((etLoop scripted fd rounds ⟨false, results⟩).calls = pre ∨
        (etLoop scripted fd rounds ⟨false, results⟩).calls = pre ++ [.close fd]) := by
  induction rounds generalizing results with
  | zero => exact ⟨[], fun _ => List.not_mem_nil, .inl rfl⟩
  | succ rounds ih =>
    have hone : ∀ result fd', Call.close fd' ∉ [Call.recv fd result] := by simp
    have hrecv := scripted_recv results (n := bufferSize - 1)
    rcases hresult : results 0 with (_ | ⟨b, bytes⟩) | (_ | _)
    · exact absurd ⟨0, hresult, fun j hj => absurd hj (Nat.not_lt_zero j)⟩ h
    · -- the loop goes on behind the data
      have hdata : 0 < (results 0).ret := by
        rw [hresult]
        exact Int.natCast_pos.2 (Nat.succ_pos _)
      obtain ⟨pre, hpre, hcalls⟩ := ih (mt (endsStream_cons hdata).2 h)
      rw [hresult] at hrecv
      rw [etLoop_data hrecv (List.cons_ne_nil b bytes)]
      refine ⟨.recv fd (.data (b :: bytes)) :: pre, fun fd' => ?_, ?_⟩
      · simpa using hpre fd'
      · rcases hcalls with hcalls | hcalls
        · exact .inl (congrArg _ hcalls)
        · exact .inr (congrArg _ hcalls)
    · rw [hresult] at hrecv
      exact ⟨_, hone _, .inr (congrArg Handled.calls (etLoop_failed hrecv))⟩
    · rw [hresult] at hrecv
      exact ⟨_, hone _, .inl (congrArg Handled.calls (etLoop_again hrecv))⟩

theorem closesOnce_of_calls (fd : ℕ) (hnone : ∀ fd', Call.close fd' ∉ pre)
    (h : calls = pre ∨ calls = pre ++ [.close fd]) : ClosesOnce calls := by
  have hcount : ∀ fd', pre.count (.close fd') = 0 := fun fd' => List.count_eq_zero.2 (hnone fd')
  rcases h with rfl | rfl
  · refine ⟨fun fd' => (hcount fd').le.trans (Nat.zero_le 1), fun pre' fd' post heq => ?_⟩
    exact absurd (heq ▸ List.mem_append_right pre' List.mem_cons_self) (hnone fd')
  · refine ⟨fun fd' => ?_, fun pre' fd' post heq => ?_⟩
    · rw [List.count_append, hcount, Nat.zero_add]
      exact List.count_le_length
    · -- what is behind the only `close` is nothing
      rcases List.eq_nil_or_concat post with rfl | ⟨post', last, rfl⟩
      · exact fun call hcall => absurd hcall List.not_mem_nil
      · rw [List.concat_eq_append, ← List.cons_append, ← List.append_assoc] at heq
        obtain ⟨heq, -⟩ := List.append_inj' heq rfl
        exact absurd (heq ▸ List.mem_append_right pre' List.mem_cons_self) (hnone fd')

/-- Behind the end of the stream the closed descriptor is read. -/
theorem etLoop_endsStream (fd : ℕ) (h : EndsStream results) : ∃ rounds pre result post,
    (etLoop scripted fd rounds ⟨false, results⟩).calls =
      pre ++ .close fd :: .recv fd result :: post := by
  obtain ⟨k, hend, hdata⟩ := h
  induction k generalizing results with
  | zero =>
    have hrecv : scripted.recv (bufferSize - 1) ⟨false, results⟩ =
        (.data [], ⟨false, fun i => results (i + 1)⟩) := by rw [scripted_recv, hend]
    refine ⟨2, [.recv fd (.data [])], .failed false, [.close fd], ?_⟩
    rw [etLoop_end hrecv]
    rfl
  | succ k ih =>
    obtain ⟨rounds, pre, result, post, hcalls⟩ :=
      ih hend fun j hj => hdata (j + 1) (Nat.succ_lt_succ hj)
    have h0 := hdata 0 (Nat.succ_pos k)
    rcases hresult : results 0 with (_ | ⟨b, bytes⟩) | again
    · rw [hresult] at h0
      exact absurd h0 (lt_irrefl 0)
    · have hrecv : scripted.recv (bufferSize - 1) ⟨false, results⟩ =
          (.data (b :: bytes), ⟨false, fun i => results (i + 1)⟩) := by rw [scripted_recv, hresult]
      refine ⟨rounds + 1, .recv fd (.data (b :: bytes)) :: pre, result, post, ?_⟩
      rw [etLoop_data hrecv (List.cons_ne_nil b bytes)]
      exact congrArg _ hcalls
    · rw [hresult] at h0
      exact absurd h0 (show ¬ (0 : ℤ) < -1 by decide)

/-- **When `et` closes a descriptor once.**  For no number of rounds does it touch a descriptor that
it has closed for the same event, exactly when no descriptor to read comes to the end of its
stream. -/
theorem closesOnce_iff (events : List (Event × (ℕ → RecvResult))) :
    (∀ rounds, ∀ h ∈ et scripted rounds (events.map fun e => (e.1, ⟨false, e.2⟩)),
        ClosesOnce h.calls) ↔
      ∀ e ∈ events, ∀ fd, e.1 = .client fd true → ¬ EndsStream e.2 := by
  have hmem : ∀ {rounds} {e : Event × (ℕ → RecvResult)}, e ∈ events →
      etEvent scripted rounds (e.1, ⟨false, e.2⟩) ∈
        et scripted rounds (events.map fun e => (e.1, ⟨false, e.2⟩)) := fun he =>
    List.mem_map_of_mem (List.mem_map_of_mem (f := fun e => (e.1, (⟨false, e.2⟩ : Scripted))) he)
  constructor
  · rintro hall ⟨event, results⟩ he fd rfl hend
    obtain ⟨rounds, pre, result, post, hcalls⟩ := etLoop_endsStream fd hend
    exact (hall rounds _ (hmem he)).untouched pre fd _ hcalls (.recv fd result) (by simp) rfl
  · intro hnone rounds h hh
    obtain ⟨⟨event, s⟩, hs, rfl⟩ := List.mem_map.1 hh
    obtain ⟨e, he, heq⟩ := List.mem_map.1 hs
    obtain ⟨rfl, rfl⟩ := Prod.mk.inj heq
    rcases e with ⟨_ | ⟨fd, _ | _⟩, results⟩
    · exact closesOnce_of_calls 0 (by simp) (.inl (rfl : [Call.accept] = _))
    · exact closesOnce_of_calls 0 (by simp) (.inl (rfl : ([] : List Call) = _))
    · obtain ⟨pre, hpre, hcalls⟩ := etLoop_calls fd rounds (hnone _ he fd rfl)
      exact closesOnce_of_calls fd hpre hcalls

/-- The peer has closed the connection. -/
theorem not_closesOnce_end : ¬ ∀ (events : List (Event × (ℕ → RecvResult))) rounds,
    ∀ h ∈ et scripted rounds (events.map fun e => (e.1, ⟨false, e.2⟩)), ClosesOnce h.calls := by
  intro hall
  have hclose := hall [(.client 5 true, fun _ => .data [])] 2 _ List.mem_cons_self
  exact absurd (hclose.once 5) (by decide)

/-! ### The same data -/

/-- A connection, as the kernel keeps it for a descriptor. -/
structure Conn where
  /-- The bytes to receive. -/
  pending : List Byte
  peerClosed : Bool
  closed : Bool
  deriving DecidableEq, Repr

/-- A non-blocking descriptor of a connection. -/
def socket : Kernel Conn where
  recv n s :=
    if s.closed then (.failed false, s)
    else if s.pending = [] then (if s.peerClosed then .data [] else .failed true, s)
    else (.data (s.pending.take n), { s with pending := s.pending.drop n })
  close s := { s with closed := true }

/-- `epoll_wait` reports the descriptor, when it does so as long as it is readable. -/
def Conn.Readable (s : Conn) : Prop := s.closed = false ∧ (s.pending ≠ [] ∨ s.peerClosed = true)

instance (s : Conn) : Decidable s.Readable := inferInstanceAs (Decidable (_ ∧ _))

/-- `lt` is called for a descriptor as long as it is readable, but not more often than `reports`
times. -/
def ltWhile (fd : ℕ) : ℕ → Conn → Handled Conn
  | 0, s => ⟨[], s, false⟩
  | reports + 1, s =>
    if s.Readable then
      let h := (lt socket [(.client fd true, s)]).head (List.cons_ne_nil _ _)
      let rest := ltWhile fd reports h.state
      { rest with calls := h.calls ++ rest.calls }
    else ⟨[], s, true⟩

/-- The pieces received. -/
def received (calls : List Call) : List (List Byte) :=
  calls.filterMap fun call => match call with
    | .recv _ (.data (b :: bytes)) => some (b :: bytes)
    | _ => none

/-- The bytes in pieces that fill the buffer. -/
def pieces (bytes : List Byte) : List (List Byte) :=
  if bytes = [] then []
  else bytes.take (bufferSize - 1) :: pieces (bytes.drop (bufferSize - 1))
termination_by bytes.length
decreasing_by
  rename_i hne
  rw [List.length_drop]
  exact Nat.sub_lt (List.length_pos_iff.2 hne) (by decide)

/-- The handler is done, and has received the bytes in pieces that fit the buffer. -/
structure Delivered (bytes : List Byte) (h : Handled Conn) : Prop where
  returned : h.returned = true
  whole : (received h.calls).flatten = bytes
  fits : ∀ piece ∈ received h.calls, piece.length ≤ bufferSize - 1

variable {bytes : List Byte} {peerClosed : Bool} {e : Handled Conn}

theorem pieces_nil : pieces [] = [] := by rw [pieces, if_pos rfl]

theorem pieces_of_ne (hne : bytes ≠ []) :
    pieces bytes = bytes.take (bufferSize - 1) :: pieces (bytes.drop (bufferSize - 1)) := by
  rw [pieces, if_neg hne]

theorem take_ne_nil (hne : bytes ≠ []) : bytes.take (bufferSize - 1) ≠ [] := by
  rw [ne_eq, List.take_eq_nil_iff, not_or]
  exact ⟨by decide, hne⟩

theorem length_drop_lt (hne : bytes ≠ []) :
    (bytes.drop (bufferSize - 1)).length < bytes.length := by
  rw [List.length_drop]
  exact Nat.sub_lt (List.length_pos_iff.2 hne) (by decide)

theorem pieces_flatten (bytes : List Byte) : (pieces bytes).flatten = bytes := by
  induction bytes using pieces.induct with
  | case1 => rw [pieces_nil, List.flatten_nil]
  | case2 bytes hne ih => rw [pieces_of_ne hne, List.flatten_cons, ih, List.take_append_drop]

theorem length_le_of_mem_pieces {piece : List Byte} (hp : piece ∈ pieces bytes) :
    piece.length ≤ bufferSize - 1 := by
  induction bytes using pieces.induct with
  | case1 =>
    rw [pieces_nil] at hp
    exact absurd hp List.not_mem_nil
  | case2 bytes hne ih =>
    rw [pieces_of_ne hne] at hp
    rcases List.mem_cons.1 hp with rfl | hp
    · exact List.length_take_le _ _
    · exact ih hp

theorem received_data (hne : bytes ≠ []) :
    received (.recv fd (.data bytes) :: calls) = bytes :: received calls := by
  obtain ⟨b, bytes, rfl⟩ := List.exists_cons_of_ne_nil hne
  rfl

/-- The handler is done with all bytes, and has closed the descriptor if the peer has closed. -/
structure Drained (bytes : List Byte) (peerClosed : Bool) (h : Handled Conn) : Prop where
  returned : h.returned = true
  state_eq : h.state = ⟨[], peerClosed, peerClosed⟩
  received_eq : received h.calls = pieces bytes

theorem Drained.delivered (h : Drained bytes peerClosed e) : Delivered bytes e := by
  refine ⟨h.returned, ?_, ?_⟩
  · rw [h.received_eq, pieces_flatten]
  · rw [h.received_eq]
    exact fun piece hp => length_le_of_mem_pieces hp

theorem Drained.data (h : Drained (bytes.drop (bufferSize - 1)) peerClosed e) (hne : bytes ≠ [])
    (fd : ℕ) : Drained bytes peerClosed
      { e with calls := .recv fd (.data (bytes.take (bufferSize - 1))) :: e.calls } := by
  refine ⟨h.returned, h.state_eq, ?_⟩
  rw [received_data (take_ne_nil hne), h.received_eq, pieces_of_ne hne]

theorem socket_data (hne : bytes ≠ []) : socket.recv (bufferSize - 1) ⟨bytes, peerClosed, false⟩ =
    (.data (bytes.take (bufferSize - 1)), ⟨bytes.drop (bufferSize - 1), peerClosed, false⟩) := by
  simp only [socket, Bool.false_eq_true, if_false, hne]

/-- `et` reads on to the end of the bytes. -/
theorem etLoop_socket (fd : ℕ) (peerClosed : Bool) (hrounds : bytes.length + 2 ≤ rounds) :
    Drained bytes peerClosed (etLoop socket fd rounds ⟨bytes, peerClosed, false⟩) := by
  induction rounds generalizing bytes with
  | zero => omega
  | succ rounds ih =>
    by_cases hne : bytes = []
    · subst hne
      obtain ⟨rounds, rfl⟩ : ∃ k, rounds = k + 1 :=
        Nat.exists_eq_add_one.2 (by simp at hrounds; omega)
      cases peerClosed with
      | false =>
        rw [etLoop_again (show socket.recv (bufferSize - 1) ⟨[], false, false⟩ = _ from rfl)]
        exact ⟨rfl, rfl, pieces_nil.symm⟩
      | true =>
        rw [etLoop_end (show socket.recv (bufferSize - 1) ⟨[], true, false⟩ = _ from rfl),
          etLoop_failed (s := socket.close ⟨[], true, false⟩) rfl]
        exact ⟨rfl, rfl, pieces_nil.symm⟩
    · have hlt := length_drop_lt hne
      have hrest := @ih (bytes.drop (bufferSize - 1)) (by omega)
      rw [etLoop_data (socket_data hne) (take_ne_nil hne)]
      exact hrest.data hne fd

theorem lt_socket_data (hne : bytes ≠ []) :
    ltEvent socket (.client fd true, ⟨bytes, peerClosed, false⟩) =
      ⟨[.recv fd (.data (bytes.take (bufferSize - 1)))],
        ⟨bytes.drop (bufferSize - 1), peerClosed, false⟩, true⟩ := by
  have hpos := List.length_pos_iff.2 (take_ne_nil hne)
  have hret : (RecvResult.data (bytes.take (bufferSize - 1))).ret =
    (bytes.take (bufferSize - 1)).length := rfl
  rw [ltEvent, socket_data hne]
  show (if (RecvResult.data (bytes.take (bufferSize - 1))).ret ≤ 0 then _ else _) = _
  rw [if_neg (by omega)]

/-- `lt` is called up to the end of the bytes. -/
theorem ltWhile_socket (fd : ℕ) (peerClosed : Bool) (hrounds : bytes.length + 2 ≤ rounds) :
    Drained bytes peerClosed (ltWhile fd rounds ⟨bytes, peerClosed, false⟩) := by
  induction rounds generalizing bytes with
  | zero => omega
  | succ rounds ih =>
    by_cases hne : bytes = []
    · subst hne
      obtain ⟨rounds, rfl⟩ : ∃ k, rounds = k + 1 :=
        Nat.exists_eq_add_one.2 (by simp at hrounds; omega)
      cases peerClosed with
      | false => exact ⟨rfl, rfl, pieces_nil.symm⟩
      | true => exact ⟨rfl, rfl, pieces_nil.symm⟩
    · have hlt := length_drop_lt hne
      have hrest := @ih (bytes.drop (bufferSize - 1)) (by omega)
      have hreadable : Conn.Readable ⟨bytes, peerClosed, false⟩ := ⟨rfl, .inl hne⟩
      have hhead : (lt socket [(.client fd true, ⟨bytes, peerClosed, false⟩)]).head
          (List.cons_ne_nil _ _) = _ := lt_socket_data hne
      rw [ltWhile, if_pos hreadable, hhead]
      exact hrest.data hne fd

/-- **Both handlers deliver the same data.**  One call of `et` for a connection, and `lt` called as
long as it is readable, receive the same pieces, which are the bytes to receive, and leave the
descriptor in the same state. -/
theorem et_lt_deliver (fd : ℕ) (bytes : List Byte) (peerClosed : Bool)
    (hrounds : bytes.length + 2 ≤ rounds) :
    ∃ e, et socket rounds [(.client fd true, ⟨bytes, peerClosed, false⟩)] = [e] ∧
      Delivered bytes e ∧ Delivered bytes (ltWhile fd rounds ⟨bytes, peerClosed, false⟩) ∧
      received e.calls = received (ltWhile fd rounds ⟨bytes, peerClosed, false⟩).calls ∧
      e.state = (ltWhile fd rounds ⟨bytes, peerClosed, false⟩).state := by
  have het := etLoop_socket fd peerClosed hrounds
  have hlt := ltWhile_socket fd peerClosed hrounds
  exact ⟨_, rfl, het.delivered, hlt.delivered, het.received_eq.trans hlt.received_eq.symm,
    het.state_eq.trans hlt.state_eq.symm⟩

/-- Eleven bytes, then the end of the stream. -/
theorem et_lt_deliver_eleven :
    ∃ e, et socket 13 [(.client 5 true, ⟨List.replicate 11 65, true, false⟩)] = [e] ∧
      Delivered (List.replicate 11 65) e ∧
      Delivered (List.replicate 11 65) (ltWhile 5 13 ⟨List.replicate 11 65, true, false⟩) ∧
      received e.calls = received (ltWhile 5 13 ⟨List.replicate 11 65, true, false⟩).calls ∧
      e.state = (ltWhile 5 13 ⟨List.replicate 11 65, true, false⟩).state :=
  et_lt_deliver 5 (List.replicate 11 65) true (by decide)

end Epoll

end LinuxServer
