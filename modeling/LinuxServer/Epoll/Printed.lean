import LinuxServer.Epoll.Handlers

/-!
# What a worker prints

The buffer of `worker` in `epoll_one_shot.cc`.  It is cleared once, before the first `recv`; each
`recv` writes over its beginning, and what is printed is the C string in it.

* `worker results`: the texts printed.
* `Holds buf text`: the buffer holds a text, and zeros behind it.

`worker_prints_iff`: each text is what was received exactly when no piece is shorter than one
before it.
-/

namespace LinuxServer

namespace OneShot

open CString
open Epoll (RecvResult)

/-- `BUFFER_SIZE` -/
def bufferSize : ℕ := 1024

/-- The buffer when `recv` has received `bytes`. -/
def fill (buf bytes : List Byte) : List Byte := bytes ++ buf.drop bytes.length

/-- The loop of `worker`, with the texts printed; there is none when the buffer has no NUL. -/
def workerLoop (buf : List Byte) : List RecvResult → List (Option (List Byte))
  | [] => []
  | result :: results =>
    if result.ret = 0 then []
    else if result.ret < 0 then
      -- an error other than `EAGAIN` does not end the loop
      if result = .failed true then [] else workerLoop buf results
    else
      match result with
      | .data bytes => cstr (fill buf bytes) :: workerLoop (fill buf bytes) results
      | .failed _ => workerLoop buf results

/-- `worker`, by what its `recv` calls return. -/
def worker (results : List RecvResult) : List (Option (List Byte)) :=
  workerLoop (List.replicate bufferSize 0) results

/-- What `recv` can receive here: no NUL, and a byte less than the buffer has at most. -/
def Piece (bytes : List Byte) : Prop := bytes ≠ [] ∧ bytes.length ≤ bufferSize - 1 ∧ 0 ∉ bytes

/-- The buffer holds a text and zeros behind it. -/
structure Holds (buf text : List Byte) : Prop where
  eq_append : buf = text ++ List.replicate (bufferSize - text.length) 0
  length_le : text.length ≤ bufferSize - 1
  zero_notMem : 0 ∉ text

variable {buf text bytes : List Byte} {segments : List (List Byte)}

theorem holds_init : Holds (List.replicate bufferSize 0) [] :=
  ⟨rfl, Nat.zero_le _, List.not_mem_nil⟩

theorem Holds.cstr_eq (h : Holds buf text) : cstr buf = some text := by
  have hlt : text.length < bufferSize := Nat.lt_of_le_pred (by decide) h.length_le
  obtain ⟨n, hn⟩ : ∃ n, bufferSize - text.length = n + 1 := ⟨bufferSize - text.length - 1, by omega⟩
  rw [h.eq_append, hn, List.replicate_succ, cstr_append h.zero_notMem]

/-- What a shorter piece does not write over stays in the text. -/
theorem Holds.fill (h : Holds buf text) (hp : Piece bytes) :
    Holds (fill buf bytes) (bytes ++ text.drop bytes.length) := by
  obtain ⟨-, hlen, hzero⟩ := hp
  have hdrop : (text.drop bytes.length).length = text.length - bytes.length := List.length_drop
  have hle := h.length_le
  constructor
  · rw [OneShot.fill, h.eq_append, List.drop_append, List.drop_replicate, List.append_assoc,
      List.length_append, hdrop]
    have hrest : bufferSize - text.length - (bytes.length - text.length) =
        bufferSize - (bytes.length + (text.length - bytes.length)) := by omega
    rw [hrest]
  · rw [List.length_append, hdrop]
    omega
  · rw [List.mem_append, not_or]
    exact ⟨hzero, fun hmem => h.zero_notMem (List.mem_of_mem_drop hmem)⟩

theorem workerLoop_data {results : List RecvResult} (hne : bytes ≠ []) :
    workerLoop buf (.data bytes :: results) =
      cstr (fill buf bytes) :: workerLoop (fill buf bytes) results := by
  have hpos : 0 < bytes.length := List.length_pos_iff.2 hne
  have hret : (RecvResult.data bytes).ret = bytes.length := rfl
  rw [workerLoop, if_neg (by omega), if_neg (by omega)]

theorem workerLoop_prints_iff (h : Holds buf text) (hs : ∀ bytes ∈ segments, Piece bytes) :
    workerLoop buf (segments.map .data) = segments.map some ↔
      (∀ bytes ∈ segments, text.length ≤ bytes.length) ∧
        segments.Pairwise fun bytes later => bytes.length ≤ later.length := by
  induction segments generalizing buf text with
  | nil => exact iff_of_true rfl ⟨fun _ hmem => absurd hmem List.not_mem_nil, .nil⟩
  | cons bytes segments ih =>
    have hp := hs bytes List.mem_cons_self
    have hfill := h.fill hp
    have hdrop : bytes ++ text.drop bytes.length = bytes ↔ text.length ≤ bytes.length := by
      rw [List.append_right_eq_self, List.drop_eq_nil_iff]
    rw [List.map_cons, List.map_cons, workerLoop_data hp.1, hfill.cstr_eq, List.cons.injEq,
      Option.some.injEq, hdrop, ih hfill fun b hb => hs b (List.mem_cons_of_mem _ hb),
      List.pairwise_cons, List.forall_mem_cons]
    constructor
    · rintro ⟨hle, hall, hpairs⟩
      rw [hdrop.2 hle] at hall
      exact ⟨⟨hle, fun b hb => hle.trans (hall b hb)⟩, hall, hpairs⟩
    · rintro ⟨⟨hle, -⟩, hall, hpairs⟩
      refine ⟨hle, ?_, hpairs⟩
      rwa [hdrop.2 hle]

/-- **When a worker prints what it received**: exactly when no piece is shorter than one before
it. -/
theorem worker_prints_iff (hs : ∀ bytes ∈ segments, Piece bytes) :
    worker (segments.map .data) = segments.map some ↔
      segments.Pairwise fun bytes later => bytes.length ≤ later.length := by
  refine (workerLoop_prints_iff holds_init hs).trans ?_
  exact and_iff_right fun bytes _ => Nat.zero_le _

/-- Two bytes, then three. -/
theorem worker_prints_iff_longer :
    worker ([[104, 105], [121, 111, 117]].map .data) = [[104, 105], [121, 111, 117]].map some :=
  (worker_prints_iff (by simp [Piece, bufferSize])).2 (by simp)

/-- Two bytes, then one: the second byte is printed again. -/
theorem not_worker_prints_shorter : ¬ ∀ segments : List (List Byte),
    (∀ bytes ∈ segments, Piece bytes) → worker (segments.map .data) = segments.map some := by
  intro hall
  have hpiece : ∀ bytes ∈ [[104, 105], [104]], Piece bytes := by simp [Piece, bufferSize]
  obtain ⟨-, hpairs⟩ := (workerLoop_prints_iff holds_init hpiece).1 (hall _ hpiece)
  exact absurd hpairs (by simp)

end OneShot

end LinuxServer
