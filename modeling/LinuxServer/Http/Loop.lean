import LinuxServer.Http.Receive

/-!
# Rounds of the receive loop

What one round of the loop of `main` in `http_parse.cc` does, and what follows for all of them.

* `Fits r rs`: the results `rs` can come from `recv` when `read_index` is `r`.
* `Conn.WF`: the variables of the loop between two rounds.  From such a state a result that fits
  makes no access outside the buffer (`exists_recvRound`), and the loop goes on or leaves on all of
  them (`exists_recvLoop`).
* `leaves_iff`: after the peer has closed, `recv` returns 0 for ever, and no round on 0 leaves the
  loop (`recvRound_nil`).
-/

namespace LinuxServer

namespace Http

/-- The parser of a round in which `recv` has written `bs` and left the buffer `b`. -/
def Conn.received (c : Conn) (bs b : List Byte) : Parser :=
  { c.parser with
    buffer := b, out := c.parser.out ++ if bs.length = 0 then [Msg.clientClosed] else [] }

/-- The results that `recv` can have from `read_index = r` on: it is given the room up to
`BUFFER_SIZE`, and each result sets `read_index`. -/
def Fits (r : ℕ) : List Recv → Prop
  | [] => True
  | .failed :: _ => True
  | .data bs :: rs => r + bs.length ≤ bufferSize ∧ Fits bs.length rs

/-- What holds of the variables between two rounds. -/
structure Conn.WF (c : Conn) : Prop where
  length_eq : c.parser.buffer.length = bufferSize
  start_le : c.parser.startLine ≤ c.parser.checkedIndex
  checked_le : c.parser.checkedIndex ≤ bufferSize

variable {c c' : Conn} {bs b : List Byte} {res : Recv} {rs rs' : List Recv} {code : HttpCode}
  {P : Parser} {e : Exit} {r : ℕ}

theorem Conn.init_wf : Conn.init.WF := ⟨List.length_replicate, le_rfl, Nat.zero_le _⟩

theorem recvRound_failed :
    recvRound c .failed =
      some ({ c with parser.out := c.parser.out ++ [.readingFailed] }, some .readFailed) := rfl

theorem recvRound_eq (hw : writeAt c.parser.buffer c.readIndex bs = some b)
    (hp : parseContent (c.received bs b) bs.length = some (code, P)) :
    recvRound c (.data bs) = some (⟨P, bs.length⟩, answer code) := by
  unfold Conn.received at hp
  simp only [recvRound, hw, hp, Option.bind_eq_bind, Option.bind_some]

/-- What a round on received bytes has done. -/
theorem recvRound_cases {x : Option Exit} (h : recvRound c (.data bs) = some (c', x)) :
    ∃ b code P, writeAt c.parser.buffer c.readIndex bs = some b ∧
      parseContent (c.received bs b) bs.length = some (code, P) ∧ c' = ⟨P, bs.length⟩ ∧
      x = answer code := by
  simp only [recvRound, Option.bind_eq_bind] at h
  obtain ⟨b, hw, h⟩ := Option.bind_eq_some_iff.1 h
  obtain ⟨⟨code, P⟩, hp, h⟩ := Option.bind_eq_some_iff.1 h
  obtain ⟨rfl, rfl⟩ := Prod.mk.inj (Option.some.inj h)
  exact ⟨b, code, P, hw, hp, rfl, rfl⟩

theorem recvLoop_cons : recvLoop c (res :: rs) = (recvRound c res).bind fun s =>
    match s with
    | (c, some e) => some (c, some e)
    | (c, none) => recvLoop c rs := rfl

theorem recvLoop_leave (h : recvRound c res = some (c', some e)) :
    recvLoop c (res :: rs) = some (c', some e) := by
  rw [recvLoop_cons, h]
  rfl

theorem recvLoop_wait (h : recvRound c res = some (c', none)) :
    recvLoop c (res :: rs) = recvLoop c' rs := by
  rw [recvLoop_cons, h]
  rfl

/-- The loop on more results goes on where it waits, and does not look at them when it has left. -/
theorem recvLoop_append : recvLoop c (rs ++ rs') = (recvLoop c rs).bind fun s =>
    match s with
    | (c, some e) => some (c, some e)
    | (c, none) => recvLoop c rs' := by
  induction rs generalizing c with
  | nil => rfl
  | cons res rs ih =>
    rw [List.cons_append, recvLoop_cons, recvLoop_cons, Option.bind_assoc]
    refine Option.bind_congr fun s _ => ?_
    obtain ⟨c', x⟩ := s
    cases x with
    | some e => rfl
    | none => exact ih

theorem recvLoop_append_of_wait (h : recvLoop c rs = some (c', none)) :
    recvLoop c (rs ++ rs') = recvLoop c' rs' := by
  rw [recvLoop_append, h]
  rfl

theorem recvLoop_append_of_leave (h : recvLoop c rs = some (c', some e)) :
    recvLoop c (rs ++ rs') = some (c', some e) := by
  rw [recvLoop_append, h]
  rfl

/-! ### No access leaves the buffer -/

theorem writeAt_of_le {i : ℕ} (h : i + bs.length ≤ b.length) :
    writeAt b i bs = some (b.take i ++ bs ++ b.drop (i + bs.length)) := if_pos h

theorem length_of_writeAt {a : List Byte} {i : ℕ} (h : writeAt a i bs = some b) :
    b.length = a.length := by
  unfold writeAt at h
  split_ifs at h with hle
  rw [← Option.some.inj h]
  simp only [List.length_append, List.length_take, List.length_drop]
  omega

theorem Content.checked_le {P P' : Parser} (h : Content r P code P') (hwf : P.WF r) :
    P'.checkedIndex ≤ max P.checkedIndex r := by
  have hscan : ∀ {P : Parser} {st : LineStatus} {b : List Byte} {c : ℕ}, P.WF r →
      parseLine P.buffer P.checkedIndex r = some (st, b, c) → st ≠ .ok →
      c ≤ max P.checkedIndex r := by
    intro P st b c hwf hline hst
    obtain ⟨e, -, her, -, hstop⟩ := stop_of_parseLine hwf.le_length hline
    have hc : c = e := by
      cases hstop with
      | exhausted h => rfl
      | lastCR hb h => rfl
      | crBad hb h hb' hne => rfl
      | lfBad hb h hb' => rfl
      | crlf hb h hb' => exact absurd rfl hst
      | lf hb h he hb' => exact absurd rfl hst
    omega
  induction h with
  | «open» hline => exact hscan hwf hline (by decide)
  | bad hline => exact hscan hwf hline (by decide)
  | done hline hp =>
    obtain ⟨-, -, -, hcr, hc, -⟩ := handled_of_ok hwf hline hp
    omega
  | next hline hp _ ih =>
    obtain ⟨hwf₂, -, -, hcr, hc, -⟩ := handled_of_ok hwf hline hp
    have := ih hwf₂
    omega

theorem Conn.WF.fits (h : c.WF) (hw : writeAt c.parser.buffer c.readIndex bs = some b) :
    c.readIndex + bs.length ≤ bufferSize := by
  unfold writeAt at hw
  split_ifs at hw with hle
  rwa [h.length_eq] at hle

theorem Conn.WF.received (h : c.WF) (hw : writeAt c.parser.buffer c.readIndex bs = some b)
    (hfit : c.readIndex + bs.length ≤ bufferSize) : (c.received bs b).WF bs.length := by
  refine ⟨h.start_le, ?_⟩
  show bs.length ≤ b.length
  rw [length_of_writeAt hw, h.length_eq]
  omega

theorem exists_recvRound (h : c.WF) (hfit : c.readIndex + bs.length ≤ bufferSize) :
    ∃ b code P, writeAt c.parser.buffer c.readIndex bs = some b ∧
      parseContent (c.received bs b) bs.length = some (code, P) ∧
      recvRound c (.data bs) = some (⟨P, bs.length⟩, answer code) ∧ (Conn.mk P bs.length).WF := by
  have hw : writeAt c.parser.buffer c.readIndex bs = some _ :=
    writeAt_of_le (by rw [h.length_eq]; exact hfit)
  have hwf := h.received hw hfit
  obtain ⟨code, P, hc⟩ := exists_content hwf
  have hp := (parseContent_iff hwf).2 hc
  have hlen := (hc.wf hwf).2.trans (length_of_writeAt hw)
  refine ⟨_, code, P, hw, hp, recvRound_eq hw hp, hlen.trans h.length_eq, (hc.wf hwf).1.start_le,
    ?_⟩
  exact (hc.checked_le hwf).trans (max_le h.checked_le (by omega))

/-- The loop goes on or leaves on all results that fit. -/
theorem exists_recvLoop (h : c.WF) (hfit : Fits c.readIndex rs) :
    ∃ c' x, recvLoop c rs = some (c', x) := by
  induction rs generalizing c with
  | nil => exact ⟨c, none, rfl⟩
  | cons res rs ih =>
    cases res with
    | failed => exact ⟨_, _, recvLoop_leave recvRound_failed⟩
    | data bs =>
      obtain ⟨b, code, P, -, -, hround, hwf⟩ := exists_recvRound h hfit.1
      cases ha : answer code with
      | some e => exact ⟨_, _, recvLoop_leave (ha ▸ hround)⟩
      | none =>
        rw [recvLoop_wait (ha ▸ hround)]
        exact ih hwf hfit.2

theorem wf_of_recvLoop (h : c.WF) (hfit : Fits c.readIndex (rs ++ rs'))
    (hloop : recvLoop c rs = some (c', none)) : c'.WF ∧ Fits c'.readIndex rs' := by
  induction rs generalizing c with
  | nil =>
    obtain ⟨rfl, -⟩ := Prod.mk.inj (Option.some.inj hloop)
    exact ⟨h, hfit⟩
  | cons res rs ih =>
    cases res with
    | failed =>
      rw [recvLoop_leave recvRound_failed] at hloop
      cases hloop
    | data bs =>
      obtain ⟨b, code, P, -, -, hround, hwf⟩ := exists_recvRound h hfit.1
      cases ha : answer code with
      | some e =>
        rw [recvLoop_leave (ha ▸ hround)] at hloop
        cases hloop
      | none =>
        rw [recvLoop_wait (ha ▸ hround)] at hloop
        exact ih hwf hfit.2 hloop

theorem fits_of_recvLoop (h : c.WF) (hloop : recvLoop c rs = some (c', none)) :
    Fits c.readIndex rs := by
  induction rs generalizing c with
  | nil => trivial
  | cons res rs ih =>
    cases res with
    | failed => trivial
    | data bs =>
      rw [recvLoop_cons] at hloop
      obtain ⟨⟨c₁, x⟩, hround, hloop⟩ := Option.bind_eq_some_iff.1 hloop
      obtain ⟨b, code, P, hw, hp, rfl, hx⟩ := recvRound_cases hround
      have hfit := h.fits hw
      refine ⟨hfit, ?_⟩
      cases x with
      | some e => cases hloop
      | none =>
        obtain ⟨_, _, _, -, -, hround', hwf⟩ := exists_recvRound h hfit
        obtain ⟨heq, -⟩ := Prod.mk.inj (Option.some.inj (hround'.symm.trans hround))
        exact ih (heq ▸ hwf) hloop

/-! ### The end of the stream -/

theorem parseContent_of_le (h : r ≤ P.checkedIndex) : parseContent P r = some (.noRequest, P) := by
  have hline : parseLine P.buffer P.checkedIndex r = _ := parseLine_of_le h
  simp only [parseContent, parseContentLoop, hline, Option.bind_eq_bind, Option.bind_some]

/-- The `recv` result makes the round leave the loop: it is `-1`, or `parse_content` decides on
what it delivers. -/
def Conn.LeavesOn (c : Conn) : Recv → Prop
  | .failed => True
  | .data bs => ∃ b code P, writeAt c.parser.buffer c.readIndex bs = some b ∧
      parseContent (c.received bs b) bs.length = some (code, P) ∧ code ≠ .noRequest

theorem leavesOn_iff : c.LeavesOn res ↔ ∃ c' e, recvRound c res = some (c', some e) := by
  cases res with
  | failed => exact ⟨fun _ => ⟨_, _, recvRound_failed⟩, fun _ => trivial⟩
  | data bs =>
    constructor
    · rintro ⟨b, code, P, hw, hp, hcode⟩
      obtain ⟨e, he⟩ := Option.ne_none_iff_exists'.1 fun h => hcode (answer_noRequest_iff.1 h)
      exact ⟨_, e, he ▸ recvRound_eq hw hp⟩
    · rintro ⟨c', e, h⟩
      obtain ⟨b, code, P, hw, hp, -, he⟩ := recvRound_cases h
      refine ⟨b, code, P, hw, hp, ?_⟩
      rintro rfl
      cases he

/-- The loop leaves on `rs` when it waits after some of the results and leaves on the next. -/
theorem recvLoop_leaves_iff : (∃ c' e, recvLoop c rs = some (c', some e)) ↔
    ∃ pre res c₁, pre ++ [res] <+: rs ∧ recvLoop c pre = some (c₁, none) ∧ c₁.LeavesOn res := by
  constructor
  · rintro ⟨c', e, h⟩
    induction rs generalizing c with
    | nil => cases h
    | cons res rs ih =>
      rw [recvLoop_cons] at h
      obtain ⟨⟨c₁, x⟩, hround, h⟩ := Option.bind_eq_some_iff.1 h
      cases x with
      | some e₁ => exact ⟨[], res, c, by simp, rfl, leavesOn_iff.2 ⟨c₁, e₁, hround⟩⟩
      | none =>
        obtain ⟨pre, res', c₂, hpre, hwait, hleave⟩ := ih h
        refine ⟨res :: pre, res', c₂, ?_, (recvLoop_wait hround).trans hwait, hleave⟩
        rw [List.cons_append]
        exact List.cons_prefix_cons.2 ⟨rfl, hpre⟩
  · rintro ⟨pre, res, c₁, ⟨post, rfl⟩, hwait, hleave⟩
    obtain ⟨c', e, hround⟩ := leavesOn_iff.1 hleave
    rw [List.append_assoc]
    exact ⟨c', e, (recvLoop_append_of_wait hwait).trans (recvLoop_leave hround)⟩

/-- After a `recv` that returns 0 there is nothing to scan. -/
theorem recvRound_nil {x : Option Exit} (h : recvRound c (.data []) = some (c', x)) :
    x = none := by
  obtain ⟨b, code, P, -, hp, -, rfl⟩ := recvRound_cases h
  have hopen : parseContent (c.received [] b) 0 = some (.noRequest, c.received [] b) :=
    parseContent_of_le (Nat.zero_le _)
  obtain ⟨rfl, -⟩ := Prod.mk.inj (Option.some.inj (hp.symm.trans hopen))
  rfl

/-- Whatever state the parser was left in, the loop does not leave on zeros. -/
theorem recvLoop_zeros {n : ℕ} {x : Option Exit}
    (h : recvLoop c (List.replicate n (.data [])) = some (c', x)) : x = none := by
  induction n generalizing c with
  | zero =>
    obtain ⟨-, rfl⟩ := Prod.mk.inj (Option.some.inj h)
    rfl
  | succ n ih =>
    rw [List.replicate_succ, recvLoop_cons] at h
    obtain ⟨⟨c₁, y⟩, hround, h⟩ := Option.bind_eq_some_iff.1 h
    obtain rfl := recvRound_nil hround
    exact ih h

/-- **The end of the loop.**  When the peer has closed after the results `rs`, the loop leaves iff
one of these results has made it leave. -/
theorem leaves_iff (rs : List Recv) :
    (∃ n c e, recvLoop .init (rs ++ List.replicate n (.data [])) = some (c, some e)) ↔
      ∃ pre res c, pre ++ [res] <+: rs ∧ recvLoop .init pre = some (c, none) ∧ c.LeavesOn res := by
  rw [← recvLoop_leaves_iff]
  constructor
  · rintro ⟨n, c, e, h⟩
    rw [recvLoop_append] at h
    obtain ⟨⟨c₁, x⟩, hrs, h⟩ := Option.bind_eq_some_iff.1 h
    cases x with
    | some e₁ => exact ⟨c₁, e₁, hrs⟩
    | none => cases recvLoop_zeros h
  · rintro ⟨c, e, h⟩
    exact ⟨0, c, e, recvLoop_append_of_leave h⟩

/-- A peer that closes at once keeps the loop busy for ever. -/
theorem not_leaves_closed : ¬ ∀ rs : List Recv,
    ∃ n c e, recvLoop .init (rs ++ List.replicate n (.data [])) = some (c, some e) := by
  intro h
  obtain ⟨n, c, e, hloop⟩ := h []
  cases recvLoop_zeros hloop

end Http

end LinuxServer
