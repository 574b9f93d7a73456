import LinuxServer.Http.Loop
import Mathlib.Data.List.Induction

/-!
# What a client is told

`main` answers with text cut from `szret[0]`, whatever the code: a refused request is answered with
the first `strlen(szret[1])` bytes of the success text.

* `oneShot s`: the code of one call of `parse_content` on `s`.
* `Honest segs`: a client that sends the pieces `segs` is told of a success only when the bytes
  received are a request.
* `InPlace segs`: no piece is parsed at a place where it does not belong.
* `scanned pre bs`: the bytes received that a call on the piece `bs` looks at.
* `NotRefused segs`: none of these are refused by `oneShot`.

While pieces are in place, a call of `parse_content` has the code of `oneShot` on the bytes that it
looks at (`oneShot_scanned`), so that being honest is not refusing (`honest_iff`) and the loop ends
iff one of them decides (`leaves_iff_scanned`).  A piece that is displaced may also be taken for a
request (`not_honest_displaced`).
-/

namespace LinuxServer

namespace Http

variable {segs pre : List (List Byte)} {s bs b x : List Byte} {c c' : Conn} {code : HttpCode}
  {P P' : Parser} {r : ℕ}

/-- The code of one call of `parse_content`, from the initial state, on the bytes `s`. -/
def oneShot (s : List Byte) : Option HttpCode :=
  (parseContent (Parser.init s) s.length).map Prod.fst

/-- The loop has received `pre`, waits with the variables `c`, and receives `bs` next. -/
def Awaits (segs pre : List (List Byte)) (bs : List Byte) (c : Conn) : Prop :=
  pre ++ [bs] <+: segs ∧ recvLoop .init (pre.map .data) = some (c, none)

/-- Whenever the loop sends a part of the success text, the bytes received so far are a request. -/
def Honest (segs : List (List Byte)) : Prop :=
  ∀ pre bs c c' code sent, Awaits segs pre bs c →
    recvRound c (.data bs) = some (c', some (.answered code sent)) →
    sent ≠ [] → sent <+: szret0 → oneShot (pre ++ [bs]).flatten = some .getRequest

/-- Every piece is written behind the bytes received before it, or ends in front of
`checked_index`, so that nothing is scanned. -/
def InPlace (segs : List (List Byte)) : Prop :=
  ∀ pre bs c, Awaits segs pre bs c →
    c.readIndex = pre.flatten.length ∨ bs.length ≤ c.parser.checkedIndex

/-- The bytes received that a call on the piece `bs`, behind the pieces `pre`, looks at: as many as
the piece has. -/
def scanned (pre : List (List Byte)) (bs : List Byte) : List Byte :=
  (pre ++ [bs]).flatten.take bs.length

/-- None of the bytes looked at is refused, as long as the loop waits and there is room for what is
received. -/
def NotRefused (segs : List (List Byte)) : Prop :=
  ∀ pre bs c, Awaits segs pre bs c → c.readIndex + bs.length ≤ bufferSize →
    oneShot (scanned pre bs) ≠ some .badRequest

/-- The parser with `o` printed. -/
def Parser.withOut (P : Parser) (o : List Msg) : Parser := { P with out := o }

/-! ### Calls of `parse_content` -/

/-- What was printed does not matter. -/
theorem Content.withOut (h : Content r P code P') (hwf : P.WF r) (o : List Msg) :
    ∃ o', Content r (P.withOut o) code (P'.withOut o') := by
  have hcomplete : ∀ {P P₁ : Parser} {b : List Byte} {c : ℕ} {res : Option HttpCode}
      (o : List Msg), P.WF r → parseLine P.buffer P.checkedIndex r = some (.ok, b, c) →
      parseCompleteLine (P.scanned b c) = some (res, P₁) →
      ∃ o', parseCompleteLine ((P.withOut o).scanned b c) = some (res, P₁.withOut o') := by
    intro P P₁ b c res o hwf hline hp
    obtain ⟨-, -, -, pre, s, y, hs, hb, hl⟩ := exists_line_of_ok hwf hline
    rw [parseCompleteLine_append (P := P.scanned b c) hs hb hl] at hp
    obtain ⟨rfl, rfl⟩ := Prod.mk.inj (Option.some.inj hp)
    exact ⟨_, parseCompleteLine_append (P := (P.withOut o).scanned b c) hs hb hl⟩
  induction h generalizing o with
  | «open» hline => exact ⟨o, .open (P := Parser.withOut _ o) hline⟩
  | bad hline => exact ⟨o, .bad (P := Parser.withOut _ o) hline⟩
  | done hline hp =>
    obtain ⟨o', hp'⟩ := hcomplete o hwf hline hp
    exact ⟨o', .done (P := Parser.withOut _ o) hline hp'⟩
  | next hline hp _ ih =>
    obtain ⟨o₁, hp'⟩ := hcomplete o hwf hline hp
    obtain ⟨o', h'⟩ := ih (handled_of_ok hwf hline hp).1 o₁
    exact ⟨o', .next (P := Parser.withOut _ o) hline hp' h'⟩

theorem Content.code_cases (h : Content r P code P') (hwf : P.WF r) :
    code = .noRequest ∨ code = .badRequest ∨ code = .getRequest := by
  induction h with
  | «open» _ => exact .inl rfl
  | bad _ => exact .inr (.inl rfl)
  | @done P P' b c code hline hp =>
    obtain ⟨-, -, -, pre, s, y, hs, hb, hl⟩ := exists_line_of_ok hwf hline
    rw [parseCompleteLine_append (P := P.scanned b c) hs hb hl] at hp
    have hcode := congrArg Prod.fst (Option.some.inj hp)
    cases hcs : (P.scanned b c).checkState with
    | requestLine =>
      simp only [hcs, lineOutcome] at hcode
      split at hcode
      · exact .inr (.inl (Option.some.inj hcode).symm)
      · cases hcode
    | header =>
      simp only [hcs, lineOutcome] at hcode
      split at hcode
      · exact .inr (.inr (Option.some.inj hcode).symm)
      · cases hcode
  | next hline hp _ ih => exact ih (handled_of_ok hwf hline hp).1

/-- A call that asks for more has scanned all received bytes, but for a last CR. -/
theorem Content.le_checked_of_noRequest (h : Content r P code P') (hwf : P.WF r)
    (hcode : code = .noRequest) : r ≤ P'.checkedIndex + 1 := by
  induction h with
  | «open» hline =>
    obtain ⟨e, -, -, -, hstop⟩ := stop_of_parseLine hwf.le_length hline
    cases hstop with
    | exhausted h => exact Nat.le_succ_of_le h
    | lastCR hb h => exact h.ge
  | bad hline => cases hcode
  | done hline hp =>
    obtain ⟨-, -, -, -, -, hres⟩ := handled_of_ok hwf hline hp
    exact absurd (congrArg some hcode) hres
  | next hline hp _ ih => exact ih (handled_of_ok hwf hline hp).1 hcode

theorem Content.det (h : Content r P code P') {code₁ : HttpCode} {P₁ : Parser}
    (h₁ : Content r P code₁ P₁) (hwf : P.WF r) : code = code₁ ∧ P' = P₁ :=
  Prod.mk.inj (Option.some.inj
    (((parseContent_iff hwf).2 h).symm.trans ((parseContent_iff hwf).2 h₁)))

theorem init_wf_self (s : List Byte) : (Parser.init s).WF s.length := ⟨le_rfl, le_rfl⟩

theorem oneShot_cases (h : oneShot s = some code) :
    code = .noRequest ∨ code = .badRequest ∨ code = .getRequest := by
  obtain ⟨⟨code, P⟩, hcall, rfl⟩ := Option.map_eq_some_iff.1 h
  exact ((parseContent_iff (init_wf_self s)).1 hcall).code_cases (init_wf_self s)

theorem exists_oneShot (s : List Byte) : ∃ code, oneShot s = some code := by
  obtain ⟨code, P, hc⟩ := exists_content (init_wf_self s)
  exact ⟨code, by rw [oneShot, (parseContent_iff (init_wf_self s)).2 hc]; rfl⟩

theorem oneShot_of_take {n : ℕ} (h : oneShot (s.take n) = some code) (hcode : code ≠ .noRequest) :
    oneShot s = some code := by
  obtain ⟨⟨code, P⟩, hcall, rfl⟩ := Option.map_eq_some_iff.1 h
  have hext := ((parseContent_iff (init_wf_self _)).1 hcall).extend (init_wf_self _) (s.drop n)
  rw [Parser.extend, Parser.init, List.take_append_drop] at hext
  have hle : (s.take n).length ≤ s.length := by
    rw [List.length_take]
    omega
  have hmono := parseContent_mono (init_wf_self s)
    ((parseContent_iff ((init_wf_self s).mono hle)).2 hext) hcode hle
  rw [oneShot, hmono]
  rfl

theorem oneShot_take (h : oneShot s = some .noRequest) (n : ℕ) :
    oneShot (s.take n) = some .noRequest := by
  obtain ⟨code, hcode⟩ := exists_oneShot (s.take n)
  by_cases hne : code = .noRequest
  · rw [hcode, hne]
  · cases hne (Option.some.inj ((oneShot_of_take hcode hne).symm.trans h))

/-! ### The loop and the stream -/

/-- The parser has asked for more after the bytes `s`, which are at the front of the buffer. -/
def Conn.Tracks (c : Conn) (s : List Byte) : Prop :=
  c.readIndex = s.length ∧ ∃ P x o, Content s.length (Parser.init s) .noRequest P ∧
    c.parser = (P.extend x).withOut o

theorem tracks_init : Conn.init.Tracks [] :=
  ⟨rfl, Parser.init [], List.replicate bufferSize 0, [],
    .open (P := Parser.init []) (parseLine_of_le le_rfl), rfl⟩

theorem Conn.Tracks.round (h : c.Tracks s) (hw : writeAt c.parser.buffer c.readIndex bs = some b)
    (hp : parseContent (c.received bs b) bs.length = some (code, P)) :
    oneShot ((s ++ bs).take bs.length) = some code ∧
      (code = .noRequest → s = [] → (Conn.mk P bs.length).Tracks bs) := by
  obtain ⟨hread, P₀, x, o, hcont, hparser⟩ := h
  have hlen : P₀.buffer.length = s.length := (hcont.wf (init_wf_self s)).2
  obtain ⟨z, o', hreceived⟩ : ∃ z o', c.received bs b = (P₀.extend (bs ++ z)).withOut o' := by
    unfold writeAt at hw
    split_ifs at hw with hle
    refine ⟨x.drop bs.length, c.parser.out ++ if bs.length = 0 then [Msg.clientClosed] else [], ?_⟩
    rw [Conn.received, ← Option.some.inj hw, hparser]
    simp [Parser.withOut, Parser.extend, hread, ← hlen, List.drop_append]
  rw [hreceived] at hp
  by_cases hle : s.length ≤ bs.length
  · -- the call goes on from where the call on `s` has stopped
    have hwf : (Parser.init (s ++ (bs ++ z))).WF bs.length :=
      ⟨le_rfl, by simp only [Parser.init, List.length_append]; omega⟩
    have hext := hcont.extend (init_wf_self s) (bs ++ z)
    have hresume := parseContent_resume hwf
      ((parseContent_iff (hwf.mono (hle.trans hwf.le_length))).2 hext) hle
    -- and sees as many bytes as the piece has
    obtain ⟨t, ht⟩ : ∃ t, t = (s ++ bs).take bs.length := ⟨_, rfl⟩
    have htlen : t.length = bs.length := by
      rw [ht, List.length_take, List.length_append]
      omega
    have hsplit : t ++ ((s ++ bs).drop bs.length ++ z) = s ++ (bs ++ z) := by
      rw [ht, ← List.append_assoc, List.take_append_drop, List.append_assoc]
    have hwf₂ : (Parser.init t).WF bs.length := htlen ▸ init_wf_self t
    obtain ⟨code₂, P₂, h₂⟩ := exists_content hwf₂
    have hwhole : parseContent (Parser.init (s ++ (bs ++ z))) bs.length =
        some (code₂, P₂.extend ((s ++ bs).drop bs.length ++ z)) := by
      refine (parseContent_iff hwf).2 ?_
      have hz := h₂.extend hwf₂ ((s ++ bs).drop bs.length ++ z)
      rwa [Parser.extend, Parser.init, hsplit] at hz
    have hwf₀ : (P₀.extend (bs ++ z)).WF bs.length :=
      ⟨(hcont.wf (init_wf_self s)).1.start_le,
        by simp only [Parser.extend, List.length_append]; omega⟩
    obtain ⟨o'', hout⟩ := ((parseContent_iff hwf₀).1 (hresume.trans hwhole)).withOut hwf₀ o'
    have hwf' : ((P₀.extend (bs ++ z)).withOut o').WF bs.length := ⟨hwf₀.start_le, hwf₀.le_length⟩
    obtain ⟨rfl, rfl⟩ := ((parseContent_iff hwf').1 hp).det hout hwf'
    have hcall := (parseContent_iff hwf₂).2 h₂
    refine ⟨?_, fun hcode hs => ?_⟩
    · rw [← ht, oneShot, htlen, hcall]
      rfl
    · subst hs hcode
      have htbs : t = bs := by rw [ht, List.nil_append, List.take_length]
      exact ⟨rfl, P₂, _, o'', htbs ▸ h₂, rfl⟩
  · -- nothing is scanned
    have hchecked := hcont.le_checked_of_noRequest (init_wf_self s) rfl
    have hnone := parseContent_of_le (P := (P₀.extend (bs ++ z)).withOut o')
      (show bs.length ≤ P₀.checkedIndex by omega)
    obtain ⟨rfl, -⟩ := Prod.mk.inj (Option.some.inj (hp.symm.trans hnone))
    refine ⟨?_, fun _ hs => ?_⟩
    · have hs : oneShot s = some .noRequest := by
        rw [oneShot, (parseContent_iff (init_wf_self s)).2 hcont]
        rfl
      rw [List.take_append_of_le_length (by omega)]
      exact oneShot_take hs _
    · subst hs
      exact absurd (Nat.zero_le _) hle

theorem awaits_concat (h : Awaits segs (pre ++ [s]) bs c') :
    ∃ c, Awaits segs pre s c ∧ recvRound c (.data s) = some (c', none) := by
  obtain ⟨hpre, hloop⟩ := h
  rw [List.map_append, List.map_singleton, recvLoop_append] at hloop
  obtain ⟨⟨c, e⟩, hwait, hloop⟩ := Option.bind_eq_some_iff.1 hloop
  cases e with
  | some e => cases hloop
  | none =>
    refine ⟨c, ⟨(List.prefix_append _ [bs]).trans hpre, hwait⟩, ?_⟩
    simp only [recvLoop_cons] at hloop
    obtain ⟨⟨c₁, e⟩, hround, hloop⟩ := Option.bind_eq_some_iff.1 hloop
    cases e with
    | some e => cases hloop
    | none =>
      obtain ⟨rfl, -⟩ := Prod.mk.inj (Option.some.inj hloop)
      exact hround

/-- A loop that waits either has all bytes received at the front of the buffer, and `read_index`
behind them, or the next piece is written in front of the last byte received. -/
theorem tracks_or_displaced (h : Awaits segs pre bs c) :
    c.Tracks pre.flatten ∨ c.readIndex < pre.flatten.length := by
  induction pre using List.reverseRecOn generalizing bs c with
  | nil =>
    obtain ⟨rfl, -⟩ := Prod.mk.inj (Option.some.inj h.2)
    exact .inl tracks_init
  | append_singleton pre s ih =>
    obtain ⟨c₀, hwait, hround⟩ := awaits_concat h
    obtain ⟨b, code, P, hw, hp, rfl, hcode⟩ := recvRound_cases hround
    rw [List.flatten_append, List.flatten_singleton, List.length_append]
    by_cases hempty : pre.flatten = []
    · -- so far only empty pieces have come before
      have htracks := (ih hwait).resolve_right (by simp [hempty])
      rw [hempty] at htracks ⊢
      exact .inl ((htracks.round hw hp).2 (answer_noRequest_iff.1 hcode.symm) rfl)
    · have := List.length_pos_iff.2 hempty
      exact .inr (by simp only; omega)

theorem wf_of_awaits (h : Awaits segs pre bs c) : c.WF := by
  have hfit := fits_of_recvLoop Conn.init_wf h.2
  rw [← List.append_nil (pre.map Recv.data)] at hfit
  exact (wf_of_recvLoop Conn.init_wf hfit h.2).1

/-- A loop that waits has asked for more on the first bytes received, up to `checked_index`. -/
theorem asked_of_awaits (hplace : InPlace segs) (h : Awaits segs pre bs c) :
    ∃ s, s <+: pre.flatten ∧ oneShot s = some .noRequest ∧
      c.parser.checkedIndex ≤ s.length := by
  induction pre using List.reverseRecOn generalizing bs c with
  | nil =>
    obtain ⟨rfl, -⟩ := Prod.mk.inj (Option.some.inj h.2)
    exact ⟨[], List.prefix_refl _, rfl, le_rfl⟩
  | append_singleton pre piece ih =>
    obtain ⟨c₀, hwait, hround⟩ := awaits_concat h
    obtain ⟨s, hs, hnone, hchecked⟩ := ih hwait
    obtain ⟨b, code, P, hw, hp, rfl, hcode⟩ := recvRound_cases hround
    obtain rfl := answer_noRequest_iff.1 hcode.symm
    rw [List.flatten_append, List.flatten_singleton]
    by_cases hle : piece.length ≤ c₀.parser.checkedIndex
    · -- nothing is scanned
      have hsame := parseContent_of_le (P := c₀.received piece b) hle
      obtain ⟨-, rfl⟩ := Prod.mk.inj (Option.some.inj (hp.symm.trans hsame))
      exact ⟨s, hs.trans (List.prefix_append _ _), hnone, hchecked⟩
    · have htracks : c₀.Tracks pre.flatten := (tracks_or_displaced hwait).resolve_right
        fun hlt => hle ((hplace pre piece c₀ hwait).resolve_left hlt.ne)
      have hc₀ := wf_of_awaits hwait
      have hwf := hc₀.received hw (hc₀.fits hw)
      have hmax := ((parseContent_iff hwf).1 hp).checked_le hwf
      refine ⟨_, List.take_prefix piece.length _, (htracks.round hw hp).1, ?_⟩
      rw [List.length_take, List.length_append]
      have hold : (c₀.received piece b).checkedIndex = c₀.parser.checkedIndex := rfl
      show P.checkedIndex ≤ _
      omega

section Scanned

variable (hplace : InPlace segs) (h : Awaits segs pre bs c)
include hplace h

/-- While pieces are in place, a call has the code of the bytes that it looks at. -/
theorem oneShot_scanned (hw : writeAt c.parser.buffer c.readIndex bs = some b)
    (hp : parseContent (c.received bs b) bs.length = some (code, P)) :
    oneShot (scanned pre bs) = some code := by
  rw [scanned, List.flatten_append, List.flatten_singleton]
  rcases tracks_or_displaced h with htracks | hdisplaced
  · exact (htracks.round hw hp).1
  · have hle := (hplace pre bs c h).resolve_left hdisplaced.ne
    have hnone := parseContent_of_le (P := c.received bs b) hle
    obtain ⟨rfl, -⟩ := Prod.mk.inj (Option.some.inj (hp.symm.trans hnone))
    obtain ⟨s, ⟨t, ht⟩, hasked, hchecked⟩ := asked_of_awaits hplace h
    rw [← ht, List.append_assoc, List.take_append_of_le_length (hle.trans hchecked)]
    exact oneShot_take hasked _

theorem oneShot_of_decides (hw : writeAt c.parser.buffer c.readIndex bs = some b)
    (hp : parseContent (c.received bs b) bs.length = some (code, P)) (hcode : code ≠ .noRequest) :
    oneShot (pre ++ [bs]).flatten = some code :=
  oneShot_of_take (oneShot_scanned hplace h hw hp) hcode

theorem leavesOn_iff_scanned (hfit : c.readIndex + bs.length ≤ bufferSize) :
    c.LeavesOn (.data bs) ↔ oneShot (scanned pre bs) ≠ some .noRequest := by
  obtain ⟨b, code, P, hw, hp, -, -⟩ := exists_recvRound (wf_of_awaits h) hfit
  rw [oneShot_scanned hplace h hw hp, ne_eq, Option.some.injEq]
  constructor
  · rintro ⟨b', code', P', hw', hp', hcode⟩
    obtain rfl := Option.some.inj (hw.symm.trans hw')
    obtain ⟨rfl, -⟩ := Prod.mk.inj (Option.some.inj (hp.symm.trans hp'))
    exact hcode
  · exact fun hcode => ⟨b, code, P, hw, hp, hcode⟩

end Scanned

/-- **What a client is told.**  While pieces are in place, the loop tells of a success only for a
request iff it refuses nothing: a client that is refused is told of a success. -/
theorem honest_iff (segs : List (List Byte)) (hplace : InPlace segs) :
    Honest segs ↔ NotRefused segs := by
  constructor
  · intro h pre bs c hwait hfit hbad
    obtain ⟨b, code, P, hw, hp, hround, -⟩ := exists_recvRound (wf_of_awaits hwait) hfit
    obtain rfl := Option.some.inj ((oneShot_scanned hplace hwait hw hp).symm.trans hbad)
    have hget := h pre bs c _ _ _ hwait hround (by decide) (List.take_prefix _ _)
    have hrefused := oneShot_of_decides hplace hwait hw hp (by decide)
    cases hget.symm.trans hrefused
  · intro h pre bs c c' code sent hwait hround _ _
    obtain ⟨b, code', P, hw, hp, -, hanswer⟩ := recvRound_cases hround
    have hcode : code' ≠ .noRequest := by
      rintro rfl
      cases hanswer
    have hfit := (wf_of_awaits hwait).fits hw
    have hone := oneShot_of_decides hplace hwait hw hp hcode
    rcases oneShot_cases hone with rfl | rfl | rfl
    · exact absurd rfl hcode
    · exact absurd (oneShot_scanned hplace hwait hw hp) (h pre bs c hwait hfit)
    · exact hone

/-- While pieces are in place, the loop leaves, when the peer has closed after them, iff the bytes
looked at in one of its rounds decide. -/
theorem leaves_iff_scanned (hfit : Fits 0 (segs.map .data)) (hplace : InPlace segs) :
    (∃ n c e, recvLoop .init (segs.map .data ++ List.replicate n (.data [])) =
        some (c, some e)) ↔
      ∃ pre bs c, Awaits segs pre bs c ∧ oneShot (scanned pre bs) ≠ some .noRequest := by
  have hroom : ∀ {pre bs c}, Awaits segs pre bs c → c.readIndex + bs.length ≤ bufferSize := by
    rintro pre bs c ⟨⟨post, hsegs⟩, hloop⟩
    rw [← hsegs, List.append_assoc, List.map_append] at hfit
    exact (wf_of_recvLoop Conn.init_wf hfit hloop).2.1
  -- a round of the loop is one on a piece
  have hpiece : ∀ {pre res}, pre ++ [res] <+: segs.map Recv.data →
      ∃ pre' bs, pre = pre'.map .data ∧ res = .data bs ∧ pre' ++ [bs] <+: segs := by
    rintro pre res ⟨post, hmap⟩
    obtain ⟨l, rest, rfl, hl, -⟩ := List.append_eq_map_iff.1 hmap
    obtain ⟨pre', l', rfl, rfl, hl'⟩ := List.append_eq_map_iff.1 hl.symm
    obtain ⟨bs, rfl, rfl⟩ := List.map_eq_singleton_iff.1 hl'
    exact ⟨pre', bs, rfl, rfl, List.prefix_append _ _⟩
  rw [leaves_iff]
  constructor
  · rintro ⟨pre, res, c, hpre, hloop, hleave⟩
    obtain ⟨pre, bs, rfl, rfl, hbefore⟩ := hpiece hpre
    have hwait : Awaits segs pre bs c := ⟨hbefore, hloop⟩
    exact ⟨pre, bs, c, hwait, (leavesOn_iff_scanned hplace hwait (hroom hwait)).1 hleave⟩
  · rintro ⟨pre, bs, c, hwait, hdecides⟩
    refine ⟨pre.map .data, .data bs, c, ?_, hwait.2,
      (leavesOn_iff_scanned hplace hwait (hroom hwait)).2 hdecides⟩
    have hpre := List.IsPrefix.map Recv.data hwait.1
    rwa [List.map_append, List.map_singleton] at hpre

theorem inPlace_of_length_le_two (h : segs.length ≤ 2) : InPlace segs := by
  intro pre bs c hwait
  have hlen := hwait.1.length_le
  rw [List.length_append, List.length_singleton] at hlen
  obtain _ | ⟨s, _ | ⟨s', pre⟩⟩ := pre
  · obtain ⟨rfl, -⟩ := Prod.mk.inj (Option.some.inj hwait.2)
    exact .inl rfl
  · have hwait : Awaits segs ([] ++ [s]) bs c := hwait
    obtain ⟨c₀, -, hround⟩ := awaits_concat hwait
    obtain ⟨b, code, P, -, -, rfl, -⟩ := recvRound_cases hround
    exact .inl (by simp)
  · simp only [List.length_cons] at hlen
    omega

/-- A request of which the first byte arrives alone, with one byte behind it, is answered. -/
theorem honest_iff_answered :
    (recvLoop .init ([shortRequest.take 1, shortRequest.drop 1 ++ [0]].map .data)).map Prod.snd =
        some (some (.answered .getRequest szret0)) ∧
      Honest [shortRequest.take 1, shortRequest.drop 1 ++ [0]] := by
  refine ⟨by decide +kernel, ?_⟩
  refine (honest_iff _ (inPlace_of_length_le_two (by decide))).2 ?_
  rintro pre bs c ⟨hpre, -⟩ -
  have hlen := hpre.length_le
  rw [List.length_append, List.length_singleton] at hlen
  have hlen : pre.length + 1 ≤ 2 := hlen
  obtain _ | ⟨s, _ | ⟨s', pre⟩⟩ := pre
  · obtain ⟨rfl, -⟩ := List.cons_prefix_cons.1 hpre
    decide +kernel
  · obtain ⟨rfl, hrest⟩ := List.cons_prefix_cons.1 hpre
    obtain ⟨rfl, -⟩ := List.cons_prefix_cons.1 hrest
    decide +kernel
  · simp only [List.length_cons] at hlen
    omega

/-- A LF alone is refused with `I get a correct `. -/
theorem not_honest_LF :
    ¬ ∀ segs : List (List Byte), Fits 0 (segs.map .data) → Honest segs := by
  intro h
  have hround : (recvRound .init (.data [LF])).map Prod.snd =
      some (some (.answered .badRequest (szret0.take szret1.length))) := by decide +kernel
  obtain ⟨⟨c, x⟩, hround, rfl⟩ := Option.map_eq_some_iff.1 hround
  have hget := h [[LF]] ⟨by decide, trivial⟩ [] [LF] .init c _ _ ⟨List.prefix_refl _, rfl⟩ hround
    (by decide) (List.take_prefix _ _)
  have hbad : oneShot [LF] = some .badRequest := by decide
  cases hget.symm.trans hbad

/-- The third piece overwrites the X of `GEXT`: a stream that is refused is taken for a request. -/
theorem not_honest_displaced :
    ¬ Honest [GET.take 1, (GET.drop 1).take 1 ++ [88], shortRequest.drop 2 ++ [0, 0]] := by
  intro h
  have hround : ((recvLoop .init ([GET.take 1, (GET.drop 1).take 1 ++ [88]].map .data)).bind
      fun r => (recvRound r.1 (.data (shortRequest.drop 2 ++ [0, 0]))).map fun r' =>
        (r.2, r'.2)) = some (none, some (.answered .getRequest szret0)) := by decide +kernel
  obtain ⟨⟨c, x⟩, hloop, hround⟩ := Option.bind_eq_some_iff.1 hround
  obtain ⟨⟨c', x'⟩, hround, heq⟩ := Option.map_eq_some_iff.1 hround
  obtain ⟨rfl, rfl⟩ := Prod.mk.inj heq
  have hget := h [GET.take 1, (GET.drop 1).take 1 ++ [88]] (shortRequest.drop 2 ++ [0, 0]) c c' _ _
    ⟨List.prefix_refl _, hloop⟩ hround (by decide) (List.prefix_refl _)
  have hbad : oneShot [GET.take 1, (GET.drop 1).take 1 ++ [88],
      shortRequest.drop 2 ++ [0, 0]].flatten = some .badRequest := by decide +kernel
  cases hget.symm.trans hbad

end Http

end LinuxServer
