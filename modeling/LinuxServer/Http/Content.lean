import LinuxServer.Http.Line
import LinuxServer.Http.RequestLine

/-!
# The parser as a big-step relation

`Content r P code P'` : with the bytes below `r` received, `parse_content` goes from `P` to `P'`
and returns `code`.  There is one constructor for each way through the body of its loop, and no
bound on the number of rounds.  From every well-formed parser (`Parser.WF`) the function computes
this relation (`parseContent_iff`), and it always returns (`exists_content`): no access leaves the
buffer and the rounds suffice.

`parseContent_resume` is the law of suspension: a call that asked for more bytes can be resumed
with more bytes as if it had never returned.  Hence feeding a text in pieces of any lengths is
feeding it at once (`feed_eq_parseContent`).
-/

namespace LinuxServer

namespace Http

/-- The buffer and index after `parse_line`. -/
def Parser.scanned (P : Parser) (buffer : List Byte) (checkedIndex : ℕ) : Parser :=
  { P with buffer, checkedIndex }

/-- `parse_content` with the bytes below `r` received. -/
inductive Content (r : ℕ) : Parser → HttpCode → Parser → Prop
  /-- The line is not complete. -/
  | open {P : Parser} {b : List Byte} {c : ℕ} :
      parseLine P.buffer P.checkedIndex r = some (.open, b, c) →
      Content r P .noRequest (P.scanned b c)
  /-- A stray CR or LF. -/
  | bad {P : Parser} {b : List Byte} {c : ℕ} :
      parseLine P.buffer P.checkedIndex r = some (.bad, b, c) →
      Content r P .badRequest (P.scanned b c)
  /-- A complete line that decides. -/
  | done {P P' : Parser} {b : List Byte} {c : ℕ} {code : HttpCode} :
      parseLine P.buffer P.checkedIndex r = some (.ok, b, c) →
      parseCompleteLine (P.scanned b c) = some (some code, P') → Content r P code P'
  /-- A complete line that does not. -/
  | next {P P₁ P' : Parser} {b : List Byte} {c : ℕ} {code : HttpCode} :
      parseLine P.buffer P.checkedIndex r = some (.ok, b, c) →
      parseCompleteLine (P.scanned b c) = some (none, P₁) → Content r P₁ code P' →
      Content r P code P'

/-- The line being scanned starts before the scan, and the bytes received fit in the buffer. -/
structure Parser.WF (P : Parser) (r : ℕ) : Prop where
  start_le : P.startLine ≤ P.checkedIndex
  le_length : r ≤ P.buffer.length

theorem Parser.WF.mono {P : Parser} {r r' : ℕ} (h : P.WF r) (hr : r' ≤ P.buffer.length) :
    P.WF r' :=
  ⟨h.start_le, hr⟩

theorem Parser.init_wf (s x : List Byte) : (Parser.init (s ++ x)).WF s.length :=
  ⟨le_rfl, by simp [Parser.init]⟩

/-! ### A complete line -/

/-- What `parse_content` does with a complete line `s`: the code it returns, if any, the bytes of
the line afterwards, the new `check_state` and what is printed. -/
def lineOutcome (cs : CheckState) (s : List Byte) :
    Option HttpCode × List Byte × CheckState × List Msg :=
  match cs with
  | .requestLine =>
    let R := requestLine s
    if R.code = .badRequest then (some .badRequest, R.text, .requestLine, R.msgs)
    else (none, R.text, .header, R.msgs)
  | .header => (if s = [] then some .getRequest else none, s, .header, (headerLine s).2)

theorem length_lineOutcome (cs : CheckState) (s : List Byte) :
    (lineOutcome cs s).2.1.length = s.length := by
  cases cs with
  | requestLine =>
    simp only [lineOutcome]
    split <;> exact length_requestLine_text s
  | header => rfl

theorem parseCompleteLine_append {P : Parser} {pre s x : List Byte} (hs : 0 ∉ s)
    (hb : P.buffer = pre ++ s ++ 0 :: x) (hl : P.startLine = pre.length) :
    parseCompleteLine P = some ((lineOutcome P.checkState s).1,
      ⟨pre ++ (lineOutcome P.checkState s).2.1 ++ 0 :: x, P.checkedIndex,
        (lineOutcome P.checkState s).2.2.1, P.checkedIndex,
        P.out ++ (lineOutcome P.checkState s).2.2.2⟩) := by
  obtain ⟨buffer, c, cs, start, out⟩ := P
  simp only at hb hl
  subst hb hl
  cases cs with
  | requestLine =>
    simp only [parseCompleteLine, parseRequestLine_append hs, LineResult.place, lineOutcome,
      Option.bind_eq_bind, Option.bind_some]
    rcases requestLine_code s with h | h <;> simp [h]
  | header =>
    simp only [parseCompleteLine, parseHeaders_append hs, lineOutcome, Option.bind_eq_bind,
      Option.bind_some, headerLine_code]
    by_cases h : s = [] <;> simp [h]

theorem exists_parseCompleteLine {P : Parser} {i : ℕ} (hi : P.startLine ≤ i)
    (h : P.buffer[i]? = some 0) :
    ∃ pre s x, 0 ∉ s ∧ P.buffer = pre ++ s ++ 0 :: x ∧ P.startLine = pre.length ∧
      pre.length + s.length ≤ i := by
  obtain ⟨hlt, hget⟩ := List.getElem?_eq_some_iff.1 h
  -- the line ends at the first NUL from `start_line` on, which comes no later than `i`
  have hmem : 0 ∈ (P.buffer.drop P.startLine).take (i + 1 - P.startLine) := by
    refine List.mem_iff_getElem?.2 ⟨i - P.startLine, ?_⟩
    rw [List.getElem?_take_of_lt (by omega), List.getElem?_drop,
      Nat.add_sub_cancel' hi, h]
  obtain ⟨s, y, hsy, hs⟩ := List.eq_append_cons_of_mem hmem
  have hlen := congrArg List.length hsy
  simp only [List.length_take, List.length_drop, List.length_append, List.length_cons] at hlen
  refine ⟨P.buffer.take P.startLine, s, y ++ (P.buffer.drop P.startLine).drop (i + 1 - P.startLine),
    hs, ?_, ?_, ?_⟩
  · have h1 := List.take_append_drop (i + 1 - P.startLine) (P.buffer.drop P.startLine)
    have h2 := List.take_append_drop P.startLine P.buffer
    rw [hsy] at h1
    rw [← h1] at h2
    exact h2.symm.trans (by simp only [List.append_assoc, List.cons_append])
  · rw [List.length_take]
    omega
  · rw [List.length_take]
    omega

/-- A line that `parse_line` has found complete ends in a NUL in front of the new
`checked_index`. -/
theorem exists_line_of_ok {P : Parser} {r c : ℕ} {b : List Byte} (hwf : P.WF r)
    (h : parseLine P.buffer P.checkedIndex r = some (.ok, b, c)) :
    b.length = P.buffer.length ∧ P.checkedIndex < c ∧ c ≤ r ∧
      ∃ pre s x, 0 ∉ s ∧ b = pre ++ s ++ 0 :: x ∧ P.startLine = pre.length := by
  obtain ⟨e, hce, -, -, hstop⟩ := stop_of_parseLine hwf.le_length h
  obtain ⟨hec, hcr, hnul⟩ := hstop.nul_of_ok
  have hs := hwf.start_le
  obtain ⟨pre, s, x, hs, hb, hl, -⟩ := exists_parseCompleteLine (P := P.scanned b c) (i := c - 1)
    (by simp only [Parser.scanned]; omega) hnul
  exact ⟨hstop.length_eq, by omega, hcr, pre, s, x, hs, hb, hl⟩

theorem parseCompleteLine_of_ok {P : Parser} {r c : ℕ} {b : List Byte} (hwf : P.WF r)
    (h : parseLine P.buffer P.checkedIndex r = some (.ok, b, c)) :
    ∃ res P', parseCompleteLine (P.scanned b c) = some (res, P') ∧ P'.WF r ∧
      P'.buffer.length = P.buffer.length ∧ P.checkedIndex < c ∧ c ≤ r ∧ P'.checkedIndex = c ∧
      res ≠ some .noRequest := by
  obtain ⟨hlen, hc, hcr, pre, s, x, hs, hb, hl⟩ := exists_line_of_ok hwf h
  have hlen' : (pre ++ (lineOutcome P.checkState s).2.1 ++ 0 :: x).length = P.buffer.length := by
    rw [← hlen, hb]
    simp [length_lineOutcome]
  refine ⟨_, _, parseCompleteLine_append (P := P.scanned b c) hs hb hl, ⟨le_rfl, ?_⟩, hlen', hc,
    hcr, rfl, ?_⟩
  · exact hwf.le_length.trans_eq hlen'.symm
  · unfold Parser.scanned
    cases P.checkState <;> simp only [lineOutcome] <;> split <;> simp

theorem handled_of_ok {P P' : Parser} {r c : ℕ} {b : List Byte} {res : Option HttpCode}
    (hwf : P.WF r) (h : parseLine P.buffer P.checkedIndex r = some (.ok, b, c))
    (hp : parseCompleteLine (P.scanned b c) = some (res, P')) :
    P'.WF r ∧ P'.buffer.length = P.buffer.length ∧ P.checkedIndex < c ∧ c ≤ r ∧
      P'.checkedIndex = c ∧ res ≠ some .noRequest := by
  obtain ⟨res₁, P₁, hp₁, hrest⟩ := parseCompleteLine_of_ok hwf h
  obtain ⟨rfl, rfl⟩ := Prod.mk.inj (Option.some.inj (hp₁.symm.trans hp))
  exact hrest

/-! ### The relation and the function -/

theorem exists_content {P : Parser} {r : ℕ} (hwf : P.WF r) : ∃ code P', Content r P code P' := by
  induction hn : r - P.checkedIndex using Nat.strong_induction_on generalizing P with
  | _ n ih =>
    obtain ⟨e, st, b, c, -, -, -, -, hline⟩ := parseLine_spec hwf.le_length P.checkedIndex
    cases st with
    | «open» => exact ⟨_, _, .open hline⟩
    | bad => exact ⟨_, _, .bad hline⟩
    | ok =>
      obtain ⟨res, P₁, hp, hwf₁, -, hc, hcr, hc₁, -⟩ := parseCompleteLine_of_ok hwf hline
      cases res with
      | some code => exact ⟨code, P₁, .done hline hp⟩
      | none =>
        obtain ⟨code, P', h⟩ := ih _ (by omega) hwf₁ rfl
        exact ⟨code, P', .next hline hp h⟩

theorem Content.parseContentLoop {P P' : Parser} {r : ℕ} {code : HttpCode}
    (h : Content r P code P') (hwf : P.WF r) {n : ℕ} (hn : r - P.checkedIndex < n) :
    parseContentLoop r n P = some (code, P') := by
  induction h generalizing n with
  | «open» hline =>
    cases n with
    | zero => omega
    | succ n => simp [Http.parseContentLoop, hline, Parser.scanned]
  | bad hline =>
    cases n with
    | zero => omega
    | succ n => simp [Http.parseContentLoop, hline, Parser.scanned]
  | done hline hp =>
    cases n with
    | zero => omega
    | succ n =>
      unfold Parser.scanned at hp
      simp [Http.parseContentLoop, hline, hp]
  | next hline hp _ ih =>
    cases n with
    | zero => omega
    | succ n =>
      obtain ⟨hwf₂, -, hc, hcr, hc₂, -⟩ := handled_of_ok hwf hline hp
      unfold Parser.scanned at hp
      simpa [Http.parseContentLoop, hline, hp] using ih hwf₂ (by omega)

/-- **`parse_content` computes the relation**; in particular it never leaves the buffer. -/
theorem parseContent_iff {P P' : Parser} {r : ℕ} {code : HttpCode} (hwf : P.WF r) :
    parseContent P r = some (code, P') ↔ Content r P code P' := by
  constructor
  · intro h
    obtain ⟨code₁, P₁, h₁⟩ := exists_content hwf
    have heq := h₁.parseContentLoop hwf (Nat.lt_succ_self _)
    rw [parseContent, heq] at h
    obtain ⟨rfl, rfl⟩ := Prod.mk.inj (Option.some.inj h)
    exact h₁
  · intro h
    exact h.parseContentLoop hwf (Nat.lt_succ_self _)

theorem Content.wf {P P' : Parser} {r : ℕ} {code : HttpCode} (h : Content r P code P')
    (hwf : P.WF r) : P'.WF r ∧ P'.buffer.length = P.buffer.length := by
  have hscan : ∀ {P : Parser} {st : LineStatus} {b : List Byte} {c : ℕ}, P.WF r →
      parseLine P.buffer P.checkedIndex r = some (st, b, c) →
      (P.scanned b c).WF r ∧ b.length = P.buffer.length := by
    intro P st b c hwf hline
    obtain ⟨e, hce, -, -, hstop⟩ := stop_of_parseLine hwf.le_length hline
    have hs := hwf.start_le
    have hc := hstop.le_checked
    have hlen := hstop.length_eq
    exact ⟨⟨by simp only [Parser.scanned]; omega, by simp only [Parser.scanned, hlen]; exact
      hwf.le_length⟩, hlen⟩
  induction h with
  | «open» hline => exact hscan hwf hline
  | bad hline => exact hscan hwf hline
  | done hline hp =>
    obtain ⟨hwf₂, hlen, -⟩ := handled_of_ok hwf hline hp
    exact ⟨hwf₂, hlen⟩
  | next hline hp _ ih =>
    obtain ⟨hwf₂, hlen, -⟩ := handled_of_ok hwf hline hp
    exact ⟨(ih hwf₂).1, (ih hwf₂).2.trans hlen⟩

/-! ### Locality

The bytes behind the ones received are neither read nor written. -/

/-- The parser with the bytes `x` behind its buffer. -/
def Parser.extend (P : Parser) (x : List Byte) : Parser := { P with buffer := P.buffer ++ x }

theorem getElem?_extend {a x : List Byte} {i : ℕ} {b : Byte} (h : a[i]? = some b) :
    (a ++ x)[i]? = some b := by
  rw [List.getElem?_append_left (List.getElem?_eq_some_iff.1 h).1, h]

theorem Stop.extend {a a' : List Byte} {r e c' : ℕ} {st : LineStatus} (h : Stop a r e st a' c')
    (x : List Byte) : Stop (a ++ x) r e st (a' ++ x) c' := by
  have hset : ∀ {i j : ℕ} {b b' : Byte}, a[i]? = some b → a[j]? = some b' →
      (a.set i 0).set j 0 ++ x = ((a ++ x).set i 0).set j 0 := by
    intro i j b b' hi hj
    have hi := (List.getElem?_eq_some_iff.1 hi).1
    have hj := (List.getElem?_eq_some_iff.1 hj).1
    rw [List.set_append_left _ _ hi, List.set_append_left _ _ (by rwa [List.length_set])]
  cases h with
  | exhausted h => exact .exhausted h
  | lastCR hb h => exact .lastCR (getElem?_extend hb) h
  | crlf hb h hb' =>
    rw [hset hb hb']
    exact .crlf (getElem?_extend hb) h (getElem?_extend hb')
  | crBad hb h hb' hne => exact .crBad (getElem?_extend hb) h (getElem?_extend hb') hne
  | lf hb h he hb' =>
    rw [hset hb' hb]
    exact .lf (getElem?_extend hb) h he (getElem?_extend hb')
  | lfBad hb h hb' =>
    refine .lfBad (getElem?_extend hb) h fun he => ?_
    have hlt := (List.getElem?_eq_some_iff.1 hb).1
    rw [List.getElem?_append_left (by omega)]
    exact hb' he

theorem parseLine_extend {a a' : List Byte} {c c' r : ℕ} {st : LineStatus} (hr : r ≤ a.length)
    (h : parseLine a c r = some (st, a', c')) (x : List Byte) :
    parseLine (a ++ x) c r = some (st, a' ++ x, c') := by
  obtain ⟨e, hce, her, hp, hstop⟩ := stop_of_parseLine hr h
  refine parseLine_of_stop hce her (fun i h1 h2 => ?_) (hstop.extend x)
  obtain ⟨b, hb, hpb⟩ := hp i h1 h2
  exact ⟨b, getElem?_extend hb, hpb⟩

/-- A complete line ends in a NUL, which keeps the string functions in front of `x`. -/
theorem parseCompleteLine_extend {P P' : Parser} {r c : ℕ} {b : List Byte}
    {res : Option HttpCode} (hwf : P.WF r)
    (hline : parseLine P.buffer P.checkedIndex r = some (.ok, b, c))
    (h : parseCompleteLine (P.scanned b c) = some (res, P')) (x : List Byte) :
    parseCompleteLine ((P.extend x).scanned (b ++ x) c) = some (res, P'.extend x) := by
  obtain ⟨-, -, -, pre, s, y, hs, hb, hl⟩ := exists_line_of_ok hwf hline
  have hb' : b ++ x = pre ++ s ++ 0 :: (y ++ x) := by
    simp only [hb, List.append_assoc, List.cons_append]
  rw [parseCompleteLine_append (P := P.scanned b c) hs hb hl] at h
  obtain ⟨rfl, rfl⟩ := Prod.mk.inj (Option.some.inj h)
  rw [parseCompleteLine_append (P := (P.extend x).scanned (b ++ x) c) hs hb' hl]
  simp only [Parser.extend, Parser.scanned, List.append_assoc, List.cons_append]

/-- `parse_content` depends on the bytes received only. -/
theorem Content.extend {P P' : Parser} {r : ℕ} {code : HttpCode} (h : Content r P code P')
    (hwf : P.WF r) (x : List Byte) : Content r (P.extend x) code (P'.extend x) := by
  induction h with
  | «open» hline => exact .open (parseLine_extend hwf.le_length hline x)
  | bad hline => exact .bad (parseLine_extend hwf.le_length hline x)
  | done hline hp =>
    exact .done (parseLine_extend hwf.le_length hline x) (parseCompleteLine_extend hwf hline hp x)
  | next hline hp _ ih =>
    exact .next (parseLine_extend hwf.le_length hline x) (parseCompleteLine_extend hwf hline hp x)
      (ih (handled_of_ok hwf hline hp).1)

/-! ### Suspension -/

/-- An open scan goes on with more bytes from where it stopped. -/
theorem parseLine_resume {buffer b : List Byte} {c c' r r' : ℕ} (hr : r ≤ buffer.length)
    (hrr : r ≤ r') (h : parseLine buffer c r = some (.open, b, c')) :
    b = buffer ∧ c ≤ c' ∧ parseLine buffer c' r' = parseLine buffer c r' := by
  obtain ⟨e, hce, her, hp, hstop⟩ := stop_of_parseLine hr h
  obtain ⟨rfl, rfl⟩ := hstop.eq_of_open
  exact ⟨rfl, hce, (parseLine_skip_to hce (by omega) hp).symm⟩

theorem parseLine_mono {buffer b : List Byte} {c c' r r' : ℕ} {st : LineStatus}
    (hr : r ≤ buffer.length) (hrr : r ≤ r') (hst : st ≠ .open)
    (h : parseLine buffer c r = some (st, b, c')) :
    parseLine buffer c r' = some (st, b, c') := by
  obtain ⟨e, hce, her, hp, hstop⟩ := stop_of_parseLine hr h
  exact parseLine_of_stop hce (by omega) hp (hstop.mono hst hrr)

/-- A call that decided decides the same when there are more bytes; one that asked for more can
be resumed. -/
theorem Content.resume {P P' : Parser} {r r' : ℕ} {code : HttpCode} (h : Content r P code P')
    (hwf : P.WF r) (hrr : r ≤ r') :
    (code ≠ .noRequest → Content r' P code P') ∧
      (code = .noRequest → ∀ code' P'', Content r' P' code' P'' → Content r' P code' P'') := by
  induction h with
  | @«open» P b c hline =>
    refine ⟨fun h => absurd rfl h, fun _ code' P'' h => ?_⟩
    obtain ⟨rfl, -, heq⟩ := parseLine_resume hwf.le_length hrr hline
    -- the suspended parser differs from `P` in the index only, which the next `parse_line` passes
    cases h with
    | «open» hl => exact .open (heq ▸ hl)
    | bad hl => exact .bad (heq ▸ hl)
    | done hl hp => exact .done (heq ▸ hl) hp
    | next hl hp h => exact .next (heq ▸ hl) hp h
  | bad hline =>
    exact ⟨fun _ => .bad (parseLine_mono hwf.le_length hrr (by decide) hline),
      fun h => nomatch h⟩
  | done hline hp =>
    have hline' := parseLine_mono hwf.le_length hrr (by decide) hline
    refine ⟨fun _ => .done hline' hp, fun h => ?_⟩
    subst h
    obtain ⟨res, P₂, hp₂, -, -, -, -, -, hres⟩ := parseCompleteLine_of_ok hwf hline
    rw [hp] at hp₂
    obtain ⟨rfl, -⟩ := Prod.mk.inj (Option.some.inj hp₂)
    exact absurd rfl hres
  | next hline hp _ ih =>
    have hline' := parseLine_mono hwf.le_length hrr (by decide) hline
    obtain ⟨res, P₂, hp₂, hwf₂, -⟩ := parseCompleteLine_of_ok hwf hline
    rw [hp] at hp₂
    obtain ⟨-, rfl⟩ := Prod.mk.inj (Option.some.inj hp₂)
    obtain ⟨h₁, h₂⟩ := ih hwf₂
    exact ⟨fun hne => .next hline' hp (h₁ hne),
      fun heq code' P'' h => .next hline' hp (h₂ heq code' P'' h)⟩

/-- A suspended call resumed with more bytes is one call with all the bytes. -/
theorem parseContent_resume {P P' : Parser} {r r' : ℕ} (hwf : P.WF r')
    (h : parseContent P r = some (.noRequest, P')) (hrr : r ≤ r') :
    parseContent P' r' = parseContent P r' := by
  have hwf' := hwf.mono (hrr.trans hwf.le_length)
  have hc := (parseContent_iff hwf').1 h
  obtain ⟨hwf₁, hlen⟩ := hc.wf hwf'
  have hwf₁' : P'.WF r' := hwf₁.mono (by rw [hlen]; exact hwf.le_length)
  obtain ⟨code, P'', h''⟩ := exists_content hwf₁'
  rw [(parseContent_iff hwf₁').2 h'',
    (parseContent_iff hwf).2 ((hc.resume hwf' hrr).2 rfl _ _ h'')]

theorem parseContent_mono {P P' : Parser} {r r' : ℕ} {code : HttpCode} (hwf : P.WF r')
    (h : parseContent P r = some (code, P')) (hne : code ≠ .noRequest) (hrr : r ≤ r') :
    parseContent P r' = some (code, P') := by
  have hwf' := hwf.mono (hrr.trans hwf.le_length)
  exact (parseContent_iff hwf).2 ((((parseContent_iff hwf').1 h).resume hwf' hrr).1 hne)

/-- Calls of `parse_content` on one buffer with growing `read_index`, up to the first that does
not ask for more. -/
def feed (P : Parser) : List ℕ → Option (HttpCode × Parser)
  | [] => some (.noRequest, P)
  | r :: rs => do
    let (code, P) ← parseContent P r
    if code = .noRequest then feed P rs else some (code, P)

theorem feed_eq_of_sorted {P : Parser} {rs : List ℕ} {n : ℕ} (hwf : P.WF n)
    (hs : rs.Pairwise (· < ·)) (hl : rs.getLast? = some n) : feed P rs = parseContent P n := by
  induction rs generalizing P with
  | nil => cases hl
  | cons r rs ih =>
    have hrn : r ≤ n := by
      rcases List.mem_cons.1 (List.mem_of_getLast? hl) with h | h
      · exact h.ge
      · exact (List.rel_of_pairwise_cons hs h).le
    have hwfr := hwf.mono (hrn.trans hwf.le_length)
    obtain ⟨code, P', h⟩ := exists_content hwfr
    have hcall := (parseContent_iff hwfr).2 h
    rw [feed, hcall]
    simp only [Option.bind_eq_bind, Option.bind_some]
    by_cases hcode : code = .noRequest
    · subst hcode
      rw [if_pos rfl]
      cases rs with
      | nil =>
        obtain rfl : r = n := by simpa using hl
        rw [feed, hcall]
      | cons r' rs =>
        obtain ⟨hwf', hlen⟩ := h.wf hwfr
        rw [List.getLast?_cons_cons] at hl
        rw [ih (hwf'.mono (by rw [hlen]; exact hwf.le_length)) hs.of_cons hl]
        exact parseContent_resume hwf hcall hrn
    · rw [if_neg hcode, parseContent_mono hwf hcall hcode hrn]

/-- **Incremental parsing is one-shot parsing.**  Feeding a text in growing prefixes stops with
the code, and leaves the parser, that one call on the whole text gives; `x` is the rest of the
buffer. -/
theorem feed_eq_parseContent (s x : List Byte) (rs : List ℕ) (hs : rs.Pairwise (· < ·))
    (hl : rs.getLast? = some s.length) :
    ∃ code P, feed (Parser.init (s ++ x)) rs = some (code, P) ∧
      parseContent (Parser.init (s ++ x)) s.length = some (code, P) := by
  have hwf : (Parser.init (s ++ x)).WF s.length := Parser.init_wf s x
  obtain ⟨code, P, h⟩ := exists_content hwf
  have hcall := (parseContent_iff hwf).2 h
  exact ⟨code, P, (feed_eq_of_sorted hwf hs hl).trans hcall, hcall⟩

/-- `GET / HTTP/1.1` and an empty line. -/
def shortRequest : List Byte := GET ++ [32, slash, 32] ++ HTTP11 ++ [CR, LF, CR, LF]

/-- Cuts inside a token and between CR and LF. -/
theorem feed_shortRequest : ∃ code P,
    feed (Parser.init (shortRequest ++ [0, 0])) [2, 15, 17, 18] = some (code, P) ∧
      parseContent (Parser.init (shortRequest ++ [0, 0])) shortRequest.length = some (code, P) :=
  feed_eq_parseContent shortRequest [0, 0] [2, 15, 17, 18] (by decide) (by decide)

end Http

end LinuxServer
