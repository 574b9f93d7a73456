import LinuxServer.Http.Loop

/-!
# The parser stays in its buffer

`main` sets `read_index` to the length of the last piece, which may be smaller than `checked_index`,
so that a later piece may overwrite bytes the parser has passed, NULs included.  Still every access
is where it should be.

* `ScansWithin`, `TokenisesWithin`, `ChecksWithin`: `parse_line`, `parse_request_line` and
  `parse_headers` do on a part of the buffer what they do on the buffer, and leave the rest of it as
  it is.  An access outside the part would make the result `none`.
* `Rounds r P Q`: the loop of `parse_content` comes from `P` to `Q`.
* `InBounds r Q`: all accesses of the next round of that loop are within their bounds.
* `inBounds_of_recv`: so it is in every round of every call that `main` makes.
-/

namespace LinuxServer

namespace Http

/-- `parse_line` on the buffer `a` accesses bytes below `r` only. -/
def ScansWithin (a : List Byte) (c r : ℕ) (st : LineStatus) (b : List Byte) (c' : ℕ) : Prop :=
  ∃ t, parseLine (a.take r) c r = some (st, t, c') ∧
    parseLine a c r = some (st, b, c') ∧ b = t ++ a.drop r

/-- `parse_request_line` on the line at `i` accesses bytes from `i` up to `j` only. -/
def TokenisesWithin (b : List Byte) (i j : ℕ) : Prop :=
  ∃ code t cs msgs, parseRequestLine ((b.take j).drop i) 0 .requestLine = some (code, t, cs, msgs) ∧
    parseRequestLine b i .requestLine = some (code, b.take i ++ t ++ b.drop j, cs, msgs)

/-- `parse_headers` on the line at `i` accesses bytes from `i` up to `j` only. -/
def ChecksWithin (b : List Byte) (i j : ℕ) : Prop :=
  ∃ code msgs, parseHeaders ((b.take j).drop i) 0 = some (code, msgs) ∧
    parseHeaders b i = some (code, msgs)

/-- The loop of `parse_content`, with the bytes below `r` received, comes from `P` to `Q`. -/
inductive Rounds (r : ℕ) (P : Parser) : Parser → Prop
  | refl : Rounds r P P
  | step {Q Q' : Parser} {b : List Byte} {c : ℕ} : Rounds r P Q →
      parseLine Q.buffer Q.checkedIndex r = some (.ok, b, c) →
      parseCompleteLine (Q.scanned b c) = some (none, Q') → Rounds r P Q'

/-- The accesses of a round of the loop of `parse_content`, which starts with the variables `Q`. -/
structure InBounds (r : ℕ) (Q : Parser) : Prop where
  /-- The bytes received are in the buffer. -/
  received_le : r ≤ bufferSize
  length_eq : Q.buffer.length = bufferSize
  start_le : Q.startLine ≤ Q.checkedIndex
  checked_le : Q.checkedIndex ≤ bufferSize
  /-- `parse_line` returns, and accesses received bytes only. -/
  scans : ∃ st b c, ScansWithin Q.buffer Q.checkedIndex r st b c ∧ Q.checkedIndex ≤ c ∧
    c ≤ bufferSize
  /-- A line that is handed on has a NUL, and nothing but the line up to there is accessed. -/
  line : ∀ b c, parseLine Q.buffer Q.checkedIndex r = some (.ok, b, c) →
    (∃ i, Q.startLine ≤ i ∧ i < c ∧ b[i]? = some 0) ∧
      match Q.checkState with
      | .requestLine => TokenisesWithin b Q.startLine c
      | .header => ChecksWithin b Q.startLine c

variable {a b : List Byte} {c r : ℕ} {P Q : Parser}

theorem exists_scansWithin (hr : r ≤ a.length) (c : ℕ) :
    ∃ st b c', ScansWithin a c r st b c' ∧ c ≤ c' ∧ c' ≤ max c r := by
  have hlen : (a.take r).length = r := List.length_take_of_le hr
  obtain ⟨e, st, t, c', hce, her, -, hstop, hline⟩ := parseLine_spec hlen.ge c
  have hext := parseLine_extend hlen.ge hline (a.drop r)
  rw [List.take_append_drop] at hext
  refine ⟨st, _, c', ⟨t, hline, hext, rfl⟩, hce.trans hstop.le_checked, ?_⟩
  cases hstop with
  | exhausted h => omega
  | lastCR hb h => omega
  | crlf hb h hb' => omega
  | crBad hb h hb' hne => omega
  | lf hb h he hb' => omega
  | lfBad hb h hb' => omega

/-- A line with a NUL in front of `j`, as it stands in the buffer and in its part up to `j`. -/
theorem exists_line {i k j : ℕ} (hik : i ≤ k) (hkj : k < j) (h : b[k]? = some 0) :
    ∃ s x y, 0 ∉ s ∧ b = b.take i ++ s ++ 0 :: x ∧ (b.take j).drop i = s ++ 0 :: y ∧
      x = y ++ b.drop j ∧ (b.take i).length = i := by
  have h' : (b.take j)[k]? = some 0 := by rw [List.getElem?_take_of_lt hkj, h]
  obtain ⟨pre, s, y, hs, hb, hl, -⟩ :=
    exists_parseCompleteLine (P := ⟨b.take j, 0, .header, i, []⟩) hik h'
  simp only at hb hl
  subst hl
  have hsplit : b = pre ++ s ++ 0 :: (y ++ b.drop j) := by
    conv_lhs => rw [← List.take_append_drop j b, hb]
    simp only [List.append_assoc, List.cons_append]
  have hpre : b.take pre.length = pre := by
    conv_lhs => rw [hsplit, List.append_assoc, List.take_left]
  refine ⟨s, _, y, hs, ?_, ?_, rfl, by rw [hpre]⟩
  · rw [hpre]
    exact hsplit
  · rw [hb, List.append_assoc, List.drop_left]

theorem tokenisesWithin_of_nul {i k j : ℕ} (hik : i ≤ k) (hkj : k < j)
    (h : b[k]? = some 0) : TokenisesWithin b i j := by
  obtain ⟨s, x, y, hs, hb, hpart, rfl, hi⟩ := exists_line hik hkj h
  have hwhole := parseRequestLine_append hs (b.take i) (y ++ b.drop j) .requestLine
  have halone := parseRequestLine_append hs [] y .requestLine
  rw [← hb, hi, LineResult.place] at hwhole
  rw [List.nil_append, ← hpart, List.length_nil, LineResult.place] at halone
  refine ⟨_, _, _, _, halone, hwhole.trans ?_⟩
  simp only [List.nil_append, List.append_assoc, List.cons_append]

theorem checksWithin_of_nul {i k j : ℕ} (hik : i ≤ k) (hkj : k < j)
    (h : b[k]? = some 0) : ChecksWithin b i j := by
  obtain ⟨s, x, y, hs, hb, hpart, rfl, hi⟩ := exists_line hik hkj h
  have hwhole := parseHeaders_append hs (b.take i) (y ++ b.drop j)
  have halone := parseHeaders_append hs [] y
  rw [← hb, hi] at hwhole
  rw [List.nil_append, ← hpart, List.length_nil] at halone
  exact ⟨_, _, halone, hwhole⟩

theorem inBounds_of_wf (hr : r ≤ bufferSize) (hlen : Q.buffer.length = bufferSize)
    (hs : Q.startLine ≤ Q.checkedIndex) (hc : Q.checkedIndex ≤ bufferSize) : InBounds r Q := by
  have hr' : r ≤ Q.buffer.length := hr.trans hlen.ge
  refine ⟨hr, hlen, hs, hc, ?_, fun b c hline => ?_⟩
  · obtain ⟨st, b, c, hscan, hle, hmax⟩ := exists_scansWithin hr' Q.checkedIndex
    exact ⟨st, b, c, hscan, hle, hmax.trans (max_le hc hr)⟩
  · obtain ⟨e, hce, -, -, hstop⟩ := stop_of_parseLine hr' hline
    obtain ⟨hec, hcr, hnul⟩ := hstop.nul_of_ok
    refine ⟨⟨c - 1, by omega, by omega, hnul⟩, ?_⟩
    cases Q.checkState with
    | requestLine => exact tokenisesWithin_of_nul (by omega) (by omega) hnul
    | header => exact checksWithin_of_nul (by omega) (by omega) hnul

theorem InBounds.next {Q' : Parser} (h : InBounds r Q)
    (hline : parseLine Q.buffer Q.checkedIndex r = some (.ok, b, c))
    (hp : parseCompleteLine (Q.scanned b c) = some (none, Q')) : InBounds r Q' := by
  have hwf : Q.WF r := ⟨h.start_le, by rw [h.length_eq]; exact h.received_le⟩
  obtain ⟨hwf₂, hlen, -, hcr, hc, -⟩ := handled_of_ok hwf hline hp
  exact inBounds_of_wf h.received_le (hlen.trans h.length_eq) hwf₂.start_le
    (hc.trans_le (hcr.trans h.received_le))

theorem Rounds.inBounds (h : Rounds r P Q) (hP : InBounds r P) : InBounds r Q := by
  induction h with
  | refl => exact hP
  | step _ hline hp ih => exact ih.next hline hp

/-- **The request parser never leaves its buffer.**  The loop of `main` goes on or leaves on all
results that `recv` can have, and whenever `recv` delivers bytes, they fit in the buffer and every
round of the `parse_content` call that follows is within its bounds. -/
theorem inBounds_of_recv (rs : List Recv) (hfit : Fits 0 rs) :
    (∃ c x, recvLoop .init rs = some (c, x)) ∧
      ∀ pre bs c, pre ++ [.data bs] <+: rs → recvLoop .init pre = some (c, none) →
        ∃ b, writeAt c.parser.buffer c.readIndex bs = some b ∧
          ∀ Q, Rounds bs.length (c.received bs b) Q → InBounds bs.length Q := by
  refine ⟨exists_recvLoop Conn.init_wf hfit, fun pre bs c hpre hloop => ?_⟩
  obtain ⟨post, rfl⟩ := hpre
  rw [List.append_assoc] at hfit
  obtain ⟨hwf, hfits⟩ := wf_of_recvLoop Conn.init_wf hfit hloop
  have hroom := hfits.1
  obtain ⟨b, code, P, hw, -⟩ := exists_recvRound hwf hroom
  refine ⟨b, hw, fun Q hQ => hQ.inBounds (inBounds_of_wf (by omega) ?_ hwf.start_le hwf.checked_le)⟩
  exact (length_of_writeAt hw).trans hwf.length_eq

theorem inBounds_of_recv_late :
    (∃ c x, recvLoop .init [.data [71, 69, 84, 32], .data [CR, LF], .data [0]] = some (c, x)) ∧
      ∀ pre bs c, pre ++ [.data bs] <+: [.data [71, 69, 84, 32], .data [CR, LF], .data [0]] →
        recvLoop .init pre = some (c, none) →
        ∃ b, writeAt c.parser.buffer c.readIndex bs = some b ∧
          ∀ Q, Rounds bs.length (c.received bs b) Q → InBounds bs.length Q :=
  inBounds_of_recv _ ⟨by decide, by decide, by decide, trivial⟩

end Http

end LinuxServer
