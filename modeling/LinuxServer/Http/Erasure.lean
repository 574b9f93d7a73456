import LinuxServer.Http.Loop

/-!
# What the parser destroys

The tokeniser of `http_parse.cc` works in the buffer that `main` receives into: it writes NULs
behind words and lines.

* `Erases t s`: `t` is `s` with NULs in the place of some separators.
* `memory segs`: the buffer when the pieces `segs` are received and nothing is parsed.
* `Kept mem P`: the buffer of `P` is `mem` with separators erased in front of `checked_index`.

`kept_of_recv`: so it is after every round of `main`, although `read_index` need not be the end of
what was received.
-/

namespace LinuxServer

namespace Http

open CString

/-- A byte that ends a line or a word. -/
def Separator (b : Byte) : Prop := b = CR ∨ b = LF ∨ b ∈ blanks

/-- Some separators are replaced by NULs. -/
def Erases (t s : List Byte) : Prop :=
  ∀ i : ℕ, t[i]? = s[i]? ∨ t[i]? = some 0 ∧ ∃ b, s[i]? = some b ∧ Separator b

/-- The buffer, from `mem` on, when `recv` writes the pieces where `main` has it written. -/
def memoryFrom (mem : List Byte) (readIndex : ℕ) : List (List Byte) → Option (List Byte)
  | [] => some mem
  | bs :: segs => do
    let mem ← writeAt mem readIndex bs
    memoryFrom mem bs.length segs

/-- The buffer when the pieces are received and nothing is parsed. -/
def memory (segs : List (List Byte)) : Option (List Byte) :=
  memoryFrom Conn.init.parser.buffer Conn.init.readIndex segs

/-- The parser has erased separators in front of `checked_index`, and nothing else. -/
structure Kept (mem : List Byte) (P : Parser) : Prop where
  erases : Erases P.buffer mem
  behind : ∀ i : ℕ, P.checkedIndex ≤ i → P.buffer[i]? = mem[i]?

variable {s t u pre x mem : List Byte} {b : Byte} {i r : ℕ} {P P' : Parser} {code : HttpCode}

/-! ### Erasing -/

theorem not_separator_zero : ¬ Separator 0 := by
  unfold Separator
  decide

theorem Erases.refl (s : List Byte) : Erases s s := fun _ => .inl rfl

/-- A separator that is left was there. -/
theorem Erases.getElem?_eq (h : Erases t s) (hi : t[i]? = some b) (hb : b ≠ 0) :
    s[i]? = some b := by
  rcases h i with heq | ⟨hnul, -⟩
  · rwa [← heq]
  · exact absurd (Option.some.inj (hi.symm.trans hnul)) hb

theorem Erases.trans (h : Erases u t) (h' : Erases t s) : Erases u s := by
  intro i
  rcases h i with heq | ⟨hnul, b, hb, hsep⟩
  · rw [heq]
    exact h' i
  · have hne : b ≠ 0 := fun h0 => not_separator_zero (h0 ▸ hsep)
    exact .inr ⟨hnul, b, h'.getElem?_eq hb hne, hsep⟩

theorem Erases.set (h : Erases t s) (hi : t[i]? = some b) (hb : Separator b) :
    Erases (t.set i 0) s := by
  have hne : b ≠ 0 := fun h0 => not_separator_zero (h0 ▸ hb)
  intro j
  by_cases hj : i = j
  · subst hj
    refine .inr ⟨?_, b, h.getElem?_eq hi hne, hb⟩
    exact List.getElem?_set_self (List.getElem?_eq_some_iff.1 hi).1
  · rw [List.getElem?_set_ne hj]
    exact h j

theorem erases_mid (pre x : List Byte) (hb : Separator b) :
    Erases (pre ++ 0 :: x) (pre ++ b :: x) := by
  have hset : (pre ++ b :: x).set pre.length 0 = pre ++ 0 :: x := set_of_eq rfl rfl
  rw [← hset]
  exact (Erases.refl _).set (by simp) hb

theorem Erases.place (h : Erases t s) (hlen : t.length = s.length) (pre x : List Byte) :
    Erases (pre ++ t ++ x) (pre ++ s ++ x) := by
  intro i
  rcases Nat.lt_or_ge i pre.length with hi | hi
  · refine .inl ?_
    rw [List.append_assoc, List.append_assoc, List.getElem?_append_left hi,
      List.getElem?_append_left hi]
  · rw [List.append_assoc, List.append_assoc, List.getElem?_append_right hi,
      List.getElem?_append_right hi]
    rcases Nat.lt_or_ge (i - pre.length) s.length with hs | hs
    · rw [List.getElem?_append_left (by omega), List.getElem?_append_left hs]
      exact h _
    · rw [List.getElem?_append_right (by omega), List.getElem?_append_right hs, hlen]
      exact .inl rfl

theorem erases_requestTarget {m q : List Byte} (hb : Separator b) :
    Erases (requestTarget m q).text (m ++ b :: q) := by
  have hfirst := erases_mid m q hb
  simp only [requestTarget]
  split
  · exact hfirst
  · rename_i c v hv
    obtain ⟨hc, hw⟩ := dropWhile_cons_head hv
    have hsep : Separator c := .inr (.inr (by simpa using hc))
    have hq := List.takeWhile_append_dropWhile (p := (· ∈ blanks)) (l := q)
    rw [hw] at hq
    have hsecond := erases_mid (m ++ 0 :: q.takeWhile (· ∈ blanks) ++
      (q.dropWhile (· ∈ blanks)).takeWhile (· ∉ blanks)) v hsep
    have htext : m ++ 0 :: q.takeWhile (· ∈ blanks) ++
        (q.dropWhile (· ∈ blanks)).takeWhile (· ∉ blanks) ++ c :: v = m ++ 0 :: q := by
      simp only [List.append_assoc, List.cons_append]
      rw [hq]
    rw [htext] at hsecond
    split
    · split <;> exact hsecond.trans hfirst
    · exact hsecond.trans hfirst

theorem erases_requestLine (s : List Byte) : Erases (requestLine s).text s := by
  simp only [requestLine]
  split
  · exact .refl s
  · rename_i b q hq
    obtain ⟨hb, hs⟩ := dropWhile_cons_head hq
    have hsep : Separator b := .inr (.inr (by simpa using hb))
    split
    · have htarget := erases_requestTarget (m := s.takeWhile (· ∉ blanks)) (q := q) hsep
      rwa [← hs] at htarget
    · have hfirst := erases_mid (s.takeWhile (· ∉ blanks)) q hsep
      rwa [← hs] at hfirst

theorem erases_lineOutcome (cs : CheckState) (s : List Byte) :
    Erases (lineOutcome cs s).2.1 s := by
  cases cs with
  | requestLine =>
    simp only [lineOutcome]
    split <;> exact erases_requestLine s
  | header => exact .refl s

/-! ### A call -/

theorem Kept.scan {c : ℕ} {a : List Byte} {st : LineStatus} (h : Kept mem P)
    (hr : r ≤ P.buffer.length) (hline : parseLine P.buffer P.checkedIndex r = some (st, a, c)) :
    Kept mem (P.scanned a c) := by
  obtain ⟨e, hce, -, -, hstop⟩ := stop_of_parseLine hr hline
  cases hstop with
  | exhausted | lastCR | crBad | lfBad =>
    exact ⟨h.erases, fun i hi => h.behind i (hce.trans hi)⟩
  | crlf hcr hlt hlf =>
    have hne : P.buffer[e + 1]? = (P.buffer.set e 0)[e + 1]? :=
      (List.getElem?_set_ne (Nat.ne_of_lt (Nat.lt_succ_self e))).symm
    refine ⟨(h.erases.set hcr (.inl rfl)).set (hne ▸ hlf) (.inr (.inl rfl)), fun i hi => ?_⟩
    have hi : e + 2 ≤ i := hi
    show ((P.buffer.set e 0).set (e + 1) 0)[i]? = mem[i]?
    rw [List.getElem?_set_ne (by omega), List.getElem?_set_ne (by omega)]
    exact h.behind i (by omega)
  | lf hlf hlt he hcr =>
    have hne : P.buffer[e]? = (P.buffer.set (e - 1) 0)[e]? :=
      (List.getElem?_set_ne (by omega)).symm
    refine ⟨(h.erases.set hcr (.inl rfl)).set (hne ▸ hlf) (.inr (.inl rfl)), fun i hi => ?_⟩
    have hi : e + 1 ≤ i := hi
    show ((P.buffer.set (e - 1) 0).set e 0)[i]? = mem[i]?
    rw [List.getElem?_set_ne (by omega), List.getElem?_set_ne (by omega)]
    exact h.behind i (by omega)

theorem Kept.complete {c : ℕ} {a : List Byte} {res : Option HttpCode} (h : Kept mem P)
    (hwf : P.WF r) (hline : parseLine P.buffer P.checkedIndex r = some (.ok, a, c))
    (hp : parseCompleteLine (P.scanned a c) = some (res, P')) : Kept mem P' := by
  have hscan := h.scan hwf.le_length hline
  obtain ⟨e, hce, -, -, hstop⟩ := stop_of_parseLine hwf.le_length hline
  obtain ⟨hec, -, hnul⟩ := hstop.nul_of_ok
  have hstart := hwf.start_le
  obtain ⟨pre, s, x, hs, hb, hl, hlen⟩ := exists_parseCompleteLine (P := P.scanned a c)
    (i := c - 1) (by simp only [Parser.scanned]; omega) hnul
  have hb : a = pre ++ s ++ 0 :: x := hb
  rw [parseCompleteLine_append hs hb hl] at hp
  obtain ⟨-, rfl⟩ := Prod.mk.inj (Option.some.inj hp)
  have hlentext := length_lineOutcome P.checkState s
  have herases := (erases_lineOutcome P.checkState s).place hlentext pre (0 :: x)
  rw [← hb] at herases
  refine ⟨herases.trans hscan.erases, fun i hi => ?_⟩
  have hi : c ≤ i := hi
  have hsame : (pre ++ (lineOutcome P.checkState s).2.1 ++ 0 :: x)[i]? = a[i]? := by
    rw [hb, List.getElem?_append_right (by rw [List.length_append]; omega),
      List.getElem?_append_right (by rw [List.length_append]; omega), List.length_append,
      List.length_append, hlentext]
  exact hsame.trans (hscan.behind i hi)

theorem Content.kept (hc : Content r P code P') (hwf : P.WF r) (h : Kept mem P) : Kept mem P' := by
  induction hc with
  | «open» hline => exact h.scan hwf.le_length hline
  | bad hline => exact h.scan hwf.le_length hline
  | done hline hp => exact h.complete hwf hline hp
  | next hline hp _ ih => exact ih (handled_of_ok hwf hline hp).1 (h.complete hwf hline hp)

/-! ### The loop of `main` -/

theorem getElem?_writeAt {a a' : List Byte} {bs : List Byte} {n : ℕ} (h : writeAt a n bs = some a')
    (i : ℕ) : a'[i]? = if n ≤ i ∧ i < n + bs.length then bs[i - n]? else a[i]? := by
  unfold writeAt at h
  split_ifs at h with hle
  obtain rfl := Option.some.inj h
  have htake : (a.take n).length = n := by
    rw [List.length_take]
    omega
  rw [List.append_assoc]
  split_ifs with hi
  · rw [List.getElem?_append_right (by omega), htake, List.getElem?_append_left (by omega)]
  · rcases Nat.lt_or_ge i n with hlt | hge
    · rw [List.getElem?_append_left (by omega), List.getElem?_take_of_lt hlt]
    · rw [List.getElem?_append_right (by omega), htake, List.getElem?_append_right (by omega),
        List.getElem?_drop]
      congr 1
      omega

theorem Kept.writeAt {a mem' : List Byte} {bs : List Byte} {n : ℕ} {out : List Msg}
    (h : Kept mem P) (ha : writeAt P.buffer n bs = some a) (hmem : writeAt mem n bs = some mem') :
    Kept mem' { P with buffer := a, out := out } := by
  refine ⟨fun i => ?_, fun i hi => ?_⟩
  · show a[i]? = mem'[i]? ∨ _
    rw [getElem?_writeAt ha, getElem?_writeAt hmem]
    split_ifs
    · exact .inl rfl
    · exact h.erases i
  · show a[i]? = mem'[i]?
    rw [getElem?_writeAt ha, getElem?_writeAt hmem, h.behind i hi]

theorem Kept.recvLoop {c c' : Conn} {segs : List (List Byte)} {e : Option Exit} (hc : c.WF)
    (h : Kept mem c.parser) (hlen : mem.length = bufferSize)
    (hloop : recvLoop c (segs.map .data) = some (c', e)) :
    ∃ pre mem', pre <+: segs ∧ memoryFrom mem c.readIndex pre = some mem' ∧ Kept mem' c'.parser ∧
      (e = none → pre = segs) := by
  induction segs generalizing c mem with
  | nil =>
    obtain ⟨rfl, rfl⟩ := Prod.mk.inj (Option.some.inj hloop)
    exact ⟨[], mem, List.nil_prefix, rfl, h, fun _ => rfl⟩
  | cons bs segs ih =>
    rw [List.map_cons, recvLoop_cons] at hloop
    obtain ⟨⟨c₁, x⟩, hround, hrest⟩ := Option.bind_eq_some_iff.1 hloop
    obtain ⟨a, code, P, ha, hp, rfl, rfl⟩ := recvRound_cases hround
    have hfit : c.readIndex + bs.length ≤ bufferSize := by
      by_contra hfit
      rw [Http.writeAt, if_neg (by rw [hc.length_eq]; exact hfit)] at ha
      cases ha
    have hmem : Http.writeAt mem c.readIndex bs = some _ := writeAt_of_le (by omega)
    have hwf := hc.received ha hfit
    have hcontent := (parseContent_iff hwf).1 hp
    have hkept := hcontent.kept hwf (h.writeAt ha hmem)
    cases hx : answer code with
    | some e' =>
      rw [hx] at hrest
      obtain ⟨rfl, rfl⟩ := Prod.mk.inj (Option.some.inj hrest)
      refine ⟨[bs], _, ?_, ?_, hkept, fun h => by cases h⟩
      · exact List.prefix_append [bs] segs
      · simp [memoryFrom, hmem]
    | none =>
      rw [hx] at hrest
      obtain ⟨-, code', P', -, -, hround', hwf'⟩ := exists_recvRound hc hfit
      obtain ⟨hconn, -⟩ := Prod.mk.inj (Option.some.inj (hround.symm.trans hround'))
      rw [← hconn] at hwf'
      obtain ⟨pre, mem', hpre, hpremem, hkept', hnone⟩ :=
        ih hwf' hkept ((length_of_writeAt hmem).trans hlen) hrest
      refine ⟨bs :: pre, mem', List.cons_prefix_cons.2 ⟨rfl, hpre⟩, ?_, hkept', fun he => ?_⟩
      · rw [memoryFrom, hmem]
        exact hpremem
      · rw [hnone he]

/-- **The parser destroys separators only.**  When the loop of `main` has received the pieces `pre`,
wherever `read_index` has put them, each byte of the buffer is the byte that `recv` has written
there, or a NUL in the place of a CR, a LF or a blank; from `checked_index` on none is missing. -/
theorem kept_of_recv (segs : List (List Byte)) (c : Conn) (e : Option Exit)
    (h : recvLoop .init (segs.map .data) = some (c, e)) :
    ∃ pre mem, pre <+: segs ∧ (e = none → pre = segs) ∧ memory pre = some mem ∧
      Kept mem c.parser := by
  have hinit : Kept Conn.init.parser.buffer Conn.init.parser := ⟨.refl _, fun _ _ => rfl⟩
  obtain ⟨pre, mem, hpre, hmem, hkept, hnone⟩ :=
    hinit.recvLoop Conn.init_wf Conn.init_wf.length_eq h
  exact ⟨pre, mem, hpre, hnone, hmem, hkept⟩

/-- A request in two pieces. -/
theorem kept_of_recv_two : ∃ c e pre mem,
    recvLoop .init ([shortRequest.take 7, shortRequest.drop 7].map .data) = some (c, e) ∧
      pre <+: [shortRequest.take 7, shortRequest.drop 7] ∧ memory pre = some mem ∧
        Kept mem c.parser := by
  have hfit : Fits Conn.init.readIndex
      ([shortRequest.take 7, shortRequest.drop 7].map .data) := by
    simp only [List.map_cons, List.map_nil, Fits]
    decide
  obtain ⟨c, e, h⟩ := exists_recvLoop Conn.init_wf hfit
  obtain ⟨pre, mem, hpre, -, hmem, hkept⟩ := kept_of_recv _ c e h
  exact ⟨c, e, pre, mem, h, hpre, hmem, hkept⟩

end Http

end LinuxServer
