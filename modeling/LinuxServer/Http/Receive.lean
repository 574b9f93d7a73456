import LinuxServer.Http.Grammar
import Mathlib.Algebra.Ring.Nat
import Mathlib.Data.List.Basic

/-!
# The receive loop

The loop of `main` in `http_parse.cc`: receive behind `read_index`, set `read_index` to the
number of bytes just received, parse, and answer when the parser decides.

`verdict segs` is the code on which the loop stops when the stream arrives in the pieces `segs`.
Because `read_index` is set to the length of the last piece and not advanced by it, the code
depends on the pieces: `verdict_eq_whole_iff`.
-/

namespace LinuxServer

namespace Http

open CString

/-- `BUFFER_SIZE` -/
def bufferSize : ℕ := 4096

/-- `szret[0]` -/
def szret0 : List Byte :=
  ascii ['I', ' ', 'g', 'e', 't', ' ', 'a', ' ', 'c', 'o', 'r', 'r', 'e', 'c', 't', ' ', 'r', 'e',
    's', 'u', 'l', 't', '\n']

/-- `szret[1]` -/
def szret1 : List Byte :=
  ascii ['S', 'o', 'm', 'e', 't', 'h', 'i', 'n', 'g', ' ', 'w', 'r', 'o', 'n', 'g', '\n']

/-- The outcome of one `recv`. -/
inductive Recv where
  /-- `-1` -/
  | failed
  /-- The bytes received; none when the peer has closed. -/
  | data (bs : List Byte)
  deriving DecidableEq, Repr

/-- How the loop is left: after a failed `recv`, or with a code and the text sent. -/
inductive Exit where
  | readFailed
  | answered (code : HttpCode) (sent : List Byte)
  deriving DecidableEq, Repr

/-- The variables of the loop. -/
structure Conn where
  parser : Parser
  /-- `read_index` -/
  readIndex : ℕ
  deriving DecidableEq, Repr

/-- Before the first `recv`. -/
def Conn.init : Conn := ⟨Parser.init (List.replicate bufferSize 0), 0⟩

/-- The buffer with `bs` written at `i`, if it fits. -/
def writeAt (buffer : List Byte) (i : ℕ) (bs : List Byte) : Option (List Byte) :=
  if i + bs.length ≤ buffer.length then
    some (buffer.take i ++ bs ++ buffer.drop (i + bs.length))
  else none

/-- What the loop does with a code: go on, or answer.  Every answer is cut from `szret[0]`. -/
def answer : HttpCode → Option Exit
  | .noRequest => none
  | .getRequest => some (.answered .getRequest szret0)
  | code => some (.answered code (szret0.take szret1.length))

/-- One round of the loop. -/
def recvRound (c : Conn) : Recv → Option (Conn × Option Exit)
  | .failed => some ({ c with parser.out := c.parser.out ++ [.readingFailed] }, some .readFailed)
  | .data bs => do
    let buffer ← writeAt c.parser.buffer c.readIndex bs
    let closed := if bs.length = 0 then [Msg.clientClosed] else []
    let P := { c.parser with buffer, out := c.parser.out ++ closed }
    let readIndex := bs.length
    let (code, P) ← parseContent P readIndex
    some (⟨P, readIndex⟩, answer code)

/-- The loop on the outcomes of the `recv` calls; it ends without an exit when it waits for the
next one. -/
def recvLoop (c : Conn) : List Recv → Option (Conn × Option Exit)
  | [] => some (c, none)
  | res :: rest => do
    match ← recvRound c res with
    | (c, some e) => some (c, some e)
    | (c, none) => recvLoop c rest

/-- The code of an exit, if the loop answers. -/
def Exit.code? : Exit → Option HttpCode
  | .readFailed => none
  | .answered code _ => some code

/-- The code on which the loop stops when the stream arrives in the pieces `segs`; the inner
`none` means that it is still waiting. -/
def verdict (segs : List (List Byte)) : Option (Option HttpCode) :=
  (recvLoop Conn.init (segs.map .data)).map fun r => r.2.bind Exit.code?

/-- A stream in one piece. -/
def whole (s : List Byte) : List (List Byte) := if s = [] then [] else [s]

theorem answer_noRequest_iff {code : HttpCode} : answer code = none ↔ code = .noRequest := by
  cases code <;> simp [answer]

theorem recvRound_data {c : Conn} {bs b : List Byte} {code : HttpCode} {P : Parser}
    (hbs : bs ≠ []) (hw : writeAt c.parser.buffer c.readIndex bs = some b)
    (hp : parseContent { c.parser with buffer := b } bs.length = some (code, P)) :
    recvRound c (.data bs) = some (⟨P, bs.length⟩, answer code) := by
  have hlen : bs.length ≠ 0 := fun h => hbs (List.eq_nil_of_length_eq_zero h)
  simp [recvRound, hw, hlen, hp]

/-! ### The first piece -/

theorem writeAt_init {s : List Byte} (h : s.length ≤ bufferSize) :
    writeAt Conn.init.parser.buffer Conn.init.readIndex s =
      some (s ++ List.replicate (bufferSize - s.length) 0) := by
  simp [writeAt, Conn.init, Parser.init, h]

theorem recvLoop_first {s : List Byte} {code : HttpCode} {P : Parser} (hs : s ≠ [])
    (hlen : s.length ≤ bufferSize) (rest : List Recv)
    (h : parseContent (Parser.init (s ++ List.replicate (bufferSize - s.length) 0)) s.length =
      some (code, P)) :
    recvLoop Conn.init (.data s :: rest) =
      match answer code with
      | some e => some (⟨P, s.length⟩, some e)
      | none => recvLoop ⟨P, s.length⟩ rest := by
  rw [recvLoop, recvRound_data hs (writeAt_init hlen) h]
  cases answer code <;> rfl

theorem verdict_singleton {s : List Byte} {code : HttpCode} {P : Parser} (hs : s ≠ [])
    (hlen : s.length ≤ bufferSize)
    (h : parseContent (Parser.init (s ++ List.replicate (bufferSize - s.length) 0)) s.length =
      some (code, P)) :
    verdict [s] = some ((answer code).bind Exit.code?) := by
  rw [verdict, List.map_singleton, recvLoop_first hs hlen [] h]
  cases answer code <;> rfl

/-- The pieces behind one that decides do not matter, nor does what a whole stream has behind
it. -/
theorem verdict_of_first {seg : List Byte} {rest : List (List Byte)} (hseg : seg ≠ [])
    (hlen : (seg :: rest).flatten.length ≤ bufferSize) (h : verdict [seg] ≠ some none) :
    verdict (seg :: rest) = verdict (whole (seg :: rest).flatten) := by
  rw [List.flatten_cons, List.length_append] at hlen
  obtain ⟨code, P, hc⟩ := exists_content (Parser.init_wf seg [])
  have hcall : ∀ x, parseContent (Parser.init (seg ++ x)) seg.length = some (code, P.extend x) :=
    fun x => by
      have hx := hc.extend (Parser.init_wf seg []) x
      rw [Parser.extend, Parser.init, List.append_nil] at hx
      exact (parseContent_iff (Parser.init_wf seg x)).2 hx
  have hne : code ≠ .noRequest := by
    rintro rfl
    exact h (verdict_singleton hseg (by omega) (hcall _))
  have hwhole : seg ++ rest.flatten ≠ [] := fun h => hseg (List.append_eq_nil_iff.1 h).1
  -- the whole stream begins with the piece that decides
  have hmono : parseContent (Parser.init ((seg ++ rest.flatten) ++
      List.replicate (bufferSize - (seg ++ rest.flatten).length) 0)) (seg ++ rest.flatten).length =
      some (code, P.extend (rest.flatten ++
        List.replicate (bufferSize - (seg ++ rest.flatten).length) 0)) := by
    refine parseContent_mono (r := seg.length) (Parser.init_wf _ _) ?_ hne
      (by rw [List.length_append]; omega)
    rw [List.append_assoc]
    exact hcall _
  rw [List.flatten_cons, whole, if_neg hwhole,
    verdict_singleton hwhole (by rw [List.length_append]; omega) hmono, verdict, List.map_cons,
    recvLoop_first hseg (by omega) _ (hcall _)]
  obtain ⟨e, he⟩ := Option.ne_none_iff_exists'.1 (fun h => hne (answer_noRequest_iff.1 h))
  rw [he]
  rfl

/-! ### A late LF

Plain bytes decide nothing, and from the second piece on the last byte received lies at or
behind `read_index`, where the parser does not see it. -/

theorem parseContent_of_plain {P : Parser} {r : ℕ} (h : PlainOn P.buffer 0 r) :
    ∃ c, parseContent P r = some (.noRequest, P.scanned P.buffer c) := by
  have hline : ∃ c, parseLine P.buffer P.checkedIndex r = some (.open, P.buffer, c) := by
    by_cases hc : P.checkedIndex ≤ r
    · exact ⟨r, parseLine_of_stop hc (.inl le_rfl) (fun i _ h2 => h i (Nat.zero_le i) h2)
        (.exhausted le_rfl)⟩
    · exact ⟨_, parseLine_of_le (by omega)⟩
  obtain ⟨c, hc⟩ := hline
  exact ⟨c, by simp [parseContent, parseContentLoop, hc, Parser.scanned]⟩

theorem plainOn_append {a b : List Byte} (ha : ∀ c ∈ a, Plain c) {r : ℕ} (hr : r ≤ a.length) :
    PlainOn (a ++ b) 0 r := by
  intro i _ hi
  rw [List.getElem?_append_left (by omega)]
  exact ⟨_, List.getElem?_eq_getElem (by omega), ha _ (List.getElem_mem _)⟩

/-- A loop whose buffer is full of plain bytes. -/
structure Conn.Plain (c : Conn) : Prop where
  plain : ∀ b ∈ c.parser.buffer, Http.Plain b
  length_eq : c.parser.buffer.length = bufferSize

theorem Conn.init_plain : Conn.init.Plain := by
  refine ⟨fun b hb => ?_, List.length_replicate⟩
  obtain rfl := List.eq_of_mem_replicate hb
  decide

/-- The letter `a`. -/
def letterA : Byte := 97

/-- A piece of plain bytes: the loop goes on. -/
theorem recvRound_plain {c : Conn} (hc : c.Plain) {d : ℕ} (hd : 0 < d)
    (hfit : c.readIndex + d ≤ bufferSize) :
    ∃ c', recvRound c (.data (List.replicate d letterA)) = some (c', none) ∧ c'.Plain ∧
      c'.readIndex = d := by
  set b := c.parser.buffer.take c.readIndex ++ List.replicate d letterA ++
    c.parser.buffer.drop (c.readIndex + d) with hb
  have hw : writeAt c.parser.buffer c.readIndex (List.replicate d letterA) = some b := by
    simp [writeAt, hc.length_eq, hfit, hb]
  have hplain : ∀ x ∈ b, Http.Plain x := by
    intro x hx
    rw [hb, List.mem_append, List.mem_append] at hx
    rcases hx with (hx | hx) | hx
    · exact hc.plain x (List.mem_of_mem_take hx)
    · obtain rfl := List.eq_of_mem_replicate hx
      decide
    · exact hc.plain x (List.mem_of_mem_drop hx)
  have hlen : b.length = bufferSize := by
    have := hc.length_eq
    simp only [hb, List.length_append, List.length_take, List.length_replicate, List.length_drop]
    omega
  have hon : PlainOn b 0 d := by
    have := plainOn_append (b := []) hplain (r := d) (by omega)
    rwa [List.append_nil] at this
  obtain ⟨c', hp⟩ := parseContent_of_plain (P := { c.parser with buffer := b }) hon
  refine ⟨_, recvRound_data (by simp; omega) hw (by rw [List.length_replicate]; exact hp),
    ⟨hplain, hlen⟩, List.length_replicate⟩

theorem recvLoop_plain (ds : List ℕ) {c : Conn} (hc : c.Plain) (hpos : ∀ d ∈ ds, 0 < d) {k : ℕ}
    (hfit : c.readIndex + ds.sum + k ≤ bufferSize) (rest : List Recv) :
    ∃ c', recvLoop c ((ds.map fun d => .data (List.replicate d letterA)) ++ rest) =
        recvLoop c' rest ∧ c'.Plain ∧ c'.readIndex + k ≤ bufferSize ∧
      (0 < c.readIndex ∨ ds ≠ [] → 0 < c'.readIndex) := by
  induction ds generalizing c with
  | nil => exact ⟨c, rfl, hc, by simpa using hfit, fun h => h.resolve_right (not_not.2 rfl)⟩
  | cons d ds ih =>
    simp only [List.mem_cons, forall_eq_or_imp] at hpos
    rw [List.sum_cons] at hfit
    obtain ⟨c₁, hround, hc₁, hread⟩ := recvRound_plain hc hpos.1 (by omega)
    obtain ⟨c', hloop, hc', hk, hpos'⟩ := ih hc₁ hpos.2 (by omega)
    refine ⟨c', ?_, hc', hk, fun _ => hpos' (.inl (hread ▸ hpos.1))⟩
    rw [List.map_cons, List.cons_append, recvLoop, hround]
    exact hloop

/-- Behind at least one other piece, the last byte of a piece is not seen. -/
theorem recvRound_late {c : Conn} (hc : c.Plain) {d : ℕ} (hread : 0 < c.readIndex)
    (hfit : c.readIndex + (d + 1) ≤ bufferSize) (x : Byte) :
    ∃ c', recvRound c (.data (List.replicate d letterA ++ [x])) = some (c', none) := by
  set a := c.parser.buffer.take c.readIndex ++ List.replicate d letterA with ha
  set b := a ++ (x :: c.parser.buffer.drop (c.readIndex + (d + 1))) with hb
  have hw : writeAt c.parser.buffer c.readIndex (List.replicate d letterA ++ [x]) = some b := by
    simp [writeAt, hc.length_eq, hfit, hb, ha]
  have hplain : ∀ y ∈ a, Http.Plain y := by
    intro y hy
    rw [ha, List.mem_append] at hy
    rcases hy with hy | hy
    · exact hc.plain y (List.mem_of_mem_take hy)
    · obtain rfl := List.eq_of_mem_replicate hy
      decide
  have hlen : d + 1 ≤ a.length := by
    have := hc.length_eq
    simp only [ha, List.length_append, List.length_take, List.length_replicate]
    omega
  obtain ⟨c', hp⟩ := parseContent_of_plain (P := { c.parser with buffer := b })
    (plainOn_append hplain hlen)
  exact ⟨_, recvRound_data (by simp) hw (by simpa using hp)⟩

theorem flatten_replicate (b : Byte) (ds : List ℕ) :
    (ds.map (List.replicate · b)).flatten = List.replicate ds.sum b := by
  induction ds with
  | nil => rfl
  | cons d ds ih =>
    rw [List.map_cons, List.flatten_cons, ih, List.replicate_append_replicate, List.sum_cons]

/-- Of every way of cutting into two or more pieces, some stream is refused when it arrives at
once and waited on when it arrives in these pieces. -/
theorem exists_late_LF {ds : List ℕ} (hpos : ∀ d ∈ ds, 0 < d) (hsum : ds.sum ≤ bufferSize)
    (h2 : 2 ≤ ds.length) : ∃ segs : List (List Byte), segs.map List.length = ds ∧
      verdict segs = some none ∧ verdict (whole segs.flatten) = some (some .badRequest) := by
  rcases List.eq_nil_or_concat ds with rfl | ⟨ds, d, rfl⟩
  · simp at h2
  rw [List.concat_eq_append] at *
  have hds : ds ≠ [] := by
    rintro rfl
    simp at h2
  have hd := hpos d (by simp)
  obtain ⟨d, rfl⟩ := Nat.exists_eq_succ_of_ne_zero hd.ne'
  rw [List.sum_append, List.sum_singleton] at hsum
  set segs := ds.map (List.replicate · letterA) ++ [List.replicate d letterA ++ [LF]] with hsegs
  have hflat : segs.flatten = List.replicate (ds.sum + d) letterA ++ [LF] := by
    rw [hsegs, List.flatten_append, List.flatten_singleton, ← List.append_assoc,
      flatten_replicate, List.replicate_append_replicate]
  refine ⟨segs, by simp [hsegs, Function.comp_def], ?_, ?_⟩
  · obtain ⟨c, hloop, hc, hk, hread⟩ := recvLoop_plain ds (k := d + 1) Conn.init_plain
      (fun e he => hpos e (List.mem_append_left _ he)) (by simp only [Conn.init]; omega)
      [.data (List.replicate d letterA ++ [LF])]
    obtain ⟨c', hround⟩ := recvRound_late hc (hread (.inr hds)) hk LF
    have hmap : segs.map Recv.data = (ds.map fun e => Recv.data (List.replicate e letterA)) ++
        [.data (List.replicate d letterA ++ [LF])] := by
      simp [hsegs, Function.comp_def]
    rw [verdict, hmap, hloop, recvLoop, hround]
    rfl
  · have h0 : 0 ∉ segs.flatten := by
      rw [hflat, List.mem_append, List.mem_replicate, List.mem_singleton]
      rintro (⟨_, h⟩ | h) <;> cases h
    have hclean : Clean (List.replicate (ds.sum + d) letterA) := by
      intro b hb
      obtain rfl := List.eq_of_mem_replicate hb
      decide
    have hlen : segs.flatten.length ≤ bufferSize := by
      rw [hflat, List.length_append, List.length_replicate, List.length_singleton]
      omega
    have hne : segs.flatten ≠ [] := by rw [hflat]; simp
    obtain ⟨code, P, hcont, hv⟩ := content_verdict [] segs.flatten
      (List.replicate (bufferSize - segs.flatten.length) 0) (by simp) h0 .requestLine []
    rw [List.nil_append, List.length_nil, Nat.zero_add] at hcont
    have hbad : code = .badRequest := by
      rw [hv.iffs.2.2, hflat]
      exact ⟨not_accepted_of_stray hclean not_plain_LF (by decide),
        not_pending_of_stray hclean not_plain_LF (by decide)⟩
    rw [whole, if_neg hne, verdict_singleton hne hlen
      ((parseContent_iff (Parser.init_wf _ _)).2 hcont), hbad]
    rfl

/-- **The verdict depends on the pieces.**  For a way of cutting, given by the lengths `ds` of
the pieces, every stream has the verdict it has in one piece iff there is at most one piece; and a
stream whose first piece decides has it whatever the other pieces are. -/
theorem verdict_eq_whole_iff (ds : List ℕ) (hpos : ∀ d ∈ ds, 0 < d) (hsum : ds.sum ≤ bufferSize) :
    ((∀ segs : List (List Byte), segs.map List.length = ds →
        verdict segs = verdict (whole segs.flatten)) ↔ ds.length ≤ 1) ∧
      ∀ segs : List (List Byte), segs.map List.length = ds →
        (∀ seg ∈ segs.head?, verdict [seg] ≠ some none) →
        verdict segs = verdict (whole segs.flatten) := by
  refine ⟨⟨fun h => ?_, fun h segs hsegs => ?_⟩, fun segs hsegs hfirst => ?_⟩
  · by_contra h2
    obtain ⟨segs, hsegs, hwait, hbad⟩ := exists_late_LF hpos hsum (by omega)
    rw [h segs hsegs, hbad] at hwait
    cases hwait
  · subst hsegs
    rw [List.length_map] at h
    match segs, h with
    | [], _ => rfl
    | [s], _ =>
      have hs : s ≠ [] := by
        rintro rfl
        simp at hpos
      rw [List.flatten_singleton, whole, if_neg hs]
  · subst hsegs
    cases segs with
    | nil => rfl
    | cons s rest =>
      have hs : s ≠ [] := by
        rintro rfl
        simp at hpos
      exact verdict_of_first hs (by rw [List.length_flatten]; exact hsum) (hfirst s rfl)

theorem verdict_eq_whole_iff_two :
    ((∀ segs : List (List Byte), segs.map List.length = [1, 17] →
        verdict segs = verdict (whole segs.flatten)) ↔ [1, 17].length ≤ 1) ∧
      ∀ segs : List (List Byte), segs.map List.length = [1, 17] →
        (∀ seg ∈ segs.head?, verdict [seg] ≠ some none) →
        verdict segs = verdict (whole segs.flatten) :=
  verdict_eq_whole_iff [1, 17] (by decide) (by decide)

/-- A request whose first byte arrives alone is never answered. -/
theorem verdict_shortRequest_cut :
    ¬ ∀ segs : List (List Byte), (∀ seg ∈ segs, seg ≠ []) → segs.flatten.length ≤ bufferSize →
      verdict segs = verdict (whole segs.flatten) := by
  intro h
  have hcut := h [shortRequest.take 1, shortRequest.drop 1] (by decide) (by decide)
  have hwait : verdict [shortRequest.take 1, shortRequest.drop 1] = some none := by
    decide +kernel
  have hget : verdict (whole [shortRequest.take 1, shortRequest.drop 1].flatten) =
      some (some .getRequest) := by
    decide +kernel
  rw [hwait, hget] at hcut
  cases hcut

end Http

end LinuxServer
