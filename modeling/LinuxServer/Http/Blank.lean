import LinuxServer.Http.Grammar

/-!
# The blank line of a request

Lines are found by CR LF, but a header line is judged as a C string: it is blank when its first
byte is a NUL, and that byte may have been received.

* `ctext l`: what the string functions see of the line `l`.
* `Ends cs s n`: the first `n` bytes of `s` are lines up to one that is blank as a C string.
* `content_reaches`: `parse_content` returns `GET_REQUEST` there, whatever the bytes are.
* `NulHeader s`: a header line of `s` starts with a NUL.
* `ends_in_blank_line_iff`: the bytes of an accepted request end in CR LF CR LF iff there is none.
-/

namespace LinuxServer

namespace Http

/-- What the string functions see of a line. -/
def ctext (l : List Byte) : List Byte := l.takeWhile (· ≠ 0)

/-- The first `n` bytes of `s` are lines, the last of them blank as a C string. -/
inductive Ends : CheckState → List Byte → ℕ → Prop
  | blank {l rest : List Byte} : Clean l → ctext l = [] →
      Ends .header (l ++ CR :: LF :: rest) (l.length + 2)
  | line {cs : CheckState} {l rest : List Byte} {n : ℕ} : Clean l → LineFits cs (ctext l) →
      Ends .header rest n → Ends cs (l ++ CR :: LF :: rest) (l.length + 2 + n)

/-- Behind a request line and header lines that are not blank, a header line starts with a NUL. -/
def NulHeader (s : List Byte) : Prop :=
  ∃ l₀ ls l, Clean l₀ ∧ ValidRequestLine (ctext l₀) ∧ (∀ h ∈ ls, Clean h ∧ ctext h ≠ []) ∧
    Clean l ∧ l.head? = some 0 ∧ crlfLines (l₀ :: ls) ++ l ++ [CR, LF] <+: s

variable {pre l l' rest s x : List Byte} {cs : CheckState} {out : List Msg} {n : ℕ}

theorem zero_notMem_ctext (l : List Byte) : 0 ∉ ctext l := by
  intro h
  have := List.mem_takeWhile_imp h
  simp at this

/-- The NULs behind a line end its text, unless it has one itself. -/
theorem exists_ctext_append (l : List Byte) :
    ∃ z, l ++ [0, 0] = ctext l ++ 0 :: (z ++ [0]) := by
  have hsplit := List.takeWhile_append_dropWhile (p := (· ≠ 0)) (l := l)
  cases htail : l.dropWhile (· ≠ 0) with
  | nil =>
    rw [htail, List.append_nil] at hsplit
    exact ⟨[], by rw [ctext, hsplit]; rfl⟩
  | cons b w =>
    obtain rfl : b = 0 := by simpa using (dropWhile_cons_head htail).1
    refine ⟨w ++ [0], ?_⟩
    calc l ++ [0, 0] = ctext l ++ 0 :: w ++ [0, 0] := by rw [← htail, ctext, hsplit]
      _ = ctext l ++ 0 :: (w ++ [0] ++ [0]) := by
        simp only [List.append_assoc, List.cons_append, List.nil_append]

theorem ctext_eq_nil_iff : ctext l = [] ↔ l = [] ∨ l.head? = some 0 := by
  cases l with
  | nil => simp [ctext]
  | cons b l =>
    by_cases hb : b = 0 <;> simp [ctext, hb]

theorem Ends.exists_crlf (h : Ends cs s n) : ∃ l rest, Clean l ∧ s = l ++ CR :: LF :: rest := by
  cases h with
  | blank hl _ => exact ⟨_, _, hl, rfl⟩
  | line hl _ _ => exact ⟨_, _, hl, rfl⟩

theorem Accepted.exists_crlf (h : Accepted cs s) :
    ∃ l rest, Clean l ∧ s = l ++ CR :: LF :: rest := by
  cases h with
  | blank => exact ⟨[], _, clean_nil, rfl⟩
  | line hl _ _ => exact ⟨_, _, hl, rfl⟩

theorem ends_crlf_iff (hl : Clean l) : Ends cs (l ++ CR :: LF :: rest) n ↔
    (cs = .header ∧ ctext l = [] ∧ n = l.length + 2) ∨
      (LineFits cs (ctext l) ∧ ∃ k, Ends .header rest k ∧ n = l.length + 2 + k) := by
  constructor
  · intro h
    generalize hs : l ++ CR :: LF :: rest = s at h
    cases h with
    | blank hl' hblank =>
      obtain ⟨rfl, -, -⟩ := clean_append_unique hl hl' not_plain_CR not_plain_CR hs
      exact .inl ⟨rfl, hblank, rfl⟩
    | @line _ l' rest' k hl' hfit hrest =>
      obtain ⟨rfl, -, htail⟩ := clean_append_unique hl hl' not_plain_CR not_plain_CR hs
      obtain rfl := (List.cons.inj htail).2
      exact .inr ⟨hfit, k, hrest, rfl⟩
  · rintro (⟨rfl, hblank, rfl⟩ | ⟨hfit, k, hrest, rfl⟩)
    · exact .blank hl hblank
    · exact .line hl hfit hrest

/-! ### The parser -/

/-- From the start of a line, behind `pre`, a call returns `GET_REQUEST` where the rest of the text
ends. -/
def Reaches (pre rest x : List Byte) (cs : CheckState) (out : List Msg) : Prop :=
  ∃ code P', Content (pre.length + rest.length)
    ⟨pre ++ rest ++ x, pre.length, cs, pre.length, out⟩ code P' ∧
    (code = .getRequest → ∃ n, P'.checkedIndex = pre.length + n ∧ Ends cs rest n) ∧
    ∀ n, Ends cs rest n → code = .getRequest ∧ P'.checkedIndex = pre.length + n

theorem reaches_of_decides (h : Decides pre s x cs out)
    (hs : ¬ ∃ l rest, Clean l ∧ s = l ++ CR :: LF :: rest) : Reaches pre s x cs out := by
  obtain ⟨code, P', hc, hv⟩ := h
  refine ⟨code, P', hc, fun hget => ?_, fun n hends => absurd hends.exists_crlf hs⟩
  exact absurd (hv.iffs.1.1 hget).exists_crlf hs

theorem not_crlf_of_clean (hl : Clean l) :
    ¬ ∃ l' rest, Clean l' ∧ l = l' ++ CR :: LF :: rest := by
  rintro ⟨l', rest, -, rfl⟩
  exact not_plain_CR (hl CR (by simp))

theorem not_crlf_of_stray {a : Byte} (hl : Clean l) (ha : ¬ Plain a)
    (hx : a = CR → x.head? ≠ some LF) :
    ¬ ∃ l' rest, Clean l' ∧ l ++ a :: x = l' ++ CR :: LF :: rest := by
  rintro ⟨l', rest, hl', h⟩
  obtain ⟨-, rfl, rfl⟩ := clean_append_unique hl hl' ha not_plain_CR h
  exact hx rfl rfl

theorem reaches_crlf (hl : Clean l)
    (ih : ∀ pre' out', pre'.getLast? ≠ some CR → Reaches pre' rest x .header out') :
    Reaches pre (l ++ CR :: LF :: rest) x cs out := by
  obtain ⟨z, hz⟩ := exists_ctext_append l
  have hlen : pre.length + (l ++ CR :: LF :: rest).length =
      pre.length + l.length + 2 + rest.length := by
    rw [List.length_append, List.length_cons, List.length_cons]
    omega
  have hok := parseLine_crlf pre (rest ++ x) hl
    (show pre.length + l.length + 1 < pre.length + l.length + 2 + rest.length by omega)
  have hbuf : pre ++ l ++ 0 :: 0 :: (rest ++ x) =
      pre ++ ctext l ++ 0 :: (z ++ [0] ++ (rest ++ x)) := by
    have := congrArg (pre ++ · ++ (rest ++ x)) hz
    simpa only [List.append_assoc, List.cons_append, List.nil_append] using this
  have hcomplete := parseCompleteLine_append (x := z ++ [0] ++ (rest ++ x))
    (P := (⟨pre ++ l ++ CR :: LF :: (rest ++ x), pre.length, cs, pre.length, out⟩ : Parser).scanned
      (pre ++ l ++ 0 :: 0 :: (rest ++ x)) (pre.length + l.length + 2))
    (zero_notMem_ctext l) hbuf rfl
  unfold Parser.scanned at hcomplete
  rw [Reaches, append_mid, hlen]
  rcases lineOutcome_cases cs (ctext l) with
    ⟨hres, hst, hfit⟩ | ⟨hres, rfl, hblank⟩ | ⟨hres, rfl, hno⟩
  · -- the next line starts behind the two NULs
    rw [hres, hst] at hcomplete
    set pre' := pre ++ (lineOutcome cs (ctext l)).2.1 ++ 0 :: (z ++ [0]) with hpre'
    have hlen' : pre'.length = pre.length + l.length + 2 := by
      have := congrArg List.length hz
      simp only [hpre', List.length_append, length_lineOutcome, List.length_cons,
        List.length_nil] at this ⊢
      omega
    have hbuf' : pre' ++ rest ++ x =
        pre ++ (lineOutcome cs (ctext l)).2.1 ++ 0 :: (z ++ [0] ++ (rest ++ x)) := by
      simp only [hpre', List.append_assoc, List.cons_append, List.nil_append]
    have hlast : pre'.getLast? ≠ some CR := by
      rw [hpre', ← List.cons_append, ← List.append_assoc, List.getLast?_concat]
      decide
    obtain ⟨code, P', hc, hsound, hcomp⟩ := ih pre' (out ++ (lineOutcome cs (ctext l)).2.2.2) hlast
    rw [hbuf', hlen'] at hc
    refine ⟨code, P', .next hok hcomplete hc, fun hget => ?_, fun n hends => ?_⟩
    · obtain ⟨k, hchecked, hk⟩ := hsound hget
      exact ⟨l.length + 2 + k, by omega, .line hl hfit hk⟩
    · obtain ⟨rfl, hblank, -⟩ | ⟨-, k, hk, rfl⟩ := (ends_crlf_iff hl).1 hends
      · exact absurd hblank hfit
      · obtain ⟨hget, hchecked⟩ := hcomp k hk
        exact ⟨hget, by omega⟩
  · -- a line that is blank as a C string
    rw [hres] at hcomplete
    refine ⟨_, _, .done hok hcomplete, fun _ => ⟨l.length + 2, ?_, .blank hl hblank⟩,
      fun n hends => ⟨rfl, ?_⟩⟩
    · exact Nat.add_assoc ..
    · obtain ⟨-, -, rfl⟩ | ⟨hfit, -⟩ := (ends_crlf_iff hl).1 hends
      · exact Nat.add_assoc ..
      · exact absurd hblank hfit
  · -- a request line that is refused
    rw [hres] at hcomplete
    refine ⟨_, _, .done hok hcomplete, ?_, fun n hends => ?_⟩
    · intro h
      cases h
    · obtain ⟨h, -⟩ | ⟨h, -⟩ := (ends_crlf_iff hl).1 hends
      · cases h
      · exact absurd h hno

theorem content_reaches (pre rest x : List Byte) (hpre : pre.getLast? ≠ some CR) (cs : CheckState)
    (out : List Msg) : Reaches pre rest x cs out := by
  induction hn : rest.length using Nat.strong_induction_on generalizing pre rest cs out with
  | _ n ih =>
  subst hn
  cases firstLine rest with
  | tail hl => exact reaches_of_decides (decides_tail hl) (not_crlf_of_clean hl)
  | tailCR hl =>
    exact reaches_of_decides (decides_tailCR hl)
      (not_crlf_of_stray hl not_plain_CR fun _ => by simp)
  | strayCR hl hb =>
    refine reaches_of_decides (decides_strayCR hl hb)
      (not_crlf_of_stray hl not_plain_CR fun _ h => ?_)
    exact hb (Option.some.inj h)
  | strayLF hl =>
    refine reaches_of_decides (decides_strayLF hpre hl)
      (not_crlf_of_stray hl not_plain_LF fun h => ?_)
    cases h
  | @crlf l tail hl =>
    refine reaches_crlf hl fun pre' out' hpre' => ih tail.length ?_ pre' tail hpre' .header out' rfl
    rw [List.length_append, List.length_cons, List.length_cons]
    omega

/-! ### The bytes of an accepted request -/

theorem crlfLines_cons (l : List Byte) (ls : List (List Byte)) :
    crlfLines (l :: ls) = l ++ CR :: LF :: crlfLines ls := by
  simp only [crlfLines, List.flatMap_cons, List.append_assoc, List.cons_append, List.nil_append]

theorem ends_header_iff : Ends .header s n ↔
    ∃ ls l, (∀ h ∈ ls, Clean h ∧ ctext h ≠ []) ∧ Clean l ∧ ctext l = [] ∧
      crlfLines ls ++ l ++ [CR, LF] <+: s ∧ n = (crlfLines ls ++ l ++ [CR, LF]).length := by
  constructor
  · intro h
    generalize hcs : CheckState.header = cs at h
    induction h with
    | @blank l rest hl hblank =>
      exact ⟨[], l, by simp, hl, hblank, ⟨rest, by simp [crlfLines]⟩, by simp [crlfLines]⟩
    | @line cs l rest n hl hfit _ ih =>
      subst hcs
      obtain ⟨ls, l', hls, hl', hblank, ⟨x, rfl⟩, rfl⟩ := ih rfl
      refine ⟨l :: ls, l', by simpa using ⟨⟨hl, hfit⟩, hls⟩, hl', hblank, ⟨x, ?_⟩, ?_⟩
      · simp only [crlfLines_cons, List.append_assoc, List.cons_append, List.nil_append]
      · simp only [crlfLines_cons, List.length_append, List.length_cons]
        omega
  · rintro ⟨ls, l, hls, hl, hblank, ⟨x, rfl⟩, rfl⟩
    induction ls with
    | nil =>
      have hends : Ends .header (l ++ CR :: LF :: x) (l.length + 2) := .blank hl hblank
      simpa [crlfLines] using hends
    | cons h ls ih =>
      simp only [List.mem_cons, forall_eq_or_imp] at hls
      have hs : crlfLines (h :: ls) ++ l ++ [CR, LF] ++ x =
          h ++ CR :: LF :: (crlfLines ls ++ l ++ [CR, LF] ++ x) := by
        simp only [crlfLines_cons, List.append_assoc, List.cons_append, List.nil_append]
      have hn : (crlfLines (h :: ls) ++ l ++ [CR, LF]).length =
          h.length + 2 + (crlfLines ls ++ l ++ [CR, LF]).length := by
        simp only [crlfLines_cons, List.length_append, List.length_cons]
        omega
      rw [hs, hn]
      exact .line hls.1.1 hls.1.2 (ih hls.2)

theorem ends_requestLine_iff : Ends .requestLine s n ↔
    ∃ l₀ ls l, Clean l₀ ∧ ValidRequestLine (ctext l₀) ∧ (∀ h ∈ ls, Clean h ∧ ctext h ≠ []) ∧
      Clean l ∧ ctext l = [] ∧ crlfLines (l₀ :: ls) ++ l ++ [CR, LF] <+: s ∧
      n = (crlfLines (l₀ :: ls) ++ l ++ [CR, LF]).length := by
  constructor
  · intro h
    cases h with
    | @line _ l₀ rest k hl₀ hfit hrest =>
      obtain ⟨ls, l, hls, hl, hblank, ⟨x, rfl⟩, rfl⟩ := ends_header_iff.1 hrest
      refine ⟨l₀, ls, l, hl₀, hfit, hls, hl, hblank, ⟨x, ?_⟩, ?_⟩
      · simp only [crlfLines_cons, List.append_assoc, List.cons_append, List.nil_append]
      · simp only [crlfLines_cons, List.length_append, List.length_cons]
        omega
  · rintro ⟨l₀, ls, l, hl₀, hfit, hls, hl, hblank, ⟨x, rfl⟩, rfl⟩
    have hrest : Ends .header (crlfLines ls ++ l ++ [CR, LF] ++ x) _ :=
      ends_header_iff.2 ⟨ls, l, hls, hl, hblank, ⟨x, rfl⟩, rfl⟩
    have hs : crlfLines (l₀ :: ls) ++ l ++ [CR, LF] ++ x =
        l₀ ++ CR :: LF :: (crlfLines ls ++ l ++ [CR, LF] ++ x) := by
      simp only [crlfLines_cons, List.append_assoc, List.cons_append, List.nil_append]
    have hn : (crlfLines (l₀ :: ls) ++ l ++ [CR, LF]).length =
        l₀.length + 2 + (crlfLines ls ++ l ++ [CR, LF]).length := by
      simp only [crlfLines_cons, List.length_append, List.length_cons]
      omega
    rw [hs, hn]
    exact .line hl₀ hfit hrest

theorem suffix_crlf_iff (l₀ : List Byte) (ls : List (List Byte)) (hl : Clean l) :
    [CR, LF, CR, LF] <:+ crlfLines (l₀ :: ls) ++ l ++ [CR, LF] ↔ l = [] := by
  constructor
  · rintro ⟨t, ht⟩
    have hlast : t ++ [CR] ++ [LF] ++ [CR, LF] = crlfLines (l₀ :: ls) ++ l ++ [CR, LF] := by
      rw [← ht]
      simp only [List.append_assoc, List.cons_append, List.nil_append]
    have hlast := List.append_cancel_right hlast
    obtain rfl | ⟨l', b, rfl⟩ := List.eq_nil_or_concat l
    · rfl
    · rw [List.concat_eq_append] at hl hlast
      rw [← List.append_assoc] at hlast
      obtain rfl : LF = b := List.singleton_inj.1 (List.append_inj_right' hlast rfl)
      exact absurd (hl LF (by simp)) not_plain_LF
  · rintro rfl
    obtain ⟨ls', l', h⟩ := (List.eq_nil_or_concat (l₀ :: ls)).resolve_left (List.cons_ne_nil _ _)
    rw [h, List.concat_eq_append, crlfLines, List.flatMap_append, List.flatMap_singleton]
    exact ⟨crlfLines ls' ++ l', by simp [crlfLines]⟩

/-- Calls on growing prefixes of `s`, whatever is behind it in the buffer, return `GET_REQUEST`
only behind a CR LF CR LF of `s`. -/
def EndsInBlankLine (s : List Byte) : Prop :=
  ∀ x rs P, rs.Pairwise (· < ·) → (∀ r ∈ rs, r ≤ s.length) →
    feed (Parser.init (s ++ x)) rs = some (.getRequest, P) →
    [CR, LF, CR, LF] <:+ s.take P.checkedIndex

/-- One call on `s` returns `GET_REQUEST` where its lines end. -/
theorem parseContent_getRequest_iff (s x : List Byte) (n : ℕ) :
    (∃ P, parseContent (Parser.init (s ++ x)) s.length = some (.getRequest, P) ∧
      P.checkedIndex = n) ↔ Ends .requestLine s n := by
  obtain ⟨code, P', hc, hsound, hcomp⟩ := content_reaches [] s x (by simp) .requestLine []
  rw [List.nil_append, List.length_nil, Nat.zero_add] at hc
  simp only [List.length_nil, Nat.zero_add] at hsound hcomp
  have hcall := (parseContent_iff (Parser.init_wf s x)).2 hc
  constructor
  · rintro ⟨P, hP, rfl⟩
    obtain ⟨rfl, rfl⟩ := Prod.mk.inj (Option.some.inj (hcall.symm.trans hP))
    obtain ⟨n, hn, hends⟩ := hsound rfl
    exact hn ▸ hends
  · intro h
    obtain ⟨rfl, hn⟩ := hcomp n h
    exact ⟨P', hcall, hn⟩

/-- Calls on growing prefixes that return `GET_REQUEST` do what one call on the text does. -/
theorem parseContent_of_feed {rs : List ℕ} {P : Parser} (hs : rs.Pairwise (· < ·))
    (hle : ∀ r ∈ rs, r ≤ s.length)
    (h : feed (Parser.init (s ++ x)) rs = some (.getRequest, P)) :
    parseContent (Parser.init (s ++ x)) s.length = some (.getRequest, P) := by
  cases hlast : rs.getLast? with
  | none =>
    rw [List.getLast?_eq_none_iff.1 hlast] at h
    cases h
  | some r =>
    have hr := hle r (List.mem_of_getLast? hlast)
    have hwf := Parser.init_wf s x
    rw [feed_eq_of_sorted (hwf.mono (hr.trans hwf.le_length)) hs hlast] at h
    exact parseContent_mono hwf h (by decide) hr

/-- **Acceptance needs a blank line.**  The bytes of an accepted request end in CR LF CR LF, unless
the line taken for blank starts with a NUL. -/
theorem ends_in_blank_line_iff (s : List Byte) : EndsInBlankLine s ↔ ¬ NulHeader s := by
  constructor
  · rintro h ⟨l₀, ls, l, hl₀, hvalid, hls, hl, hnul, hpre⟩
    have hends : Ends .requestLine s _ := ends_requestLine_iff.2
      ⟨l₀, ls, l, hl₀, hvalid, hls, hl, ctext_eq_nil_iff.2 (.inr hnul), hpre, rfl⟩
    obtain ⟨P, hcall, hn⟩ := (parseContent_getRequest_iff s [] _).2 hends
    have hfeed : feed (Parser.init (s ++ [])) [s.length] = some (.getRequest, P) :=
      (feed_eq_of_sorted (Parser.init_wf s []) (List.pairwise_singleton _ _) rfl).trans hcall
    have hsuffix := h [] [s.length] P (List.pairwise_singleton _ _) (by simp) hfeed
    rw [hn, ← List.prefix_iff_eq_take.1 hpre, suffix_crlf_iff l₀ ls hl] at hsuffix
    subst hsuffix
    cases hnul
  · intro h x rs P hs hle hfeed
    have hcall := parseContent_of_feed hs hle hfeed
    obtain ⟨l₀, ls, l, hl₀, hvalid, hls, hl, hblank, hpre, hn⟩ :=
      ends_requestLine_iff.1 ((parseContent_getRequest_iff s x _).1 ⟨P, hcall, rfl⟩)
    rw [hn, ← List.prefix_iff_eq_take.1 hpre, suffix_crlf_iff l₀ ls hl]
    by_contra hne
    have hnul := (ctext_eq_nil_iff.1 hblank).resolve_left hne
    exact h ⟨l₀, ls, l, hl₀, hvalid, hls, hl, hnul, hpre⟩

/-- `GET / HTTP/1.1` and a header line that starts with a NUL. -/
def nulRequest : List Byte := GET ++ [32, slash, 32] ++ HTTP11 ++ [CR, LF, 0, 88, CR, LF]

/-- The request is accepted without an empty line. -/
theorem not_endsInBlankLine_nulRequest : ¬ ∀ s, EndsInBlankLine s := by
  intro h
  obtain ⟨⟨code, P⟩, hfeed, hcode⟩ : ∃ r, feed (Parser.init (nulRequest ++ []))
      [nulRequest.length] = some r ∧ (r.1, r.2.checkedIndex) = (.getRequest, 20) := by
    refine Option.map_eq_some_iff.1 ?_
    decide +kernel
  obtain ⟨rfl, hchecked⟩ := Prod.mk.inj hcode
  have hsuffix := h nulRequest [] _ P (List.pairwise_singleton _ _) (by simp) hfeed
  rw [hchecked] at hsuffix
  exact absurd hsuffix (by decide)

end Http

end LinuxServer
