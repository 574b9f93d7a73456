import LinuxServer.Http.Content

/-!
# The grammar of requests

The texts `parse_content` accepts, waits on and refuses, said without the parser.

* `ValidRequestLine l` : method `GET`, a url that is a path or an absolute `http` url with a path,
  and version `HTTP/1.1`, separated by blanks.
* `Complete s` : a prefix of `s` is a valid request line, non-empty header lines and an empty
  line, each ended by CR LF.
* `Incomplete s` : `s` is such lines followed by a line that has not ended yet.

`Accepted` and `Pending` are the same two sets defined line by line, for either state of the
machine, which is the form the induction over the text needs: it goes from line to line, by how
the first line of the text ends (`FirstLine`).  `parseContent_classifies` is the main result.
-/

namespace LinuxServer

namespace Http

open CString

/-- A text without CR and LF. -/
def Clean (l : List Byte) : Prop := ∀ b ∈ l, Plain b

theorem clean_nil : Clean [] := fun _ hb => absurd hb List.not_mem_nil

/-- The method, the url and the version of a request line, with the blanks between them. -/
def ValidRequestLine (l : List Byte) : Prop :=
  ∃ m ws u ws' v, l = m ++ ws ++ u ++ ws' ++ v ∧
    EqIgnoreCase m GET ∧ EqIgnoreCase v HTTP11 ∧
    ws ≠ [] ∧ (∀ b ∈ ws, b ∈ blanks) ∧ ws' ≠ [] ∧ (∀ b ∈ ws', b ∈ blanks) ∧
    u ≠ [] ∧ (∀ b ∈ u, b ∉ blanks) ∧
    (u.head? = some slash ∨ EqIgnoreCase (u.take 7) httpScheme ∧ slash ∈ u.drop 7)

/-- The lines `ls`, each ended by CR LF. -/
def crlfLines (ls : List (List Byte)) : List Byte := ls.flatMap fun l => l ++ [CR, LF]

/-- A complete request at the front of `s`. -/
def Complete (s : List Byte) : Prop :=
  ∃ l₀ ls, Clean l₀ ∧ ValidRequestLine l₀ ∧ (∀ l ∈ ls, Clean l ∧ l ≠ []) ∧
    crlfLines (l₀ :: ls) ++ [CR, LF] <+: s

/-- The beginning of a request: complete lines, and a tail that has not ended. -/
def Incomplete (s : List Byte) : Prop :=
  ∃ ls t, (∀ l ∈ ls, Clean l) ∧ (∀ l ∈ ls.head?, ValidRequestLine l) ∧ (∀ l ∈ ls.tail, l ≠ []) ∧
    LF ∉ t ∧ CR ∉ t.dropLast ∧ s = crlfLines ls ++ t

/-! ### Request lines -/

theorem toLower_mem_of_eqIgnoreCase {s t : List Byte} (h : EqIgnoreCase s t) {b : Byte}
    (hb : b ∈ s) : toLower b ∈ t.map toLower := by
  rw [← h]
  exact List.mem_map_of_mem hb

theorem not_blank_of_eqIgnoreCase {s t : List Byte} (h : EqIgnoreCase s t)
    (ht : ∀ b ∈ blanks, toLower b ∉ t.map toLower) : ∀ b ∈ s, b ∉ blanks :=
  fun b hb hbl => ht b hbl (toLower_mem_of_eqIgnoreCase h hb)

theorem takeWhile_append_stop {p : Byte → Bool} {a b : List Byte} (ha : ∀ c ∈ a, p c = true)
    (hb : ∀ c ∈ b.head?, p c = false) : (a ++ b).takeWhile p = a ∧ (a ++ b).dropWhile p = b := by
  rw [List.takeWhile_append_of_pos ha, List.dropWhile_append_of_pos ha]
  cases b with
  | nil => simp
  | cons c b =>
    have hc := hb c rfl
    simp [hc]

theorem dropWhile_cons_head {p : Byte → Bool} {l : List Byte} {b : Byte} {r : List Byte}
    (h : l.dropWhile p = b :: r) : p b = false ∧ l = l.takeWhile p ++ b :: r := by
  refine ⟨?_, by rw [← h, List.takeWhile_append_dropWhile]⟩
  have := List.head?_dropWhile_not p l
  rw [h] at this
  simpa using this

theorem urlPath_isSome_iff (u : List Byte) : (urlPath u).isSome = true ↔
    (u.head? = some slash ∨ EqIgnoreCase (u.take 7) httpScheme ∧ slash ∈ u.drop 7) := by
  unfold urlPath
  by_cases hs : EqIgnoreCase (u.take 7) httpScheme
  · have hhead : u.head? ≠ some slash := by
      intro h
      cases u with
      | nil => cases h
      | cons b u =>
        obtain rfl : b = slash := Option.some.inj h
        have := congrArg List.head? hs
        simp [httpScheme, ascii, toLower, slash] at this
    by_cases hp : (u.drop 7).dropWhile (· ≠ slash) = []
    · have hmem : slash ∉ u.drop 7 := by
        intro h
        have := List.dropWhile_eq_nil_iff.1 hp slash h
        simp at this
      simp [hs, hhead, hmem]
    · have hmem : slash ∈ u.drop 7 := by
        by_contra h
        refine hp (List.dropWhile_eq_nil_iff.2 fun b hb => ?_)
        exact decide_eq_true fun he => h (he ▸ hb)
      simp only [hs, if_true, hp, if_false, Option.isSome_some, hmem, and_self, or_true]
  · by_cases hh : u.head? = some slash <;> simp [hs, hh]

theorem validRequestLine_of_code {s : List Byte} (h : (requestLine s).code = .noRequest) :
    ValidRequestLine s := by
  simp only [requestLine] at h
  split at h
  · cases h
  rename_i b r hs
  obtain ⟨hb, hs'⟩ := dropWhile_cons_head hs
  split at h
  case isFalse => cases h
  rename_i hm
  simp only [requestTarget] at h
  split at h
  · cases h
  rename_i b' q hw
  obtain ⟨hb', hw'⟩ := dropWhile_cons_head hw
  split at h
  case isFalse => cases h
  rename_i hv
  split at h
  case h_2 => cases h
  rename_i path hpath
  have hu := (urlPath_isSome_iff _).1 (by rw [hpath]; rfl)
  have hr := List.takeWhile_append_dropWhile (p := (· ∈ blanks)) (l := r)
  have hq := List.takeWhile_append_dropWhile (p := (· ∈ blanks)) (l := q)
  set u := (r.dropWhile (· ∈ blanks)).takeWhile (· ∉ blanks) with hud
  refine ⟨s.takeWhile (· ∉ blanks), b :: r.takeWhile (· ∈ blanks), u,
    b' :: q.takeWhile (· ∈ blanks), q.dropWhile (· ∈ blanks), ?_, hm, hv, by simp, ?_, by simp,
    ?_, ?_, ?_, hu⟩
  · rw [← hq] at hw'
    rw [hw'] at hr
    rw [← hr] at hs'
    exact hs'.trans (by simp only [List.append_assoc, List.cons_append])
  · intro c hc
    rcases List.mem_cons.1 hc with rfl | hc
    · simpa using hb
    · simpa using List.mem_takeWhile_imp hc
  · intro c hc
    rcases List.mem_cons.1 hc with rfl | hc
    · simpa using hb'
    · simpa using List.mem_takeWhile_imp hc
  · intro hnil
    rw [hnil] at hu
    rcases hu with h1 | ⟨-, h2⟩
    · cases h1
    · simp at h2
  · intro c hc
    simpa using List.mem_takeWhile_imp hc

theorem code_of_validRequestLine {s : List Byte} (h : ValidRequestLine s) :
    (requestLine s).code = .noRequest := by
  obtain ⟨m, ws, u, ws', v, rfl, hm, hv, hws, hwsb, hws', hwsb', hu, hub, hpath⟩ := h
  obtain ⟨b, ws, rfl⟩ := List.exists_cons_of_ne_nil hws
  obtain ⟨b', ws', rfl⟩ := List.exists_cons_of_ne_nil hws'
  simp only [List.mem_cons, forall_eq_or_imp] at hwsb hwsb'
  have hmb := not_blank_of_eqIgnoreCase hm (by simp [blanks, GET, ascii, toLower])
  have hvb := not_blank_of_eqIgnoreCase hv (by simp [blanks, HTTP11, ascii, toLower])
  -- the method
  obtain ⟨hm1, hm2⟩ := takeWhile_append_stop (p := (· ∉ blanks)) (a := m)
    (b := b :: (ws ++ (u ++ b' :: (ws' ++ v)))) (by simpa using hmb) (by simpa using hwsb.1)
  -- the blanks behind it
  obtain ⟨hw1, hw2⟩ := takeWhile_append_stop (p := (· ∈ blanks)) (a := ws)
    (b := u ++ b' :: (ws' ++ v)) (by simpa using hwsb.2) (by
      obtain ⟨c, u', rfl⟩ := List.exists_cons_of_ne_nil hu
      simpa using hub c (by simp))
  -- the url
  obtain ⟨hu1, hu2⟩ := takeWhile_append_stop (p := (· ∉ blanks)) (a := u)
    (b := b' :: (ws' ++ v)) (by simpa using hub) (by simpa using hwsb'.1)
  -- the blanks behind it
  obtain ⟨-, hv2⟩ := takeWhile_append_stop (p := (· ∈ blanks)) (a := ws') (b := v)
    (by simpa using hwsb'.2) (fun c hc => by simpa using hvb c (List.mem_of_head? hc))
  obtain ⟨path, hpath⟩ := Option.isSome_iff_exists.1 ((urlPath_isSome_iff u).2 hpath)
  have hline : m ++ b :: ws ++ u ++ b' :: ws' ++ v = m ++ b :: (ws ++ (u ++ b' :: (ws' ++ v))) := by
    simp only [List.append_assoc, List.cons_append]
  rw [hline]
  simp only [requestLine, hm2, hm1, hm, if_true, requestTarget, hw2, hu2, hu1, hv2, hv, hpath]

theorem requestLine_code_iff (s : List Byte) :
    (requestLine s).code = .noRequest ↔ ValidRequestLine s :=
  ⟨validRequestLine_of_code, code_of_validRequestLine⟩

/-! ### Line by line -/

/-- `l` is a line the machine goes past in the state `cs`. -/
def LineFits : CheckState → List Byte → Prop
  | .requestLine, l => ValidRequestLine l
  | .header, l => l ≠ []

/-- What is left of the text, from the state `cs` on, completes a request. -/
inductive Accepted : CheckState → List Byte → Prop
  | blank {rest : List Byte} : Accepted .header (CR :: LF :: rest)
  | line {cs : CheckState} {l rest : List Byte} : Clean l → LineFits cs l →
      Accepted .header rest → Accepted cs (l ++ CR :: LF :: rest)

/-- What is left of the text, from the state `cs` on, is the beginning of a request. -/
inductive Pending : CheckState → List Byte → Prop
  | tail {cs : CheckState} {t : List Byte} : Clean t → Pending cs t
  | tailCR {cs : CheckState} {t : List Byte} : Clean t → Pending cs (t ++ [CR])
  | line {cs : CheckState} {l rest : List Byte} : Clean l → LineFits cs l →
      Pending .header rest → Pending cs (l ++ CR :: LF :: rest)

theorem not_plain_CR : ¬ Plain CR := fun h => h.1 rfl

theorem not_plain_LF : ¬ Plain LF := fun h => h.2 rfl

/-- A text splits in one way at its first CR or LF. -/
theorem clean_append_unique {l l' x y : List Byte} {a b : Byte} (hl : Clean l) (hl' : Clean l')
    (ha : ¬ Plain a) (hb : ¬ Plain b) (h : l ++ a :: x = l' ++ b :: y) :
    l = l' ∧ a = b ∧ x = y := by
  have h₁ := takeWhile_append_stop (p := (Plain ·)) (a := l) (b := a :: x)
    (by simpa using fun c => hl c) (by simpa using ha)
  have h₂ := takeWhile_append_stop (p := (Plain ·)) (a := l') (b := b :: y)
    (by simpa using fun c => hl' c) (by simpa using hb)
  rw [h] at h₁
  have hcons := h₁.2.symm.trans h₂.2
  exact ⟨h₁.1.symm.trans h₂.1, (List.cons.inj hcons).1, (List.cons.inj hcons).2⟩

theorem accepted_crlf_iff {cs : CheckState} {l rest : List Byte} (hl : Clean l) :
    Accepted cs (l ++ CR :: LF :: rest) ↔
      (cs = .header ∧ l = []) ∨ (LineFits cs l ∧ Accepted .header rest) := by
  constructor
  · intro h
    generalize hs : l ++ CR :: LF :: rest = s at h
    cases h with
    | blank =>
      have := clean_append_unique hl clean_nil not_plain_CR not_plain_CR hs
      exact .inl ⟨rfl, this.1⟩
    | line hl' hfit hrest =>
      obtain ⟨rfl, -, htail⟩ := clean_append_unique hl hl' not_plain_CR not_plain_CR hs
      obtain rfl := (List.cons.inj htail).2
      exact .inr ⟨hfit, hrest⟩
  · rintro (⟨rfl, rfl⟩ | ⟨hfit, hrest⟩)
    · exact .blank
    · exact .line hl hfit hrest

theorem pending_crlf_iff {cs : CheckState} {l rest : List Byte} (hl : Clean l) :
    Pending cs (l ++ CR :: LF :: rest) ↔ LineFits cs l ∧ Pending .header rest := by
  constructor
  · intro h
    generalize hs : l ++ CR :: LF :: rest = s at h
    cases h with
    | tail ht =>
      subst hs
      exact absurd (ht CR (by simp)) not_plain_CR
    | tailCR ht =>
      have := clean_append_unique hl ht not_plain_CR not_plain_CR hs
      exact absurd this.2.2 (by simp)
    | line hl' hfit hrest =>
      obtain ⟨rfl, -, htail⟩ := clean_append_unique hl hl' not_plain_CR not_plain_CR hs
      obtain rfl := (List.cons.inj htail).2
      exact ⟨hfit, hrest⟩
  · rintro ⟨hfit, hrest⟩
    exact .line hl hfit hrest

/-- A CR or LF that neither ends a line nor the text spoils it. -/
theorem not_accepted_of_stray {cs : CheckState} {l x : List Byte} {a : Byte} (hl : Clean l)
    (ha : ¬ Plain a) (hx : a = CR → x.head? ≠ some LF) : ¬ Accepted cs (l ++ a :: x) := by
  intro h
  generalize hs : l ++ a :: x = s at h
  cases h with
  | blank =>
    obtain ⟨-, rfl, rfl⟩ :=
      clean_append_unique hl clean_nil ha not_plain_CR hs
    exact hx rfl rfl
  | line hl' _ _ =>
    obtain ⟨-, rfl, rfl⟩ := clean_append_unique hl hl' ha not_plain_CR hs
    exact hx rfl rfl

theorem not_pending_of_stray {cs : CheckState} {l x : List Byte} {a : Byte} (hl : Clean l)
    (ha : ¬ Plain a) (hx : a = CR → x ≠ [] ∧ x.head? ≠ some LF) :
    ¬ Pending cs (l ++ a :: x) := by
  intro h
  generalize hs : l ++ a :: x = s at h
  cases h with
  | tail ht =>
    subst hs
    exact ha (ht a (by simp))
  | tailCR ht =>
    obtain ⟨-, rfl, rfl⟩ := clean_append_unique hl ht ha not_plain_CR hs
    exact (hx rfl).1 rfl
  | line hl' _ _ =>
    obtain ⟨-, rfl, rfl⟩ := clean_append_unique hl hl' ha not_plain_CR hs
    exact (hx rfl).2 rfl

theorem Accepted.not_pending {cs : CheckState} {s : List Byte} (h : Accepted cs s) :
    ¬ Pending cs s := by
  induction h with
  | @blank rest =>
    intro hp
    have := (pending_crlf_iff clean_nil).1 hp
    exact this.1 rfl
  | line hl _ _ ih =>
    intro hp
    exact ih ((pending_crlf_iff hl).1 hp).2

/-! ### The closed forms -/

theorem accepted_header_iff {s : List Byte} : Accepted .header s ↔
    ∃ ls, (∀ l ∈ ls, Clean l ∧ l ≠ []) ∧ crlfLines ls ++ [CR, LF] <+: s := by
  constructor
  · intro h
    generalize hcs : CheckState.header = cs at h
    induction h with
    | @blank rest => exact ⟨[], by simp, rest, rfl⟩
    | @line cs l rest hl hfit _ ih =>
      subst hcs
      obtain ⟨ls, hls, x, rfl⟩ := ih rfl
      refine ⟨l :: ls, by simpa using ⟨⟨hl, hfit⟩, hls⟩, x, ?_⟩
      simp only [crlfLines, List.flatMap_cons, List.append_assoc, List.cons_append,
        List.nil_append]
  · rintro ⟨ls, hls, x, rfl⟩
    induction ls with
    | nil => exact .blank
    | cons l ls ih =>
      simp only [List.mem_cons, forall_eq_or_imp] at hls
      have := Accepted.line hls.1.1 (show LineFits .header l from hls.1.2) (ih hls.2)
      simpa only [crlfLines, List.flatMap_cons, List.append_assoc, List.cons_append,
        List.nil_append] using this

theorem accepted_iff_complete {s : List Byte} : Accepted .requestLine s ↔ Complete s := by
  constructor
  · intro h
    cases h with
    | @line _ l rest hl hfit hrest =>
      obtain ⟨ls, hls, x, rfl⟩ := accepted_header_iff.1 hrest
      refine ⟨l, ls, hl, hfit, hls, x, ?_⟩
      simp only [crlfLines, List.flatMap_cons, List.append_assoc, List.cons_append,
        List.nil_append]
  · rintro ⟨l, ls, hl, hfit, hls, x, rfl⟩
    have := Accepted.line hl (show LineFits .requestLine l from hfit)
      (accepted_header_iff.2 ⟨ls, hls, x, rfl⟩)
    simpa only [crlfLines, List.flatMap_cons, List.append_assoc, List.cons_append,
      List.nil_append] using this

theorem tail_iff {t : List Byte} :
    (LF ∉ t ∧ CR ∉ t.dropLast) ↔ Clean t ∨ ∃ t', Clean t' ∧ t = t' ++ [CR] := by
  constructor
  · rintro ⟨hlf, hcr⟩
    rcases List.eq_nil_or_concat t with rfl | ⟨t', b, rfl⟩
    · exact .inl clean_nil
    · rw [List.concat_eq_append] at hlf hcr ⊢
      rw [List.dropLast_concat] at hcr
      have ht' : Clean t' := fun c hc =>
        ⟨fun he => hcr (he ▸ hc), fun he => hlf (by rw [← he]; simp [hc])⟩
      by_cases hb : b = CR
      · exact .inr ⟨t', ht', by rw [hb]⟩
      · refine .inl ?_
        intro c hc
        rcases List.mem_append.1 hc with hc | hc
        · exact ht' c hc
        · obtain rfl := List.mem_singleton.1 hc
          exact ⟨hb, fun he => hlf (by simp [he])⟩
  · rintro (ht | ⟨t', ht', rfl⟩)
    · exact ⟨fun h => not_plain_LF (ht LF h),
        fun h => not_plain_CR (ht CR (List.dropLast_subset _ h))⟩
    · rw [List.dropLast_concat]
      refine ⟨fun h => ?_, fun h => not_plain_CR (ht' CR h)⟩
      rcases List.mem_append.1 h with h | h
      · exact not_plain_LF (ht' LF h)
      · exact absurd (List.mem_singleton.1 h) (by decide)

theorem pending_iff {cs : CheckState} {s : List Byte} : Pending cs s ↔
    ∃ ls t, (∀ l ∈ ls, Clean l) ∧ (∀ l ∈ ls.head?, LineFits cs l) ∧ (∀ l ∈ ls.tail, l ≠ []) ∧
      LF ∉ t ∧ CR ∉ t.dropLast ∧ s = crlfLines ls ++ t := by
  constructor
  · intro h
    induction h with
    | @tail cs t ht =>
      have := tail_iff.2 (.inl ht)
      exact ⟨[], t, by simp, by simp, by simp, this.1, this.2, rfl⟩
    | @tailCR cs t ht =>
      have := tail_iff.2 (.inr ⟨t, ht, rfl⟩)
      exact ⟨[], _, by simp, by simp, by simp, this.1, this.2, rfl⟩
    | @line cs l rest hl hfit _ ih =>
      obtain ⟨ls, t, hls, hhead, htail, hlf, hcr, rfl⟩ := ih
      refine ⟨l :: ls, t, by simpa using ⟨hl, hls⟩, by simpa using hfit, ?_, hlf, hcr, ?_⟩
      · cases ls with
        | nil => simp
        | cons l' ls => simpa using ⟨hhead l' rfl, htail⟩
      · simp only [crlfLines, List.flatMap_cons, List.append_assoc, List.cons_append,
          List.nil_append]
  · rintro ⟨ls, t, hls, hhead, htail, hlf, hcr, rfl⟩
    induction ls generalizing cs with
    | nil =>
      rcases tail_iff.1 ⟨hlf, hcr⟩ with ht | ⟨t', ht', rfl⟩
      · exact .tail ht
      · exact .tailCR ht'
    | cons l ls ih =>
      simp only [List.mem_cons, forall_eq_or_imp] at hls
      have hrest : Pending .header (crlfLines ls ++ t) :=
        ih hls.2 (fun l hl => htail l (List.mem_of_head? hl))
          (fun l hl => htail l (List.mem_of_mem_tail hl))
      have := Pending.line hls.1 (hhead l rfl) hrest
      simpa only [crlfLines, List.flatMap_cons, List.append_assoc, List.cons_append,
        List.nil_append] using this

theorem pending_iff_incomplete {s : List Byte} : Pending .requestLine s ↔ Incomplete s :=
  pending_iff

/-! ### The parser at the start of a line -/

/-- The code is the right one for the rest of the text. -/
inductive Verdict (cs : CheckState) (rest : List Byte) : HttpCode → Prop
  | get : Accepted cs rest → Verdict cs rest .getRequest
  | wait : Pending cs rest → Verdict cs rest .noRequest
  | bad : ¬ Accepted cs rest → ¬ Pending cs rest → Verdict cs rest .badRequest

theorem Verdict.iffs {cs : CheckState} {rest : List Byte} {code : HttpCode}
    (h : Verdict cs rest code) : (code = .getRequest ↔ Accepted cs rest) ∧
      (code = .noRequest ↔ Pending cs rest) ∧
      (code = .badRequest ↔ ¬ Accepted cs rest ∧ ¬ Pending cs rest) := by
  cases h with
  | get h => simp [h, h.not_pending]
  | wait h =>
    have : ¬ Accepted cs rest := fun ha => ha.not_pending h
    simp [h, this]
  | bad h₁ h₂ => simp [h₁, h₂]

theorem Verdict.line {cs : CheckState} {l rest : List Byte} {code : HttpCode} (hl : Clean l)
    (hfit : LineFits cs l) (h : Verdict .header rest code) :
    Verdict cs (l ++ CR :: LF :: rest) code := by
  cases h with
  | get h => exact .get (.line hl hfit h)
  | wait h => exact .wait (.line hl hfit h)
  | bad h₁ h₂ =>
    refine .bad ?_ fun h => h₂ ((pending_crlf_iff hl).1 h).2
    rw [accepted_crlf_iff hl]
    rintro (⟨rfl, rfl⟩ | ⟨-, h⟩)
    · exact hfit rfl
    · exact h₁ h

theorem lineOutcome_cases (cs : CheckState) (l : List Byte) :
    ((lineOutcome cs l).1 = none ∧ (lineOutcome cs l).2.2.1 = .header ∧ LineFits cs l) ∨
      ((lineOutcome cs l).1 = some .getRequest ∧ cs = .header ∧ l = []) ∨
      ((lineOutcome cs l).1 = some .badRequest ∧ cs = .requestLine ∧ ¬ LineFits cs l) := by
  cases cs with
  | requestLine =>
    simp only [lineOutcome, LineFits, ← requestLine_code_iff]
    rcases requestLine_code l with h | h <;> simp [h]
  | header =>
    simp only [lineOutcome, LineFits]
    by_cases h : l = [] <;> simp [h]

theorem getElem?_mid {pre l x : List Byte} {a : Byte} {n : ℕ} (hn : n = pre.length + l.length) :
    (pre ++ l ++ a :: x)[n]? = some a := by
  rw [getElem?_of_eq rfl (hn.trans (List.length_append).symm), List.head?_cons]

theorem plainOn_clean {pre l x : List Byte} (hl : Clean l) :
    PlainOn (pre ++ l ++ x) pre.length (pre.length + l.length) := by
  intro i h1 h2
  rw [List.append_assoc, List.getElem?_append_right h1, List.getElem?_append_left (by omega)]
  exact ⟨_, List.getElem?_eq_getElem (by omega), hl _ (List.getElem_mem _)⟩

/-- No CR stands in front of the first LF of a line: the bytes of the line are plain, and the
line before it ends in a NUL. -/
theorem prev_ne_CR {pre l x : List Byte} (hpre : pre.getLast? ≠ some CR) (hl : Clean l)
    {e : ℕ} (he : e = pre.length + l.length) (h1 : 1 < e) :
    (pre ++ l ++ x)[e - 1]? ≠ some CR := by
  intro h
  rw [List.getElem?_append_left (by rw [List.length_append]; omega), he,
    ← List.length_append, ← List.getLast?_eq_getElem?, List.getLast?_append] at h
  cases hlast : l.getLast? with
  | none =>
    rw [hlast] at h
    exact hpre h
  | some b =>
    rw [hlast] at h
    obtain rfl : b = CR := Option.some.inj h
    exact not_plain_CR (hl CR (List.mem_of_getLast? hlast))

theorem parseLine_crlf (pre : List Byte) {l : List Byte} (x : List Byte) {r : ℕ} (hl : Clean l)
    (hr : pre.length + l.length + 1 < r) :
    parseLine (pre ++ l ++ CR :: LF :: x) pre.length r =
      some (.ok, pre ++ l ++ 0 :: 0 :: x, pre.length + l.length + 2) := by
  have happ : ∀ (a b : Byte) (y : List Byte),
      pre ++ l ++ a :: b :: y = pre ++ (l ++ [a]) ++ b :: y :=
    fun a b y => by simp only [List.append_assoc, List.cons_append, List.nil_append]
  have hlf : (pre ++ l ++ CR :: LF :: x)[pre.length + l.length + 1]? = some LF := by
    rw [happ]
    exact getElem?_mid (by rw [List.length_append, List.length_singleton]; omega)
  have hset : ((pre ++ l ++ CR :: LF :: x).set (pre.length + l.length) 0).set
      (pre.length + l.length + 1) 0 = pre ++ l ++ 0 :: 0 :: x := by
    rw [set_of_eq rfl (List.length_append).symm, happ,
      set_of_eq rfl (by simp only [List.length_append, List.length_singleton]; omega), ← happ]
  rw [← hset]
  exact parseLine_of_stop (Nat.le_add_right _ l.length) (.inl (by omega)) (plainOn_clean hl)
    (.crlf (getElem?_mid rfl) hr hlf)

theorem parseCompleteLine_crlf (pre x : List Byte) {l : List Byte} (hl0 : 0 ∉ l)
    (buffer : List Byte) (cs : CheckState) (out : List Msg) (c : ℕ) :
    parseCompleteLine ((⟨buffer, pre.length, cs, pre.length, out⟩ : Parser).scanned
        (pre ++ l ++ 0 :: 0 :: x) c) =
      some ((lineOutcome cs l).1, ⟨pre ++ (lineOutcome cs l).2.1 ++ 0 :: 0 :: x, c,
        (lineOutcome cs l).2.2.1, c, out ++ (lineOutcome cs l).2.2.2⟩) :=
  parseCompleteLine_append hl0 rfl rfl

/-! ### The verdict line by line -/

/-- How the first line of a text ends. -/
inductive FirstLine : List Byte → Prop
  | tail {l : List Byte} : Clean l → FirstLine l
  | tailCR {l : List Byte} : Clean l → FirstLine (l ++ [CR])
  | crlf {l rest : List Byte} : Clean l → FirstLine (l ++ CR :: LF :: rest)
  | strayCR {l rest : List Byte} {b : Byte} : Clean l → b ≠ LF → FirstLine (l ++ CR :: b :: rest)
  | strayLF {l rest : List Byte} : Clean l → FirstLine (l ++ LF :: rest)

theorem firstLine (s : List Byte) : FirstLine s := by
  have hsplit := List.takeWhile_append_dropWhile (p := (Plain ·)) (l := s)
  have hclean : Clean (s.takeWhile (Plain ·)) := by
    intro b hb
    simpa using List.mem_takeWhile_imp hb
  rw [← hsplit]
  cases htail : s.dropWhile (Plain ·) with
  | nil =>
    rw [List.append_nil]
    exact .tail hclean
  | cons a rest =>
    obtain ⟨ha, -⟩ := dropWhile_cons_head htail
    have ha : ¬ Plain a := by simpa using ha
    by_cases hcr : a = CR
    · subst hcr
      rcases rest with _ | ⟨b, rest⟩
      · exact .tailCR hclean
      · by_cases hlf : b = LF
        · subst hlf
          exact .crlf hclean
        · exact .strayCR hclean hlf
    · obtain rfl : a = LF := by
        by_contra hlf
        exact ha ⟨hcr, hlf⟩
      exact .strayLF hclean

/-- From the start of a line, behind `pre`, a call gives the verdict on the rest of the text. -/
def Decides (pre rest x : List Byte) (cs : CheckState) (out : List Msg) : Prop :=
  ∃ code P', Content (pre.length + rest.length)
    ⟨pre ++ rest ++ x, pre.length, cs, pre.length, out⟩ code P' ∧ Verdict cs rest code

section Decides

variable {pre l rest x : List Byte} {cs : CheckState} {out : List Msg}

theorem append_mid (pre l rest x : List Byte) (a : Byte) :
    pre ++ (l ++ a :: rest) ++ x = pre ++ l ++ a :: (rest ++ x) := by
  simp only [List.append_assoc, List.cons_append]

theorem parseLine_mid {a : Byte} {r c : ℕ} {st : LineStatus} {b : List Byte} (hl : Clean l)
    (hr : pre.length + l.length < r)
    (hstop : Stop (pre ++ l ++ a :: x) r (pre.length + l.length) st b c) :
    parseLine (pre ++ l ++ a :: x) pre.length r = some (st, b, c) :=
  parseLine_of_stop (Nat.le_add_right _ _) (.inl (by omega)) (plainOn_clean hl) hstop

theorem decides_tail (hl : Clean l) : Decides pre l x cs out :=
  ⟨_, _, .open (parseLine_of_stop (by simp) (.inl le_rfl) (plainOn_clean hl) (.exhausted le_rfl)),
    .wait (.tail hl)⟩

theorem decides_tailCR (hl : Clean l) : Decides pre (l ++ [CR]) x cs out := by
  rw [Decides, append_mid]
  refine ⟨_, _, .open (parseLine_mid hl ?_ (.lastCR (getElem?_mid rfl) ?_)), .wait (.tailCR hl)⟩
  all_goals
    rw [List.length_append, List.length_singleton]
    omega

theorem decides_strayCR {b : Byte} (hl : Clean l) (hb : b ≠ LF) :
    Decides pre (l ++ CR :: b :: rest) x cs out := by
  have hnext : (pre ++ l ++ CR :: (b :: rest ++ x))[pre.length + l.length + 1]? = some b := by
    have hmid : pre ++ l ++ CR :: (b :: rest ++ x) = pre ++ (l ++ [CR]) ++ b :: (rest ++ x) := by
      simp only [List.append_assoc, List.cons_append, List.nil_append]
    rw [hmid]
    exact getElem?_mid (by rw [List.length_append, List.length_singleton]; omega)
  have hlen : pre.length + l.length + 1 < pre.length + (l ++ CR :: b :: rest).length := by
    rw [List.length_append, List.length_cons, List.length_cons]
    omega
  rw [Decides, append_mid]
  refine ⟨_, _, .bad (parseLine_mid hl (by omega) (.crBad (getElem?_mid rfl) hlen hnext hb)),
    .bad ?_ ?_⟩
  · exact not_accepted_of_stray hl not_plain_CR fun _ h => hb (Option.some.inj h)
  · exact not_pending_of_stray hl not_plain_CR fun _ =>
      ⟨List.cons_ne_nil _ _, fun h => hb (Option.some.inj h)⟩

theorem decides_strayLF (hpre : pre.getLast? ≠ some CR) (hl : Clean l) :
    Decides pre (l ++ LF :: rest) x cs out := by
  have hlen : pre.length + l.length < pre.length + (l ++ LF :: rest).length := by
    rw [List.length_append, List.length_cons]
    omega
  have hne : LF ≠ CR := by decide
  rw [Decides, append_mid]
  refine ⟨_, _, .bad (parseLine_mid hl hlen (.lfBad (getElem?_mid rfl) hlen fun h1 => ?_)),
    .bad ?_ ?_⟩
  · exact prev_ne_CR hpre hl rfl h1
  · exact not_accepted_of_stray hl not_plain_LF fun h => absurd h hne
  · exact not_pending_of_stray hl not_plain_LF fun h => absurd h hne

/-- A complete line decides, or the verdict is that on the lines behind it. -/
theorem decides_crlf (hl : Clean l) (hl0 : 0 ∉ l)
    (ih : ∀ pre' out', pre'.getLast? ≠ some CR → Decides pre' rest x .header out') :
    Decides pre (l ++ CR :: LF :: rest) x cs out := by
  have hlen : pre.length + (l ++ CR :: LF :: rest).length =
      pre.length + l.length + 2 + rest.length := by
    rw [List.length_append, List.length_cons, List.length_cons]
    omega
  have hok := parseLine_crlf pre (rest ++ x) hl
    (show pre.length + l.length + 1 < pre.length + l.length + 2 + rest.length by omega)
  have hcomplete := parseCompleteLine_crlf pre (rest ++ x) hl0
    (pre ++ l ++ CR :: LF :: (rest ++ x)) cs out (pre.length + l.length + 2)
  rw [Decides, append_mid, hlen]
  rcases lineOutcome_cases cs l with ⟨hres, hst, hfit⟩ | ⟨hres, rfl, rfl⟩ | ⟨hres, rfl, hno⟩
  · -- the next line starts behind the two NULs
    rw [hres, hst] at hcomplete
    set pre' := pre ++ (lineOutcome cs l).2.1 ++ [0, 0] with hpre'
    have hlen' : pre'.length = pre.length + l.length + 2 := by
      simp only [hpre', List.length_append, length_lineOutcome, List.length_cons, List.length_nil]
    have hbuf' : pre' ++ rest ++ x = pre ++ (lineOutcome cs l).2.1 ++ 0 :: (0 :: (rest ++ x)) := by
      simp only [hpre', List.append_assoc, List.cons_append, List.nil_append]
    have hlast : pre'.getLast? ≠ some CR := by
      rw [hpre', List.getLast?_append]
      simp [CR]
    obtain ⟨code, P', hc, hv⟩ := ih pre' (out ++ (lineOutcome cs l).2.2.2) hlast
    rw [hbuf', hlen'] at hc
    exact ⟨code, P', .next hok hcomplete hc, hv.line hl hfit⟩
  · -- the blank line
    rw [hres] at hcomplete
    exact ⟨_, _, .done hok hcomplete, .get .blank⟩
  · -- a line that does not fit
    rw [hres] at hcomplete
    refine ⟨_, _, .done hok hcomplete, .bad ?_ ?_⟩
    · rw [accepted_crlf_iff hl]
      rintro (⟨h, -⟩ | ⟨h, -⟩)
      · cases h
      · exact hno h
    · rw [pending_crlf_iff hl]
      exact fun h => hno h.1

end Decides

/-- From the start of a line on, the call gives the verdict on the rest of the text. -/
theorem content_verdict (pre rest x : List Byte) (hpre : pre.getLast? ≠ some CR)
    (h0 : 0 ∉ rest) (cs : CheckState) (out : List Msg) : Decides pre rest x cs out := by
  induction hn : rest.length using Nat.strong_induction_on generalizing pre rest cs out with
  | _ n ih =>
  subst hn
  cases firstLine rest with
  | tail hl => exact decides_tail hl
  | tailCR hl => exact decides_tailCR hl
  | strayCR hl hb => exact decides_strayCR hl hb
  | strayLF hl => exact decides_strayLF hpre hl
  | @crlf l tail hl =>
    rw [List.mem_append, List.mem_cons, List.mem_cons, not_or, not_or, not_or] at h0
    refine decides_crlf hl h0.1 fun pre' out' hpre' => ih tail.length ?_ pre' tail hpre' h0.2.2.2
      .header out' rfl
    rw [List.length_append, List.length_cons, List.length_cons]
    omega

/-- **`parse_content` accepts its grammar.**  On a NUL-free text `s` (in front of any bytes `x`)
one call accepts the texts with a complete request at the front, waits on the beginnings of
requests, and refuses everything else. -/
theorem parseContent_classifies (s x : List Byte) (h0 : 0 ∉ s) :
    ∃ code P, parseContent (Parser.init (s ++ x)) s.length = some (code, P) ∧
      (code = .getRequest ↔ Complete s) ∧
      (code = .noRequest ↔ ¬ Complete s ∧ Incomplete s) ∧
      (code = .badRequest ↔ ¬ Complete s ∧ ¬ (¬ Complete s ∧ Incomplete s)) := by
  obtain ⟨code, P, hc, hv⟩ := content_verdict [] s x (by simp) h0 .requestLine []
  rw [List.nil_append, List.length_nil, Nat.zero_add] at hc
  obtain ⟨hget, hwait, hbad⟩ := hv.iffs
  rw [accepted_iff_complete] at hget hbad
  rw [pending_iff_incomplete] at hwait hbad
  have hexcl : Incomplete s → ¬ Complete s := fun hi hcs =>
    (accepted_iff_complete.2 hcs).not_pending (pending_iff_incomplete.2 hi)
  refine ⟨code, P, (parseContent_iff (Parser.init_wf s x)).2 hc, hget, hwait.trans ?_,
    hbad.trans ?_⟩
  · exact ⟨fun h => ⟨hexcl h, h⟩, And.right⟩
  · exact ⟨fun h => ⟨h.1, fun h' => h.2 h'.2⟩, fun h => ⟨h.1, fun h' => h.2 ⟨h.1, h'⟩⟩⟩

theorem parseContent_classifies_shortRequest :
    ∃ code P, parseContent (Parser.init (shortRequest ++ [])) shortRequest.length = some (code, P) ∧
      (code = .getRequest ↔ Complete shortRequest) ∧
      (code = .noRequest ↔ ¬ Complete shortRequest ∧ Incomplete shortRequest) ∧
      (code = .badRequest ↔
        ¬ Complete shortRequest ∧ ¬ (¬ Complete shortRequest ∧ Incomplete shortRequest)) :=
  parseContent_classifies shortRequest [] (by decide)

end Http

end LinuxServer
