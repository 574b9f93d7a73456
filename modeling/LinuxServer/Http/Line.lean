import LinuxServer.Http.Parse

/-!
# The line scanner

`parse_line` passes over plain bytes (neither CR nor LF) and stops at the first other byte or at
`read_index`.  `Stop` lists what it does where it stops, one constructor for each exit of its
loop; `parseLine_of_stop` and `parseLine_spec` say that this is all it does.  `branches_agree_iff`
compares its two branches for CR LF.
-/

namespace LinuxServer

namespace Http

/-- Neither CR nor LF. -/
def Plain (b : Byte) : Prop := b ≠ CR ∧ b ≠ LF

instance : DecidablePred Plain := fun b => inferInstanceAs (Decidable (b ≠ CR ∧ b ≠ LF))

/-- The bytes from `c` up to `e` are plain. -/
def PlainOn (buffer : List Byte) (c e : ℕ) : Prop :=
  ∀ i, c ≤ i → i < e → ∃ b, buffer[i]? = some b ∧ Plain b

/-- What `parse_line` does when it stops at the index `e`: the status, the buffer and the new
`checked_index`. -/
inductive Stop (buffer : List Byte) (readIndex e : ℕ) : LineStatus → List Byte → ℕ → Prop
  /-- All bytes received so far are passed. -/
  | exhausted : readIndex ≤ e → Stop buffer readIndex e .open buffer e
  /-- A CR is the last byte received. -/
  | lastCR : buffer[e]? = some CR → e + 1 = readIndex → Stop buffer readIndex e .open buffer e
  /-- CR LF. -/
  | crlf : buffer[e]? = some CR → e + 1 < readIndex → buffer[e + 1]? = some LF →
      Stop buffer readIndex e .ok ((buffer.set e 0).set (e + 1) 0) (e + 2)
  /-- A CR before another byte. -/
  | crBad {b : Byte} : buffer[e]? = some CR → e + 1 < readIndex → buffer[e + 1]? = some b →
      b ≠ LF → Stop buffer readIndex e .bad buffer e
  /-- A LF behind a CR that was passed before. -/
  | lf : buffer[e]? = some LF → e < readIndex → 1 < e → buffer[e - 1]? = some CR →
      Stop buffer readIndex e .ok ((buffer.set (e - 1) 0).set e 0) (e + 1)
  /-- Any other LF. -/
  | lfBad : buffer[e]? = some LF → e < readIndex → (1 < e → buffer[e - 1]? ≠ some CR) →
      Stop buffer readIndex e .bad buffer e

theorem parseLine_of_le {buffer : List Byte} {c r : ℕ} (h : r ≤ c) :
    parseLine buffer c r = some (.open, buffer, c) := by
  rw [parseLine, Nat.sub_eq_zero_of_le h, parseLineLoop]

theorem parseLine_skip {buffer : List Byte} {c r : ℕ} {b : Byte} (h : c < r)
    (hb : buffer[c]? = some b) (hp : Plain b) :
    parseLine buffer c r = parseLine buffer (c + 1) r := by
  have hn : r - c = r - (c + 1) + 1 := by omega
  rw [parseLine, hn, parseLineLoop]
  simp only [hb, Option.bind_eq_bind, Option.bind_some, hp.1, hp.2, if_false]
  rfl

theorem parseLine_skip_to {buffer : List Byte} {c e r : ℕ} (hce : c ≤ e) (her : e ≤ r ∨ e = c)
    (hp : PlainOn buffer c e) : parseLine buffer c r = parseLine buffer e r := by
  induction e, hce using Nat.le_induction with
  | base => rfl
  | succ e hce ih =>
    obtain ⟨b, hb, hpb⟩ := hp e hce (Nat.lt_succ_self e)
    rw [ih (by omega) fun i h1 h2 => hp i h1 (by omega), parseLine_skip (by omega) hb hpb]

theorem parseLine_at_stop {buffer buffer' : List Byte} {e r c' : ℕ} {st : LineStatus}
    (h : Stop buffer r e st buffer' c') : parseLine buffer e r = some (st, buffer', c') := by
  -- the first round of the loop
  have hn : e < r → r - e = r - (e + 1) + 1 := by omega
  cases h with
  | exhausted h => exact parseLine_of_le h
  | lastCR hb hr =>
    rw [parseLine, hn (by omega), parseLineLoop]
    simp [hb, hr]
  | crlf hb hr hb' =>
    rw [parseLine, hn (by omega), parseLineLoop]
    simp [hb, hb', Nat.ne_of_lt hr]
  | crBad hb hr hb' hne =>
    rw [parseLine, hn (by omega), parseLineLoop]
    simp [hb, hb', Nat.ne_of_lt hr, hne]
  | lf hb hr he hb' =>
    rw [parseLine, hn hr, parseLineLoop]
    have hne : LF ≠ CR := by decide
    simp [hb, hb', he, hne]
  | lfBad hb hr hb' =>
    rw [parseLine, hn hr, parseLineLoop]
    have hne : LF ≠ CR := by decide
    by_cases he : 1 < e
    · have hlt : e - 1 < buffer.length := by
        have := (List.getElem?_eq_some_iff.1 hb).1
        omega
      have hprev := hb' he
      rw [List.getElem?_eq_getElem hlt] at hprev
      simp [hb, he, hne, List.getElem?_eq_getElem hlt, Option.some_inj.not.1 hprev]
    · simp [hb, he, hne]

theorem parseLine_of_stop {buffer buffer' : List Byte} {c e r c' : ℕ} {st : LineStatus}
    (hce : c ≤ e) (her : e ≤ r ∨ e = c) (hp : PlainOn buffer c e)
    (h : Stop buffer r e st buffer' c') : parseLine buffer c r = some (st, buffer', c') := by
  rw [parseLine_skip_to hce her hp, parseLine_at_stop h]

theorem exists_stop {buffer : List Byte} {e r : ℕ} (hr : r ≤ buffer.length)
    (h : r ≤ e ∨ ∃ b, buffer[e]? = some b ∧ ¬ Plain b) :
    ∃ st buffer' c', Stop buffer r e st buffer' c' := by
  by_cases hre : r ≤ e
  · exact ⟨_, _, _, .exhausted hre⟩
  · obtain ⟨b, hb, hp⟩ := h.resolve_left hre
    rcases not_and_or.1 hp with hcr | hlf
    · obtain rfl := not_not.1 hcr
      rcases Nat.lt_or_eq_of_le (show e + 1 ≤ r by omega) with hlt | heq
      · have hn := List.getElem?_eq_getElem (show e + 1 < buffer.length by omega)
        by_cases hl : buffer[e + 1] = LF
        · exact ⟨_, _, _, .crlf hb hlt (by rw [hn, hl])⟩
        · exact ⟨_, _, _, .crBad hb hlt hn hl⟩
      · exact ⟨_, _, _, .lastCR hb heq⟩
    · obtain rfl := not_not.1 hlf
      by_cases hprev : 1 < e ∧ buffer[e - 1]? = some CR
      · exact ⟨_, _, _, .lf hb (by omega) hprev.1 hprev.2⟩
      · exact ⟨_, _, _, .lfBad hb (by omega) fun h1 h2 => hprev ⟨h1, h2⟩⟩

/-- **All that `parse_line` does**: it passes over plain bytes and then stops. -/
theorem parseLine_spec {buffer : List Byte} {r : ℕ} (hr : r ≤ buffer.length) (c : ℕ) :
    ∃ e st buffer' c', c ≤ e ∧ (e ≤ r ∨ e = c) ∧ PlainOn buffer c e ∧
      Stop buffer r e st buffer' c' ∧ parseLine buffer c r = some (st, buffer', c') := by
  -- the first byte from `c` on that is not plain, or the end
  obtain ⟨e, hce, her, hp, hstop⟩ : ∃ e, c ≤ e ∧ (e ≤ r ∨ e = c) ∧ PlainOn buffer c e ∧
      (r ≤ e ∨ ∃ b, buffer[e]? = some b ∧ ¬ Plain b) := by
    induction hn : r - c generalizing c with
    | zero => exact ⟨c, le_rfl, .inr rfl, fun i h1 h2 => absurd h2 (by omega), .inl (by omega)⟩
    | succ n ih =>
      have hc := List.getElem?_eq_getElem (show c < buffer.length by omega)
      by_cases hp : Plain buffer[c]
      · obtain ⟨e, hce, her, hpl, hstop⟩ := ih (c + 1) (by omega)
        refine ⟨e, by omega, by omega, fun i h1 h2 => ?_, hstop⟩
        rcases Nat.eq_or_lt_of_le h1 with rfl | h1
        · exact ⟨_, hc, hp⟩
        · exact hpl i h1 h2
      · exact ⟨c, le_rfl, .inr rfl, fun i h1 h2 => absurd h2 (by omega), .inr ⟨_, hc, hp⟩⟩
  obtain ⟨st, buffer', c', hs⟩ := exists_stop hr hstop
  exact ⟨e, st, buffer', c', hce, her, hp, hs, parseLine_of_stop hce her hp hs⟩

theorem stop_of_parseLine {buffer b : List Byte} {c c' r : ℕ} {st : LineStatus}
    (hr : r ≤ buffer.length) (h : parseLine buffer c r = some (st, b, c')) :
    ∃ e, c ≤ e ∧ (e ≤ r ∨ e = c) ∧ PlainOn buffer c e ∧ Stop buffer r e st b c' := by
  obtain ⟨e, st', b', c₁, hce, her, hp, hstop, hline⟩ := parseLine_spec hr c
  rw [h] at hline
  simp only [Option.some.injEq, Prod.mk.injEq] at hline
  obtain ⟨rfl, rfl, rfl⟩ := hline
  exact ⟨e, hce, her, hp, hstop⟩

/-! ### What a stop leaves behind -/

namespace Stop

variable {buffer buffer' : List Byte} {e r c' : ℕ} {st : LineStatus}

theorem length_eq (h : Stop buffer r e st buffer' c') : buffer'.length = buffer.length := by
  cases h <;> simp

theorem le_checked (h : Stop buffer r e st buffer' c') : e ≤ c' := by
  cases h <;> omega

/-- A complete line ends in a NUL inside the bytes received. -/
theorem nul_of_ok (h : Stop buffer r e .ok buffer' c') :
    e < c' ∧ c' ≤ r ∧ buffer'[c' - 1]? = some 0 := by
  cases h with
  | crlf hb hr hb' =>
    have := (List.getElem?_eq_some_iff.1 hb').1
    refine ⟨by omega, by omega, ?_⟩
    simp [this]
  | lf hb hr he hb' =>
    have := (List.getElem?_eq_some_iff.1 hb).1
    refine ⟨by omega, by omega, ?_⟩
    simp [this]

/-- Where the line is complete or bad, more bytes change nothing. -/
theorem mono {r' : ℕ} (h : Stop buffer r e st buffer' c') (hst : st ≠ .open) (hr : r ≤ r') :
    Stop buffer r' e st buffer' c' := by
  cases h with
  | exhausted _ => exact absurd rfl hst
  | lastCR _ _ => exact absurd rfl hst
  | crlf hb h1 hb' => exact .crlf hb (by omega) hb'
  | crBad hb h1 hb' hne => exact .crBad hb (by omega) hb' hne
  | lf hb h1 he hb' => exact .lf hb (by omega) he hb'
  | lfBad hb h1 hb' => exact .lfBad hb (by omega) hb'

theorem eq_of_open (h : Stop buffer r e .open buffer' c') : buffer' = buffer ∧ c' = e := by
  cases h <;> exact ⟨rfl, rfl⟩

end Stop

/-! ### Two ways past CR LF -/

/-- **When the two branches for CR LF agree**: from the CR on and from the LF on `parse_line` leaves
the same, unless the CR is the first byte of the buffer, to which the look back does not reach. -/
theorem branches_agree_iff {buffer : List Byte} {p r : ℕ} (hcr : buffer[p]? = some CR)
    (hlf : buffer[p + 1]? = some LF) (hr : p + 1 < r) :
    (∃ res, parseLine buffer p r = some res ∧ parseLine buffer (p + 1) r = some res) ↔ 0 < p := by
  have hfirst := parseLine_at_stop (.crlf hcr hr hlf)
  rw [hfirst]
  constructor
  · rintro ⟨res, hres, hsecond⟩
    by_contra h0
    have hbad := parseLine_at_stop (.lfBad hlf hr fun h1 => absurd h1 (by omega))
    cases (hres.trans hsecond.symm).trans hbad
  · intro hp
    exact ⟨_, rfl, parseLine_at_stop (.lf hlf hr (Nat.succ_lt_succ hp) hcr)⟩

/-- CR LF behind one byte. -/
theorem branches_agree_second : ∃ res, parseLine [71, CR, LF] 1 3 = some res ∧
    parseLine [71, CR, LF] 2 3 = some res :=
  (branches_agree_iff rfl rfl (by decide)).2 Nat.one_pos

/-- CR LF at the start. -/
theorem not_branches_agree_first : ¬ ∀ (buffer : List Byte) (p r : ℕ), buffer[p]? = some CR →
    buffer[p + 1]? = some LF → p + 1 < r →
    ∃ res, parseLine buffer p r = some res ∧ parseLine buffer (p + 1) r = some res := by
  intro hall
  obtain ⟨res, hfirst, hsecond⟩ := hall [CR, LF] 0 2 rfl rfl (by decide)
  exact absurd (hfirst.trans hsecond.symm) (by decide)

end Http

end LinuxServer
