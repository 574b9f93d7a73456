import Mathlib.Data.Nat.Notation
import Mathlib.Data.Int.Notation
import Mathlib.Data.List.TakeWhile

/-!
# C strings in a block of memory

The string functions of the C library, as they walk over a block of memory given as the list of
its bytes from the pointer on.  A walk that leaves the block is an error: the result is `none`.

* `strpbrk`, `strspn`, `strchr`, `strcasecmp`, `strncasecmp` : the library functions; a returned
  pointer is the offset from the argument.
* `cstr` : the C string a pointer denotes, which is what printing it reads.

On a block `s ++ 0 :: x` that starts with the NUL-free string `s` and its terminator, every
function is total and depends on `s` alone (`strpbrk_append`, `strspn_append`, `strchr_append`,
`strcasecmp_append`, `strncasecmp_append`, `cstr_append`): no byte behind the NUL is looked at.
-/

namespace LinuxServer

/-- A byte of memory (a C `char`). -/
abbrev Byte := UInt8

namespace CString

/-- The bytes of an ASCII text. -/
def ascii (cs : List Char) : List Byte := cs.map fun c => UInt8.ofNat c.toNat

/-- `tolower` of the C locale. -/
def toLower (b : Byte) : Byte := if 65 ≤ b ∧ b ≤ 90 then b + 32 else b

/-- Equality of two texts ignoring case. -/
def EqIgnoreCase (s t : List Byte) : Prop := s.map toLower = t.map toLower

instance (s t : List Byte) : Decidable (EqIgnoreCase s t) :=
  inferInstanceAs (Decidable (s.map toLower = t.map toLower))

/-- The first byte of the string that is in `accept`, if there is one. -/
def strpbrk (accept : List Byte) : List Byte → Option (Option ℕ)
  | [] => none
  | b :: m =>
    if b = 0 then some none
    else if b ∈ accept then some (some 0)
    else (strpbrk accept m).map fun i => i.map (· + 1)

/-- The length of the longest prefix made of bytes of `accept`. -/
def strspn (accept : List Byte) : List Byte → Option ℕ
  | [] => none
  | b :: m => if b ≠ 0 ∧ b ∈ accept then (strspn accept m).map (· + 1) else some 0

/-- The first occurrence of `c` in the string. -/
def strchr (c : Byte) : List Byte → Option (Option ℕ)
  | [] => none
  | b :: m =>
    if b = c then some (some 0)
    else if b = 0 then some none
    else (strchr c m).map fun i => i.map (· + 1)

/-- Comparison ignoring case with the literal `t` on at most the first `n` bytes: the difference
of the first two bytes that differ, `0` when there is none. -/
def strncasecmp : ℕ → List Byte → List Byte → Option ℤ
  | 0, _, _ => some 0
  | _ + 1, [], _ => none
  | _ + 1, b :: _, [] => some (toLower b).toNat
  | n + 1, b :: m, c :: t =>
    if toLower b = toLower c then strncasecmp n m t
    else some ((toLower b).toNat - (toLower c).toNat)

/-- Comparison ignoring case with the literal `t`, up to and including its terminator. -/
def strcasecmp (m t : List Byte) : Option ℤ := strncasecmp (t.length + 1) m t

/-- The bytes before the first NUL. -/
def cstr : List Byte → Option (List Byte)
  | [] => none
  | b :: m => if b = 0 then some [] else (cstr m).map (b :: ·)

/-! ### On a terminated block -/

theorem toLower_eq_zero {b : Byte} : toLower b = 0 ↔ b = 0 := by
  unfold toLower
  split
  · rename_i h
    constructor
    · intro hb
      have := congrArg UInt8.toNat hb
      simp only [UInt8.le_iff_toNat_le, UInt8.toNat_add] at h this
      simp at h this
      omega
    · rintro rfl
      exact absurd h.1 (by decide)
  · rfl

theorem toNat_toLower_sub_ne {b c : Byte} (h : toLower b ≠ toLower c) :
    ((toLower b).toNat : ℤ) - (toLower c).toNat ≠ 0 := by
  intro hz
  exact h (UInt8.toNat_inj.1 (by omega))

theorem cstr_append {s : List Byte} (h : 0 ∉ s) (x : List Byte) : cstr (s ++ 0 :: x) = some s := by
  induction s with
  | nil => rfl
  | cons b s ih =>
    simp only [List.mem_cons, not_or] at h
    simp [cstr, Ne.symm h.1, ih h.2]

theorem strpbrk_append {accept s : List Byte} (h : 0 ∉ s) (x : List Byte) :
    strpbrk accept (s ++ 0 :: x) =
      some (if s.dropWhile (· ∉ accept) = [] then none
        else some (s.takeWhile (· ∉ accept)).length) := by
  induction s with
  | nil => simp [strpbrk]
  | cons b s ih =>
    simp only [List.mem_cons, not_or] at h
    by_cases hb : b ∈ accept
    · simp [strpbrk, Ne.symm h.1, hb]
    · simp only [List.cons_append, strpbrk, Ne.symm h.1, hb, ih h.2, if_false, Option.map_some,
        not_false_eq_true, decide_true, List.dropWhile_cons_of_pos, List.takeWhile_cons_of_pos,
        List.length_cons]
      split <;> rfl

theorem strspn_append {accept s : List Byte} (h : 0 ∉ s) (x : List Byte) :
    strspn accept (s ++ 0 :: x) = some (s.takeWhile (· ∈ accept)).length := by
  induction s with
  | nil => simp [strspn]
  | cons b s ih =>
    simp only [List.mem_cons, not_or] at h
    by_cases hb : b ∈ accept
    · simp [strspn, Ne.symm h.1, hb, ih h.2]
    · simp [strspn, hb]

theorem strchr_append {c : Byte} {s : List Byte} (hc : c ≠ 0) (h : 0 ∉ s) (x : List Byte) :
    strchr c (s ++ 0 :: x) =
      some (if s.dropWhile (· ≠ c) = [] then none
        else some (s.takeWhile (· ≠ c)).length) := by
  induction s with
  | nil => simp [strchr, Ne.symm hc]
  | cons b s ih =>
    simp only [List.mem_cons, not_or] at h
    by_cases hb : b = c
    · simp [strchr, hb]
    · simp only [List.cons_append, strchr, Ne.symm h.1, hb, ih h.2, if_false, Option.map_some,
        ne_eq, not_false_eq_true, decide_true, List.dropWhile_cons_of_pos,
        List.takeWhile_cons_of_pos, List.length_cons]
      split <;> rfl

theorem strncasecmp_append {s t : List Byte} (hs : 0 ∉ s) (ht : 0 ∉ t) (n : ℕ) (x : List Byte) :
    ∃ d : ℤ, strncasecmp n (s ++ 0 :: x) t = some d ∧
      (d = 0 ↔ EqIgnoreCase (s.take n) (t.take n)) := by
  induction s generalizing t n with
  | nil =>
    cases n with
    | zero => exact ⟨0, rfl, by simp [EqIgnoreCase]⟩
    | succ n =>
      cases t with
      | nil => exact ⟨0, rfl, by simp [EqIgnoreCase]⟩
      | cons c t =>
        have hne : toLower 0 ≠ toLower c := by
          intro he
          exact ht (by simp [toLower_eq_zero.1 he.symm])
        refine ⟨(toLower 0).toNat - (toLower c).toNat, ?_, ?_⟩
        · simp only [List.nil_append, strncasecmp, hne, if_false]
        · simp [toNat_toLower_sub_ne hne, EqIgnoreCase]
  | cons b s ih =>
    simp only [List.mem_cons, not_or] at hs
    cases n with
    | zero => exact ⟨0, rfl, by simp [EqIgnoreCase]⟩
    | succ n =>
      cases t with
      | nil =>
        have hb : ((toLower b).toNat : ℤ) ≠ 0 := by
          intro hz
          exact hs.1 (toLower_eq_zero.1 (UInt8.toNat_inj.1 (by simpa using hz))).symm
        exact ⟨_, rfl, by simpa [EqIgnoreCase] using hb⟩
      | cons c t =>
        simp only [List.mem_cons, not_or] at ht
        by_cases hbc : toLower b = toLower c
        · obtain ⟨d, hd, hiff⟩ := ih hs.2 ht.2 n
          refine ⟨d, by simp only [List.cons_append, strncasecmp, hbc, if_true, hd], ?_⟩
          rw [hiff]
          simp [EqIgnoreCase, hbc]
        · refine ⟨(toLower b).toNat - (toLower c).toNat, ?_, ?_⟩
          · simp only [List.cons_append, strncasecmp, hbc, if_false]
          · simp [toNat_toLower_sub_ne hbc, EqIgnoreCase, hbc]

theorem strcasecmp_append {s t : List Byte} (hs : 0 ∉ s) (ht : 0 ∉ t) (x : List Byte) :
    ∃ d : ℤ, strcasecmp (s ++ 0 :: x) t = some d ∧ (d = 0 ↔ EqIgnoreCase s t) := by
  obtain ⟨d, hd, hiff⟩ := strncasecmp_append hs ht (t.length + 1) x
  refine ⟨d, hd, hiff.trans ?_⟩
  rw [List.take_of_length_le (Nat.le_succ t.length)]
  -- a string longer than the literal still differs from it after the cut
  by_cases hl : s.length ≤ t.length + 1
  · rw [List.take_of_length_le hl]
  · constructor
    · intro h
      have := congrArg List.length h
      simp at this
      omega
    · intro h
      have := congrArg List.length h
      simp at this
      omega

end CString

end LinuxServer
