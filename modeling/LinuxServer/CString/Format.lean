import LinuxServer.CString.Basic
import LinuxServer.Memory.Store
import Mathlib.Algebra.Group.Nat.Defs
import Mathlib.Data.Int.Order.Basic

/-!
# Formatted output

`snprintf` into a block of memory, and the decimal numbers that `%d` prints.

* `decimal i`: the text of a number; `readDecimal text`: the number that a text denotes.
* `snprintf buf pos size text`: the text is printed to the block `buf`, from `pos` on.
* `HoldsText size buf text`: a block of `size` bytes holds a text, and zeros behind it.

`readDecimal_decimal`: what is printed can be read again.  `HoldsText.snprintf`: a text that fits is
appended.
-/

namespace LinuxServer

namespace CString

open Memory

/-- The digits of a number. -/
def digits (n : ℕ) : List Byte := ascii (Nat.toDigits 10 n)

/-- `'-'` -/
def minus : Byte := 45

/-- The text that `%d` prints. -/
def decimal (i : ℤ) : List Byte := if i < 0 then minus :: digits i.natAbs else digits i.natAbs

/-- The character of a byte. -/
def char (b : Byte) : Char := Char.ofNat b.toNat

/-- The number that digits denote. -/
def readDigits (text : List Byte) : Option ℕ :=
  if text ≠ [] ∧ text.all fun b => (char b).isDigit then some (Nat.ofDigitChars 10 (text.map char) 0)
  else none

/-- The number that a text denotes. -/
def readDecimal : List Byte → Option ℤ
  | [] => none
  | b :: text =>
    if b = minus then (readDigits text).map fun n : ℕ => -(n : ℤ)
    else (readDigits (b :: text)).map fun n : ℕ => (n : ℤ)

/-- `snprintf(buf + pos, size, ...)` of a text.  At most `size` bytes are written, the last of them
a NUL; the length returned is that of the whole text. -/
def snprintf (buf : Option (List Byte)) (pos size : ℕ) (text : List Byte) :
    Except Fault (Option (List Byte) × ℕ) :=
  if size = 0 then .ok (buf, text.length)
  else
    match buf with
    | none => .error .nullPointer
    | some block =>
      let written := text.take (size - 1) ++ [0]
      if pos + written.length ≤ block.length then
        .ok (some (block.take pos ++ written ++ block.drop (pos + written.length)), text.length)
      else .error (.outOfBounds block.length)

/-- `strlen` -/
def strlen (m : List Byte) : Option ℕ := (cstr m).map List.length

/-! ### Decimal numbers -/

variable {n : ℕ} {i : ℤ} {b : Byte}

theorem char_ascii {c : Char} (hc : c.isDigit) : char (UInt8.ofNat c.toNat) = c := by
  have hle : c.toNat ≤ 57 := by
    simp only [Char.isDigit, ge_iff_le, Bool.and_eq_true, decide_eq_true_eq] at hc
    exact UInt32.le_iff_toNat_le.1 hc.2
  have hbyte : (UInt8.ofNat c.toNat).toNat = c.toNat := UInt8.toNat_ofNat_of_lt' (by
    show c.toNat < 256
    omega)
  rw [char, hbyte, Char.ofNat_toNat]

theorem isDigit_of_mem_digits (hb : b ∈ digits n) : (char b).isDigit := by
  obtain ⟨c, hc, rfl⟩ := List.mem_map.1 hb
  have hdigit := Nat.isDigit_of_mem_toDigits (by decide) (by decide) hc
  rwa [char_ascii hdigit]

theorem map_char_digits (n : ℕ) : (digits n).map char = Nat.toDigits 10 n := by
  rw [digits, ascii, List.map_map]
  refine (List.map_congr_left fun c hc => ?_).trans (List.map_id _)
  exact char_ascii (Nat.isDigit_of_mem_toDigits (by decide) (by decide) hc)

theorem digits_ne_nil (n : ℕ) : digits n ≠ [] :=
  mt List.map_eq_nil_iff.1 Nat.toDigits_ne_nil

theorem readDigits_digits (n : ℕ) : readDigits (digits n) = some n := by
  have hall : (digits n).all fun b => (char b).isDigit :=
    List.all_eq_true.2 fun b hb => isDigit_of_mem_digits hb
  rw [readDigits, if_pos ⟨digits_ne_nil n, hall⟩, map_char_digits, Nat.ofDigitChars_ten_toDigits]

/-- **A number that is printed can be read again.** -/
theorem readDecimal_decimal (i : ℤ) : readDecimal (decimal i) = some i := by
  unfold decimal
  split_ifs with hneg
  · rw [readDecimal, if_pos rfl, readDigits_digits, Option.map_some]
    exact congrArg some (by omega)
  · obtain ⟨b, text, htext⟩ := List.exists_cons_of_ne_nil (digits_ne_nil i.natAbs)
    have hb : b ≠ minus := by
      rintro rfl
      have hdigit : (char minus).isDigit :=
        isDigit_of_mem_digits (n := i.natAbs) (htext ▸ List.mem_cons_self)
      exact absurd hdigit (by decide)
    rw [htext, readDecimal, if_neg hb, ← htext, readDigits_digits, Option.map_some]
    exact congrArg some (by omega)

theorem zero_notMem_decimal (i : ℤ) : 0 ∉ decimal i := by
  have hdigits : ∀ n, 0 ∉ digits n := fun n h0 => absurd (isDigit_of_mem_digits h0) (by decide)
  unfold decimal
  split_ifs
  · rw [List.mem_cons, not_or]
    exact ⟨by decide, hdigits _⟩
  · exact hdigits _

theorem length_decimal_le {k : ℕ} (hk : 0 < k) (hi : i.natAbs < 10 ^ k) :
    (decimal i).length ≤ k + 1 := by
  have hdigits : (digits i.natAbs).length ≤ k := by
    rw [digits, ascii, List.length_map]
    exact (Nat.length_toDigits_le_iff (by decide) hk).2 hi
  unfold decimal
  split_ifs
  · exact Nat.succ_le_succ hdigits
  · exact hdigits.trans (Nat.le_succ k)

/-! ### Printing into a block -/

/-- A block of `size` bytes holds a text, and zeros behind it. -/
structure HoldsText (size : ℕ) (buf text : List Byte) : Prop where
  eq_append : buf = text ++ List.replicate (size - text.length) 0
  length_lt : text.length < size
  zero_notMem : 0 ∉ text

variable {size : ℕ} {buf s text : List Byte}

/-- `new char[size]()` -/
theorem holdsText_zeros (hsize : 0 < size) : HoldsText size (List.replicate size 0) [] :=
  ⟨rfl, hsize, List.not_mem_nil⟩

theorem HoldsText.length_eq (h : HoldsText size buf text) : buf.length = size := by
  rw [h.eq_append, List.length_append, List.length_replicate]
  exact Nat.add_sub_cancel' h.length_lt.le

theorem HoldsText.take_length (h : HoldsText size buf text) : buf.take text.length = text := by
  rw [h.eq_append, List.take_left]

theorem HoldsText.strlen (h : HoldsText size buf text) : strlen buf = some text.length := by
  obtain ⟨k, hk⟩ : ∃ k, size - text.length = k + 1 :=
    Nat.exists_eq_add_one.2 (Nat.sub_pos_of_lt h.length_lt)
  rw [CString.strlen, h.eq_append, hk, List.replicate_succ, cstr_append h.zero_notMem]
  rfl

/-- A text that fits is appended. -/
theorem HoldsText.snprintf (h : HoldsText size buf s) (hfit : text.length < n)
    (hroom : s.length + text.length < size) (h0 : 0 ∉ text) :
    ∃ buf', snprintf (some buf) s.length n text = .ok (some buf', text.length) ∧
      HoldsText size buf' (s ++ text) := by
  have hwritten : text.take (n - 1) ++ [0] = text ++ [0] := by
    rw [List.take_of_length_le (Nat.le_sub_one_of_lt hfit)]
  have hle : s.length + (text ++ [0]).length ≤ buf.length := by
    rw [h.length_eq, List.length_append]
    exact hroom
  have hrest : buf.drop (s.length + (text ++ [0]).length) =
      List.replicate (size - (s ++ text).length - 1) 0 := by
    rw [h.eq_append, List.drop_append, List.drop_of_length_le (Nat.le_add_right _ _),
      List.nil_append, List.drop_replicate, List.length_append, List.length_append,
      List.length_singleton]
    congr 1
    omega
  obtain ⟨k, hk⟩ : ∃ k, size - (s ++ text).length = k + 1 :=
    Nat.exists_eq_add_one.2 (by rw [List.length_append]; omega)
  rw [hk, Nat.add_sub_cancel] at hrest
  refine ⟨s ++ text ++ 0 :: List.replicate k 0, ?_, ?_, ?_, ?_⟩
  · simp only [CString.snprintf, Nat.ne_of_gt (Nat.zero_lt_of_lt hfit), if_false, hwritten, hle,
      if_true, hrest, h.take_length]
    simp only [List.append_assoc, List.singleton_append]
  · rw [hk, List.replicate_succ]
  · rwa [List.length_append]
  · rw [List.mem_append, not_or]
    exact ⟨h.zero_notMem, h0⟩

end CString

end LinuxServer
