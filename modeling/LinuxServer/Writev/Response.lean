import LinuxServer.CString.Format
import Mathlib.Algebra.Group.Int.Defs

/-!
# The answer of the file server

What `main` of `writev.cc` makes of a file: a header block in `header_buf`, which announces the
length of the file, and the vector that sends the block and the file.

* `File`: what the system calls say of the file.
* `respond file`: what `main` sends.
* `Announced n iv₀ iv₁`: the block is complete and announces the `n` bytes that are sent.

`announced_iff`: the length announced is the length sent up to the last `int`.
-/

namespace LinuxServer

namespace Writev

open CString Memory

/-- `BUF_SIZE` -/
def bufSize : ℕ := 1024

/-- What a `read` or a `writev` moves at most. -/
def maxTransfer : ℕ := 0x7ffff000

/-- `"HTTP/1.1"` -/
def http11 : List Byte := ascii ['H', 'T', 'T', 'P', '/', '1', '.', '1']

/-- `status_line[0]` -/
def status200 : List Byte := ascii ['2', '0', '0', ' ', 'O', 'K']

/-- `status_line[1]` -/
def status500 : List Byte :=
  ascii ['5', '0', '0', ' ', 'I', 'n', 't', 'e', 'r', 'n', 'a', 'l', ' ', 's', 'e', 'r', 'v', 'e',
    'r', ' ', 'e', 'r', 'r', 'o', 'r']

/-- `"Content-Length: "` -/
def contentLength : List Byte :=
  ascii ['C', 'o', 'n', 't', 'e', 'n', 't', '-', 'L', 'e', 'n', 'g', 't', 'h', ':', ' ']

/-- `"\r\n"` -/
def crlf : List Byte := [13, 10]

/-- The output of `"%s %s\r\n"`, for `"HTTP/1.1"` and a status. -/
def statusLine (status : List Byte) : List Byte := http11 ++ [32] ++ status ++ crlf

/-- The output of `"Content-Length: %d\r\n"`, for a number that is printed as `number`. -/
def lengthLine (number : List Byte) : List Byte := contentLength ++ number ++ crlf

/-- `static_cast<int>` -/
def toInt (i : ℤ) : ℤ := i.bmod (2 ^ 32)

/-- `static_cast<size_t>` -/
def toSize (i : ℤ) : ℕ := (i % 2 ^ 64).toNat

/-- What `main` reads of `file_stat`. -/
structure FileStat where
  /-- `S_ISDIR(st_mode)` -/
  isDir : Bool
  /-- `st_mode & S_IROTH` -/
  othersRead : Bool
  /-- `st_size` -/
  size : ℤ
  deriving DecidableEq, Repr

/-- The file, as the system calls show it. -/
structure File where
  /-- Nothing when `stat` fails. -/
  stat : Option FileStat
  /-- The bytes of the file; nothing when `read` fails. -/
  data : Option (List Byte)
  deriving DecidableEq, Repr

/-- `iovec`; `base` is the memory from `iov_base` on. -/
structure Iovec where
  base : List Byte
  len : ℕ
  deriving DecidableEq, Repr

/-- What `main` does in the end. -/
inductive Response where
  /-- `new` throws. -/
  | thrown
  | writev (iv₀ iv₁ : Iovec)
  | send (buf : Option (List Byte)) (len : ℕ)
  deriving DecidableEq, Repr

/-- `valid` and the bytes of `file_buf`; nothing when `new` throws. -/
def readFile (file : File) : Option (Bool × List Byte) :=
  match file.stat with
  | none => some (false, [])
  | some stat =>
    if stat.isDir then some (false, [])
    else if stat.othersRead then
      -- `st_size + 1` wraps around behind the last `off_t`
      if (stat.size + 1).bmod (2 ^ 64) < 0 then none
      else
        match file.data with
        | none => some (false, List.replicate (stat.size + 1).toNat 0)
        | some data =>
          -- `read` is called once; what it does not fill stays zero
          let data := data.take (min (toSize stat.size) maxTransfer)
          some (true, data ++ List.replicate ((stat.size + 1).toNat - data.length) 0)
    else some (false, [])

/-- The header block of a file, in `header_buf`; the length is that of the printed text. -/
def printHeader (size : ℤ) : Except Fault (Option (List Byte)) := do
  let headerBuf := some (List.replicate bufSize 0)
  let (headerBuf, len) ← snprintf headerBuf 0 (bufSize - 1) (statusLine status200)
  let (headerBuf, ret) ← snprintf headerBuf len (toSize (bufSize - len - 1))
    (lengthLine (decimal (toInt size)))
  let len := len + ret
  let (headerBuf, _) ← snprintf headerBuf len (toSize (bufSize - len - 1)) crlf
  pure headerBuf

/-- The header block of an error, for which `header_buf` is a null pointer. -/
def printError : Except Fault (Option (List Byte)) := do
  let (headerBuf, len) ← snprintf none 0 (bufSize - 1) (statusLine status500)
  let (headerBuf, _) ← snprintf headerBuf len (toSize (bufSize - len - 1)) crlf
  pure headerBuf

/-- `main`, from `stat` to what is sent. -/
def respond (file : File) : Except Fault Response :=
  match readFile file with
  | none => pure .thrown
  | some (valid, fileBuf) =>
    -- `file_stat` is zero before `stat`
    let size := (file.stat.map FileStat.size).getD 0
    if valid then do
      match ← printHeader size with
      | none => .error .nullPointer
      | some headerBuf =>
        match strlen headerBuf with
        | none => .error (.outOfBounds headerBuf.length)
        | some len => pure (.writev ⟨headerBuf, len⟩ ⟨fileBuf, toSize size⟩)
    else do
      -- `sizeof(header_buf)` is the size of a pointer
      pure (.send (← printError) 8)

/-! ### The length announced -/

/-- A regular file of `n` bytes that can be read. -/
def File.Serves (file : File) (n : ℤ) : Prop :=
  ∃ data, file.stat = some ⟨false, true, n⟩ ∧ file.data = some data

/-- The header block for a length that is printed as `number`. -/
def header (number : List Byte) : List Byte :=
  statusLine status200 ++ lengthLine number ++ crlf

/-- The header block is complete and fits the buffer, and the number in it is that of the bytes
sent. -/
structure Announced (n : ℤ) (iv₀ iv₁ : Iovec) : Prop where
  complete : ∃ number, iv₀.base.take iv₀.len = header number ∧ readDecimal number = some n
  fits : iv₀.base.length = bufSize ∧ iv₀.len < bufSize
  body : iv₁.len = n

variable {file : File} {n : ℤ}

theorem toInt_range (i : ℤ) : -2 ^ 31 ≤ toInt i ∧ toInt i < 2 ^ 31 := by
  have hle := Int.le_bmod (x := i) (m := 2 ^ 32) (by decide)
  have hlt := Int.bmod_lt (x := i) (m := 2 ^ 32) (by decide)
  unfold toInt
  omega

theorem length_decimal_toInt (i : ℤ) : (decimal (toInt i)).length ≤ 11 := by
  have hrange := toInt_range i
  exact length_decimal_le (k := 10) (by decide) (by omega)

theorem toSize_of_lt {i : ℤ} (h0 : 0 ≤ i) (hi : i < 2 ^ 64) : toSize i = i.toNat := by
  unfold toSize
  omega

theorem print_line {buf s : List Byte} (line : List Byte) (h : HoldsText bufSize buf s)
    (h0 : 0 ∉ line) (hfit : s.length + line.length + 1 < bufSize) :
    ∃ buf', snprintf (some buf) s.length (toSize (bufSize - s.length - 1)) line =
      .ok (some buf', line.length) ∧ HoldsText bufSize buf' (s ++ line) := by
  have hleft : toSize (bufSize - s.length - 1) = bufSize - s.length - 1 := by
    unfold bufSize at hfit ⊢
    rw [toSize_of_lt (by omega) (by omega)]
    omega
  rw [hleft]
  exact h.snprintf (by omega) (Nat.lt_of_succ_lt hfit) h0

/-- The header block is printed whole. -/
theorem printHeader_eq (i : ℤ) : ∃ buf, printHeader i = .ok (some buf) ∧
    HoldsText bufSize buf (header (decimal (toInt i))) := by
  have hnumber := length_decimal_toInt i
  have hlength : (lengthLine (decimal (toInt i))).length = (decimal (toInt i)).length + 18 := by
    rw [lengthLine, List.length_append, List.length_append]
    show 16 + _ + 2 = _
    omega
  have hzero : 0 ∉ lengthLine (decimal (toInt i)) := by
    rw [lengthLine, List.mem_append, List.mem_append, not_or, not_or]
    exact ⟨⟨by decide, zero_notMem_decimal _⟩, by decide⟩
  have hfit₂ : (statusLine status200).length + (lengthLine (decimal (toInt i))).length + 1 <
      bufSize := by
    show 17 + _ + 1 < 1024
    omega
  have hfit₃ : (statusLine status200 ++ lengthLine (decimal (toInt i))).length + crlf.length + 1 <
      bufSize := by
    rw [List.length_append]
    show 17 + _ + 2 + 1 < 1024
    omega
  obtain ⟨buf₁, h₁, hbuf₁⟩ := print_line (statusLine status200) (holdsText_zeros (by decide))
    (by decide) (by decide)
  obtain ⟨buf₂, h₂, hbuf₂⟩ := print_line _ hbuf₁ hzero hfit₂
  obtain ⟨buf, h₃, hbuf⟩ := print_line crlf hbuf₂ (by decide) hfit₃
  refine ⟨buf, ?_, hbuf⟩
  have hlen : ([] ++ statusLine status200 ++ lengthLine (decimal (toInt i))).length =
      (statusLine status200).length + (lengthLine (decimal (toInt i))).length := List.length_append
  rw [hlen] at h₃
  exact bind_eq_ok.2 ⟨_, h₁, bind_eq_ok.2 ⟨_, h₂, bind_eq_ok.2 ⟨_, h₃, rfl⟩⟩⟩

theorem respond_eq (hs : file.Serves n) (h0 : 0 ≤ n) (hn : n < 2 ^ 63 - 1) :
    ∃ buf fileBuf, respond file =
        .ok (.writev ⟨buf, (header (decimal (toInt n))).length⟩ ⟨fileBuf, n.toNat⟩) ∧
      HoldsText bufSize buf (header (decimal (toInt n))) := by
  obtain ⟨data, hstat, hdata⟩ := hs
  obtain ⟨buf, hprint, hbuf⟩ := printHeader_eq n
  have hlength : ¬ (n + 1).bmod (2 ^ 64) < 0 := by
    rw [Int.bmod_eq_of_le (by omega) (by omega)]
    omega
  have hsize : toSize n = n.toNat := toSize_of_lt h0 (by omega)
  obtain ⟨fileBuf, hread⟩ : ∃ fileBuf, readFile file = some (true, fileBuf) := by
    simp only [readFile, hstat, hdata, Bool.false_eq_true, if_false, if_true, hlength]
    exact ⟨_, rfl⟩
  refine ⟨buf, fileBuf, ?_, hbuf⟩
  simp only [respond, hread, hstat, if_true, Option.map_some, Option.getD_some, hprint, ok_bind,
    hbuf.strlen, hsize]
  rfl

/-- There is no memory for the largest files. -/
theorem respond_thrown (hs : file.Serves n) (hn : n = 2 ^ 63 - 1) : respond file = .ok .thrown := by
  obtain ⟨data, hstat, -⟩ := hs
  have hlength : (n + 1).bmod (2 ^ 64) < 0 := by
    rw [hn]
    decide
  simp only [respond, readFile, hstat, Bool.false_eq_true, if_false, if_true, hlength]
  rfl

theorem Announced.number_eq {buf fileBuf number : List Byte}
    (h : Announced n ⟨buf, (header number).length⟩ ⟨fileBuf, n.toNat⟩)
    (hbuf : HoldsText bufSize buf (header number)) : readDecimal number = some n := by
  obtain ⟨number', htake, hread⟩ := h.complete
  rw [hbuf.take_length] at htake
  obtain rfl : number = number' := by
    simpa only [header, lengthLine, List.append_assoc, List.append_cancel_left_eq,
      List.append_cancel_right_eq] using htake
  exact hread

/-- **When the length announced is the length sent**: for the files whose size is an `int`. -/
theorem announced_iff (hs : file.Serves n) (h0 : 0 ≤ n) (hn : n < 2 ^ 63) :
    (∃ iv₀ iv₁, respond file = .ok (.writev iv₀ iv₁) ∧ Announced n iv₀ iv₁) ↔ n < 2 ^ 31 := by
  rcases eq_or_ne n (2 ^ 63 - 1) with hmax | hmax
  · rw [respond_thrown hs hmax]
    refine iff_of_false ?_ (by omega)
    rintro ⟨iv₀, iv₁, hsent, -⟩
    cases hsent
  · obtain ⟨buf, fileBuf, hsent, hbuf⟩ := respond_eq hs h0 (by omega)
    constructor
    · rintro ⟨iv₀, iv₁, hsent', ha⟩
      obtain ⟨rfl, rfl⟩ := Response.writev.inj (Except.ok.inj (hsent.symm.trans hsent'))
      have hnumber : toInt n = n := by
        have hread := ha.number_eq hbuf
        rw [readDecimal_decimal] at hread
        exact Option.some.inj hread
      exact hnumber ▸ (toInt_range n).2
    · intro hint
      have hnumber : toInt n = n := Int.bmod_eq_of_le (by omega) (by omega)
      refine ⟨_, _, hsent, ⟨_, hbuf.take_length, ?_⟩, ⟨hbuf.length_eq, hbuf.length_lt⟩, ?_⟩
      · rw [hnumber, readDecimal_decimal]
      · exact Int.toNat_of_nonneg h0

/-- A file of five bytes. -/
theorem announced_iff_five : ∃ iv₀ iv₁,
    respond ⟨some ⟨false, true, 5⟩, some [104, 101, 108, 108, 111]⟩ = .ok (.writev iv₀ iv₁) ∧
      Announced 5 iv₀ iv₁ :=
  (announced_iff ⟨_, rfl, rfl⟩ (by decide) (by decide)).2 (by decide)

/-- A file of two gibibytes. -/
theorem not_announced_two_gib : ¬ ∀ (file : File) (n : ℤ), file.Serves n → 0 ≤ n → n < 2 ^ 63 →
    ∃ iv₀ iv₁, respond file = .ok (.writev iv₀ iv₁) ∧ Announced n iv₀ iv₁ := by
  intro hall
  have hs : File.Serves ⟨some ⟨false, true, 2 ^ 31⟩, some (List.replicate (2 ^ 31) 0)⟩ (2 ^ 31) :=
    ⟨_, rfl, rfl⟩
  obtain ⟨iv₀, iv₁, hsent, ha⟩ := hall _ _ hs (by decide) (by decide)
  obtain ⟨buf, fileBuf, hsent', hbuf⟩ := respond_eq hs (by decide) (by decide)
  obtain ⟨rfl, rfl⟩ := Response.writev.inj (Except.ok.inj (hsent'.symm.trans hsent))
  have hread := ha.number_eq hbuf
  rw [readDecimal_decimal] at hread
  exact absurd (Option.some.inj hread) (by decide)

/-- **A file that cannot be served** is answered through a null pointer. -/
theorem respond_of_not_valid {fileBuf : List Byte} (h : readFile file = some (false, fileBuf)) :
    respond file = .error .nullPointer := by
  rw [respond, h]
  rfl

end Writev

end LinuxServer
