import LinuxServer.Writev.Response

/-!
# What a client reads

A client of `writev.cc` takes the answer apart: lines up to an empty one, and as many bytes behind
it as the length in `Content-Length`.

* `readLine`, `readLines`: the lines of a stream.
* `clientRead`: the body of an answer, and the stream behind it.
* `sent iv₀ iv₁`: the bytes that `writev` sends.

`clientRead_iff`: the client reads the file, and stops behind it, exactly when one `writev` can send
the header block and the file.
-/

namespace LinuxServer

namespace Writev

open CString Memory

/-- The stream up to the first CR LF, and behind it. -/
def readLine : List Byte → Option (List Byte × List Byte)
  | a :: b :: s =>
    if a = 13 ∧ b = 10 then some ([], s) else (readLine (b :: s)).map fun r => (a :: r.1, r.2)
  | _ => none

/-- The lines up to an empty one, at most `n`, and what is behind it. -/
def readLines : ℕ → List Byte → Option (List (List Byte) × List Byte)
  | 0, _ => none
  | n + 1, s => do
    let (line, s) ← readLine s
    if line = [] then some ([], s)
    else
      let (lines, s) ← readLines n s
      some (line :: lines, s)

/-- The length in a header line, if it is one of a length. -/
def lengthOf (line : List Byte) : Option ℤ :=
  if line.take contentLength.length = contentLength then
    readDecimal (line.drop contentLength.length)
  else none

/-- The body of an answer with the status `200 OK`, and the stream behind it. -/
def clientRead (s : List Byte) : Option (List Byte × List Byte) := do
  let (lines, s) ← readLines s.length s
  let n ← lines.findSome? lengthOf
  if lines.head? = some (http11 ++ [32] ++ status200) ∧ 0 ≤ n ∧ n.toNat ≤ s.length then
    some (s.take n.toNat, s.drop n.toNat)
  else none

/-- What `writev` sends of the vector. -/
def sent (iv₀ iv₁ : Iovec) : List Byte :=
  (iv₀.base.take iv₀.len ++ iv₁.base.take iv₁.len).take maxTransfer

variable {file : File} {line s : List Byte} {data x : List Byte}

theorem readLine_append (h : 13 ∉ line) (s : List Byte) :
    readLine (line ++ 13 :: 10 :: s) = some (line, s) := by
  induction line with
  | nil => rfl
  | cons b line ih =>
    rw [List.mem_cons, not_or] at h
    have hrest := ih h.2
    cases line with
    | nil =>
      rw [List.nil_append] at hrest
      rw [List.singleton_append, readLine, if_neg fun hb => h.1 hb.1.symm, hrest]
      rfl
    | cons c line =>
      rw [List.cons_append, List.cons_append, readLine, if_neg fun hb => h.1 hb.1.symm,
        ← List.cons_append, hrest]
      rfl

theorem readLines_cons {n : ℕ} (h : 13 ∉ line) (hne : line ≠ []) (s : List Byte) :
    readLines (n + 1) (line ++ 13 :: 10 :: s) =
      (readLines n s).map fun r => (line :: r.1, r.2) := by
  simp only [readLines, readLine_append h, Option.bind_eq_bind, Option.bind_some, if_neg hne]
  cases readLines n s <;> rfl

theorem cr_notMem_decimal (i : ℤ) : 13 ∉ decimal i := by
  have hdigits : ∀ n, 13 ∉ digits n := fun n h => absurd (isDigit_of_mem_digits h) (by decide)
  unfold decimal
  split_ifs
  · rw [List.mem_cons, not_or]
    exact ⟨by decide, hdigits _⟩
  · exact hdigits _

theorem readLines_header {n : ℕ} (i : ℤ) (s : List Byte) :
    readLines (n + 3) (header (decimal i) ++ s) =
      some ([http11 ++ [32] ++ status200, contentLength ++ decimal i], s) := by
  have hlength : 13 ∉ contentLength ++ decimal i := by
    rw [List.mem_append, not_or]
    exact ⟨by decide, cr_notMem_decimal i⟩
  have hsplit : header (decimal i) ++ s = (http11 ++ [32] ++ status200) ++ 13 :: 10 ::
      ((contentLength ++ decimal i) ++ 13 :: 10 :: ([] ++ 13 :: 10 :: s)) := by
    simp only [header, statusLine, lengthLine, crlf, List.append_assoc, List.cons_append,
      List.nil_append]
  have hne : contentLength ++ decimal i ≠ [] := List.append_ne_nil_of_left_ne_nil (by decide) _
  rw [hsplit, readLines_cons (by decide) (by decide), readLines_cons hlength hne]
  rfl

theorem findSome?_header (i : ℤ) :
    [http11 ++ [32] ++ status200, contentLength ++ decimal i].findSome? lengthOf = some i := by
  have hstatus : lengthOf (http11 ++ [32] ++ status200) = none := by decide
  have hlength : lengthOf (contentLength ++ decimal i) = some i := by
    rw [lengthOf, List.take_left, if_pos rfl, List.drop_left, readDecimal_decimal]
  simp only [List.findSome?_cons, hstatus, hlength]

/-- What the client makes of a header block and what follows. -/
theorem clientRead_header (i : ℤ) (s : List Byte) : clientRead (header (decimal i) ++ s) =
    if 0 ≤ i ∧ i.toNat ≤ s.length then some (s.take i.toNat, s.drop i.toNat) else none := by
  obtain ⟨n, hn⟩ : ∃ n, (header (decimal i) ++ s).length = n + 3 := by
    refine Nat.exists_eq_add_of_le' ?_
    simp only [header, statusLine, List.length_append]
    show 3 ≤ 8 + 1 + 6 + 2 + _ + _ + _
    omega
  simp only [clientRead, hn, readLines_header, findSome?_header, Option.bind_eq_bind,
    Option.bind_some, List.head?_cons, true_and]

theorem readFile_eq (hstat : file.stat = some ⟨false, true, data.length⟩)
    (hdata : file.data = some data) (hlen : (data.length : ℤ) < 2 ^ 63 - 1) :
    readFile file = some (true, data.take maxTransfer ++
      List.replicate (data.length + 1 - (data.take maxTransfer).length) 0) := by
  have hsize : toSize data.length = data.length := toSize_of_lt (by omega) (by omega)
  have hlength : ¬ ((data.length : ℤ) + 1).bmod (2 ^ 64) < 0 := by
    rw [Int.bmod_eq_of_le (by omega) (by omega)]
    omega
  have htake : data.take (min data.length maxTransfer) = data.take maxTransfer := by
    rw [Nat.min_comm, ← List.take_take, List.take_length]
  simp only [readFile, hstat, hdata, Bool.false_eq_true, if_false, if_true, hlength, hsize, htake]
  rfl

theorem base_of_respond {iv₀ iv₁ : Iovec} (h : respond file = .ok (.writev iv₀ iv₁)) :
    readFile file = some (true, iv₁.base) := by
  unfold respond at h
  cases hread : readFile file with
  | none =>
    rw [hread] at h
    cases h
  | some r =>
    obtain ⟨valid, fileBuf⟩ := r
    rw [hread] at h
    cases valid with
    | false =>
      obtain ⟨buf, -, hsend⟩ := bind_eq_ok.1 h
      cases hsend
    | true =>
      obtain ⟨headerBuf, -, h⟩ := bind_eq_ok.1 h
      cases headerBuf with
      | none => cases h
      | some headerBuf =>
        dsimp only at h
        split at h
        · cases h
        · obtain ⟨-, rfl⟩ := Response.writev.inj (Except.ok.inj h)
          rfl

theorem length_header_le (i : ℤ) : (header (decimal (toInt i))).length < maxTransfer := by
  have hnumber := length_decimal_toInt i
  rw [header, lengthLine, List.length_append, List.length_append, List.length_append,
    List.length_append]
  show 17 + (16 + _ + 2) + 2 < 2147479552
  omega

/-- What is sent is the header block, and as much of the file as one call sends. -/
theorem sent_eq (data : List Byte) {buf fileBuf : List Byte}
    (hbuf : HoldsText bufSize buf (header (decimal (toInt data.length)))) :
    ∃ body, body.length ≤ data.length ∧
      sent ⟨buf, (header (decimal (toInt data.length))).length⟩ ⟨fileBuf, data.length⟩ =
        header (decimal (toInt data.length)) ++ body ∧
      body = (fileBuf.take data.length).take
        (maxTransfer - (header (decimal (toInt data.length))).length) := by
  refine ⟨_, ?_, ?_, rfl⟩
  · rw [List.length_take, List.length_take]
    omega
  · rw [sent, hbuf.take_length, List.take_append, List.take_of_length_le (length_header_le _).le]

/-- **When a client reads the file**: a client that goes by the header block reads the bytes of the
file, and leaves what is behind them in the stream, exactly when the header block and the file are
not more than one `writev` sends. -/
theorem clientRead_iff (data x : List Byte) (file : File)
    (hstat : file.stat = some ⟨false, true, data.length⟩) (hdata : file.data = some data)
    (hlen : (data.length : ℤ) < 2 ^ 63 - 1) :
    ∃ iv₀ iv₁, respond file = .ok (.writev iv₀ iv₁) ∧
      (clientRead (sent iv₀ iv₁ ++ x) = some (data, x) ↔
        (header (decimal data.length)).length + data.length ≤ maxTransfer) := by
  have hserves : file.Serves data.length := ⟨data, hstat, hdata⟩
  obtain ⟨buf, fileBuf, hresp, hbuf⟩ := respond_eq hserves (by omega) hlen
  have hbase := base_of_respond hresp
  rw [readFile_eq hstat hdata hlen] at hbase
  obtain rfl := (Prod.mk.inj (Option.some.inj hbase)).2
  obtain ⟨body, hle, hsent, hbody⟩ := sent_eq data hbuf
  have hrange := toInt_range data.length
  refine ⟨_, _, hresp, ?_⟩
  rw [Int.toNat_natCast, hsent, List.append_assoc, clientRead_header]
  constructor
  · intro hread
    split_ifs at hread with hn
    obtain ⟨htake, hdrop⟩ := Prod.mk.inj (Option.some.inj hread)
    -- as many bytes are read as the number says, and as many as were sent
    have hcount := congrArg List.length htake
    have hrest := congrArg List.length hdrop
    rw [List.length_take_of_le hn.2] at hcount
    rw [List.length_drop, List.length_append] at hrest
    rw [List.length_append] at hn
    have hnumber : toInt data.length = data.length := by omega
    have hfull : body.length = data.length := by omega
    rw [hnumber] at hbody
    have hbound := congrArg List.length hbody
    rw [List.length_take] at hbound
    have hheader := length_header_le data.length
    rw [hnumber] at hheader
    omega
  · intro hfits
    have hint : (data.length : ℤ) < 2 ^ 31 := by
      unfold maxTransfer at hfits
      omega
    have hnumber : toInt data.length = data.length := Int.bmod_eq_of_le (by omega) (by omega)
    have hwhole : data.take maxTransfer = data := List.take_of_length_le (by omega)
    rw [hwhole, hnumber, List.take_left, List.take_of_length_le (by omega)] at hbody
    subst hbody
    rw [hnumber, Int.toNat_natCast, if_pos, List.take_left, List.drop_left]
    exact ⟨by omega, by rw [List.length_append]; omega⟩

/-- A file of five bytes, and the beginning of another answer. -/
theorem clientRead_iff_five : ∃ iv₀ iv₁,
    respond ⟨some ⟨false, true, 5⟩, some [104, 101, 108, 108, 111]⟩ = .ok (.writev iv₀ iv₁) ∧
      clientRead (sent iv₀ iv₁ ++ [72, 84]) = some ([104, 101, 108, 108, 111], [72, 84]) := by
  obtain ⟨iv₀, iv₁, hresp, hiff⟩ := clientRead_iff [104, 101, 108, 108, 111] [72, 84]
    ⟨some ⟨false, true, 5⟩, some [104, 101, 108, 108, 111]⟩ rfl rfl (by decide)
  exact ⟨iv₀, iv₁, hresp, hiff.2 (by decide)⟩

end Writev

end LinuxServer
