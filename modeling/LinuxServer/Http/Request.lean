import LinuxServer.Http.Grammar
import Mathlib.Data.Bool.AllAny

/-!
# Requests and their texts

* `Request`: a url and header fields that can be written down.
* `Request.encode`: the text that a client sends.
* `Request.parsed`: the parser that has read it.

`feed_encode`: in whatever pieces the text arrives, and whatever follows it, the parser accepts it,
prints the path and the hosts, and stops behind it.
-/

namespace LinuxServer

namespace Http

open CString

/-- `':'` -/
def colon : Byte := 58

/-- A byte that ends neither a line nor a word nor a string. -/
def UrlByte (b : Byte) : Prop := Plain b ∧ b ≠ 0 ∧ b ∉ blanks

instance : DecidablePred UrlByte := fun b =>
  inferInstanceAs (Decidable (Plain b ∧ b ≠ 0 ∧ b ∉ blanks))

/-- A url: a path, or an absolute url with a host. -/
structure Target where
  host : Option (List Byte)
  path : List Byte
  host_bytes : ∀ h ∈ host, ∀ b ∈ h, UrlByte b ∧ b ≠ slash
  path_bytes : ∀ b ∈ path, UrlByte b
  path_head : path.head? = some slash

/-- A header field. -/
structure Field where
  name : List Byte
  value : List Byte
  name_bytes : ∀ b ∈ name, Plain b ∧ b ≠ 0 ∧ b ≠ colon
  value_bytes : ∀ b ∈ value, Plain b ∧ b ≠ 0
  value_head : ∀ b ∈ value.head?, b ∉ blanks

/-- A request that can be written down. -/
structure Request where
  target : Target
  fields : List Field

/-- The url, as it is written. -/
def Target.text (t : Target) : List Byte :=
  match t.host with
  | none => t.path
  | some h => httpScheme ++ (h ++ t.path)

/-- The header line, as it is written. -/
def Field.text (f : Field) : List Byte := f.name ++ colon :: 32 :: f.value

/-- The request line. -/
def Request.line (r : Request) : List Byte := GET ++ 32 :: (r.target.text ++ 32 :: HTTP11)

/-- The text of the request. -/
def Request.encode (r : Request) : List Byte :=
  crlfLines (r.line :: r.fields.map Field.text) ++ [CR, LF]

/-- What is printed for a header field. -/
def Field.msg (f : Field) : Msg :=
  if EqIgnoreCase f.name (hostField.take 4) then .host f.value else .unhandledHeader

/-- What is printed for a request. -/
def Request.msgs (r : Request) : List Msg :=
  [.methodGet, .url r.target.path] ++ r.fields.map Field.msg

/-- The lines `ls`, each ended by two NULs. -/
def nulLines (ls : List (List Byte)) : List Byte := ls.flatMap fun l => l ++ [0, 0]

/-- The text with its words and lines ended by NULs. -/
def Request.tokens (r : Request) : List Byte :=
  nulLines ((GET ++ 0 :: (r.target.text ++ 0 :: HTTP11)) :: r.fields.map Field.text) ++ [0, 0]

/-- The parser that has read the request, in front of the bytes `x`. -/
def Request.parsed (r : Request) (x : List Byte) : Parser where
  buffer := r.tokens ++ x
  checkedIndex := r.encode.length
  checkState := .header
  startLine := r.encode.length
  out := r.msgs

variable {t : Target} {f : Field} {r : Request} {pre x : List Byte} {out : List Msg}

/-! ### The lines -/

theorem Target.path_ne_nil (t : Target) : t.path ≠ [] := by
  intro h
  have hhead := t.path_head
  rw [h] at hhead
  cases hhead

theorem urlByte_httpScheme : ∀ b ∈ httpScheme, UrlByte b := List.all_iff_forall_prop.1 (by decide)

theorem urlByte_GET : ∀ b ∈ GET, UrlByte b := List.all_iff_forall_prop.1 (by decide)

theorem urlByte_HTTP11 : ∀ b ∈ HTTP11, UrlByte b := List.all_iff_forall_prop.1 (by decide)

theorem Target.text_bytes (t : Target) : ∀ b ∈ t.text, UrlByte b := by
  intro b hb
  unfold Target.text at hb
  split at hb
  · exact t.path_bytes b hb
  · rename_i h hh
    rcases List.mem_append.1 hb with hb | hb
    · exact urlByte_httpScheme b hb
    · rcases List.mem_append.1 hb with hb | hb
      · exact (t.host_bytes h hh b hb).1
      · exact t.path_bytes b hb

theorem urlPath_text (t : Target) : urlPath t.text = some t.path := by
  unfold Target.text
  split
  · -- a path does not start like the scheme
    have hscheme : ¬ EqIgnoreCase (t.path.take 7) httpScheme := by
      intro h
      have hhead := congrArg List.head? h
      have hpathhead := t.path_head
      cases hp : t.path with
      | nil => exact t.path_ne_nil hp
      | cons b p =>
        rw [hp] at hpathhead hhead
        obtain rfl : b = slash := Option.some.inj hpathhead
        simp [httpScheme, ascii, toLower, slash] at hhead
    rw [urlPath, if_neg hscheme, if_pos t.path_head]
  · rename_i h hh
    have htake : (httpScheme ++ (h ++ t.path)).take 7 = httpScheme := rfl
    have hdrop : (httpScheme ++ (h ++ t.path)).drop 7 = h ++ t.path := rfl
    have hpath : (h ++ t.path).dropWhile (· ≠ slash) = t.path := by
      refine (takeWhile_append_stop (fun b hb => ?_) fun b hb => ?_).2
      · simpa using (t.host_bytes h hh b hb).2
      · rw [t.path_head] at hb
        obtain rfl : slash = b := Option.some.inj hb
        simp
    have hrefl : EqIgnoreCase httpScheme httpScheme := rfl
    rw [urlPath, htake, hdrop, hpath, if_pos hrefl]
    simp only [if_neg t.path_ne_nil]

theorem requestLine_line (r : Request) : requestLine r.line =
    ⟨.noRequest, GET ++ 0 :: (r.target.text ++ 0 :: HTTP11), [.methodGet, .url r.target.path]⟩ := by
  have hu : ∀ b ∈ r.target.text, b ∉ blanks := fun b hb => (r.target.text_bytes b hb).2.2
  have hne : r.target.text ≠ [] := by
    intro h
    have hnil : urlPath [] = none := by decide
    have hpath := urlPath_text r.target
    rw [h, hnil] at hpath
    cases hpath
  have hget : ∀ b ∈ GET, b ∉ blanks := fun b hb => (urlByte_GET b hb).2.2
  -- the method
  obtain ⟨hm1, hm2⟩ := takeWhile_append_stop (p := (· ∉ blanks)) (a := GET)
    (b := 32 :: (r.target.text ++ 32 :: HTTP11)) (by simpa using hget) (by simp [blanks])
  -- no more blanks
  obtain ⟨hw1, hw2⟩ := takeWhile_append_stop (p := (· ∈ blanks)) (a := [])
    (b := r.target.text ++ 32 :: HTTP11) (by simp) (by
      obtain ⟨c, u, hcu⟩ := List.exists_cons_of_ne_nil hne
      have hc := hu c (by rw [hcu]; exact List.mem_cons_self)
      rw [hcu]
      simpa using hc)
  -- the url
  obtain ⟨hu1, hu2⟩ := takeWhile_append_stop (p := (· ∉ blanks)) (a := r.target.text)
    (b := 32 :: HTTP11) (by simpa using hu) (by simp [blanks])
  have hv : HTTP11.dropWhile (· ∈ blanks) = HTTP11 := by decide
  have hrefl : ∀ s, EqIgnoreCase s s := fun _ => rfl
  rw [List.nil_append] at hw1 hw2
  rw [Request.line, requestLine]
  simp only [hm1, hm2, if_pos (hrefl GET), requestTarget, hw1, hw2, hu1, hu2, hv,
    if_pos (hrefl HTTP11), urlPath_text, List.append_assoc, List.cons_append, List.nil_append]

theorem clean_line (r : Request) : Clean r.line ∧ 0 ∉ r.line := by
  have hblank : Plain 32 := by decide
  constructor
  · intro b hb
    simp only [Request.line, List.mem_append, List.mem_cons] at hb
    rcases hb with hb | rfl | hb | rfl | hb
    · exact (urlByte_GET b hb).1
    · exact hblank
    · exact (r.target.text_bytes b hb).1
    · exact hblank
    · exact (urlByte_HTTP11 b hb).1
  · simp only [Request.line, List.mem_append, List.mem_cons, not_or]
    exact ⟨fun h => (urlByte_GET 0 h).2.1 rfl, by decide,
      fun h => (r.target.text_bytes 0 h).2.1 rfl, by decide,
      fun h => (urlByte_HTTP11 0 h).2.1 rfl⟩

theorem clean_field (f : Field) : Clean f.text ∧ 0 ∉ f.text ∧ f.text ≠ [] := by
  have hcolon : Plain colon ∧ colon ≠ 0 := by decide
  have hblank : Plain 32 := by decide
  refine ⟨fun b hb => ?_, ?_, by simp [Field.text]⟩
  · simp only [Field.text, List.mem_append, List.mem_cons] at hb
    rcases hb with hb | rfl | rfl | hb
    · exact (f.name_bytes b hb).1
    · exact hcolon.1
    · exact hblank
    · exact (f.value_bytes b hb).1
  · simp only [Field.text, List.mem_append, List.mem_cons, not_or]
    exact ⟨fun h => (f.name_bytes 0 h).2.1 rfl, hcolon.2.symm, by decide,
      fun h => (f.value_bytes 0 h).2 rfl⟩

theorem toLower_eq_colon {b : Byte} (h : toLower b = colon) : b = colon := by
  unfold toLower at h
  split at h
  · rename_i hb
    have hval := congrArg UInt8.toNat h
    simp only [UInt8.le_iff_toNat_le, UInt8.toNat_add, colon] at hb hval
    simp at hb hval
    omega
  · exact h

/-- The line is a host line when the name in front of its first colon is. -/
theorem take_text_iff (f : Field) :
    EqIgnoreCase (f.text.take 5) hostField ↔ EqIgnoreCase f.name (hostField.take 4) := by
  have hhost : hostField = hostField.take 4 ++ [colon] := by decide
  constructor
  · intro h
    have hname : ∀ b ∈ f.name.map toLower, b ≠ colon := by
      intro b hb hcolon
      obtain ⟨c, hc, rfl⟩ := List.mem_map.1 hb
      exact (f.name_bytes c hc).2.2 (toLower_eq_colon hcolon)
    have hfour : ∀ b ∈ (hostField.take 4).map toLower, b ≠ colon :=
      List.all_iff_forall_prop.1 (by decide)
    have htext : f.name.map toLower ++ colon :: (32 :: f.value).map toLower =
        (hostField.take 4).map toLower ++ colon :: (f.text.drop 5).map toLower := by
      have hsplit := congrArg (List.map toLower) (List.take_append_drop 5 f.text)
      rw [List.map_append, h, hhost, List.map_append] at hsplit
      simpa [Field.text, toLower, colon] using hsplit.symm
    -- both sides up to the first colon
    have hleft := (takeWhile_append_stop (p := (· ≠ colon)) (a := f.name.map toLower)
      (b := colon :: (32 :: f.value).map toLower) (by simpa using hname) (by simp)).1
    have hright := (takeWhile_append_stop (p := (· ≠ colon)) (a := (hostField.take 4).map toLower)
      (b := colon :: (f.text.drop 5).map toLower) (by simpa using hfour) (by simp)).1
    rw [htext] at hleft
    exact hleft.symm.trans hright
  · intro h
    have hlen : f.name.length = 4 := by
      have hlen := congrArg List.length h
      rwa [List.length_map, List.length_map] at hlen
    have htake : f.text.take 5 = f.name ++ [colon] := by
      rw [Field.text, List.take_append, hlen, List.take_of_length_le (by omega)]
      rfl
    rw [htake, hhost, EqIgnoreCase, List.map_append, List.map_append, h]

theorem headerLine_text (f : Field) : (headerLine f.text).2 = [f.msg] := by
  rw [headerLine, if_neg (clean_field f).2.2, Field.msg]
  by_cases h : EqIgnoreCase f.name (hostField.take 4)
  · have hlen : f.name.length = 4 := by
      have hlen := congrArg List.length h
      rwa [List.length_map, List.length_map] at hlen
    have hdrop : f.text.drop 5 = 32 :: f.value := by
      rw [Field.text, List.drop_append, hlen, List.drop_of_length_le (by omega)]
      rfl
    have hvalue : (32 :: f.value).dropWhile (· ∈ blanks) = f.value :=
      (takeWhile_append_stop (p := (· ∈ blanks)) (a := [32]) (b := f.value) (by simp [blanks])
        (by simpa using f.value_head)).2
    rw [if_pos ((take_text_iff f).2 h), if_pos h, hdrop, hvalue]
  · rw [if_neg (mt (take_text_iff f).1 h), if_neg h]

/-! ### The text -/

/-- A line that does not end the request, and what comes behind it. -/
theorem content_line {cs : CheckState} {l y : List Byte} {r : ℕ} {code : HttpCode} {P' : Parser}
    (hl : Clean l) (h0 : 0 ∉ l) (hr : pre.length + l.length + 1 < r)
    (hres : (lineOutcome cs l).1 = none)
    (hrest : Content r
      ⟨pre ++ ((lineOutcome cs l).2.1 ++ 0 :: 0 :: y), pre.length + (l.length + 2),
        (lineOutcome cs l).2.2.1, pre.length + (l.length + 2),
        out ++ (lineOutcome cs l).2.2.2⟩ code P') :
    Content r ⟨pre ++ (l ++ CR :: LF :: y), pre.length, cs, pre.length, out⟩ code P' := by
  have hok := parseLine_crlf pre y hl hr
  have hcomplete := parseCompleteLine_crlf pre y h0 (pre ++ l ++ CR :: LF :: y) cs out
    (pre.length + l.length + 2)
  rw [hres] at hcomplete
  rw [← List.append_assoc] at hrest ⊢
  exact .next hok hcomplete hrest

theorem content_fields (pre x : List Byte) (out : List Msg) (fs : List Field) {r : ℕ}
    (hr : r = pre.length + (crlfLines (fs.map Field.text) ++ [CR, LF]).length) : Content r
    ⟨pre ++ (crlfLines (fs.map Field.text) ++ CR :: LF :: x), pre.length, .header, pre.length, out⟩
    .getRequest
    ⟨pre ++ (nulLines (fs.map Field.text) ++ 0 :: 0 :: x), r, .header, r,
      out ++ fs.map Field.msg⟩ := by
  induction fs generalizing pre out with
  | nil =>
    -- the blank line
    have hr : r = pre.length + 0 + 2 := hr
    have hok := parseLine_crlf pre x clean_nil (r := r) (by rw [hr]; exact Nat.lt_succ_self _)
    have hcomplete := parseCompleteLine_crlf pre x (l := []) List.not_mem_nil
      (pre ++ [] ++ CR :: LF :: x) .header out (pre.length + 0 + 2)
    have hout : lineOutcome .header [] = (some .getRequest, [], .header, []) := rfl
    rw [hout, ← hr] at hcomplete
    dsimp only at hcomplete
    rw [List.append_nil pre] at hcomplete
    rw [List.append_nil, List.length_nil, ← hr] at hok
    exact .done hok hcomplete
  | cons f fs ih =>
    obtain ⟨hclean, h0, hne⟩ := clean_field f
    have hout : lineOutcome .header f.text = (none, f.text, .header, [f.msg]) := by
      simp only [lineOutcome, if_neg hne, headerLine_text]
    have hlen : (crlfLines ((f :: fs).map Field.text) ++ [CR, LF]).length =
        f.text.length + 2 + (crlfLines (fs.map Field.text) ++ [CR, LF]).length := by
      simp only [crlfLines, List.map_cons, List.flatMap_cons, List.length_append, List.length_cons,
        List.length_nil]
      omega
    have hpre : (pre ++ (f.text ++ [0, 0])).length = pre.length + (f.text.length + 2) := by
      simp only [List.length_append, List.length_cons, List.length_nil]
    have hih := ih (pre ++ (f.text ++ [0, 0])) (out ++ [f.msg]) (by omega)
    simp only [crlfLines, nulLines, List.map_cons, List.flatMap_cons, List.append_assoc,
      List.cons_append, List.nil_append] at hih ⊢
    refine content_line hclean h0 ?_ (congrArg Prod.fst hout) ?_
    · simp only [List.length_append, List.length_cons] at hlen hr
      omega
    · rw [hpre] at hih
      rw [hout]
      simpa only [List.append_assoc, List.cons_append, List.nil_append] using hih

theorem content_encode (r : Request) (x : List Byte) :
    Content r.encode.length (Parser.init (r.encode ++ x)) .getRequest (r.parsed x) := by
  obtain ⟨hclean, h0⟩ := clean_line r
  have hout : lineOutcome .requestLine r.line = (none, GET ++ 0 :: (r.target.text ++ 0 :: HTTP11),
      .header, [.methodGet, .url r.target.path]) := by
    simp only [lineOutcome, requestLine_line, reduceCtorEq, if_false]
  set words := GET ++ 0 :: (r.target.text ++ 0 :: HTTP11) with hwords
  have hlen : r.encode.length =
      r.line.length + 2 + (crlfLines (r.fields.map Field.text) ++ [CR, LF]).length := by
    simp only [Request.encode, crlfLines, List.flatMap_cons, List.length_append, List.length_cons,
      List.length_nil]
    omega
  have hpre : (words ++ [0, 0]).length = r.line.length + 2 := by
    simp only [hwords, Request.line, List.length_append, List.length_cons, List.length_nil]
  have hfields := content_fields (words ++ [0, 0]) x [.methodGet, .url r.target.path] r.fields
    (hlen.trans (by rw [hpre]))
  rw [hpre] at hfields
  have hline : Content r.encode.length
      ⟨[] ++ (r.line ++ CR :: LF :: (crlfLines (r.fields.map Field.text) ++ CR :: LF :: x)),
        0, .requestLine, 0, []⟩ .getRequest (r.parsed x) := by
    refine content_line hclean h0 (by rw [List.length_nil]; omega) (congrArg Prod.fst hout) ?_
    rw [hout]
    simpa only [hwords, Request.parsed, Request.tokens, Request.msgs, nulLines,
      List.flatMap_cons, List.append_assoc, List.cons_append, List.nil_append, List.length_nil,
      Nat.zero_add] using hfields
  simpa only [Parser.init, Request.encode, crlfLines, List.flatMap_cons, List.append_assoc,
    List.cons_append, List.nil_append, List.length_nil] using hline

/-- **Requests are read back.**  In whatever pieces the text of a request and the bytes `x` behind
it arrive, the parser accepts the request, prints its path and its hosts in order, ends its words
and lines with NULs, and leaves the bytes behind it alone. -/
theorem feed_encode (r : Request) (x : List Byte) (rs : List ℕ) (n : ℕ) (hs : rs.Pairwise (· < ·))
    (hl : rs.getLast? = some n) (hn : r.encode.length ≤ n) (hx : n ≤ (r.encode ++ x).length) :
    feed (Parser.init (r.encode ++ x)) rs = some (.getRequest, r.parsed x) := by
  have hwf : (Parser.init (r.encode ++ x)).WF n := ⟨Nat.le_refl 0, hx⟩
  have hcall := (parseContent_iff (Parser.init_wf r.encode x)).2 (content_encode r x)
  rw [feed_eq_of_sorted hwf hs hl]
  exact parseContent_mono hwf hcall nofun hn

/-- `GET / HTTP/1.1` and `hOST: a`. -/
def hostRequest : Request where
  target :=
    { host := none, path := [slash], host_bytes := by simp,
      path_bytes := List.all_iff_forall_prop.1 (by decide), path_head := rfl }
  fields :=
    [{ name := ascii ['h', 'O', 'S', 'T'], value := [97],
       name_bytes := List.all_iff_forall_prop.1 (by decide),
       value_bytes := List.all_iff_forall_prop.1 (by decide), value_head := by simp [blanks] }]

example : hostRequest.msgs = [.methodGet, .url [slash], .host [97]] := by decide

/-- The pieces end in the url, between CR and LF, and behind the request. -/
theorem feed_encode_host : feed (Parser.init (hostRequest.encode ++ [71, 69])) [5, 15, 28] =
    some (.getRequest, hostRequest.parsed [71, 69]) :=
  feed_encode hostRequest [71, 69] [5, 15, 28] 28 (by decide) rfl (by decide) (by decide)

end Http

end LinuxServer
