import LinuxServer.CString.Basic

/-!
# The HTTP request parser

`http_parse.cc`: the line scanner `parseLine`, the in-place tokeniser `parseRequestLine`, the
header check `parseHeaders` and the two-state machine `parseContent` that drives them over one
buffer.

The buffer is a list of bytes and a pointer into it an index.  An access outside the buffer makes
the result `none`, so a function that returns `some` has only touched bytes it owns.  What the
parser prints is kept in `Parser.out`.
-/

namespace LinuxServer

namespace Http

open CString

/-- `'\r'` -/
def CR : Byte := 13

/-- `'\n'` -/
def LF : Byte := 10

/-- `" \t"` -/
def blanks : List Byte := [32, 9]

/-- `'/'` -/
def slash : Byte := 47

/-- `"GET"` -/
def GET : List Byte := ascii ['G', 'E', 'T']

/-- `"HTTP/1.1"` -/
def HTTP11 : List Byte := ascii ['H', 'T', 'T', 'P', '/', '1', '.', '1']

/-- `"http://"` -/
def httpScheme : List Byte := ascii ['h', 't', 't', 'p', ':', '/', '/']

/-- `"Host:"` -/
def hostField : List Byte := ascii ['H', 'o', 's', 't', ':']

/-- `CHECK_STATE` -/
inductive CheckState where
  | requestLine
  | header
  deriving DecidableEq, Repr

/-- `LINE_STATUS` -/
inductive LineStatus where
  | ok
  | bad
  | open
  deriving DecidableEq, Repr

/-- `HTTP_CODE` -/
inductive HttpCode where
  | noRequest
  | getRequest
  | badRequest
  | forbiddenRequest
  | internalError
  | closedConnection
  deriving DecidableEq, Repr

/-- What the program prints. -/
inductive Msg where
  /-- `The request method is GET` -/
  | methodGet
  /-- `The request URL is: ` and the url -/
  | url (u : List Byte)
  /-- `the request host is: ` and the host -/
  | host (h : List Byte)
  /-- `I can not handle this header` -/
  | unhandledHeader
  /-- `reading failed` -/
  | readingFailed
  /-- `remote client has closed this connection` -/
  | clientClosed
  deriving DecidableEq, Repr

/-- The variables that `main` carries from call to call. -/
structure Parser where
  /-- `buffer` -/
  buffer : List Byte
  /-- `checked_index` -/
  checkedIndex : ℕ
  /-- `check_state` -/
  checkState : CheckState
  /-- `start_line` -/
  startLine : ℕ
  /-- Everything printed so far. -/
  out : List Msg
  deriving DecidableEq, Repr

/-- The parser before the first call, on the buffer `s`. -/
def Parser.init (s : List Byte) : Parser := ⟨s, 0, .requestLine, 0, []⟩

/-! ### parse_line -/

/-- The loop of `parse_line` with `n = readIndex - c` iterations to go. -/
def parseLineLoop (readIndex : ℕ) : ℕ → List Byte → ℕ → Option (LineStatus × List Byte × ℕ)
  | 0, buffer, c => some (.open, buffer, c)
  | n + 1, buffer, c => do
    let temp ← buffer[c]?
    if temp = CR then
      -- the byte behind the CR has not been received
      if c + 1 = readIndex then some (.open, buffer, c)
      else
        let next ← buffer[c + 1]?
        if next = LF then some (.ok, (buffer.set c 0).set (c + 1) 0, c + 2)
        else some (.bad, buffer, c)
    else if temp = LF then
      -- the CR may have been the last byte of an earlier call
      if c > 1 then
        let prev ← buffer[c - 1]?
        if prev = CR then some (.ok, (buffer.set (c - 1) 0).set c 0, c + 1)
        else some (.bad, buffer, c)
      else some (.bad, buffer, c)
    else parseLineLoop readIndex n buffer (c + 1)

/-- `parse_line`: the status, the buffer and the new `checked_index`. -/
def parseLine (buffer : List Byte) (checkedIndex readIndex : ℕ) :
    Option (LineStatus × List Byte × ℕ) :=
  parseLineLoop readIndex (readIndex - checkedIndex) buffer checkedIndex

/-! ### parse_request_line -/

/-- `url[0] == '/'`, for a `url` that may be null. -/
def startsWithSlash (buffer : List Byte) : Option ℕ → Option Bool
  | none => some false
  | some url => do
    let b ← buffer[url]?
    some (b = slash)

/-- The `url` pointer behind `http://` and up to the next slash, null when there is none. -/
def skipScheme (buffer : List Byte) (url : ℕ) : Option (Option ℕ) := do
  let d ← strncasecmp 7 (buffer.drop url) httpScheme
  if d = 0 then
    let i ← strchr slash (buffer.drop (url + 7))
    some (i.map (url + 7 + ·))
  else some (some url)

/-- The part of `parse_request_line` behind the method check, with `url` just behind the
terminator of the method. -/
def parseTarget (buffer : List Byte) (url : ℕ) (checkState : CheckState) :
    Option (HttpCode × List Byte × CheckState × List Msg) := do
  let k ← strspn blanks (buffer.drop url)
  let url := url + k
  match ← strpbrk blanks (buffer.drop url) with
  | none => some (.badRequest, buffer, checkState, [.methodGet])
  | some j =>
    -- the NUL ends the url
    let buffer := buffer.set (url + j) 0
    let version := url + j + 1
    let k ← strspn blanks (buffer.drop version)
    let version := version + k
    let d ← strcasecmp (buffer.drop version) HTTP11
    if d ≠ 0 then some (.badRequest, buffer, checkState, [.methodGet])
    else
      let url ← skipScheme buffer url
      if ← startsWithSlash buffer url then
        let text ← cstr (buffer.drop (url.getD 0))
        some (.noRequest, buffer, .header, [.methodGet, .url text])
      else some (.badRequest, buffer, checkState, [.methodGet])

/-- `parse_request_line` on the C string at `temp`: the code, the buffer, the new `check_state`
and what is printed. -/
def parseRequestLine (buffer : List Byte) (temp : ℕ) (checkState : CheckState) :
    Option (HttpCode × List Byte × CheckState × List Msg) := do
  match ← strpbrk blanks (buffer.drop temp) with
  | none => some (.badRequest, buffer, checkState, [])
  | some i =>
    -- the NUL ends the method
    let buffer := buffer.set (temp + i) 0
    let url := temp + i + 1
    let d ← strcasecmp (buffer.drop temp) GET
    if d ≠ 0 then some (.badRequest, buffer, checkState, [])
    else parseTarget buffer url checkState

/-! ### parse_headers -/

/-- `parse_headers` on the C string at `temp`: the code and what is printed. -/
def parseHeaders (buffer : List Byte) (temp : ℕ) : Option (HttpCode × List Msg) := do
  let b ← buffer[temp]?
  if b = 0 then some (.getRequest, [])
  else
    let d ← strncasecmp 5 (buffer.drop temp) hostField
    if d = 0 then
      let k ← strspn blanks (buffer.drop (temp + 5))
      let text ← cstr (buffer.drop (temp + 5 + k))
      some (.noRequest, [.host text])
    else some (.noRequest, [.unhandledHeader])

/-! ### parse_content -/

/-- The body of the `while` of `parse_content` after a complete line: `none` in the first
component stands for going on with the next line.  (`check_state` has no third value, so the
`default` branch of the `switch` is never taken.) -/
def parseCompleteLine (P : Parser) : Option (Option HttpCode × Parser) := do
  let temp := P.startLine
  let P := { P with startLine := P.checkedIndex }
  match P.checkState with
  | .requestLine =>
    let (code, buffer, checkState, msgs) ← parseRequestLine P.buffer temp P.checkState
    let P := { P with buffer, checkState, out := P.out ++ msgs }
    if code = .badRequest then some (some .badRequest, P) else some (none, P)
  | .header =>
    let (code, msgs) ← parseHeaders P.buffer temp
    let P := { P with out := P.out ++ msgs }
    if code = .badRequest then some (some .badRequest, P)
    else if code = .getRequest then some (some .getRequest, P)
    else some (none, P)

/-- The loop of `parse_content`, at most `n` lines. -/
def parseContentLoop (readIndex : ℕ) : ℕ → Parser → Option (HttpCode × Parser)
  | 0, _ => none
  | n + 1, P => do
    let (status, buffer, checkedIndex) ← parseLine P.buffer P.checkedIndex readIndex
    let P := { P with buffer, checkedIndex }
    match status with
    | .open => some (.noRequest, P)
    | .bad => some (.badRequest, P)
    | .ok =>
      match ← parseCompleteLine P with
      | (some code, P) => some (code, P)
      | (none, P) => parseContentLoop readIndex n P

/-- `parse_content`.  Every complete line moves `checked_index` on, which bounds the number of
rounds of its loop. -/
def parseContent (P : Parser) (readIndex : ℕ) : Option (HttpCode × Parser) :=
  parseContentLoop readIndex (readIndex - P.checkedIndex + 1) P

end Http

end LinuxServer
