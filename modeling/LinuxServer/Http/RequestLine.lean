import LinuxServer.Http.Parse

/-!
# The tokeniser on one line

`requestLine s` says on the bytes of a line alone what `parse_request_line` does to it: the code,
the bytes the line is left with (a NUL behind the method and behind the url) and what is printed.
`headerLine` does the same for `parse_headers`.  The functions on the buffer agree with them
wherever the line lies and whatever surrounds it (`parseRequestLine_append`,
`parseHeaders_append`), so they touch no byte behind the terminator of the line.
-/

namespace LinuxServer

namespace Http

open CString

/-- The path of the url token `u`: what follows the host when it starts with `http://`, `u`
itself when it starts with a slash. -/
def urlPath (u : List Byte) : Option (List Byte) :=
  if EqIgnoreCase (u.take 7) httpScheme then
    let path := (u.drop 7).dropWhile (· ≠ slash)
    if path = [] then none else some path
  else if u.head? = some slash then some u
  else none

/-- The outcome of `parse_request_line` on a line. -/
structure LineResult where
  /-- The code returned. -/
  code : HttpCode
  /-- The bytes of the line afterwards. -/
  text : List Byte
  /-- What is printed. -/
  msgs : List Msg
  deriving DecidableEq, Repr

/-- The part of `requestLine` behind the method and its terminator. -/
def requestTarget (m r : List Byte) : LineResult :=
  let w := r.dropWhile (· ∈ blanks)
  match w.dropWhile (· ∉ blanks) with
  | [] => ⟨.badRequest, m ++ 0 :: r, [.methodGet]⟩
  | _ :: q =>
    let u := w.takeWhile (· ∉ blanks)
    let text := m ++ 0 :: r.takeWhile (· ∈ blanks) ++ u ++ 0 :: q
    if EqIgnoreCase (q.dropWhile (· ∈ blanks)) HTTP11 then
      match urlPath u with
      | some path => ⟨.noRequest, text, [.methodGet, .url path]⟩
      | none => ⟨.badRequest, text, [.methodGet]⟩
    else ⟨.badRequest, text, [.methodGet]⟩

/-- `parse_request_line` on the line `s`. -/
def requestLine (s : List Byte) : LineResult :=
  let m := s.takeWhile (· ∉ blanks)
  match s.dropWhile (· ∉ blanks) with
  | [] => ⟨.badRequest, s, []⟩
  | _ :: r =>
    if EqIgnoreCase m GET then requestTarget m r else ⟨.badRequest, m ++ 0 :: r, []⟩

/-- `parse_headers` on the line `s`. -/
def headerLine (s : List Byte) : HttpCode × List Msg :=
  if s = [] then (.getRequest, [])
  else if EqIgnoreCase (s.take 5) hostField then
    (.noRequest, [.host ((s.drop 5).dropWhile (· ∈ blanks))])
  else (.noRequest, [.unhandledHeader])

theorem requestTarget_code (m r : List Byte) :
    (requestTarget m r).code = .noRequest ∨ (requestTarget m r).code = .badRequest := by
  simp only [requestTarget]
  split
  · exact .inr rfl
  · split
    · split
      · exact .inl rfl
      · exact .inr rfl
    · exact .inr rfl

/-- The request line is refused or gone past, nothing else. -/
theorem requestLine_code (s : List Byte) :
    (requestLine s).code = .noRequest ∨ (requestLine s).code = .badRequest := by
  simp only [requestLine]
  split
  · exact .inr rfl
  · split
    · exact requestTarget_code _ _
    · exact .inr rfl

theorem headerLine_code (s : List Byte) :
    (headerLine s).1 = if s = [] then .getRequest else .noRequest := by
  unfold headerLine
  split_ifs <;> rfl

theorem length_requestTarget_text (m r : List Byte) :
    (requestTarget m r).text.length = (m ++ 0 :: r).length := by
  simp only [requestTarget]
  split
  · rfl
  · rename_i b q hq
    -- the url token and the bytes behind it are what follows the blanks
    have hr := congrArg List.length
      (List.takeWhile_append_dropWhile (p := (· ∈ blanks)) (l := r))
    have hw := congrArg List.length
      (List.takeWhile_append_dropWhile (p := (· ∉ blanks)) (l := r.dropWhile (· ∈ blanks)))
    rw [hq] at hw
    simp only [List.length_append, List.length_cons] at hr hw
    split
    · split <;> simp only [List.length_append, List.length_cons] <;> omega
    · simp only [List.length_append, List.length_cons]
      omega

theorem length_requestLine_text (s : List Byte) : (requestLine s).text.length = s.length := by
  simp only [requestLine]
  split
  · rfl
  · rename_i b r hr
    have hs := congrArg List.length
      (List.takeWhile_append_dropWhile (p := (· ∉ blanks)) (l := s))
    rw [hr] at hs
    split
    · rw [length_requestTarget_text]
      simpa using hs
    · simpa using hs

/-! ### Positions in a buffer -/

theorem drop_of_eq {l a b : List Byte} {n : ℕ} (h : l = a ++ b) (hn : n = a.length) :
    l.drop n = b := by
  subst h hn
  exact List.drop_left

theorem set_of_eq {l a b : List Byte} {n : ℕ} {c d : Byte} (h : l = a ++ c :: b)
    (hn : n = a.length) : l.set n d = a ++ d :: b := by
  subst h hn
  simp

theorem getElem?_of_eq {l a b : List Byte} {n : ℕ} (h : l = a ++ b) (hn : n = a.length) :
    l[n]? = b.head? := by
  subst h hn
  cases b <;> simp

theorem split_middle {l a b : List Byte} (h : a ++ b = l) (pre x : List Byte) :
    pre ++ l ++ x = (pre ++ a) ++ (b ++ x) := by
  subst h
  simp only [List.append_assoc]

/-! ### The url check -/

theorem take_httpScheme {u : List Byte} (h : EqIgnoreCase (u.take 7) httpScheme) :
    7 ≤ u.length := by
  have := congrArg List.length h
  simp only [List.length_map, List.length_take] at this
  have hl : httpScheme.length = 7 := by decide
  omega

/-- Behind `pos` the parser finds the path of the url `u`, or that it has none. -/
def FindsPath (buffer : List Byte) (pos : ℕ) (u : List Byte) : Prop :=
  ∃ url, skipScheme buffer pos = some url ∧
    startsWithSlash buffer url = some (urlPath u).isSome ∧
    ∀ path, urlPath u = some path → cstr (buffer.drop (url.getD 0)) = some path

/-- Behind `http://` the path starts at the first slash. -/
theorem findsPath_of_scheme {u : List Byte} (hu : 0 ∉ u) (hs : EqIgnoreCase (u.take 7) httpScheme)
    (pre x : List Byte) : FindsPath (pre ++ u ++ 0 :: x) pre.length u := by
  obtain ⟨d, hd, hiff⟩ := strncasecmp_append (t := httpScheme) hu (by decide) 7 x
  rw [show httpScheme.take 7 = httpScheme by decide] at hiff
  have hdrop : (pre ++ u ++ 0 :: x).drop pre.length = u ++ 0 :: x :=
    drop_of_eq (List.append_assoc ..) rfl
  have h0 : d = 0 := hiff.2 hs
  have hlen := take_httpScheme hs
  have ht : 0 ∉ u.drop 7 := fun h => hu (List.mem_of_mem_drop h)
  have h7 := split_middle (List.take_append_drop 7 u) pre (0 :: x)
  have hchr := strchr_append (c := slash) (by decide) ht x
  have hskip : skipScheme (pre ++ u ++ 0 :: x) pre.length =
      some ((if (u.drop 7).dropWhile (· ≠ slash) = [] then none
        else some ((u.drop 7).takeWhile (· ≠ slash)).length).map (pre.length + 7 + ·)) := by
    rw [skipScheme, hdrop, hd, drop_of_eq h7 (by simp; omega), hchr]
    simp only [Option.bind_eq_bind, Option.bind_some, h0, if_true]
  rw [FindsPath, hskip]
  by_cases hp : (u.drop 7).dropWhile (· ≠ slash) = []
  · have hpath : urlPath u = none := by simp only [urlPath, hs, hp, if_true]
    rw [if_pos hp, hpath]
    refine ⟨none, rfl, rfl, ?_⟩
    intro path h
    cases h
  · have hpath : urlPath u = some ((u.drop 7).dropWhile (· ≠ slash)) := by
      simp only [urlPath, hs, hp, if_true, if_false]
    have hsplit : pre ++ u ++ 0 :: x =
        (pre ++ u.take 7 ++ (u.drop 7).takeWhile (· ≠ slash)) ++
          ((u.drop 7).dropWhile (· ≠ slash) ++ 0 :: x) := by
      rw [h7, ← List.append_assoc]
      exact split_middle List.takeWhile_append_dropWhile _ _
    have hpos : pre.length + 7 + ((u.drop 7).takeWhile (· ≠ slash)).length =
        (pre ++ u.take 7 ++ (u.drop 7).takeWhile (· ≠ slash)).length := by
      simp only [List.length_append, List.length_take]
      omega
    rw [if_neg hp, hpath, Option.map_some]
    refine ⟨_, rfl, ?_, ?_⟩
    · obtain ⟨b, t, hbt⟩ := List.exists_cons_of_ne_nil hp
      have hb : b = slash := by
        have := List.head?_dropWhile_not (fun c => decide (c ≠ slash)) (u.drop 7)
        rw [hbt] at this
        simpa using this
      simp only [startsWithSlash, getElem?_of_eq hsplit hpos, hbt, hb, List.cons_append,
        List.head?_cons, Option.bind_eq_bind, Option.bind_some, decide_true, Option.isSome_some]
    · intro path h
      obtain rfl := Option.some.inj h
      rw [Option.getD_some, drop_of_eq hsplit hpos]
      exact cstr_append (fun h => ht ((List.dropWhile_sublist _).subset h)) x

theorem findsPath_of_other {u : List Byte} (hu : 0 ∉ u)
    (hs : ¬ EqIgnoreCase (u.take 7) httpScheme) (pre x : List Byte) :
    FindsPath (pre ++ u ++ 0 :: x) pre.length u := by
  obtain ⟨d, hd, hiff⟩ := strncasecmp_append (t := httpScheme) hu (by decide) 7 x
  rw [show httpScheme.take 7 = httpScheme by decide] at hiff
  have hdrop : (pre ++ u ++ 0 :: x).drop pre.length = u ++ 0 :: x :=
    drop_of_eq (List.append_assoc ..) rfl
  have h0 : ¬ d = 0 := fun h => hs (hiff.1 h)
  refine ⟨some pre.length, ?_, ?_, ?_⟩
  · rw [skipScheme, hdrop, hd]
    simp only [Option.bind_eq_bind, Option.bind_some, h0, if_false]
  · simp only [startsWithSlash, urlPath, hs, if_false,
      getElem?_of_eq (List.append_assoc pre u (0 :: x)) rfl]
    cases u with
    | nil => rfl
    | cons b t => by_cases hb : b = slash <;> simp [hb]
  · intro path hpath
    simp only [urlPath, hs, if_false] at hpath
    split at hpath
    · obtain rfl := Option.some.inj hpath
      rw [Option.getD_some, hdrop, cstr_append hu]
    · cases hpath

theorem findsPath_append {u : List Byte} (hu : 0 ∉ u) (pre x : List Byte) :
    FindsPath (pre ++ u ++ 0 :: x) pre.length u := by
  by_cases hs : EqIgnoreCase (u.take 7) httpScheme
  · exact findsPath_of_scheme hu hs pre x
  · exact findsPath_of_other hu hs pre x

/-! ### The functions on the buffer -/

/-- What `parse_request_line` returns for an outcome on its line. -/
def LineResult.place (R : LineResult) (pre x : List Byte) (checkState : CheckState) :
    HttpCode × List Byte × CheckState × List Msg :=
  (R.code, pre ++ R.text ++ 0 :: x, if R.code = .noRequest then .header else checkState, R.msgs)

theorem parseTarget_append {r : List Byte} (hr : 0 ∉ r) (pre m x : List Byte)
    (cs : CheckState) :
    parseTarget (pre ++ (m ++ 0 :: r) ++ 0 :: x) (pre ++ m ++ [0]).length cs =
      some ((requestTarget m r).place pre x cs) := by
  have hbuf : pre ++ (m ++ 0 :: r) ++ 0 :: x = (pre ++ m ++ [0]) ++ (r ++ 0 :: x) := by
    simp only [List.append_assoc, List.cons_append, List.nil_append]
  have hw : 0 ∉ r.dropWhile (· ∈ blanks) := fun h => hr ((List.dropWhile_sublist _).subset h)
  set ws := r.takeWhile (· ∈ blanks) with hws
  set w := r.dropWhile (· ∈ blanks) with hwd
  have hbufw : pre ++ (m ++ 0 :: r) ++ 0 :: x = (pre ++ m ++ [0] ++ ws) ++ (w ++ 0 :: x) := by
    rw [hbuf, ← List.append_assoc]
    exact split_middle List.takeWhile_append_dropWhile _ _
  rw [parseTarget, drop_of_eq hbuf rfl, strspn_append hr]
  simp only [Option.bind_eq_bind, Option.bind_some, ← hws]
  rw [← List.length_append, drop_of_eq hbufw rfl, strpbrk_append hw]
  cases hq : w.dropWhile (· ∉ blanks) with
  | nil =>
    simp only [if_true, Option.bind_some, requestTarget, ← hwd, hq, LineResult.place,
      reduceCtorEq, if_false]
  | cons b q =>
    set u := w.takeWhile (· ∉ blanks) with hud
    have huq : u ++ b :: q = w := by rw [← hq]; exact List.takeWhile_append_dropWhile
    have hu : 0 ∉ u := fun h => hw (by rw [← huq]; exact List.mem_append_left _ h)
    have hq0 : 0 ∉ q := fun h => hw (by rw [← huq]; simp [h])
    have hv : 0 ∉ q.dropWhile (· ∈ blanks) := fun h =>
      hq0 ((List.dropWhile_sublist _).subset h)
    -- the terminator of the url
    have hset : (pre ++ (m ++ 0 :: r) ++ 0 :: x).set ((pre ++ m ++ [0] ++ ws).length + u.length) 0 =
        (pre ++ m ++ [0] ++ ws) ++ u ++ 0 :: (q ++ 0 :: x) := by
      refine set_of_eq (c := b) ?_ (List.length_append).symm
      rw [hbufw, ← huq]
      simp only [List.append_assoc, List.cons_append]
    have htext : (pre ++ m ++ [0] ++ ws) ++ u ++ 0 :: (q ++ 0 :: x) =
        pre ++ (m ++ 0 :: ws ++ u ++ 0 :: q) ++ 0 :: x := by
      simp only [List.append_assoc, List.cons_append, List.nil_append]
    simp only [reduceCtorEq, if_false, Option.bind_some, hset]
    have hq' : (pre ++ m ++ [0] ++ ws) ++ u ++ 0 :: (q ++ 0 :: x) =
        ((pre ++ m ++ [0] ++ ws) ++ u ++ [0]) ++ (q ++ 0 :: x) := by
      simp only [List.append_assoc, List.cons_append, List.nil_append]
    have hpos : (pre ++ m ++ [0] ++ ws).length + u.length + 1 =
        ((pre ++ m ++ [0] ++ ws) ++ u ++ [0]).length := by
      simp only [List.length_append, List.length_singleton]
    have hv' : (pre ++ m ++ [0] ++ ws) ++ u ++ 0 :: (q ++ 0 :: x) =
        ((pre ++ m ++ [0] ++ ws) ++ u ++ [0] ++ q.takeWhile (· ∈ blanks)) ++
          (q.dropWhile (· ∈ blanks) ++ 0 :: x) := by
      rw [hq', ← List.append_assoc]
      exact split_middle List.takeWhile_append_dropWhile _ _
    obtain ⟨d, hd, hiff⟩ := strcasecmp_append (t := HTTP11) hv (by decide) x
    rw [drop_of_eq hq' hpos, strspn_append hq0, Option.bind_some,
      drop_of_eq hv' (by rw [hpos, ← List.length_append]), hd, Option.bind_some]
    by_cases hver : EqIgnoreCase (q.dropWhile (· ∈ blanks)) HTTP11
    · obtain ⟨url, hskip, hslash, hcstr⟩ :=
        findsPath_append hu (pre ++ m ++ [0] ++ ws) (q ++ 0 :: x)
      rw [if_neg (not_not.2 (hiff.2 hver)), hskip, Option.bind_some, hslash, Option.bind_some]
      cases hpath : urlPath u with
      | none =>
        simp only [Option.isSome_none, Bool.false_eq_true, if_false, htext, requestTarget, ← hwd,
          ← hws, ← hud, hq, hver, if_true, hpath, LineResult.place, reduceCtorEq]
      | some path =>
        rw [hcstr path hpath]
        simp only [Option.isSome_some, if_true, Option.bind_some, htext, requestTarget, ← hwd,
          ← hws, ← hud, hq, hver, hpath, LineResult.place]
    · rw [if_pos (fun h => hver (hiff.1 h))]
      simp only [htext, requestTarget, ← hwd, ← hws, ← hud, hq, hver, if_false, LineResult.place,
        reduceCtorEq]

/-- **`parse_request_line` sees its line only.** -/
theorem parseRequestLine_append {s : List Byte} (hs : 0 ∉ s) (pre x : List Byte)
    (cs : CheckState) :
    parseRequestLine (pre ++ s ++ 0 :: x) pre.length cs =
      some ((requestLine s).place pre x cs) := by
  rw [parseRequestLine, drop_of_eq (List.append_assoc ..) rfl, strpbrk_append hs]
  cases hr : s.dropWhile (· ∉ blanks) with
  | nil =>
    simp only [if_true, Option.bind_eq_bind, Option.bind_some, requestLine, hr, LineResult.place,
      reduceCtorEq, if_false]
  | cons b r =>
    set m := s.takeWhile (· ∉ blanks) with hmd
    have hmr : m ++ b :: r = s := by rw [← hr]; exact List.takeWhile_append_dropWhile
    have hm : 0 ∉ m := fun h => hs (by rw [← hmr]; exact List.mem_append_left _ h)
    have hr0 : 0 ∉ r := fun h => hs (by rw [← hmr]; simp [h])
    have hset : (pre ++ s ++ 0 :: x).set (pre.length + m.length) 0 =
        pre ++ (m ++ 0 :: r) ++ 0 :: x := by
      rw [set_of_eq (c := b) (a := pre ++ m) (b := r ++ 0 :: x) (by rw [← hmr]; simp)
        (List.length_append).symm]
      simp only [List.append_assoc, List.cons_append]
    obtain ⟨d, hd, hiff⟩ := strcasecmp_append (t := GET) hm (by decide) (r ++ 0 :: x)
    have hdrop : (pre ++ (m ++ 0 :: r) ++ 0 :: x).drop pre.length = m ++ 0 :: (r ++ 0 :: x) :=
      drop_of_eq (by simp only [List.append_assoc, List.cons_append]) rfl
    simp only [reduceCtorEq, if_false, Option.bind_eq_bind, Option.bind_some, hset, hdrop, hd]
    by_cases hget : EqIgnoreCase m GET
    · have hpos : pre.length + m.length + 1 = (pre ++ m ++ [0]).length := by
        simp only [List.length_append, List.length_singleton]
      rw [if_neg (not_not.2 (hiff.2 hget)), hpos, parseTarget_append hr0]
      simp only [requestLine, hr, ← hmd, hget, if_true]
    · rw [if_pos (fun h => hget (hiff.1 h))]
      simp only [requestLine, hr, ← hmd, hget, if_false, LineResult.place, reduceCtorEq]

/-- **`parse_headers` sees its line only.** -/
theorem parseHeaders_append {s : List Byte} (hs : 0 ∉ s) (pre x : List Byte) :
    parseHeaders (pre ++ s ++ 0 :: x) pre.length = some (headerLine s) := by
  rw [parseHeaders, getElem?_of_eq (List.append_assoc ..) rfl]
  cases s with
  | nil => simp [headerLine]
  | cons b t =>
    have hb : b ≠ 0 := fun h => hs (by simp [h])
    obtain ⟨d, hd, hiff⟩ := strncasecmp_append (t := hostField) hs (by decide) 5 x
    rw [show hostField.take 5 = hostField by decide] at hiff
    rw [drop_of_eq (List.append_assoc ..) rfl, List.cons_append, List.head?_cons]
    simp only [Option.bind_eq_bind, Option.bind_some, hb, if_false, ← List.cons_append, hd,
      headerLine, reduceCtorEq]
    by_cases hhost : EqIgnoreCase ((b :: t).take 5) hostField
    · have hlen := congrArg List.length hhost
      simp only [List.length_map, List.length_take] at hlen
      have h5 : hostField.length = 5 := by decide
      have hdrop := split_middle (List.take_append_drop 5 (b :: t)) pre (0 :: x)
      have hr : 0 ∉ (b :: t).drop 5 := fun h => hs (List.mem_of_mem_drop h)
      have hv := split_middle (List.takeWhile_append_dropWhile (p := (· ∈ blanks))
        (l := (b :: t).drop 5)) (pre ++ (b :: t).take 5) (0 :: x)
      rw [if_pos (hiff.2 hhost), if_pos hhost,
        drop_of_eq hdrop (by rw [List.length_append, List.length_take]; omega), strspn_append hr,
        Option.bind_some, drop_of_eq (hdrop.trans ((List.append_assoc ..).symm.trans hv))
          (by simp only [List.length_append, List.length_take]; omega),
        cstr_append fun h => hr ((List.dropWhile_sublist _).subset h)]
      rfl
    · rw [if_neg fun h => hhost (hiff.1 h), if_neg hhost]

end Http

end LinuxServer
