import CsappLabs.Lib.CString
import CsappLabs.Proxy.Relay

/-
  The header text for the server
  (proxylab/proxy.c, build_http_header).

  The buffers of build_http_header are its locals, which
  it does not clear: `HeaderBufs` is the string each one
  holds.  Strings are not cut off at MAXLINE.

  Key definitions:
    * `headerLoop`
    * `buildHttpHeader`
    * `Rewrites`

  Key theorems:
    * `headerLoop_of_lines`
    * `buildHttpHeader_of_lines`
    * `buildHttpHeader_rewrites_iff`
-/

------------------------------------------------------------
-- Header Constants and Keys
------------------------------------------------------------

namespace CsappLabs

namespace Proxy

open CString

def userAgentHdr : Text :=
  text "User-Agent: Mozilla/5.0 (X11; Linux x86_64; " ++
    text "rv:10.0.3) Gecko/20120305 Firefox/10.0.3\r\n"

def connHdr : Text := text "Connection: close\r\n"

def proxHdr : Text := text "Proxy-Connection: close\r\n"

def hostHdrFormat
    (hostname : Text) :
    Text :=
  text "Host: " ++ hostname ++ text "\r\n"

def requestlintHdrFormat
    (path : Text) :
    Text :=
  text "GET " ++ path ++ text " HTTP/1.0\r\n"

def endofHdr : Text := text "\r\n"

def connectionKey : Text := text "Connection"

def userAgentKey : Text := text "User-Agent"

def proxyConnectionKey : Text := text "Proxy-Connection"

def hostKey : Text := text "Host"

------------------------------------------------------------
-- build_http_header
------------------------------------------------------------

structure HeaderBufs where
  buf : Text
  requestHdr : Text
  otherHdr : Text
  hostHdr : Text
  deriving DecidableEq, Repr

/- !strncasecmp(buf, key, strlen(key)) -/
def hasKey
    (buf key : Text) :
    Bool :=
  strncasecmpEq buf key key.length

/- The body of the header loop, on the line in buf. -/
def headerLine
    (bufs : HeaderBufs) :
    HeaderBufs :=
  if hasKey bufs.buf hostKey then
    { bufs with hostHdr := bufs.buf }
  else if hasKey bufs.buf connectionKey &&
      hasKey bufs.buf proxyConnectionKey &&
      hasKey bufs.buf userAgentKey then
    { bufs with otherHdr := bufs.otherHdr ++ bufs.buf }
  else
    bufs

/- while (Rio_readlineb(client_rio, buf, MAXLINE) > 0) -/
def headerLoop
    (clientRio : Rio)
    (bufs : HeaderBufs) :
    Except String (HeaderBufs × Rio) :=
  match _hRead : Wrapper.rioReadlineb clientRio MAXLINE with
  | .error msg => .error msg
  | .ok ([], clientRio') => .ok (bufs, clientRio')
  | .ok (b :: bs, clientRio') =>
      let bufs' := { bufs with buf := ofBytes (b :: bs) }
      if bufs'.buf = endofHdr then
        .ok (bufs', clientRio')
      else
        headerLoop clientRio' (headerLine bufs')
termination_by clientRio.stream.length
decreasing_by
  exact Wrapper.rioReadlineb_shorter _hRead

theorem headerLoop_error
    {clientRio : Rio}
    (bufs : HeaderBufs)
    {msg : String}
    (hRead :
      Wrapper.rioReadlineb clientRio MAXLINE =
        .error msg) :
    headerLoop clientRio bufs = .error msg := by
  rw [headerLoop]
  split
  case h_1 hErr => rw [hRead] at hErr; cases hErr; rfl
  case h_2 hNil => rw [hRead] at hNil; cases hNil
  case h_3 hLine => rw [hRead] at hLine; cases hLine

theorem headerLoop_nothing
    {clientRio clientRio' : Rio}
    (bufs : HeaderBufs)
    (hRead :
      Wrapper.rioReadlineb clientRio MAXLINE =
        .ok ([], clientRio')) :
    headerLoop clientRio bufs = .ok (bufs, clientRio') := by
  rw [headerLoop]
  split
  case h_1 hErr => rw [hRead] at hErr; cases hErr
  case h_2 hNil => rw [hRead] at hNil; cases hNil; rfl
  case h_3 hLine => rw [hRead] at hLine; cases hLine

theorem headerLoop_line
    {clientRio clientRio' : Rio}
    (bufs : HeaderBufs)
    {line : List Byte}
    (hSome : line ≠ [])
    (hRead :
      Wrapper.rioReadlineb clientRio MAXLINE =
        .ok (line, clientRio')) :
    headerLoop clientRio bufs =
      if ofBytes line = endofHdr then
        .ok ({ bufs with buf := ofBytes line }, clientRio')
      else
        headerLoop clientRio'
          (headerLine { bufs with buf := ofBytes line }) := by
  rw [headerLoop]
  split
  case h_1 hErr => rw [hRead] at hErr; cases hErr
  case h_2 hNil =>
    rw [hRead] at hNil
    cases hNil
    exact absurd rfl hSome
  case h_3 hLine => rw [hRead] at hLine; cases hLine; rfl

/- The string that the closing sprintf puts together. -/
def httpHeader
    (hostname : Text)
    (bufs : HeaderBufs) :
    Text :=
  let hostHdr :=
    if bufs.hostHdr.length = 0 then
      hostHdrFormat hostname
    else
      bufs.hostHdr
  bufs.requestHdr ++ hostHdr ++ connHdr ++ proxHdr ++
    userAgentHdr ++ bufs.otherHdr ++ endofHdr

def buildHttpHeader
    (hostname path : Text)
    (clientRio : Rio)
    (bufs : HeaderBufs) :
    Except String (Text × Rio) :=
  match headerLoop clientRio
      { bufs with
        requestHdr := requestlintHdrFormat path } with
  | .error msg => .error msg
  | .ok (bufs', clientRio') =>
      .ok (httpHeader hostname bufs', clientRio')

------------------------------------------------------------
-- Keys
------------------------------------------------------------

theorem hasKey_iff
    (buf key : Text) :
    hasKey buf key = true ↔
      (buf.take key.length).map tolower =
        key.map tolower := by
  rw [hasKey, strncasecmpEq, strcasecmpEq,
    List.take_length, decide_eq_true_iff]

/- Keys with different first letters exclude each other. -/
theorem not_hasKey_of_head
    {buf : Text}
    {k k' : UInt8}
    {ks ks' : Text}
    (hHead : tolower k ≠ tolower k')
    (hKey : hasKey buf (k :: ks) = true) :
    hasKey buf (k' :: ks') = false := by
  rw [Bool.eq_false_iff]
  intro hKey'
  rw [hasKey_iff] at hKey hKey'
  cases buf with
  | nil => simp at hKey
  | cons c buf =>
      simp only [List.length_cons, List.take_succ_cons,
        List.map_cons, List.cons.injEq] at hKey hKey'
      exact hHead (hKey.1.symm.trans hKey'.1)

/- So the test in front of strcat never succeeds. -/
theorem no_other_line
    (buf : Text) :
    (hasKey buf connectionKey &&
      hasKey buf proxyConnectionKey &&
      hasKey buf userAgentKey) = false := by
  cases hConn : hasKey buf connectionKey with
  | false => rfl
  | true =>
      have hAgent : hasKey buf userAgentKey = false := by
        have hHead : tolower 67 ≠ tolower 85 := by
          decide
        exact not_hasKey_of_head hHead hConn
      rw [hAgent, Bool.and_false]

theorem headerLine_eq
    (bufs : HeaderBufs) :
    headerLine bufs =
      if hasKey bufs.buf hostKey then
        { bufs with hostHdr := bufs.buf }
      else
        bufs := by
  rw [headerLine, no_other_line bufs.buf]
  rfl

------------------------------------------------------------
-- Client Header Lines
------------------------------------------------------------

/- A header line of the client, without its CRLF. -/
structure HeaderLine where
  body : List Byte
  hBody : body ≠ []
  hLf : 10 ∉ body
  hLen : body.length + 2 < MAXLINE

def HeaderLine.bytes
    (line : HeaderLine) :
    List Byte :=
  line.body ++ [13, 10]

/- What one line does to the buffers. -/
def readHeader
    (bufs : HeaderBufs)
    (line : HeaderLine) :
    HeaderBufs :=
  headerLine { bufs with buf := ofBytes line.bytes }

theorem HeaderLine.bytes_eq
    (line : HeaderLine)
    (s : List Byte) :
    line.bytes ++ s = (line.body ++ [13]) ++ 10 :: s := by
  simp [HeaderLine.bytes]

/- No header line looks like the one that ends the list. -/
theorem HeaderLine.ofBytes_ne_endofHdr
    (line : HeaderLine) :
    ofBytes line.bytes ≠ endofHdr := by
  intro hEnd
  rcases ofBytes_isPrefix line.bytes with ⟨rest, hRest⟩
  rw [hEnd] at hRest
  rcases List.exists_cons_of_ne_nil line.hBody with
    ⟨c, body, hCons⟩
  have hLf := line.hLf
  rw [HeaderLine.bytes, hCons] at hRest
  rw [hCons] at hLf
  cases body with
  | nil =>
      have hSecond : (10 : Byte) = 13 := by
        have hParts := List.cons.inj hRest
        exact (List.cons.inj hParts.2).1
      exact absurd hSecond (by decide)
  | cons d body =>
      have hSecond : (10 : Byte) = d := by
        have hParts := List.cons.inj hRest
        exact (List.cons.inj hParts.2).1
      exact hLf (by simp [hSecond])

/- One turn of the header loop. -/
theorem headerLoop_turn
    {clientRio : Rio}
    (bufs : HeaderBufs)
    (line : HeaderLine)
    {s : List Byte}
    (hStream : clientRio.stream = line.bytes ++ s) :
    ∃ clientRio',
      headerLoop clientRio bufs =
          headerLoop clientRio' (readHeader bufs line) ∧
        clientRio'.stream = s := by
  have hCr : 10 ∉ line.body ++ [13] := by
    simp [line.hLf]
  have hLen : (line.body ++ [13]).length + 1 < MAXLINE := by
    have hLine := line.hLen
    simpa using hLine
  rw [line.bytes_eq] at hStream
  rcases Wrapper.rioReadlineb_of_line hCr hLen hStream with
    ⟨clientRio', hRead, hRest, _⟩
  refine ⟨clientRio', ?_, hRest⟩
  have hBytes : (line.body ++ [13]) ++ [10] = line.bytes := by
    simp [HeaderLine.bytes]
  rw [hBytes] at hRead
  have hSome : line.bytes ≠ [] := by
    simp [HeaderLine.bytes]
  rw [headerLoop_line bufs hSome hRead,
    if_neg line.ofBytes_ne_endofHdr, readHeader]

/- The empty line ends the header loop. -/
theorem headerLoop_stop
    {clientRio : Rio}
    (bufs : HeaderBufs)
    {s : List Byte}
    (hStream : clientRio.stream = endofHdr ++ s) :
    ∃ clientRio',
      headerLoop clientRio bufs =
          .ok ({ bufs with buf := endofHdr },
            clientRio') ∧
        clientRio'.stream = s := by
  have hCr : (10 : Byte) ∉ ([13] : List Byte) := by
    decide
  have hLen : ([13] : List Byte).length + 1 < MAXLINE := by
    decide
  rcases Wrapper.rioReadlineb_of_line hCr hLen hStream with
    ⟨clientRio', hRead, hRest, _⟩
  refine ⟨clientRio', ?_, hRest⟩
  have hSome : ([13] ++ [10] : List Byte) ≠ [] := by
    decide
  have hEnd : ofBytes ([13] ++ [10]) = endofHdr := by
    decide
  rw [headerLoop_line bufs hSome hRead, if_pos hEnd, hEnd]

/- The header loop folds over the lines of the client. -/
theorem headerLoop_of_lines
    {clientRio : Rio}
    (bufs : HeaderBufs)
    (lines : List HeaderLine)
    {s : List Byte}
    (hStream :
      clientRio.stream =
        lines.flatMap HeaderLine.bytes ++ endofHdr ++ s) :
    ∃ clientRio',
      headerLoop clientRio bufs =
          .ok ({ lines.foldl readHeader bufs with
              buf := endofHdr },
            clientRio') ∧
        clientRio'.stream = s := by
  induction lines generalizing clientRio bufs with
  | nil => exact headerLoop_stop bufs hStream
  | cons line lines ih =>
      rw [List.flatMap_cons, List.append_assoc,
        List.append_assoc, ← List.append_assoc
          (lines.flatMap HeaderLine.bytes)] at hStream
      rcases headerLoop_turn bufs line hStream with
        ⟨next, hTurn, hNext⟩
      rcases ih (readHeader bufs line) hNext with
        ⟨clientRio', hLoop, hRest⟩
      exact ⟨clientRio', hTurn.trans hLoop, hRest⟩

------------------------------------------------------------
-- The Output Text
------------------------------------------------------------

/- The client's last line that begins with Host. -/
def lastHost
    (lines : List HeaderLine) :
    Option HeaderLine :=
  (lines.filter
    (fun line => hasKey (ofBytes line.bytes) hostKey)).getLast?

theorem lastHost_append
    (lines : List HeaderLine)
    (line : HeaderLine) :
    lastHost (lines ++ [line]) =
      if hasKey (ofBytes line.bytes) hostKey then
        some line
      else
        lastHost lines := by
  cases hKey : hasKey (ofBytes line.bytes) hostKey with
  | true => simp [lastHost, List.filter_append, hKey]
  | false => simp [lastHost, List.filter_append, hKey]

theorem lastHost_mem
    {lines : List HeaderLine}
    {line : HeaderLine}
    (hLast : lastHost lines = some line) :
    line ∈ lines ∧
      hasKey (ofBytes line.bytes) hostKey = true := by
  have hMem := List.mem_of_getLast? hLast
  rw [List.mem_filter] at hMem
  exact hMem

theorem lastHost_eq_none
    {lines : List HeaderLine}
    (hLast : lastHost lines = none) :
    ∀ line ∈ lines,
      hasKey (ofBytes line.bytes) hostKey = false := by
  rw [lastHost, List.getLast?_eq_none_iff,
    List.filter_eq_nil_iff] at hLast
  intro line hMem
  have hNot := hLast line hMem
  simpa using hNot

/- What host_hdr holds when `stale` was in it before. -/
def hostHdrAfter
    (stale : Text)
    (lines : List HeaderLine) :
    Text :=
  match lastHost lines with
  | some line => ofBytes line.bytes
  | none => stale

/- The whole fold, field by field. -/
theorem foldl_readHeader
    (bufs : HeaderBufs)
    (lines : List HeaderLine) :
    (lines.foldl readHeader bufs).requestHdr =
        bufs.requestHdr ∧
      (lines.foldl readHeader bufs).otherHdr =
        bufs.otherHdr ∧
      (lines.foldl readHeader bufs).hostHdr =
        hostHdrAfter bufs.hostHdr lines := by
  induction lines using List.reverseRecOn with
  | nil => exact ⟨rfl, rfl, rfl⟩
  | append_singleton lines line ih =>
      rcases ih with ⟨hRequest, hOther, hHost⟩
      rw [List.foldl_append, List.foldl_cons,
        List.foldl_nil, readHeader, headerLine_eq,
        hostHdrAfter, lastHost_append]
      cases hKey : hasKey (ofBytes line.bytes) hostKey with
      | true =>
          rw [if_pos rfl, if_pos rfl]
          exact ⟨hRequest, hOther, rfl⟩
      | false =>
          rw [if_neg Bool.false_ne_true,
            if_neg Bool.false_ne_true]
          exact ⟨hRequest, hOther, hHost⟩

/- The Host line of the output. -/
def hostLine
    (hostname stale : Text)
    (lines : List HeaderLine) :
    Text :=
  if (hostHdrAfter stale lines).length = 0 then
    hostHdrFormat hostname
  else
    hostHdrAfter stale lines

/- The output, from a client that closes its list. -/
theorem buildHttpHeader_of_lines
    (hostname path : Text)
    {clientRio : Rio}
    (bufs : HeaderBufs)
    (lines : List HeaderLine)
    {s : List Byte}
    (hStream :
      clientRio.stream =
        lines.flatMap HeaderLine.bytes ++ endofHdr ++ s) :
    ∃ clientRio',
      buildHttpHeader hostname path clientRio bufs =
          .ok (requestlintHdrFormat path ++
              hostLine hostname bufs.hostHdr lines ++
              connHdr ++ proxHdr ++ userAgentHdr ++
              bufs.otherHdr ++ endofHdr,
            clientRio') ∧
        clientRio'.stream = s := by
  rcases
      headerLoop_of_lines
        { bufs with requestHdr := requestlintHdrFormat path }
        lines hStream with
    ⟨clientRio', hLoop, hRest⟩
  rcases
      foldl_readHeader
        { bufs with requestHdr := requestlintHdrFormat path }
        lines with
    ⟨hRequest, hOther, hHost⟩
  refine ⟨clientRio', ?_, hRest⟩
  rw [buildHttpHeader, hLoop]
  simp only [httpHeader, hRequest, hOther, hHost, hostLine]

------------------------------------------------------------
-- What the Header Should Be
------------------------------------------------------------

/- The name of a header is what precedes its colon. -/
def HeaderLine.name
    (line : HeaderLine) :
    Text :=
  line.body.takeWhile (fun c => c ≠ 58)

def HeaderLine.named
    (line : HeaderLine)
    (key : Text) :
    Bool :=
  strcasecmpEq line.name key

/- The headers that the proxy writes itself. -/
def HeaderLine.owned
    (line : HeaderLine) :
    Bool :=
  line.named hostKey || line.named connectionKey ||
    line.named proxyConnectionKey || line.named userAgentKey

/- A Host line of the client, or the proxy's own. -/
def HostChoice
    (hostname : Text)
    (lines : List HeaderLine)
    (chosen : Text) :
    Prop :=
  (∃ line ∈ lines,
      line.named hostKey = true ∧ chosen = line.bytes) ∨
    ((∀ line ∈ lines, line.named hostKey = false) ∧
      chosen = hostHdrFormat hostname)

/- The other headers of the client, in its order. -/
def otherLines
    (lines : List HeaderLine) :
    List HeaderLine :=
  lines.filter (fun line => !line.owned)

def Rewrites
    (hostname path : Text)
    (lines : List HeaderLine)
    (out : Text) :
    Prop :=
  ∃ chosen,
    HostChoice hostname lines chosen ∧
      out =
        requestlintHdrFormat path ++ chosen ++ connHdr ++
          proxHdr ++ userAgentHdr ++
          (otherLines lines).flatMap HeaderLine.bytes ++
          endofHdr

/- A key that names a line is found at its front. -/
theorem HeaderLine.hasKey_of_named
    {line : HeaderLine}
    {key : Text}
    (hKey : 0 ∉ key.map tolower)
    (hNamed : line.named key = true) :
    hasKey (ofBytes line.bytes) key = true := by
  rw [HeaderLine.named, strcasecmpEq, decide_eq_true_iff]
    at hNamed
  have hNul : 0 ∉ line.name := by
    intro hMem
    have hLower : tolower 0 ∈ line.name.map tolower :=
      List.mem_map_of_mem hMem
    rw [hNamed] at hLower
    exact hKey hLower
  have hLen : line.name.length = key.length := by
    have hLens := congrArg List.length hNamed
    simpa using hLens
  obtain ⟨rest, hRest⟩ :
      line.name <+: line.body := List.takeWhile_prefix _
  rw [hasKey_iff, HeaderLine.bytes, ← hRest,
    List.append_assoc, ofBytes_append_of_not_mem hNul,
    ← hLen, List.take_left, hNamed]

/- Among its own headers the proxy sees Host lines right. -/
theorem HeaderLine.named_of_hasKey
    {line : HeaderLine}
    (hOwned : line.owned = true)
    (hKey : hasKey (ofBytes line.bytes) hostKey = true) :
    line.named hostKey = true := by
  have hExcl :
      ∀ {k : UInt8} {ks : Text},
        tolower k ≠ tolower 72 →
          0 ∉ (k :: ks).map tolower →
            line.named (k :: ks) = false := by
    intro k ks hHead hNul
    rw [Bool.eq_false_iff]
    intro hNamed
    have hOther := HeaderLine.hasKey_of_named hNul hNamed
    have hNot :
        hasKey (ofBytes line.bytes) hostKey = false :=
      not_hasKey_of_head hHead hOther
    rw [hKey] at hNot
    cases hNot
  have hConn : line.named connectionKey = false :=
    hExcl (by decide) (by decide)
  have hProx : line.named proxyConnectionKey = false :=
    hExcl (by decide) (by decide)
  have hAgent : line.named userAgentKey = false :=
    hExcl (by decide) (by decide)
  simpa [HeaderLine.owned, hConn, hProx, hAgent]
    using hOwned

------------------------------------------------------------
-- When the Header Is Right
------------------------------------------------------------

/- Only the proxy's own headers, and no NUL in the Host. -/
def Rewritable
    (lines : List HeaderLine) :
    Prop :=
  (∀ line ∈ lines, line.owned = true) ∧
    ∀ line, lastHost lines = some line → 0 ∉ line.body

theorem HeaderLine.count_lf
    (line : HeaderLine) :
    line.bytes.count 10 = 1 := by
  have hBody : line.body.count 10 = 0 :=
    List.count_eq_zero.mpr line.hLf
  rw [HeaderLine.bytes, List.count_append, hBody]
  rfl

theorem count_lf_flatMap
    (lines : List HeaderLine) :
    (lines.flatMap HeaderLine.bytes).count 10 =
      lines.length := by
  induction lines with
  | nil => rfl
  | cons line lines ih =>
      rw [List.flatMap_cons, List.count_append,
        line.count_lf, ih, List.length_cons, Nat.add_comm]

/- A Host line cut off by a NUL has lost its line end. -/
theorem HeaderLine.ofBytes_of_nul
    {line : HeaderLine}
    (hNul : 0 ∈ line.body) :
    10 ∉ ofBytes line.bytes := by
  rw [HeaderLine.bytes, ofBytes_append_of_mem hNul]
  intro hMem
  exact line.hLf ((ofBytes_isPrefix line.body).subset hMem)

theorem HeaderLine.ofBytes_of_no_nul
    {line : HeaderLine}
    (hNul : 0 ∉ line.body) :
    ofBytes line.bytes = line.bytes := by
  apply ofBytes_of_not_mem
  simp [HeaderLine.bytes, hNul]

/- Without a client's Host line the proxy writes its own. -/
theorem hostLine_of_none
    (hostname : Text)
    {lines : List HeaderLine}
    (hLast : lastHost lines = none) :
    hostLine hostname [] lines = hostHdrFormat hostname := by
  rw [hostLine, hostHdrAfter, hLast]
  rfl

/- Other lines of the client do not count. -/
theorem hostLine_of_no_host
    (hostname stale : Text)
    {lines : List HeaderLine}
    (hLast : lastHost lines = none) :
    hostLine hostname stale lines =
      hostLine hostname stale [] := by
  have hAfter : hostHdrAfter stale lines = stale := by
    rw [hostHdrAfter, hLast]
  rw [hostLine, hAfter]
  rfl

/- With one it passes on the last. -/
theorem hostLine_of_some
    (hostname stale : Text)
    {lines : List HeaderLine}
    {line : HeaderLine}
    (hLast : lastHost lines = some line) :
    hostLine hostname stale lines = ofBytes line.bytes := by
  have hKey := (lastHost_mem hLast).2
  have hSome : (ofBytes line.bytes).length ≠ 0 := by
    intro hLen
    rw [List.length_eq_zero_iff.mp hLen] at hKey
    exact absurd hKey (by decide)
  have hAfter :
      hostHdrAfter stale lines = ofBytes line.bytes := by
    rw [hostHdrAfter, hLast]
  rw [hostLine, hAfter, if_neg hSome]

/- A choice of Host line has as many line ends. -/
theorem count_hostLine_le
    {hostname chosen : Text}
    {lines : List HeaderLine}
    (hChosen : HostChoice hostname lines chosen) :
    (hostLine hostname [] lines).count 10 ≤
      chosen.count 10 := by
  have hHostKey : 0 ∉ hostKey.map tolower := by
    decide
  cases hLast : lastHost lines with
  | none =>
      rw [hostLine_of_none hostname hLast]
      cases hChosen with
      | inl hClient =>
          rcases hClient with ⟨line, hMem, hNamed, _⟩
          have hKey :=
            HeaderLine.hasKey_of_named hHostKey hNamed
          rw [lastHost_eq_none hLast line hMem] at hKey
          cases hKey
      | inr hProxy => rw [hProxy.2]
  | some line =>
      rw [hostLine_of_some hostname [] hLast]
      have hOne : (ofBytes line.bytes).count 10 ≤ 1 := by
        rw [← line.count_lf]
        exact (ofBytes_isPrefix line.bytes).sublist.count_le 10
      apply hOne.trans
      cases hChosen with
      | inl hClient =>
          rcases hClient with ⟨other, _, _, hEq⟩
          rw [hEq, other.count_lf]
      | inr hProxy =>
          rw [hProxy.2]
          simp [hostHdrFormat, text]

/- The output is a rewriting of what was sent, when ... -/
theorem rewrites_of_rewritable
    (hostname path : Text)
    {lines : List HeaderLine}
    (hLines : Rewritable lines) :
    Rewrites hostname path lines
      (requestlintHdrFormat path ++
        hostLine hostname [] lines ++ connHdr ++ proxHdr ++
        userAgentHdr ++ [] ++ endofHdr) := by
  rcases hLines with ⟨hOwned, hClean⟩
  have hHostKey : 0 ∉ hostKey.map tolower := by
    decide
  have hOthers : otherLines lines = [] := by
    rw [otherLines, List.filter_eq_nil_iff]
    intro line hMem
    simp [hOwned line hMem]
  refine ⟨hostLine hostname [] lines, ?_, ?_⟩
  · cases hLast : lastHost lines with
    | none =>
        right
        refine ⟨?_, hostLine_of_none hostname hLast⟩
        intro line hMem
        rw [Bool.eq_false_iff]
        intro hNamed
        have hKey :=
          HeaderLine.hasKey_of_named hHostKey hNamed
        rw [lastHost_eq_none hLast line hMem] at hKey
        cases hKey
    | some line =>
        left
        rcases lastHost_mem hLast with ⟨hMem, hKey⟩
        refine ⟨line, hMem, ?_, ?_⟩
        · exact HeaderLine.named_of_hasKey
            (hOwned line hMem) hKey
        · rw [hostLine_of_some hostname [] hLast]
          exact HeaderLine.ofBytes_of_no_nul
            (hClean line hLast)
  · rw [hOthers, List.flatMap_nil]

/- ... and only when these headers were all there was. -/
theorem rewritable_of_rewrites
    {hostname path : Text}
    {lines : List HeaderLine}
    (hOut :
      Rewrites hostname path lines
        (requestlintHdrFormat path ++
          hostLine hostname [] lines ++ connHdr ++
          proxHdr ++ userAgentHdr ++ [] ++ endofHdr)) :
    Rewritable lines := by
  rcases hOut with ⟨chosen, hChosen, hEq⟩
  have hCounts := congrArg (List.count 10) hEq
  have hLe := count_hostLine_le hChosen
  simp only [List.count_append, List.count_nil,
    count_lf_flatMap] at hCounts
  have hOthers : otherLines lines = [] := by
    apply List.length_eq_zero_iff.mp
    omega
  have hOwned : ∀ line ∈ lines, line.owned = true := by
    intro line hMem
    rw [otherLines, List.filter_eq_nil_iff] at hOthers
    have hNot := hOthers line hMem
    simpa using hNot
  refine ⟨hOwned, ?_⟩
  intro line hLast hNul
  rw [hOthers, List.flatMap_nil] at hEq
  have hHost : hostLine hostname [] lines = chosen := by
    simpa using hEq
  have hNoLf := HeaderLine.ofBytes_of_nul hNul
  rw [← hostLine_of_some hostname [] hLast, hHost]
    at hNoLf
  rcases lastHost_mem hLast with ⟨hMem, hKey⟩
  cases hChosen with
  | inl hClient =>
      rcases hClient with ⟨other, _, _, hBytes⟩
      apply hNoLf
      rw [hBytes, HeaderLine.bytes]
      simp
  | inr hProxy =>
      have hNamed :=
        HeaderLine.named_of_hasKey (hOwned line hMem) hKey
      rw [hProxy.1 line hMem] at hNamed
      cases hNamed

/-
  With its buffers empty at the start, build_http_header
  rewrites the client's header exactly when the client
  sends nothing but Host, Connection, Proxy-Connection and
  User-Agent lines, the last Host line free of NULs: every
  other line is dropped.
-/
theorem buildHttpHeader_rewrites_iff
    (hostname path : Text)
    (clientRio : Rio)
    (bufs : HeaderBufs)
    (lines : List HeaderLine)
    (s : List Byte)
    (hHost : bufs.hostHdr = [])
    (hOther : bufs.otherHdr = [])
    (hStream :
      clientRio.stream =
        lines.flatMap HeaderLine.bytes ++ endofHdr ++ s) :
    (∃ out clientRio',
      buildHttpHeader hostname path clientRio bufs =
          .ok (out, clientRio') ∧
        Rewrites hostname path lines out) ↔
      Rewritable lines := by
  rcases
      buildHttpHeader_of_lines hostname path bufs lines
        hStream with
    ⟨clientRio', hBuild, _⟩
  rw [hHost, hOther] at hBuild
  constructor
  · rintro ⟨out, after, hOut, hRewrites⟩
    rw [hBuild] at hOut
    cases hOut
    exact rewritable_of_rewrites hRewrites
  · intro hLines
    exact ⟨_, clientRio', hBuild,
      rewrites_of_rewritable hostname path hLines⟩

/- A client whose bytes all arrive at once. -/
def clientOf
    (s : List Byte) :
    Rio :=
  rioReadinitb ⟨pushBack s [], .eof⟩ []

theorem clientOf_stream
    (s : List Byte) :
    (clientOf s).stream = s := by
  rw [clientOf, rioReadinitb_stream, Source.bytes,
    flatMap_pushBack, List.flatMap_nil, List.append_nil]

def exampleHost : HeaderLine where
  body := text "hOST: example.com"
  hBody := by decide
  hLf := by decide
  hLen := by decide

def exampleAccept : HeaderLine where
  body := text "Accept: */*"
  hBody := by decide
  hLf := by decide
  hLen := by decide

def emptyBufs : HeaderBufs where
  buf := []
  requestHdr := []
  otherHdr := []
  hostHdr := []

theorem buildHttpHeader_rewrites_iff_host :
    ∃ out clientRio',
      buildHttpHeader (text "www.example.com") (text "/")
          (clientOf
            ([exampleHost].flatMap HeaderLine.bytes ++
              endofHdr ++ []))
          emptyBufs =
          .ok (out, clientRio') ∧
        Rewrites (text "www.example.com") (text "/")
          [exampleHost] out := by
  have hLines : Rewritable [exampleHost] := by
    constructor
    · intro line hMem
      rw [List.mem_singleton.mp hMem]
      decide
    · intro line hLast
      rw [List.mem_singleton.mp (lastHost_mem hLast).1]
      decide
  exact (buildHttpHeader_rewrites_iff
    (text "www.example.com") (text "/")
    (clientOf
      ([exampleHost].flatMap HeaderLine.bytes ++
        endofHdr ++ []))
    emptyBufs [exampleHost] [] rfl rfl
    (clientOf_stream _)).mpr hLines

/- The Accept line of an ordinary request is lost. -/
theorem buildHttpHeader_drops_accept :
    ¬ ∀ (hostname path : Text) (clientRio : Rio)
        (bufs : HeaderBufs) (lines : List HeaderLine)
        (s : List Byte),
      bufs.hostHdr = [] →
      bufs.otherHdr = [] →
      clientRio.stream =
          lines.flatMap HeaderLine.bytes ++ endofHdr ++ s →
      ∃ out clientRio',
        buildHttpHeader hostname path clientRio bufs =
            .ok (out, clientRio') ∧
          Rewrites hostname path lines out := by
  intro hAlways
  rcases
      hAlways (text "www.example.com") (text "/")
        (clientOf
          ([exampleAccept].flatMap HeaderLine.bytes ++
            endofHdr ++ []))
        emptyBufs [exampleAccept] [] rfl rfl
        (clientOf_stream _) with
    ⟨out, clientRio', hOut, hRewrites⟩
  rcases
      buildHttpHeader_of_lines (text "www.example.com")
        (text "/") emptyBufs [exampleAccept]
        (clientOf_stream _) with
    ⟨after, hBuild, _⟩
  rw [hBuild] at hOut
  cases hOut
  have hLines := rewritable_of_rewrites hRewrites
  have hOwned :=
    hLines.1 exampleAccept (List.mem_singleton_self _)
  exact absurd hOwned (by decide)

end Proxy

end CsappLabs
