import CsappLabs.Proxy.Header

/-
  Parsing a request (proxylab/proxy.c, parse_hostname and
  from_client_to_server up to the connection).

  The locals that these functions do not clear are
  arguments of the model, each as the string that its
  array holds.

  Key definitions:
    * `parseHostname`
    * `prepare`
    * `RequestLine`
    * `SameOutput`

  Key theorems:
    * `parseHostname_uri`
    * `prepare_of_request`
    * `prepare_same_iff`
-/

------------------------------------------------------------
-- parse_hostname
------------------------------------------------------------

namespace CsappLabs

namespace Proxy

open CString

/- The strings and the int that parse_hostname fills in. -/
structure HostBufs where
  hostname : Text
  path : Text
  httpPort : Int
  deriving DecidableEq, Repr

/- sscanf(pos2 + 1, "%d%s", http_port, path) -/
def scanPortPath
    (s : Text)
    (bufs : HostBufs) :
    HostBufs :=
  match scanInt s with
  | none => bufs
  | some (port, rest) =>
      { bufs with
        httpPort := port
        path := sscanfWord rest bufs.path }

def parseHostname
    (uri : Text)
    (old : HostBufs) :
    HostBufs :=
  let pos :=
    match strstr (text "//") uri with
    | some (_, found) => found.drop 2
    | none => uri
  let bufs :=
    { old with
      path := text "/"
      httpPort := 80 }
  match strstr (text ":") pos with
  | some (before, found) =>
      scanPortPath (found.drop 1)
        { bufs with
          hostname := sscanfWord before bufs.hostname }
  | none =>
      match strstr (text "/") pos with
      | some (before, found) =>
          { bufs with
            hostname := sscanfWord before bufs.hostname
            path := sscanfWord found bufs.path }
      | none =>
          { bufs with
            hostname := sscanfWord pos bufs.hostname }

------------------------------------------------------------
-- The Request
------------------------------------------------------------

/- The locals of from_client_to_server and its callees. -/
structure RequestBufs where
  buf : Text
  method : Text
  uri : Text
  version : Text
  host : HostBufs
  header : HeaderBufs
  deriving DecidableEq, Repr

/- sscanf(buf, "%s %s %s", method, uri, version) -/
def scanRequestLine
    (bufs : RequestBufs) :
    RequestBufs :=
  match scanWord bufs.buf with
  | none => bufs
  | some (method, rest) =>
      match scanWord rest with
      | none => { bufs with method := method }
      | some (uri, rest') =>
          { bufs with
            method := method
            uri := uri
            version := sscanfWord rest' bufs.version }

/- How from_client_to_server goes on with a request. -/
inductive Prepared where
  | closed
  | unsupported (method : Text)
  | ready (host : HostBufs) (serverHeader : Text)
  deriving DecidableEq, Repr

/- from_client_to_server up to its Open_clientfd. -/
def prepare
    (clientRio : Rio)
    (bufs : RequestBufs) :
    Except String (Prepared × Rio) :=
  match Wrapper.rioReadlineb clientRio MAXLINE with
  | .error msg => .error msg
  | .ok ([], clientRio') => .ok (.closed, clientRio')
  | .ok (b :: bs, clientRio') =>
      let scanned :=
        scanRequestLine
          { bufs with buf := ofBytes (b :: bs) }
      if strcasecmpEq scanned.method (text "GET") then
        let host := parseHostname scanned.uri scanned.host
        match buildHttpHeader host.hostname host.path
            clientRio' scanned.header with
        | .error msg => .error msg
        | .ok (serverHeader, clientRio'') =>
            .ok (.ready host serverHeader, clientRio'')
      else
        .ok (.unsupported scanned.method, clientRio')

------------------------------------------------------------
-- Absolute URIs
------------------------------------------------------------

/- A byte of a word on the request line. -/
def IsWordByte
    (c : Byte) :
    Prop :=
  isspace c = false ∧ c ≠ 0

instance
    (c : Byte) :
    Decidable (IsWordByte c) :=
  inferInstanceAs (Decidable (_ ∧ _))

/- A host: a name without colon or slash. -/
structure IsHost
    (host : Text) :
    Prop where
  some : host ≠ []
  bytes : ∀ c ∈ host, IsWordByte c ∧ c ≠ 58 ∧ c ≠ 47

/-
  What parse_hostname makes of a host and of the rest of the
  URI behind it.
-/
def parsedParts
    (host tail : Text) :
    HostBufs :=
  match strstr (text ":") tail with
  | some (before, found) =>
      scanPortPath (found.drop 1)
        { hostname := host ++ before
          path := text "/"
          httpPort := 80 }
  | none =>
      match strstr (text "/") tail with
      | some (before, found) =>
          { hostname := host ++ before
            path := sscanfWord found (text "/")
            httpPort := 80 }
      | none =>
          { hostname := host ++ tail
            path := text "/"
            httpPort := 80 }

/- The slashes of the scheme are the first ones. -/
theorem strstr_slashes
    (rest : Text) :
    strstr (text "//") (text "http://" ++ rest) =
      some (text "http:", text "//" ++ rest) := by
  have hScheme : (47 : Byte) ∉ text "http:" := by
    decide
  have hSkip :=
    strstr_append_of_not_mem [47] hScheme
      (text "//" ++ rest)
  have hUri :
      text "http://" ++ rest =
        text "http:" ++ (text "//" ++ rest) := rfl
  rw [hUri]
  apply hSkip.trans
  rfl

/- A piece that starts with the host is scanned whole. -/
theorem IsHost.sscanfWord_append
    {host before : Text}
    (hHost : IsHost host)
    (hBefore : ∀ c ∈ before, IsWordByte c)
    (old : Text) :
    sscanfWord (host ++ before) old = host ++ before := by
  apply sscanfWord_of_word
  · simp [hHost.some]
  · intro c hc
    rw [List.mem_append] at hc
    cases hc with
    | inl hMem => exact (hHost.bytes c hMem).1.1
    | inr hMem => exact (hBefore c hMem).1

/- The old contents of the buffers do not matter. -/
theorem parseHostname_parts
    {host tail : Text}
    (hHost : IsHost host)
    (hTail : ∀ c ∈ tail, IsWordByte c)
    (old : HostBufs) :
    parseHostname (text "http://" ++ (host ++ tail)) old =
      parsedParts host tail := by
  have hColon : (58 : Byte) ∉ host := by
    intro hMem
    exact (hHost.bytes 58 hMem).2.1 rfl
  have hSlash : (47 : Byte) ∉ host := by
    intro hMem
    exact (hHost.bytes 47 hMem).2.2 rfl
  have hSkipColon :
      strstr (text ":") (host ++ tail) =
        (strstr (text ":") tail).map
          (fun found => (host ++ found.1, found.2)) :=
    strstr_append_of_not_mem [] hColon tail
  have hSkipSlash :
      strstr (text "/") (host ++ tail) =
        (strstr (text "/") tail).map
          (fun found => (host ++ found.1, found.2)) :=
    strstr_append_of_not_mem [] hSlash tail
  have hPos :
      (text "//" ++ (host ++ tail)).drop 2 =
        host ++ tail := rfl
  have hFront :
      ∀ {before found : Text}, before ++ found = tail →
        ∀ c ∈ before, IsWordByte c := by
    intro before found hSplit c hc
    exact hTail c (hSplit ▸ List.mem_append_left found hc)
  rw [parseHostname, parsedParts]
  simp only [strstr_slashes, hPos, hSkipColon, hSkipSlash]
  cases hFound : strstr (text ":") tail with
  | some pair =>
      simp only [Option.map_some]
      rw [hHost.sscanfWord_append
        (hFront (strstr_append hFound))]
  | none =>
      simp only [Option.map_none]
      cases hFound' : strstr (text "/") tail with
      | some pair =>
          simp only [Option.map_some]
          rw [hHost.sscanfWord_append
            (hFront (strstr_append hFound'))]
      | none =>
          simp only [Option.map_none]
          rw [hHost.sscanfWord_append hTail]

/-
  A GET line for an absolute http URI.  `tail` is the part
  of the URI from the colon of the port, or from the slash
  of the path, on.
-/
structure RequestLine where
  host : Text
  tail : Text
  version : Text
  hHost : host ≠ []
  hHostBytes :
    ∀ c ∈ host, IsWordByte c ∧ c ≠ 58 ∧ c ≠ 47
  hTailBytes : ∀ c ∈ tail, IsWordByte c
  hTail : ∀ c ∈ tail.head?, c = 58 ∨ c = 47
  hVersion : version ≠ []
  hVersionBytes : ∀ c ∈ version, IsWordByte c
  hLen :
    host.length + tail.length + version.length + 14 <
      MAXLINE

def RequestLine.uri
    (req : RequestLine) :
    Text :=
  text "http://" ++ (req.host ++ req.tail)

def RequestLine.bytes
    (req : RequestLine) :
    List Byte :=
  text "GET" ++ 32 :: (req.uri ++ 32 :: (req.version ++
    [13, 10]))

/- What the URI says, whatever was there before. -/
def RequestLine.parsed
    (req : RequestLine) :
    HostBufs :=
  match strstr (text ":") req.tail with
  | some (before, found) =>
      scanPortPath (found.drop 1)
        { hostname := req.host ++ before
          path := text "/"
          httpPort := 80 }
  | none =>
      match strstr (text "/") req.tail with
      | some (before, found) =>
          { hostname := req.host ++ before
            path := sscanfWord found (text "/")
            httpPort := 80 }
      | none =>
          { hostname := req.host ++ req.tail
            path := text "/"
            httpPort := 80 }

theorem RequestLine.isHost
    (req : RequestLine) :
    IsHost req.host where
  some := req.hHost
  bytes := req.hHostBytes

theorem parseHostname_uri
    (req : RequestLine)
    (old : HostBufs) :
    parseHostname req.uri old = req.parsed :=
  parseHostname_parts req.isHost req.hTailBytes old

------------------------------------------------------------
-- A Request Line Is Read Right
------------------------------------------------------------

theorem IsWordByte.ne_lf
    {c : Byte}
    (hc : IsWordByte c) :
    c ≠ 10 := by
  intro hLf
  rw [hLf] at hc
  exact absurd hc.1 (by decide)

theorem RequestLine.uri_bytes
    (req : RequestLine) :
    ∀ c ∈ req.uri, IsWordByte c := by
  intro c hc
  have hScheme :
      ∀ d ∈ text "http://", IsWordByte d :=
    forall_mem_text (by decide)
  rw [RequestLine.uri, List.mem_append, List.mem_append]
    at hc
  rcases hc with hc | hc | hc
  · exact hScheme c hc
  · exact (req.hHostBytes c hc).1
  · exact req.hTailBytes c hc

/- The line without its line feed. -/
def RequestLine.body
    (req : RequestLine) :
    List Byte :=
  text "GET" ++ 32 :: (req.uri ++ 32 :: (req.version ++
    [13]))

theorem RequestLine.bytes_eq
    (req : RequestLine) :
    req.bytes = req.body ++ [10] := by
  simp [RequestLine.bytes, RequestLine.body]

theorem RequestLine.mem_body
    (req : RequestLine)
    {c : Byte}
    (hc : c ∈ req.body) :
    IsWordByte c ∨ c = 32 ∨ c = 13 := by
  have hMethod : ∀ d ∈ text "GET", IsWordByte d :=
    forall_mem_text (by decide)
  simp only [RequestLine.body, List.mem_append,
    List.mem_cons, List.not_mem_nil, or_false] at hc
  rcases hc with hc | hc | hc | hc | hc | hc
  · exact Or.inl (hMethod c hc)
  · exact Or.inr (Or.inl hc)
  · exact Or.inl (req.uri_bytes c hc)
  · exact Or.inr (Or.inl hc)
  · exact Or.inl (req.hVersionBytes c hc)
  · exact Or.inr (Or.inr hc)

theorem RequestLine.body_no_lf
    (req : RequestLine) :
    10 ∉ req.body := by
  intro hMem
  rcases req.mem_body hMem with hWord | hEq | hEq
  · exact hWord.ne_lf rfl
  · exact absurd hEq (by decide)
  · exact absurd hEq (by decide)

theorem RequestLine.ofBytes_bytes
    (req : RequestLine) :
    ofBytes req.bytes = req.bytes := by
  apply ofBytes_of_not_mem
  rw [req.bytes_eq]
  intro hMem
  rw [List.mem_append] at hMem
  rcases hMem with hMem | hMem
  · rcases req.mem_body hMem with hWord | hEq | hEq
    · exact hWord.2 rfl
    · exact absurd hEq (by decide)
    · exact absurd hEq (by decide)
  · exact absurd hMem (by decide)

/- The three words of the line. -/
theorem scanRequestLine_of_request
    (req : RequestLine)
    (bufs : RequestBufs) :
    scanRequestLine { bufs with buf := req.bytes } =
      { bufs with
        buf := req.bytes
        method := text "GET"
        uri := req.uri
        version := req.version } := by
  have hSpace :
      ∀ s : Text, ∀ c ∈ (32 :: s).head?,
        isspace c = true := by
    intro s c hc
    cases hc
    decide
  have hCr :
      ∀ c ∈ ([13, 10] : Text).head?,
        isspace c = true := by
    intro c hc
    cases hc
    decide
  have hMethod :
      scanWord req.bytes =
        some (text "GET",
          32 :: (req.uri ++ 32 :: (req.version ++
            [13, 10]))) :=
    scanWord_of_word (by decide)
      (forall_mem_text (by decide)) (hSpace _)
  have hUriNe : req.uri ≠ [] := by
    simp [RequestLine.uri, req.hHost]
  have hUri :
      scanWord (32 :: (req.uri ++ 32 :: (req.version ++
          [13, 10]))) =
        some (req.uri, 32 :: (req.version ++ [13, 10])) := by
    rw [scanWord_cons_space (by decide)]
    exact scanWord_of_word hUriNe
      (fun c hc => (req.uri_bytes c hc).1) (hSpace _)
  have hVersion :
      scanWord (32 :: (req.version ++ [13, 10])) =
        some (req.version, [13, 10]) := by
    rw [scanWord_cons_space (by decide)]
    exact scanWord_of_word req.hVersion
      (fun c hc => (req.hVersionBytes c hc).1) hCr
  simp only [scanRequestLine, hMethod, hUri, sscanfWord,
    hVersion]

/- What the server is told about a request. -/
theorem prepare_of_request
    {clientRio : Rio}
    (bufs : RequestBufs)
    (req : RequestLine)
    (lines : List HeaderLine)
    {s : List Byte}
    (hStream :
      clientRio.stream =
        req.bytes ++
          (lines.flatMap HeaderLine.bytes ++ endofHdr ++
            s)) :
    ∃ clientRio',
      prepare clientRio bufs =
        .ok (.ready req.parsed
            (requestlintHdrFormat req.parsed.path ++
              hostLine req.parsed.hostname
                bufs.header.hostHdr lines ++
              connHdr ++ proxHdr ++ userAgentHdr ++
              bufs.header.otherHdr ++ endofHdr),
          clientRio') := by
  have hLen : req.body.length + 1 < MAXLINE := by
    have hReq := req.hLen
    simp only [RequestLine.body, RequestLine.uri,
      List.length_append, List.length_cons,
      List.length_nil]
    have hGet : (text "GET").length = 3 := by
      decide
    have hHttp : (text "http://").length = 7 := by
      decide
    omega
  have hSplit :
      clientRio.stream =
        req.body ++ 10 ::
          (lines.flatMap HeaderLine.bytes ++ endofHdr ++
            s) := by
    rw [hStream, req.bytes_eq]
    simp
  rcases
      Wrapper.rioReadlineb_of_line req.body_no_lf hLen hSplit with
    ⟨next, hRead, hNext, _⟩
  rcases
      buildHttpHeader_of_lines req.parsed.hostname
        req.parsed.path bufs.header lines hNext with
    ⟨clientRio', hBuild, _⟩
  refine ⟨clientRio', ?_⟩
  rw [← req.bytes_eq] at hRead
  have hCons :
      req.bytes =
        71 :: (text "ET" ++ 32 :: (req.uri ++
          32 :: (req.version ++ [13, 10]))) := rfl
  have hBuf := req.ofBytes_bytes
  have hScan := scanRequestLine_of_request req bufs
  have hGet :
      strcasecmpEq (text "GET") (text "GET") = true := by
    decide
  rw [prepare, hRead]
  rw [hCons] at hBuf hScan ⊢
  simp only [hBuf, hScan, hGet, if_true,
    parseHostname_uri, hBuild]

------------------------------------------------------------
-- Two Runs
------------------------------------------------------------

/-
  Two runs on one request, however its bytes arrive and
  whatever follows them, that start from different locals:
  host, path, port and header text come out the same.
-/
def SameOutput
    (bufs₁ bufs₂ : RequestBufs)
    (req : RequestLine)
    (lines : List HeaderLine) :
    Prop :=
  ∀ (clientRio : Rio) (s : List Byte),
    clientRio.stream =
        req.bytes ++
          (lines.flatMap HeaderLine.bytes ++ endofHdr ++
            s) →
      ∃ host serverHeader clientRio₁ clientRio₂,
        prepare clientRio bufs₁ =
            .ok (.ready host serverHeader, clientRio₁) ∧
          prepare clientRio bufs₂ =
            .ok (.ready host serverHeader, clientRio₂)

/- Only what is read before it is written can differ. -/
theorem sameOutput_iff
    (bufs₁ bufs₂ : RequestBufs)
    (req : RequestLine)
    (lines : List HeaderLine) :
    SameOutput bufs₁ bufs₂ req lines ↔
      hostLine req.parsed.hostname bufs₁.header.hostHdr
            lines ++
          (connHdr ++ proxHdr ++ userAgentHdr ++
            bufs₁.header.otherHdr) =
        hostLine req.parsed.hostname bufs₂.header.hostHdr
            lines ++
          (connHdr ++ proxHdr ++ userAgentHdr ++
            bufs₂.header.otherHdr) := by
  constructor
  · intro hSame
    have hStream := clientOf_stream
      (req.bytes ++
        (lines.flatMap HeaderLine.bytes ++ endofHdr ++ []))
    rcases hSame _ _ hStream with
      ⟨host, serverHeader, after₁, after₂, hOut₁, hOut₂⟩
    rcases prepare_of_request bufs₁ req lines hStream with
      ⟨rio₁, hRun₁⟩
    rcases prepare_of_request bufs₂ req lines hStream with
      ⟨rio₂, hRun₂⟩
    rw [hRun₁] at hOut₁
    rw [hRun₂] at hOut₂
    simp only [Except.ok.injEq, Prod.mk.injEq,
      Prepared.ready.injEq] at hOut₁ hOut₂
    have hText := hOut₁.1.2.trans hOut₂.1.2.symm
    rw [List.append_left_inj] at hText
    simpa using hText
  · intro hText clientRio s hStream
    rcases prepare_of_request bufs₁ req lines hStream with
      ⟨rio₁, hRun₁⟩
    rcases prepare_of_request bufs₂ req lines hStream with
      ⟨rio₂, hRun₂⟩
    refine ⟨_, _, rio₁, rio₂, hRun₁, ?_⟩
    rw [hRun₂]
    simp only [Except.ok.injEq, Prod.mk.injEq,
      Prepared.ready.injEq, true_and, and_true]
    rw [List.append_left_inj]
    simpa using hText.symm

/- A Host line of the client hides the old host_hdr. -/
theorem sameOutput_iff_of_host
    (bufs₁ bufs₂ : RequestBufs)
    (req : RequestLine)
    {lines : List HeaderLine}
    (hHost : (lastHost lines).isSome) :
    SameOutput bufs₁ bufs₂ req lines ↔
      bufs₁.header.otherHdr = bufs₂.header.otherHdr := by
  rcases Option.isSome_iff_exists.mp hHost with
    ⟨line, hLast⟩
  rw [sameOutput_iff, hostLine_of_some _ _ hLast,
    hostLine_of_some _ _ hLast, List.append_right_inj,
    List.append_right_inj]

/-
  Where other_hdr is the same, the Host lines decide: one of
  the client, or else what is made of the old host_hdr.
-/
theorem sameOutput_iff_of_other
    {bufs₁ bufs₂ : RequestBufs}
    (hOther :
      bufs₁.header.otherHdr = bufs₂.header.otherHdr)
    (req : RequestLine)
    (lines : List HeaderLine) :
    SameOutput bufs₁ bufs₂ req lines ↔
      (lastHost lines).isSome ∨
        hostLine req.parsed.hostname bufs₁.header.hostHdr
            [] =
          hostLine req.parsed.hostname bufs₂.header.hostHdr
            [] := by
  cases hLast : lastHost lines with
  | some line =>
      have hHost : (lastHost lines).isSome := by
        rw [hLast]
        rfl
      exact iff_of_true
        ((sameOutput_iff_of_host bufs₁ bufs₂ req hHost).mpr
          hOther)
        (.inl rfl)
  | none =>
      rw [sameOutput_iff, hOther, List.append_left_inj,
        hostLine_of_no_host _ _ hLast,
        hostLine_of_no_host _ _ hLast]
      exact (or_iff_right Bool.false_ne_true).symm

/- Equal stale strings make for equal texts. -/
theorem sameOutput_of_stale_eq
    {bufs₁ bufs₂ : RequestBufs}
    (hOther :
      bufs₁.header.otherHdr = bufs₂.header.otherHdr)
    (hHost : bufs₁.header.hostHdr = bufs₂.header.hostHdr)
    (req : RequestLine)
    (lines : List HeaderLine) :
    SameOutput bufs₁ bufs₂ req lines := by
  rw [sameOutput_iff, hOther, hHost]

/- The Host line of a request without client headers. -/
theorem hostLine_nil
    (hostname stale : Text) :
    hostLine hostname stale [] =
      if stale = [] then hostHdrFormat hostname else stale := by
  rw [hostLine]
  simp only [List.length_eq_zero_iff]
  rfl

/-
  Two old strings that make the same Host line for two
  names are the same: an empty one would give two lines.
-/
theorem stale_eq_of_hostLine
    {name name' stale₁ stale₂ : Text}
    (hNames : name ≠ name')
    (hLine : hostLine name stale₁ [] = hostLine name stale₂ [])
    (hLine' :
      hostLine name' stale₁ [] = hostLine name' stale₂ []) :
    stale₁ = stale₂ := by
  have hFormats : hostHdrFormat name ≠ hostHdrFormat name' := by
    intro hEq
    rw [hostHdrFormat, hostHdrFormat, List.append_left_inj,
      List.append_right_inj] at hEq
    exact hNames hEq
  simp only [hostLine_nil] at hLine hLine'
  by_cases hEmpty₁ : stale₁ = []
  · by_cases hEmpty₂ : stale₂ = []
    · rw [hEmpty₁, hEmpty₂]
    · rw [if_pos hEmpty₁, if_neg hEmpty₂] at hLine hLine'
      exact absurd (hLine.trans hLine'.symm) hFormats
  · by_cases hEmpty₂ : stale₂ = []
    · rw [if_neg hEmpty₁, if_pos hEmpty₂] at hLine hLine'
      exact absurd (hLine.symm.trans hLine') hFormats
    · rwa [if_neg hEmpty₁, if_neg hEmpty₂] at hLine

def exampleRequest : RequestLine where
  host := text "www.example.com"
  tail := text ":8080/home.html"
  version := text "HTTP/1.1"
  hHost := by decide
  hHostBytes := forall_mem_text (by decide)
  hTailBytes := forall_mem_text (by decide)
  hTail := by
    intro c hc
    cases hc
    decide
  hVersion := by decide
  hVersionBytes := forall_mem_text (by decide)
  hLen := by decide

/- The same for another host. -/
def exampleOther : RequestLine where
  host := text "example.com"
  tail := text ":8080/home.html"
  version := text "HTTP/1.1"
  hHost := by decide
  hHostBytes := forall_mem_text (by decide)
  hTailBytes := forall_mem_text (by decide)
  hTail := by
    intro c hc
    cases hc
    decide
  hVersion := by decide
  hVersionBytes := forall_mem_text (by decide)
  hLen := by decide

theorem exampleRequest_ne_exampleOther :
    exampleRequest.parsed.hostname ≠
      exampleOther.parsed.hostname := by
  decide

/-
  Exactly when the old strings in other_hdr and host_hdr
  are the same do two runs agree on every request; on a
  request with a Host line other_hdr alone decides, and
  where other_hdr is the same only a request without one
  can tell the runs apart, by the line made of host_hdr.
-/
theorem prepare_same_iff
    (bufs₁ bufs₂ : RequestBufs) :
    ((∀ req lines, SameOutput bufs₁ bufs₂ req lines) ↔
      bufs₁.header.otherHdr = bufs₂.header.otherHdr ∧
        bufs₁.header.hostHdr = bufs₂.header.hostHdr) ∧
    (∀ req lines, (lastHost lines).isSome →
      (SameOutput bufs₁ bufs₂ req lines ↔
        bufs₁.header.otherHdr = bufs₂.header.otherHdr)) ∧
    (bufs₁.header.otherHdr = bufs₂.header.otherHdr →
      ∀ req lines,
        (SameOutput bufs₁ bufs₂ req lines ↔
          (lastHost lines).isSome ∨
            hostLine req.parsed.hostname
                bufs₁.header.hostHdr [] =
              hostLine req.parsed.hostname
                bufs₂.header.hostHdr [])) := by
  refine ⟨⟨?_, ?_⟩, ?_, ?_⟩
  · intro hSame
    have hHost : (lastHost [exampleHost]).isSome := by
      decide
    have hOther :=
      (sameOutput_iff_of_host bufs₁ bufs₂ exampleRequest
        hHost).mp (hSame exampleRequest [exampleHost])
    refine ⟨hOther, ?_⟩
    have hText :=
      (sameOutput_iff bufs₁ bufs₂ exampleRequest []).mp
        (hSame exampleRequest [])
    have hText' :=
      (sameOutput_iff bufs₁ bufs₂ exampleOther []).mp
        (hSame exampleOther [])
    rw [hOther, List.append_left_inj] at hText hText'
    exact stale_eq_of_hostLine
      exampleRequest_ne_exampleOther hText hText'
  · rintro ⟨hOther, hHost⟩ req lines
    exact sameOutput_of_stale_eq hOther hHost req lines
  · intro req lines hHost
    exact sameOutput_iff_of_host bufs₁ bufs₂ req hHost
  · intro hOther req lines
    exact sameOutput_iff_of_other hOther req lines

/- Locals that hold nothing, but for other_hdr. -/
def staleBufs
    (other : Text) :
    RequestBufs where
  buf := []
  method := []
  uri := []
  version := []
  host := ⟨[], [], 0⟩
  header := { emptyBufs with otherHdr := other }

/- A byte left in other_hdr reaches the server. -/
theorem prepare_leaks_other :
    ¬ ∀ (bufs₁ bufs₂ : RequestBufs) (req : RequestLine)
        (lines : List HeaderLine),
      SameOutput bufs₁ bufs₂ req lines := by
  intro hAlways
  have hSame :=
    (sameOutput_iff (staleBufs []) (staleBufs (text "secret"))
      exampleRequest []).mp (hAlways _ _ exampleRequest [])
  have hLens := congrArg List.length hSame
  have hSecret : (text "secret").length = 6 := by
    decide
  simp only [List.length_append, staleBufs, emptyBufs,
    List.length_nil, hSecret] at hLens
  omega

end Proxy

end CsappLabs
