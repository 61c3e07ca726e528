import CsappLabs.Tiny.Transaction

/-
  The proxy in front of Tiny.

  The header text that the proxy builds is a request that Tiny
  understands: it starts with a GET line for the path of the
  client's URI and has an empty line.  What Tiny answers comes
  back through the proxy unchanged, so the client receives the
  page of the path that it asked the proxy for.

  Key definitions:
    * `forwarded`
    * `Linked`

  Key theorems:
    * `doit_of_forwarded`
    * `serve_of_linked`
-/

------------------------------------------------------------
-- Paths
------------------------------------------------------------

namespace CsappLabs

namespace Tiny

open CString Proxy

/- A word is made of the bytes of the text it stands in. -/
theorem mem_of_scanWord
    {s word rest : Text}
    (hScan : scanWord s = some (word, rest)) :
    word ≠ [] ∧
      ∀ c ∈ word, c ∈ s ∧ isspace c = false := by
  rw [scanWord] at hScan
  split at hScan
  · cases hScan
  · rename_i first word hTake
    cases hScan
    refine ⟨List.cons_ne_nil _ _, fun c hc => ?_⟩
    rw [← hTake] at hc
    constructor
    · exact (List.dropWhile_suffix isspace).subset
        ((List.takeWhile_prefix _).subset hc)
    · have hWord := List.mem_takeWhile_imp hc
      simpa using hWord

theorem mem_of_scanInt
    {s rest : Text}
    {n : Int}
    (hScan : scanInt s = some (n, rest)) :
    ∀ c ∈ rest, c ∈ s := by
  have hSign :
      ∀ t : Text, ∀ c ∈ (scanSign t).2, c ∈ t := by
    intro t c hc
    cases t with
    | nil => exact hc
    | cons d t =>
        rw [scanSign] at hc
        split_ifs at hc
        · exact List.mem_cons_of_mem d hc
        · exact List.mem_cons_of_mem d hc
        · exact hc
  unfold scanInt at hScan
  simp only at hScan
  split at hScan
  · cases hScan
  · cases hScan
    intro c hc
    exact (List.dropWhile_suffix isspace).subset
      (hSign _ c ((List.dropWhile_suffix isdigit).subset hc))

/- A path of bytes of the URI, or the path of no path. -/
structure PathOf (tail path : Text) : Prop where
  some : path ≠ []
  bytes : path = text "/" ∨ ∀ c ∈ path, c ∈ tail
  words : ∀ c ∈ path, isspace c = false
  length : path.length ≤ tail.length + 1

theorem pathOf_root
    (tail : Text) :
    PathOf tail (text "/") where
  some := by decide
  bytes := .inl rfl
  words := forall_mem_text (by decide)
  length := Nat.le_add_left 1 _

theorem pathOf_sscanfWord
    {tail s : Text}
    (hMem : ∀ c ∈ s, c ∈ tail)
    (hLength : s.length ≤ tail.length) :
    PathOf tail (sscanfWord s (text "/")) := by
  rw [sscanfWord]
  cases hScan : scanWord s with
  | none => exact pathOf_root tail
  | some found =>
      rcases found with ⟨word, rest⟩
      rcases mem_of_scanWord hScan with ⟨hSome, hBytes⟩
      have hWord := scanWord_length hScan
      refine
        { some := hSome
          bytes := .inr fun c hc => hMem c (hBytes c hc).1
          words := fun c hc => (hBytes c hc).2
          length := ?_ }
      simp only
      omega

/- The path that parse_hostname finds. -/
theorem pathOf_parsed
    (req : RequestLine) :
    PathOf req.tail req.parsed.path := by
  rw [RequestLine.parsed]
  cases hColon : strstr (text ":") req.tail with
  | some pair =>
      rcases pair with ⟨before, found⟩
      have hSplit := strstr_append hColon
      have hMem : ∀ c ∈ found.drop 1, c ∈ req.tail := by
        intro c hc
        rw [← hSplit]
        exact List.mem_append_right _ (List.mem_of_mem_drop hc)
      have hLength :
          (found.drop 1).length ≤ req.tail.length := by
        rw [← hSplit, List.length_append, List.length_drop]
        omega
      simp only
      rw [scanPortPath]
      cases hPort : scanInt (found.drop 1) with
      | none => exact pathOf_root _
      | some scanned =>
          rcases scanned with ⟨port, rest⟩
          have hRest := scanInt_length hPort
          exact
            pathOf_sscanfWord
              (fun c hc => hMem c (mem_of_scanInt hPort c hc))
              (hRest.trans hLength)
  | none =>
      cases hSlash : strstr (text "/") req.tail with
      | none => exact pathOf_root _
      | some pair =>
          rcases pair with ⟨before, found⟩
          have hSplit := strstr_append hSlash
          refine pathOf_sscanfWord ?_ ?_
          · intro c hc
            rw [← hSplit]
            exact List.mem_append_right _ hc
          · rw [← hSplit, List.length_append]
            omega

------------------------------------------------------------
-- The Header Text
------------------------------------------------------------

/- What the proxy sends for a request of its client. -/
def forwarded
    (req : RequestLine)
    (lines : List HeaderLine)
    (stale : Text) :
    Text :=
  requestlintHdrFormat req.parsed.path ++
    hostLine req.parsed.hostname stale lines ++ connHdr ++
    proxHdr ++ userAgentHdr ++ endofHdr

theorem pathBytes_parsed
    (req : RequestLine) :
    ∀ c ∈ req.parsed.path, IsWordByte c := by
  intro c hc
  rcases (pathOf_parsed req).bytes with hRoot | hTail
  · rw [hRoot] at hc
    have hWord : ∀ d ∈ text "/", IsWordByte d :=
      forall_mem_text (by decide)
    exact hWord c hc
  · exact req.hTailBytes c (hTail c hc)

theorem pathLength_parsed
    (req : RequestLine) :
    req.parsed.path.length + 15 < MAXLINE := by
  have hPath := (pathOf_parsed req).length
  have hReq := req.hLen
  have hHost := List.length_pos_iff.mpr req.hHost
  have hWord := List.length_pos_iff.mpr req.hVersion
  omega

/- The GET line of that text. -/
def getLine (req : RequestLine) : GetRequest :=
  getOfUri req.parsed.path (pathOf_parsed req).some
    (pathBytes_parsed req) (pathLength_parsed req)

variable {files : Files}
variable {cgi : Text → Text → Sink → Sink}
variable {rio : Rio}
variable {client : Sink}
variable {stale : Text}

/- Tiny answers the header text with the page of the path. -/
theorem doit_of_forwarded
    (req : RequestLine)
    (lines : List HeaderLine)
    (hStream : rio.stream = forwarded req lines stale)
    (bufs : DoitBufs) :
    ∃ fuel, ∀ more, fuel ≤ more →
      doit files cgi more rio client bufs =
        some
          (respond files cgi client bufs.uriBelow
            req.parsed.path) := by
  have hSplit :
      forwarded req lines stale =
        (getLine req).bytes ++
          ((hostLine req.parsed.hostname stale lines ++
              connHdr ++ proxHdr ++ userAgentHdr) ++
            (endofHdr ++ [])) := by
    have hLine :
        requestlintHdrFormat req.parsed.path =
          (getLine req).bytes := by
      rw [GetRequest.bytes_eq]
      change
        text "GET " ++ req.parsed.path ++
            text " HTTP/1.0\r\n" =
          text "GET" ++ 32 :: (req.parsed.path ++ 32 ::
            (text "HTTP/1.0" ++ [13, 10]))
      have hGet : text "GET " = text "GET" ++ [32] := rfl
      have hVersion :
          text " HTTP/1.0\r\n" =
            32 :: (text "HTTP/1.0" ++ [13, 10]) := rfl
      rw [hGet, hVersion]
      simp
    rw [forwarded, hLine]
    simp
  rw [hSplit] at hStream
  refine
    doit_of_get (getLine req) hStream
      (headerComplete_append ?_ []) bufs
  intro c hc
  rw [List.getLast?_append] at hc
  have hAgent : userAgentHdr.getLast? = some 10 := by decide
  rw [hAgent] at hc
  simpa using hc.symm

------------------------------------------------------------
-- Both Servers
------------------------------------------------------------

/-
  The server that the proxy reached is a Tiny that takes what
  the proxy writes, and whose answer the proxy reads; both
  sockets work, and the client has room for the answer.
-/
structure Linked
    (files : Files)
    (cgi : Text → Text → Sink → Sink)
    (conn : Connection)
    (serverHeader : Text)
    (server : Server)
    (page : List Byte) :
    Prop where
  connected : conn.server = some server
  takes : server.output.Takes serverHeader.length
  answered :
    ∃ rio client bufs fuel out,
      rio.stream = serverHeader ∧
        client.sent = [] ∧
        doit files cgi fuel rio client bufs =
          some (.ok out) ∧
        out.sent = page
  relayed : server.input.bytes = page
  ends : server.input.ending = .eof
  room : conn.output.Takes page.length
  serverCloses : server.closes = true
  closes : conn.closes = true

/- What Tiny answers to the header text is the page. -/
theorem answer_of_linked
    {conn : Connection}
    {server : Server}
    {page : List Byte}
    {req : RequestLine}
    {lines : List HeaderLine}
    (hLinked :
      Linked files cgi conn (forwarded req lines stale)
        server page)
    (hStatic :
      strstr (text "cgi-bin") req.parsed.path = none)
    (hServable : Servable files req.parsed.path) :
    page = staticPage files req.parsed.path := by
  rcases hLinked.answered with
    ⟨rio, client, bufs, fuel, out, hStream, hSent, hDoit,
      hAnswer⟩
  rcases
      @doit_of_forwarded files cgi rio client _ req lines
        hStream bufs with
    ⟨enough, hForwarded⟩
  have hLater :=
    doit_mono hDoit (Nat.le_max_left fuel enough)
  rw [hForwarded _ (Nat.le_max_right fuel enough)] at hLater
  have hRespond := Option.some.inj hLater
  have hSends :=
    @sends_respond client files cgi req.parsed.path
      (pathOf_parsed req).some hStatic hServable bufs.uriBelow
  have hPage := (hSends.2 out hRespond).1
  rw [← hAnswer, hPage, hSent, List.nil_append]

/-
  A client that asks the proxy for a static file of a Tiny
  receives the page of the file, if nothing was left over in
  other_hdr, header text and port fit their arrays, and the
  page is one that Tiny can serve.
-/
theorem serve_of_linked
    {conn : Connection}
    {server : Server}
    {page s : List Byte}
    (req : RequestLine)
    (lines : List HeaderLine)
    (hInput :
      conn.input.bytes =
        req.bytes ++
          (lines.flatMap HeaderLine.bytes ++ endofHdr ++ s))
    (hOther : conn.bufs.header.otherHdr = [])
    (hHeader :
      (forwarded req lines
        conn.bufs.header.hostHdr).length < MAXLINE)
    (hPort :
      -99999999 ≤ req.parsed.httpPort ∧
        req.parsed.httpPort ≤ 999999999)
    (hStatic :
      strstr (text "cgi-bin") req.parsed.path = none)
    (hServable : Servable files req.parsed.path)
    (hLinked :
      Linked files cgi conn
        (forwarded req lines conn.bufs.header.hostHdr)
        server page) :
    ∃ client',
      serve conn = .ok client' ∧
        client'.sent =
          conn.output.sent ++
            staticPage files req.parsed.path := by
  have hAnswer := answer_of_linked hLinked hStatic hServable
  have hStream :
      (rioReadinitb conn.input conn.rioBuf).stream =
        req.bytes ++
          (lines.flatMap HeaderLine.bytes ++ endofHdr ++
            s) := by
    rw [rioReadinitb_stream]
    exact hInput
  rcases prepare_of_request conn.bufs req lines hStream with
    ⟨clientRio', hPrepare⟩
  rw [hOther, List.append_nil] at hPrepare
  have hRoomy :=
    (leavesRoomAfter_iff hPrepare).mpr ⟨hHeader, hPort⟩
  rw [rioReadinitb_stream] at hRoomy
  have hFits :=
    (formatted_fit_iff_of_stale _ _ conn.hUri).mpr
      fun _ => hRoomy
  rcases
      Wrapper.rioWriten_of_takes server.output _
        hLinked.takes with
    ⟨output, hWrite, _⟩
  have hServerStream :
      (rioReadinitb server.input conn.serverRioBuf).stream =
        page := by
    rw [rioReadinitb_stream]
    exact hLinked.relayed
  have hRoom := hLinked.room
  rw [← hServerStream] at hRoom
  rcases
      @relayLoop_of_eof
        (rioReadinitb server.input conn.serverRioBuf)
        conn.output hLinked.ends hRoom with
    ⟨serverRio', client', bufs, hRelay, _, _, hSent⟩
  rw [hServerStream, hAnswer] at hSent
  refine ⟨client', ?_, hSent⟩
  rw [serve, fromClientToServer, hPrepare]
  simp only [Proxy.answer, if_pos hFits, hLinked.connected,
    Wrapper.openClientfd, exchange]
  rw [forwarded] at hWrite
  rw [hWrite]
  simp only [hRelay, hLinked.serverCloses, hLinked.closes,
    Wrapper.close, if_true]

/- Bytes that arrive all at once. -/
theorem bytes_pushBack
    (s : List Byte) :
    (Source.mk (pushBack s []) .eof).bytes = s := by
  rw [Source.bytes, flatMap_pushBack, List.flatMap_nil,
    List.append_nil]

/- A Tiny that has the file behind the proxy. -/
def homeServer : Server where
  input :=
    ⟨pushBack
      (staticPage homeFiles exampleRequest.parsed.path) [],
      .eof⟩
  output := openSink
  closes := true

theorem homeServer_linked :
    Linked homeFiles (fun _ _ sink => sink)
      (exampleConnection (some homeServer))
      (forwarded exampleRequest [] []) homeServer
      (staticPage homeFiles
        exampleRequest.parsed.path) where
  connected := rfl
  takes := by simp [homeServer, openSink, Sink.Takes]
  answered := by
    rcases
        @doit_of_forwarded homeFiles (fun _ _ sink => sink)
          (clientOf (forwarded exampleRequest [] []))
          openSink [] exampleRequest []
          (clientOf_stream _) homeBufs with
      ⟨fuel, hDoit⟩
    have hSends :=
      @sends_respond openSink homeFiles
        (fun _ _ sink => sink) exampleRequest.parsed.path
        (by decide) (by decide)
        (homeFiles_servable (by decide)) 0
    have hRoom :
        openSink.Takes
          (staticPage homeFiles
            exampleRequest.parsed.path).length := by
      simp [openSink, Sink.Takes]
    rcases hSends.1.mpr hRoom with ⟨out, hOut⟩
    refine
      ⟨clientOf (forwarded exampleRequest [] []), openSink,
        homeBufs, fuel, out, clientOf_stream _, rfl, ?_,
        (hSends.2 out hOut).1⟩
    exact (hDoit fuel (Nat.le_refl _)).trans
      (congrArg some hOut)
  relayed := bytes_pushBack _
  ends := rfl
  room := by
    simp [exampleConnection, openSink, Sink.Takes]
  serverCloses := rfl
  closes := rfl

theorem homeHeader_length :
    (forwarded exampleRequest [] []).length < MAXLINE := by
  simp only [forwarded, List.length_append]
  decide

theorem serve_of_linked_home :
    ∃ client',
      serve (exampleConnection (some homeServer)) =
          .ok client' ∧
        client'.sent =
          [] ++
            staticPage homeFiles
              exampleRequest.parsed.path :=
  @serve_of_linked homeFiles (fun _ _ sink => sink)
    (exampleConnection (some homeServer)) homeServer _ []
    exampleRequest [] (bytes_pushBack _) rfl
    homeHeader_length (by decide) (by decide)
    (homeFiles_servable (by decide)) homeServer_linked

end Tiny

end CsappLabs
