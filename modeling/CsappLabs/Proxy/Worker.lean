import CsappLabs.Lib.Tokens
import CsappLabs.Lib.Transition
import CsappLabs.Proxy.Formatting

/-
  The worker threads of the proxy (proxylab/proxy.c, thread
  and from_client_to_server; the wrappers of csapp.c).

  A connection comes with all that the system calls will
  report while it is served.  A string that is formatted
  past the end of its array ends the run like a call of
  exit: nothing is known of the process after it.  The
  queue is the buffer of sbuf.c as a list.

  Key definitions:
    * `fromClientToServer`
    * `serve`
    * `Connection.Survives`
    * `ProcessStep`

  Key theorems:
    * `headerLoop_ok_iff`
    * `serve_ok_iff`
    * `process_survives`
-/

------------------------------------------------------------
-- One Connection
------------------------------------------------------------

namespace CsappLabs

namespace Proxy

open CString Tokens Transition

/- A server that open_clientfd reached. -/
structure Server where
  input : Source
  output : Sink
  closes : Bool
  deriving DecidableEq, Repr

/-
  A descriptor in the queue, the locals that its worker
  will find on the stack, and what the calls will report:
  `server` is none where open_clientfd returns an error,
  `closes` tells whether close() succeeds.  The string in
  uri, like every string on the stack, ends in its array.
-/
structure Connection where
  input : Source
  output : Sink
  closes : Bool
  server : Option Server
  bufs : RequestBufs
  rioBuf : List Byte
  serverRioBuf : List Byte
  hUri : bufs.uri.length < MAXLINE
  deriving DecidableEq, Repr

def Wrapper.openClientfd
    (server : Option Server) :
    Except String Server :=
  match server with
  | some server => .ok server
  | none => unixError "Open_clientfd error"

def Wrapper.close
    (closes : Bool) :
    Except String Unit :=
  if closes then
    .ok ()
  else
    unixError "Close error"

/- A string was written past the end of its array. -/
def overflow
    {α : Type} :
    Except String α :=
  .error "buffer overflow"

/- sprintf into buf[MAXLINE], and Rio_writen of the string. -/
def printWriten
    (fd : Sink)
    (usrbuf : Text) :
    Except String Sink :=
  if usrbuf.length < MAXLINE then
    Wrapper.rioWriten fd usrbuf
  else
    overflow

/- The texts that clienterror prints and writes out. -/
def errorPage
    (cause errnum shortmsg longmsg : Text) :
    List Text :=
  [text "HTTP/1.0 " ++ errnum ++ text " " ++ shortmsg ++
      text "\r\n",
    text "Content-type: text/html\r\n\r\n",
    text "<html><title>Tiny Error</title>",
    text "<body bgcolor=ffffff>\r\n",
    errnum ++ text ": " ++ shortmsg ++ text "\r\n",
    text "<p>" ++ longmsg ++ text ": " ++ cause ++
      text "\r\n",
    text "<hr><em>The Tiny Web server</em>\r\n"]

def clienterror
    (client : Sink)
    (cause errnum shortmsg longmsg : Text) :
    Except String Sink :=
  (errorPage cause errnum shortmsg longmsg).foldlM
    printWriten client

def notImplemented
    (method : Text) :
    List Text :=
  errorPage method (text "501") (text "Not Implemented")
    (text "Tiny does not implement this method")

/- The header out, the answer back, and the server closed. -/
def exchange
    (client : Sink)
    (serverHeader : Text)
    (server : Server)
    (serverRioBuf : List Byte) :
    Except String Sink :=
  match Wrapper.rioWriten server.output serverHeader with
  | .error msg => .error msg
  | .ok _ =>
      match relayLoop
          (rioReadinitb server.input serverRioBuf)
          client with
      | .error msg => .error msg
      | .ok (_, client') =>
          match Wrapper.close server.closes with
          | .error msg => .error msg
          | .ok _ => .ok client'

/-
  from_client_to_server once the request is prepared, which
  for a GET has formatted its strings into their arrays.
-/
def answer
    (conn : Connection)
    (prepared : Prepared) :
    Except String Sink :=
  match prepared with
  | .closed => .ok conn.output
  | .unsupported method =>
      clienterror conn.output method (text "501")
        (text "Not Implemented")
        (text "Tiny does not implement this method")
  | .ready _ serverHeader =>
      if ∀ f ∈ fromClientToServerWrites
          (requestOf conn.input.bytes) conn.bufs,
          Formatted.Fits f then
        match Wrapper.openClientfd conn.server with
        | .error msg => .error msg
        | .ok server =>
            exchange conn.output serverHeader server
              conn.serverRioBuf
      else
        overflow

def fromClientToServer
    (conn : Connection) :
    Except String Sink :=
  match prepare (rioReadinitb conn.input conn.rioBuf)
      conn.bufs with
  | .error msg => .error msg
  | .ok (prepared, _) => answer conn prepared

/- What thread does between two calls of sbuf_remove. -/
def serve
    (conn : Connection) :
    Except String Sink :=
  match fromClientToServer conn with
  | .error msg => .error msg
  | .ok client =>
      match Wrapper.close conn.closes with
      | .error msg => .error msg
      | .ok _ => .ok client

------------------------------------------------------------
-- When Reading the Request Succeeds
------------------------------------------------------------

/- The bytes hold all lines up to one that is empty. -/
inductive HeaderComplete : List Byte → Prop where
  | last
      (s : List Byte)
      (hLine : Line.Complete 10 (MAXLINE - 1) s)
      (hEnd :
        ofBytes (Line.next 10 (MAXLINE - 1) s) =
          endofHdr) :
      HeaderComplete s
  | more
      (s : List Byte)
      (hLine : Line.Complete 10 (MAXLINE - 1) s)
      (hRest :
        HeaderComplete
          (s.drop (Line.next 10 (MAXLINE - 1) s).length)) :
      HeaderComplete s

theorem HeaderComplete.line
    {s : List Byte}
    (hComplete : HeaderComplete s) :
    Line.Complete 10 (MAXLINE - 1) s := by
  cases hComplete with
  | last _ hLine _ => exact hLine
  | more _ hLine _ => exact hLine

/- A run that ended in unix_error has no result. -/
theorem not_ok_of_error
    {α : Type}
    (msg : String) :
    ¬ ∃ out, (Except.error msg : Except String α) =
      .ok out := by
  rintro ⟨out, hOut⟩
  cases hOut

/- The header loop fails only in a line cut off. -/
theorem headerLoop_ok_iff
    (clientRio : Rio)
    (bufs : HeaderBufs) :
    (∃ out, headerLoop clientRio bufs = .ok out) ↔
      clientRio.input.ending = .eof ∨
        HeaderComplete clientRio.stream := by
  induction hLen : clientRio.stream.length
      using Nat.strong_induction_on
      generalizing clientRio bufs with
  | _ len ih =>
      by_cases hReadable : clientRio.Readable MAXLINE
      · rcases
            Wrapper.rioReadlineb_of_readable (by decide)
              hReadable with
          ⟨next, hRead, hRest, hEnd⟩
        cases hLine :
            Line.next 10 (MAXLINE - 1) clientRio.stream with
        | nil =>
            rw [hLine] at hRead
            have hEnding :=
              (Wrapper.rioReadlineb_nothing hRead).1
            rw [headerLoop_nothing bufs hRead]
            exact ⟨fun _ => Or.inl hEnding,
              fun _ => ⟨_, rfl⟩⟩
        | cons b bs =>
            have hSome : b :: bs ≠ [] :=
              List.cons_ne_nil b bs
            rw [hLine] at hRead
            rw [headerLoop_line bufs hSome hRead, ← hLine]
            by_cases hStop :
                ofBytes (Line.next 10 (MAXLINE - 1)
                  clientRio.stream) = endofHdr
            · rw [if_pos hStop]
              refine ⟨fun _ => ?_, fun _ => ⟨_, rfl⟩⟩
              exact hReadable.imp_right
                (fun hComplete => .last _ hComplete hStop)
            · have hShorter : next.stream.length < len := by
                rw [← hLen]
                exact Wrapper.rioReadlineb_shorter hRead
              rw [if_neg hStop, ih _ hShorter next _ rfl,
                hEnd, hRest]
              constructor
              · rintro (hEof | hMore)
                · exact Or.inl hEof
                · exact hReadable.imp_right
                    (fun hComplete =>
                      .more _ hComplete hMore)
              · rintro (hEof | hAll)
                · exact Or.inl hEof
                · cases hAll with
                  | last _ _ hEndof =>
                      exact absurd hEndof hStop
                  | more _ _ hMore => exact Or.inr hMore
      · rw [headerLoop_error bufs
          (Wrapper.rioReadlineb_of_not_readable hReadable)]
        exact iff_of_false (not_ok_of_error _)
          (fun hAll => hReadable
            (hAll.imp_right HeaderComplete.line))

/- The request line asks for GET. -/
def isGet
    (bufs : RequestBufs)
    (line : List Byte) :
    Bool :=
  strcasecmpEq
    (scanRequestLine
      { bufs with buf := ofBytes line }).method
    (text "GET")

/- The bytes hold all of the request that is read. -/
def RequestComplete
    (bufs : RequestBufs)
    (s : List Byte) :
    Prop :=
  Line.Complete 10 (MAXLINE - 1) s ∧
    (isGet bufs (Line.next 10 (MAXLINE - 1) s) = true →
      HeaderComplete
        (s.drop (Line.next 10 (MAXLINE - 1) s).length))

theorem buildHttpHeader_ok_iff
    (hostname path : Text)
    (clientRio : Rio)
    (bufs : HeaderBufs) :
    (∃ out,
      buildHttpHeader hostname path clientRio bufs =
        .ok out) ↔
      clientRio.input.ending = .eof ∨
        HeaderComplete clientRio.stream := by
  rw [← headerLoop_ok_iff clientRio
    { bufs with requestHdr := requestlintHdrFormat path },
    buildHttpHeader]
  cases headerLoop clientRio
      { bufs with
        requestHdr := requestlintHdrFormat path } with
  | error msg =>
      exact iff_of_false (not_ok_of_error msg)
        (not_ok_of_error msg)
  | ok out => exact iff_of_true ⟨_, rfl⟩ ⟨_, rfl⟩

/- Preparing a request fails only in a line cut off. -/
theorem prepare_ok_iff
    (clientRio : Rio)
    (bufs : RequestBufs) :
    (∃ out, prepare clientRio bufs = .ok out) ↔
      clientRio.input.ending = .eof ∨
        RequestComplete bufs clientRio.stream := by
  by_cases hReadable : clientRio.Readable MAXLINE
  · rcases
        Wrapper.rioReadlineb_of_readable (by decide) hReadable with
      ⟨next, hRead, hRest, hEnd⟩
    rw [RequestComplete, prepare]
    cases hLine :
        Line.next 10 (MAXLINE - 1) clientRio.stream with
    | nil =>
        rw [hLine] at hRead
        have hEnding :=
          (Wrapper.rioReadlineb_nothing hRead).1
        rw [hRead]
        exact ⟨fun _ => Or.inl hEnding, fun _ => ⟨_, rfl⟩⟩
    | cons b bs =>
        rw [hLine] at hRead hRest
        rw [hRead]
        by_cases hGet : isGet bufs (b :: bs) = true
        · have hBlock :
              (clientRio.input.ending = .eof ∨
                  Line.Complete 10 (MAXLINE - 1)
                      clientRio.stream ∧
                    HeaderComplete next.stream) ↔
                next.input.ending = .eof ∨
                  HeaderComplete next.stream := by
            rw [hEnd]
            constructor
            · exact fun h => h.imp_right And.right
            · rintro (hEof | hMore)
              · exact Or.inl hEof
              · exact hReadable.imp_right
                  (fun hComplete => ⟨hComplete, hMore⟩)
          simp only [hGet, forall_const, ← hRest, hBlock]
          rw [isGet] at hGet
          simp only [hGet, if_true]
          rw [← buildHttpHeader_ok_iff]
          split
          case h_1 hBuild =>
            rw [hBuild]
            exact iff_of_false (not_ok_of_error _)
              (not_ok_of_error _)
          case h_2 hBuild =>
            rw [hBuild]
            exact iff_of_true ⟨_, rfl⟩ ⟨_, rfl⟩
        · have hMethod := hGet
          rw [isGet] at hMethod
          simp only [hMethod]
          refine ⟨fun _ => ?_, fun _ => ⟨_, rfl⟩⟩
          exact hReadable.imp_right
            (fun hComplete =>
              ⟨hComplete, fun h => absurd h hGet⟩)
  · rw [prepare,
      Wrapper.rioReadlineb_of_not_readable hReadable]
    exact iff_of_false (not_ok_of_error _)
      (fun hAll => hReadable (hAll.imp_right And.left))

------------------------------------------------------------
-- When a Connection is Survived
------------------------------------------------------------

/-
  The peers take and deliver what this answer needs, and its
  strings fit into their arrays.
-/
def Connection.Answerable
    (conn : Connection) :
    Prepared → Prop
  | .closed => True
  | .unsupported method =>
      method.length + 42 < MAXLINE ∧
        conn.output.Takes
          (notImplemented method).flatten.length
  | .ready _ serverHeader =>
      LeavesRoomAfter (requestOf conn.input.bytes) conn.bufs ∧
      ∃ server,
        conn.server = some server ∧
          server.output.Takes serverHeader.length ∧
          server.input.ending = .eof ∧
          conn.output.Takes server.input.bytes.length ∧
          server.closes = true

/-
  No wrapper on the way through from_client_to_server and
  Close sees an error: the request is read whole, its strings
  fit, the peers of its answer do not fail, and the
  descriptor closes.
-/
def Connection.Survives
    (conn : Connection) :
    Prop :=
  (conn.input.ending = .eof ∨
      RequestComplete conn.bufs conn.input.bytes) ∧
    (∀ prepared clientRio',
      prepare (rioReadinitb conn.input conn.rioBuf)
          conn.bufs = .ok (prepared, clientRio') →
        conn.Answerable prepared) ∧
    conn.closes = true

/- A sequence of writes needs room for all of them. -/
theorem foldlM_rioWriten_ok_iff
    (client : Sink)
    (texts : List Text) :
    (∃ out,
      texts.foldlM Wrapper.rioWriten client = .ok out) ↔
      client.Takes texts.flatten.length := by
  induction texts generalizing client with
  | nil =>
      exact iff_of_true ⟨client, rfl⟩ (by simp [Sink.Takes])
  | cons usrbuf texts ih =>
      rw [List.foldlM_cons, List.flatten_cons,
        List.length_append]
      by_cases hFirst : client.Takes usrbuf.length
      · rcases
            Wrapper.rioWriten_of_takes client usrbuf hFirst with
          ⟨client', hWrite, _, _, hRoom⟩
        rw [hWrite, ← Sink.takes_of_room hRoom _ hFirst]
        exact ih client'
      · rw [Wrapper.rioWriten_of_not_takes client usrbuf
          hFirst]
        apply iff_of_false (not_ok_of_error _)
        intro hAll
        exact hFirst (fun r hr =>
          (Nat.le_add_right _ _).trans (hAll r hr))

/- Strings that fit are just written. -/
theorem foldlM_printWriten_of_fits
    {texts : List Text}
    (hFits : ∀ usrbuf ∈ texts, usrbuf.length < MAXLINE)
    (client : Sink) :
    texts.foldlM printWriten client =
      texts.foldlM Wrapper.rioWriten client := by
  induction texts generalizing client with
  | nil => rfl
  | cons usrbuf texts ih =>
      have hFirst : usrbuf.length < MAXLINE :=
        hFits usrbuf List.mem_cons_self
      rw [List.foldlM_cons, List.foldlM_cons, printWriten,
        if_pos hFirst]
      congr 1
      funext client'
      exact ih
        (fun t ht => hFits t (List.mem_cons_of_mem _ ht))
        client'

/- A string that does not fit is fatal. -/
theorem fits_of_foldlM_printWriten
    {texts : List Text}
    {client out : Sink}
    (hOut : texts.foldlM printWriten client = .ok out) :
    ∀ usrbuf ∈ texts, usrbuf.length < MAXLINE := by
  induction texts generalizing client with
  | nil =>
      intro usrbuf hMem
      cases hMem
  | cons first texts ih =>
      rw [List.foldlM_cons, printWriten] at hOut
      by_cases hFirst : first.length < MAXLINE
      · rw [if_pos hFirst] at hOut
        cases hWrite : Wrapper.rioWriten client first with
        | error msg =>
            rw [hWrite] at hOut
            cases hOut
        | ok client' =>
            rw [hWrite] at hOut
            intro usrbuf hMem
            cases hMem with
            | head => exact hFirst
            | tail _ hMem => exact ih hOut usrbuf hMem
      · rw [if_neg hFirst] at hOut
        cases hOut

/- Only the cause can be too long for an error page. -/
theorem errorPage_fits_iff
    {errnum shortmsg : Text}
    (hShort : errnum.length + shortmsg.length + 12 < MAXLINE)
    (cause longmsg : Text) :
    (∀ usrbuf ∈ errorPage cause errnum shortmsg longmsg,
      usrbuf.length < MAXLINE) ↔
      cause.length + longmsg.length + 7 < MAXLINE := by
  have hStatus : (text "HTTP/1.0 ").length = 9 := by decide
  have hSpace : (text " ").length = 1 := by decide
  have hCrlf : (text "\r\n").length = 2 := by decide
  have hColon : (text ": ").length = 2 := by decide
  have hPara : (text "<p>").length = 3 := by decide
  have hType :
      (text "Content-type: text/html\r\n\r\n").length <
        MAXLINE := by decide
  have hTitle :
      (text "<html><title>Tiny Error</title>").length <
        MAXLINE := by decide
  have hBody :
      (text "<body bgcolor=ffffff>\r\n").length <
        MAXLINE := by decide
  have hRule :
      (text "<hr><em>The Tiny Web server</em>\r\n").length <
        MAXLINE := by decide
  simp only [errorPage, List.forall_mem_cons,
    List.length_append]
  constructor
  · rintro ⟨_, _, _, _, _, hCause, _⟩
    omega
  · intro hCause
    refine ⟨?_, hType, hTitle, hBody, ?_, ?_, hRule,
      List.forall_mem_nil _⟩
    · omega
    · omega
    · omega

/- clienterror writes its page, if it fits. -/
theorem clienterror_ok_iff
    {errnum shortmsg : Text}
    (hShort : errnum.length + shortmsg.length + 12 < MAXLINE)
    (client : Sink)
    (cause longmsg : Text) :
    (∃ out,
      clienterror client cause errnum shortmsg longmsg =
        .ok out) ↔
      cause.length + longmsg.length + 7 < MAXLINE ∧
        client.Takes
          (errorPage cause errnum shortmsg
            longmsg).flatten.length := by
  rw [← errorPage_fits_iff hShort cause longmsg, clienterror]
  constructor
  · rintro ⟨out, hOut⟩
    have hFits := fits_of_foldlM_printWriten hOut
    rw [foldlM_printWriten_of_fits hFits] at hOut
    exact ⟨hFits,
      (foldlM_rioWriten_ok_iff client _).mp ⟨out, hOut⟩⟩
  · rintro ⟨hFits, hTakes⟩
    rw [foldlM_printWriten_of_fits hFits]
    exact (foldlM_rioWriten_ok_iff client _).mpr hTakes

theorem close_ok_iff
    (closes : Bool) :
    (∃ out, Wrapper.close closes = .ok out) ↔
      closes = true := by
  cases closes with
  | true => exact iff_of_true ⟨(), rfl⟩ rfl
  | false =>
      exact iff_of_false (not_ok_of_error "Close error")
        Bool.false_ne_true

theorem exchange_ok_iff
    (client : Sink)
    (serverHeader : Text)
    (server : Server)
    (serverRioBuf : List Byte) :
    (∃ out,
      exchange client serverHeader server serverRioBuf =
        .ok out) ↔
      server.output.Takes serverHeader.length ∧
        server.input.ending = .eof ∧
        client.Takes server.input.bytes.length ∧
        server.closes = true := by
  have hRelay :=
    relayLoop_ok_iff
      (rioReadinitb server.input serverRioBuf) client
  have hClose := close_ok_iff server.closes
  rw [rioReadinitb_stream, rioReadinitb_ending] at hRelay
  rw [← and_assoc (a := server.input.ending = .eof),
    ← hRelay, ← hClose, exchange]
  by_cases hHeader : server.output.Takes serverHeader.length
  · rcases
        Wrapper.rioWriten_of_takes server.output serverHeader
          hHeader with
      ⟨output, hWrite, _⟩
    rw [hWrite]
    cases relayLoop
        (rioReadinitb server.input serverRioBuf)
        client with
    | error msg =>
        exact iff_of_false (not_ok_of_error msg)
          (fun h => not_ok_of_error msg h.2.1)
    | ok out =>
        cases Wrapper.close server.closes with
        | error msg =>
            exact iff_of_false (not_ok_of_error msg)
              (fun h => not_ok_of_error msg h.2.2)
        | ok closed =>
            exact iff_of_true ⟨_, rfl⟩
              ⟨hHeader, ⟨_, rfl⟩, ⟨_, rfl⟩⟩
  · rw [Wrapper.rioWriten_of_not_takes server.output
      serverHeader hHeader]
    exact iff_of_false (not_ok_of_error _)
      (fun h => hHeader h.1)

theorem answer_ok_iff
    (conn : Connection)
    {prepared : Prepared}
    {clientRio' : Rio}
    (hPrepare :
      prepare (rioReadinitb conn.input conn.rioBuf)
        conn.bufs = .ok (prepared, clientRio')) :
    (∃ out, answer conn prepared = .ok out) ↔
      conn.Answerable prepared := by
  cases prepared with
  | closed => exact iff_of_true ⟨_, rfl⟩ trivial
  | unsupported method =>
      have hLong :
          (text "Tiny does not implement this method").length =
            35 := by decide
      have hPage :=
        clienterror_ok_iff
          (by decide : (text "501").length +
            (text "Not Implemented").length + 12 < MAXLINE)
          conn.output method
          (text "Tiny does not implement this method")
      rw [hLong] at hPage
      exact hPage
  | ready host serverHeader =>
      have hGet := get_of_ready hPrepare
      have hFits :=
        formatted_fit_iff_of_stale
          (requestOf conn.input.bytes) conn.bufs conn.hUri
      rw [rioReadinitb_stream] at hGet
      rw [forall_prop_of_true hGet] at hFits
      rw [answer, Connection.Answerable, ← hFits]
      split_ifs with hRoom
      · rw [and_iff_right hRoom]
        cases hServer : conn.server with
        | none =>
            apply iff_of_false (not_ok_of_error _)
            rintro ⟨server, hSome, _⟩
            cases hSome
        | some server =>
            rw [Wrapper.openClientfd]
            simp only [Option.some.injEq, exists_eq_left']
            exact exchange_ok_iff conn.output serverHeader
              server conn.serverRioBuf
      · exact iff_of_false (not_ok_of_error _)
          fun hAll => hRoom hAll.1

/- The exact condition for a worker to come back. -/
theorem serve_ok_iff
    (conn : Connection) :
    (∃ out, serve conn = .ok out) ↔ conn.Survives := by
  have hPrepare :=
    prepare_ok_iff (rioReadinitb conn.input conn.rioBuf)
      conn.bufs
  have hClose := close_ok_iff conn.closes
  rw [rioReadinitb_stream, rioReadinitb_ending] at hPrepare
  rw [Connection.Survives, ← hPrepare, ← hClose, serve,
    fromClientToServer]
  cases hOk : prepare (rioReadinitb conn.input conn.rioBuf)
      conn.bufs with
  | error msg =>
      exact iff_of_false (not_ok_of_error msg)
        (fun h => not_ok_of_error msg h.1)
  | ok out =>
      rcases out with ⟨prepared, clientRio'⟩
      have hAnswer := answer_ok_iff conn hOk
      have hPrepared :
          (∀ p rio,
            (Except.ok (prepared, clientRio') :
                Except String (Prepared × Rio)) =
                .ok (p, rio) →
              conn.Answerable p) ↔
            ∃ out, answer conn prepared = .ok out := by
        rw [hAnswer]
        constructor
        · intro hAll
          exact hAll prepared clientRio' rfl
        · rintro hOne p rio hEq
          cases hEq
          exact hOne
      rw [hPrepared]
      cases hOut : answer conn prepared with
      | error msg =>
          simp only [hOut]
          exact iff_of_false (not_ok_of_error msg)
            (fun h => not_ok_of_error msg h.2.1)
      | ok client =>
          simp only [hOut]
          cases Wrapper.close conn.closes with
          | error msg =>
              exact iff_of_false (not_ok_of_error msg)
                (fun h => not_ok_of_error msg h.2.2)
          | ok closed =>
              exact iff_of_true ⟨_, rfl⟩
                ⟨⟨_, rfl⟩, ⟨_, rfl⟩, ⟨_, rfl⟩⟩

------------------------------------------------------------
-- The Process
------------------------------------------------------------

def SBUFSIZE : Nat := 16

def NTHREADS : Nat := 4

def firstWorker : Fin NTHREADS := ⟨0, by decide⟩

/-
  The process: `exited` once a worker has called exit,
  the queue, the connection each worker is serving (none at
  its sbuf_remove), and the connections that were closed.
-/
structure Process where
  exited : Option String
  queue : List Connection
  workers : Fin NTHREADS → Option Connection
  closed : List Connection

def Process.start : Process where
  exited := none
  queue := []
  workers := fun _ => none
  closed := []

inductive Event where
  | insert (conn : Connection)
  | remove (tid : Fin NTHREADS)
  | finish (tid : Fin NTHREADS)
  | exit (tid : Fin NTHREADS)
  deriving DecidableEq, Repr

def Process.inserted
    (s : Process)
    (conn : Connection) :
    Process :=
  { s with queue := s.queue ++ [conn] }

def Process.removed
    (s : Process)
    (tid : Fin NTHREADS)
    (conn : Connection)
    (rest : List Connection) :
    Process :=
  { s with
    queue := rest
    workers := Function.update s.workers tid (some conn) }

theorem Process.removed_workers
    (s : Process)
    (tid : Fin NTHREADS)
    (conn : Connection)
    (rest : List Connection) :
    (s.removed tid conn rest).workers tid = some conn := by
  simp only [Process.removed, Function.update_self]

def Process.finished
    (s : Process)
    (tid : Fin NTHREADS)
    (conn : Connection) :
    Process :=
  { s with
    workers := Function.update s.workers tid none
    closed := s.closed ++ [conn] }

/- Nothing happens any more once the process has exited. -/
inductive ProcessStep :
    Process → Event → Process → Prop where
  | insert
      {s : Process}
      (conn : Connection)
      (hRunning : s.exited = none)
      (hSlot : s.queue.length < SBUFSIZE) :
      ProcessStep s (.insert conn) (s.inserted conn)
  | remove
      {s : Process}
      (tid : Fin NTHREADS)
      (conn : Connection)
      (rest : List Connection)
      (hRunning : s.exited = none)
      (hIdle : s.workers tid = none)
      (hQueue : s.queue = conn :: rest) :
      ProcessStep s (.remove tid) (s.removed tid conn rest)
  | finish
      {s : Process}
      (tid : Fin NTHREADS)
      (conn : Connection)
      (client : Sink)
      (hRunning : s.exited = none)
      (hServing : s.workers tid = some conn)
      (hServe : serve conn = .ok client) :
      ProcessStep s (.finish tid) (s.finished tid conn)
  | exit
      {s : Process}
      (tid : Fin NTHREADS)
      (conn : Connection)
      (msg : String)
      (hRunning : s.exited = none)
      (hServing : s.workers tid = some conn)
      (hServe : serve conn = .error msg) :
      ProcessStep s (.exit tid)
        { s with exited := some msg }

/- One for a worker that is serving this connection. -/
def servingOne
    (conn : Connection)
    (worker : Option Connection) :
    Nat :=
  if worker = some conn then 1 else 0

/- One for a worker that is serving. -/
def busy
    (worker : Option Connection) :
    Nat :=
  if worker.isSome then 1 else 0

/-
  What holds while every inserted connection is one that
  is survived: the process runs, and each connection is in
  the queue, with a worker, or closed, exactly once.
-/
structure Serving
    (labels : List Event)
    (s : Process) :
    Prop where
  hRunning : s.exited = none
  hQueue : ∀ conn ∈ s.queue, conn.Survives
  hWorkers :
    ∀ tid conn, s.workers tid = some conn → conn.Survives
  hCount :
    ∀ conn,
      labels.count (.insert conn) =
        s.queue.count conn +
          total (servingOne conn) s.workers +
          s.closed.count conn

theorem serving_start :
    Serving [] Process.start where
  hRunning := rfl
  hQueue := by simp [Process.start]
  hWorkers := by simp [Process.start]
  hCount := by
    intro conn
    have hNone :
        total (servingOne conn) Process.start.workers = 0 :=
      total_const rfl
    rw [hNone]
    rfl

/- Every step of a surviving process leaves it serving. -/
theorem Serving.step
    {labels : List Event}
    {s t : Process}
    {event : Event}
    (hServing : Serving labels s)
    (hInsert :
      ∀ conn, event = .insert conn → conn.Survives)
    (hStep : ProcessStep s event t) :
    Serving (labels ++ [event]) t := by
  cases hStep with
  | insert conn hRunning hSlot =>
      refine ⟨hRunning, ?_, hServing.hWorkers, ?_⟩
      · intro other hMem
        rw [Process.inserted, List.mem_append,
          List.mem_singleton] at hMem
        rcases hMem with hMem | hEq
        · exact hServing.hQueue other hMem
        · rw [hEq]
          exact hInsert conn rfl
      · intro other
        have hCount := hServing.hCount other
        by_cases hEq : conn = other
        · subst hEq
          simp [Process.inserted, List.count_append]
          omega
        · simp [Process.inserted, List.count_append, hEq]
          omega
  | remove tid conn rest hRunning hIdle hQueue =>
      have hSurvives : conn.Survives := by
        apply hServing.hQueue
        rw [hQueue]
        exact List.mem_cons_self
      refine ⟨hRunning, ?_, ?_, ?_⟩
      · intro other hMem
        apply hServing.hQueue
        rw [hQueue]
        exact List.mem_cons_of_mem conn hMem
      · intro other worker hOther
        simp only [Process.removed] at hOther
        by_cases hTid : other = tid
        · subst hTid
          rw [Function.update_self] at hOther
          cases hOther
          exact hSurvives
        · rw [Function.update_of_ne hTid] at hOther
          exact hServing.hWorkers other worker hOther
      · intro other
        have hCount := hServing.hCount other
        have hTotal :=
          total_update (servingOne other) s.workers tid
            (some conn)
        rw [hIdle] at hTotal
        rw [hQueue] at hCount
        simp only [Process.removed, List.count_append]
        by_cases hEq : conn = other
        · subst hEq
          simp [servingOne] at hTotal hCount ⊢
          omega
        · simp [servingOne, hEq] at hTotal hCount ⊢
          omega
  | finish tid conn client hRunning hBusy hServe =>
      refine ⟨hRunning, hServing.hQueue, ?_, ?_⟩
      · intro other worker hOther
        simp only [Process.finished] at hOther
        by_cases hTid : other = tid
        · subst hTid
          rw [Function.update_self] at hOther
          cases hOther
        · rw [Function.update_of_ne hTid] at hOther
          exact hServing.hWorkers other worker hOther
      · intro other
        have hCount := hServing.hCount other
        have hTotal :=
          total_update (servingOne other) s.workers tid none
        rw [hBusy] at hTotal
        simp only [Process.finished, List.count_append]
        by_cases hEq : conn = other
        · subst hEq
          simp [servingOne] at hTotal hCount ⊢
          omega
        · simp [servingOne, hEq] at hTotal hCount ⊢
          omega
  | exit tid conn msg hRunning hBusy hServe =>
      rcases
          (serve_ok_iff conn).mpr
            (hServing.hWorkers tid conn hBusy) with
        ⟨client, hOk⟩
      rw [hOk] at hServe
      cases hServe

/- A run that only ever takes survivors keeps serving. -/
theorem Serving.run
    {labels : List Event}
    {s : Process}
    (hRun : Run ProcessStep Process.start labels s)
    (hAll :
      ∀ conn, .insert conn ∈ labels → conn.Survives) :
    Serving labels s := by
  have hInv :=
    hRun.history
      (fun labels s =>
        (∀ conn, .insert conn ∈ labels → conn.Survives) →
          Serving labels s)
      (fun _ => serving_start) ?_
  · exact hInv hAll
  · intro labels s event t hBefore hStep hInserted
    have hServing : Serving labels s := by
      apply hBefore
      intro conn hMem
      exact hInserted conn (List.mem_append_left _ hMem)
    apply hServing.step ?_ hStep
    intro conn hEvent
    apply hInserted conn
    rw [hEvent]
    simp

/- A worker that is serving can come back and close. -/
theorem Serving.finish
    {labels : List Event}
    {s : Process}
    (hServing : Serving labels s)
    {tid : Fin NTHREADS}
    {conn : Connection}
    (hBusy : s.workers tid = some conn) :
    ∃ t,
      ProcessStep s (.finish tid) t ∧
        t.workers tid = none ∧
        t.closed = s.closed ++ [conn] := by
  rcases
      (serve_ok_iff conn).mpr
        (hServing.hWorkers tid conn hBusy) with
    ⟨client, hServe⟩
  refine ⟨s.finished tid conn,
    .finish tid conn client hServing.hRunning hBusy hServe,
    ?_, rfl⟩
  exact Function.update_self tid none s.workers

/- Two steps for a queued connection, one for a served. -/
def pending
    (s : Process) :
    Nat :=
  2 * s.queue.length + total busy s.workers

/- Without new connections every step is progress. -/
theorem Serving.pending_step
    {labels : List Event}
    {s t : Process}
    {event : Event}
    (hServing : Serving labels s)
    (hNoInsert : ∀ conn, event ≠ .insert conn)
    (hStep : ProcessStep s event t) :
    pending t + 1 = pending s := by
  cases hStep with
  | insert conn hRunning hSlot =>
      exact absurd rfl (hNoInsert conn)
  | remove tid conn rest hRunning hIdle hQueue =>
      have hTotal :=
        total_update busy s.workers tid (some conn)
      rw [hIdle] at hTotal
      simp only [busy, Option.isSome_none,
        Option.isSome_some, if_true, Bool.false_eq_true,
        if_false] at hTotal
      simp only [pending, Process.removed, hQueue,
        List.length_cons]
      omega
  | finish tid conn client hRunning hBusy hServe =>
      have hTotal := total_update busy s.workers tid none
      rw [hBusy] at hTotal
      simp only [busy, Option.isSome_none,
        Option.isSome_some, if_true, Bool.false_eq_true,
        if_false] at hTotal
      simp only [pending, Process.finished]
      omega
  | exit tid conn msg hRunning hBusy hServe =>
      rcases
          (serve_ok_iff conn).mpr
            (hServing.hWorkers tid conn hBusy) with
        ⟨client, hOk⟩
      rw [hOk] at hServe
      cases hServe

/- Nothing is left to do only when all is closed. -/
theorem Serving.closed_of_stuck
    {labels : List Event}
    {s : Process}
    (hServing : Serving labels s)
    (hStuck :
      ∀ event t,
        ProcessStep s event t →
          ∃ conn, event = .insert conn)
    (conn : Connection) :
    s.closed.count conn = labels.count (.insert conn) := by
  have hIdle : ∀ tid, s.workers tid = none := by
    intro tid
    cases hBusy : s.workers tid with
    | none => rfl
    | some other =>
        rcases hServing.finish hBusy with ⟨t, hStep, _⟩
        rcases hStuck _ _ hStep with ⟨_, hEvent⟩
        cases hEvent
  have hQueue : s.queue = [] := by
    cases hSome : s.queue with
    | nil => rfl
    | cons other rest =>
        rcases
            hStuck _ _
              (.remove firstWorker other rest
                hServing.hRunning (hIdle _) hSome) with
          ⟨_, hEvent⟩
        cases hEvent
  have hNone :
      total (servingOne conn) s.workers = 0 := by
    have hWorkers : s.workers = fun _ => none :=
      funext hIdle
    rw [hWorkers]
    exact total_const rfl
  rw [hServing.hCount conn, hQueue, hNone, List.count_nil,
    Nat.zero_add]

/-
  While every connection taken in is one that is survived,
  the process does not exit; each worker that is serving
  can come back to sbuf_remove with its descriptor closed;
  and whatever the workers do from there on, in whichever
  order, ends after finitely many steps with every
  connection served and closed.
-/
theorem process_survives
    (labels : List Event)
    (s : Process)
    (hRun : Run ProcessStep Process.start labels s)
    (hAll :
      ∀ conn, .insert conn ∈ labels → conn.Survives) :
    s.exited = none ∧
      (∀ tid conn,
        s.workers tid = some conn →
          ∃ t,
            ProcessStep s (.finish tid) t ∧
              t.workers tid = none ∧
              t.closed = s.closed ++ [conn]) ∧
      ∀ later t,
        Run ProcessStep s later t →
        (∀ conn, .insert conn ∉ later) →
          t.exited = none ∧
            later.length ≤ pending s ∧
            ((∀ event t',
                ProcessStep t event t' →
                  ∃ conn, event = .insert conn) →
              ∀ conn,
                t.closed.count conn =
                  labels.count (.insert conn)) := by
  have hServing := Serving.run hRun hAll
  refine ⟨hServing.hRunning,
    fun _ _ hBusy => hServing.finish hBusy, ?_⟩
  intro later t hLater hNoInsert
  have hEnd : Serving (labels ++ later) t := by
    apply Serving.run (hRun.append hLater)
    intro conn hMem
    rw [List.mem_append] at hMem
    exact hAll conn
      (hMem.resolve_right (hNoInsert conn))
  have hSteps : later.length + pending t = pending s := by
    have hInv :=
      hLater.history
        (fun later t =>
          (∀ conn, .insert conn ∉ later) →
            Serving (labels ++ later) t ∧
              later.length + pending t = pending s)
        (fun _ => ⟨by rwa [List.append_nil], by simp⟩) ?_
    · exact (hInv hNoInsert).2
    · intro done u event v hBefore hStep hNone
      have hNoEvent : ∀ conn, event ≠ .insert conn := by
        intro conn hEvent
        apply hNone conn
        rw [hEvent]
        simp
      rcases
          hBefore (fun conn hMem =>
            hNone conn (List.mem_append_left _ hMem)) with
        ⟨hNow, hLen⟩
      refine ⟨?_, ?_⟩
      · rw [← List.append_assoc]
        exact hNow.step
          (fun conn hEvent => absurd hEvent (hNoEvent conn))
          hStep
      · have hPending := hNow.pending_step hNoEvent hStep
        rw [List.length_append, List.length_singleton]
        omega
  refine ⟨hEnd.hRunning, by omega, ?_⟩
  intro hStuck conn
  have hZero : later.count (.insert conn) = 0 :=
    List.count_eq_zero.mpr (hNoInsert conn)
  rw [hEnd.closed_of_stuck hStuck conn, List.count_append,
    hZero, Nat.add_zero]

def openSink : Sink where
  writes := []
  room := none
  sent := []
  calls := []

def exampleServer : Server where
  input := ⟨[.data 104 [105]], .eof⟩
  output := openSink
  closes := true

/- A GET request without further header lines. -/
def exampleConnection
    (server : Option Server) :
    Connection where
  input :=
    ⟨pushBack
      (exampleRequest.bytes ++
        ([].flatMap HeaderLine.bytes ++ endofHdr ++ [])) [],
      .eof⟩
  output := openSink
  closes := true
  server := server
  bufs := staleBufs []
  rioBuf := []
  serverRioBuf := []
  hUri := by decide

/- Its strings fit, and this is what the server is sent. -/
theorem prepare_exampleConnection
    (server : Option Server) :
    ∃ host serverHeader clientRio',
      prepare
          (rioReadinitb (exampleConnection server).input
            (exampleConnection server).rioBuf)
          (exampleConnection server).bufs =
        .ok (.ready host serverHeader, clientRio') ∧
      LeavesRoomAfter
        (requestOf (exampleConnection server).input.bytes)
        (exampleConnection server).bufs := by
  rcases
      prepare_of_request (staleBufs []) exampleRequest []
        (clientOf_stream _) with
    ⟨clientRio', hPrepare⟩
  refine ⟨_, _, clientRio', hPrepare, ?_⟩
  have hRoom := leavesRoomAfter_iff hPrepare
  rw [clientOf, rioReadinitb_stream] at hRoom
  refine hRoom.mpr ⟨?_, by decide⟩
  simp only [List.length_append]
  decide

theorem exampleConnection_survives :
    (exampleConnection (some exampleServer)).Survives := by
  refine ⟨Or.inl rfl, ?_, rfl⟩
  intro prepared clientRio' hPrepared
  rcases prepare_exampleConnection (some exampleServer) with
    ⟨host, serverHeader, after, hPrepare, hRoom⟩
  rw [hPrepare] at hPrepared
  cases hPrepared
  refine ⟨hRoom, exampleServer, rfl, ?_, rfl, ?_, rfl⟩
  · simp [exampleServer, openSink, Sink.Takes]
  · simp [exampleConnection, openSink, Sink.Takes]

/- One connection taken in and with the first worker. -/
def exampleProcess
    (server : Option Server) :
    Process :=
  (Process.start.inserted (exampleConnection server)).removed
    firstWorker (exampleConnection server) []

theorem exampleProcess_run
    (server : Option Server) :
    Run ProcessStep Process.start
      [.insert (exampleConnection server),
        .remove firstWorker]
      (exampleProcess server) := by
  have hInsert :
      ProcessStep Process.start
        (.insert (exampleConnection server))
        (Process.start.inserted
          (exampleConnection server)) :=
    .insert (exampleConnection server) rfl (by decide)
  exact .snoc (.snoc .nil hInsert)
    (.remove firstWorker (exampleConnection server) []
      rfl rfl rfl)

theorem process_survives_example :
    ∃ t,
      ProcessStep (exampleProcess (some exampleServer))
          (.finish firstWorker) t ∧
        t.workers firstWorker = none ∧
        t.closed =
          [] ++ [exampleConnection (some exampleServer)] :=
  (process_survives
    [.insert (exampleConnection (some exampleServer)),
      .remove firstWorker]
    (exampleProcess (some exampleServer))
    (exampleProcess_run (some exampleServer))
    (by
      intro conn hMem
      have hConn :
          conn = exampleConnection (some exampleServer) := by
        simpa using hMem
      rw [hConn]
      exact exampleConnection_survives)).2.1 firstWorker
    (exampleConnection (some exampleServer))
    (Process.removed_workers _ _ _ _)

/- A host that does not resolve takes the proxy down. -/
theorem process_exits :
    ¬ ∀ labels s,
      Run ProcessStep Process.start labels s →
        s.exited = none := by
  intro hAlways
  rcases prepare_exampleConnection none with
    ⟨host, serverHeader, after, hPrepare, hRoom⟩
  have hFits :=
    (formatted_fit_iff_of_stale _ _
      (exampleConnection none).hUri).mpr fun _ => hRoom
  have hServe :
      serve (exampleConnection none) =
        .error "Open_clientfd error" := by
    rw [serve, fromClientToServer, hPrepare]
    simp only [answer]
    rw [if_pos hFits]
    rfl
  have hExit :
      ProcessStep (exampleProcess none)
        (.exit firstWorker)
        { exampleProcess none with
          exited := some "Open_clientfd error" } :=
    .exit firstWorker (exampleConnection none)
      "Open_clientfd error" rfl
      (Process.removed_workers _ _ _ _) hServe
  have hExited :=
    hAlways _ _ (.snoc (exampleProcess_run none) hExit)
  cases hExited

end Proxy

end CsappLabs
