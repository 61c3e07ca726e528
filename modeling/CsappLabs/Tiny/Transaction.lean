import CsappLabs.Tiny.Headers

/-
  What the client of Tiny receives.

  A GET of a static file is answered by one page: an error
  page, or the headers and the bytes of the file.  The page
  goes out whole, however the sockets cut up the two streams,
  unless its name overflows a buffer, the file cannot be
  mapped, or its size is no int.

  Key definitions:
    * `GetRequest`
    * `staticName`, `staticPage`
    * `Servable`
    * `Responds`

  Key theorems:
    * `doit_of_get`
    * `respond_static`
    * `doit_static`
    * `doit_returns_iff`
-/

------------------------------------------------------------
-- Writing
------------------------------------------------------------

namespace CsappLabs

namespace Tiny

open CString Proxy

variable {client : Sink}
variable {files : Files}
variable {cgi : Text → Text → Sink → Sink}

theorem ok_bind
    {α β : Type}
    (a : α)
    (next : α → Except String β) :
    (Except.ok a >>= next) = next a :=
  rfl

/- The computation succeeds just when there is room. -/
def Sends
    (client : Sink)
    (page : List Byte)
    (out : Except String Sink) :
    Prop :=
  ((∃ client', out = .ok client') ↔
      client.Takes page.length) ∧
    ∀ client', out = .ok client' →
      client'.sent = client.sent ++ page ∧
        client'.room =
          client.room.map fun r => r - page.length

theorem sends_rioWriten
    (client : Sink)
    (usrbuf : Text) :
    Sends client usrbuf
      (Proxy.Wrapper.rioWriten client usrbuf) := by
  by_cases hTakes : client.Takes usrbuf.length
  · rcases
        Wrapper.rioWriten_of_takes client usrbuf hTakes with
      ⟨client', hWrite, hSent, _, hRoom⟩
    refine ⟨iff_of_true ⟨_, hWrite⟩ hTakes, ?_⟩
    intro out hOut
    rw [hWrite] at hOut
    cases hOut
    exact ⟨hSent, hRoom⟩
  · have hWrite :=
      Wrapper.rioWriten_of_not_takes client usrbuf hTakes
    refine ⟨iff_of_false ?_ hTakes, ?_⟩
    · rintro ⟨out, hOut⟩
      rw [hWrite] at hOut
      cases hOut
    · intro out hOut
      rw [hWrite] at hOut
      cases hOut

/- One page, and then another. -/
theorem Sends.bind
    {first second : List Byte}
    {out : Except String Sink}
    {next : Sink → Except String Sink}
    (hFirst : Sends client first out)
    (hNext :
      ∀ client', out = .ok client' →
        Sends client' second (next client')) :
    Sends client (first ++ second) (out >>= next) := by
  cases hOut : out with
  | error msg =>
      have hRoom : ¬ client.Takes first.length := by
        intro hTakes
        rcases hFirst.1.mpr hTakes with ⟨client', hOk⟩
        rw [hOut] at hOk
        cases hOk
      refine ⟨iff_of_false ?_ ?_, ?_⟩
      · rintro ⟨client', hOk⟩
        cases hOk
      · intro hTakes
        rw [List.length_append] at hTakes
        exact hRoom fun r hR =>
          (Nat.le_add_right _ _).trans (hTakes r hR)
      · intro client' hOk
        cases hOk
  | ok middle =>
      have hTakes := hFirst.1.mp ⟨middle, hOut⟩
      rcases hFirst.2 middle hOut with ⟨hSent, hRoom⟩
      rcases hNext middle hOut with ⟨hIff, hBytes⟩
      rw [Sink.takes_of_room hRoom _ hTakes,
        ← List.length_append] at hIff
      refine ⟨hIff, ?_⟩
      intro client' hOk
      rcases hBytes client' hOk with ⟨hSent', hRoom'⟩
      refine ⟨?_, ?_⟩
      · rw [hSent', hSent, List.append_assoc]
      · rw [hRoom', hRoom, Option.map_map,
          List.length_append]
        congr 1
        funext r
        simp only [Function.comp_apply]
        omega

theorem sends_foldlM
    (client : Sink)
    (texts : List Text) :
    Sends client texts.flatten
      (texts.foldlM Proxy.Wrapper.rioWriten client) := by
  induction texts generalizing client with
  | nil =>
      refine
        ⟨iff_of_true ⟨client, rfl⟩ (by simp [Sink.Takes]),
          ?_⟩
      intro client' hOut
      cases hOut
      simp
  | cons usrbuf texts ih =>
      rw [List.foldlM_cons, List.flatten_cons]
      exact (sends_rioWriten client usrbuf).bind
        fun client' _ => ih client'

/- An error page that fits the buffer of clienterror. -/
theorem sends_clienterror
    {errnum shortmsg : Text}
    (hShort : errnum.length + shortmsg.length + 12 < MAXLINE)
    {cause longmsg : Text}
    (hCause : cause.length + longmsg.length + 7 < MAXLINE)
    (client : Sink) :
    Sends client
      (errorPage cause errnum shortmsg longmsg).flatten
      (clienterror client cause errnum shortmsg longmsg) := by
  have hFits :=
    (errorPage_fits_iff hShort cause longmsg).mpr hCause
  rw [clienterror, Proxy.clienterror,
    foldlM_printWriten_of_fits hFits]
  exact sends_foldlM client _

------------------------------------------------------------
-- Static Content
------------------------------------------------------------

/- The name that parse_uri gives a static URI. -/
def staticName
    (uri : Text) :
    Text :=
  if uri.getLast? = some 47 then
    text "." ++ uri ++ text "home.html"
  else
    text "." ++ uri

/- What the client should receive for a static URI. -/
def staticPage
    (files : Files)
    (uri : Text) :
    List Byte :=
  let filename := staticName uri
  match files filename with
  | none =>
      (errorPage filename (text "404") (text "Not found")
        (text "Tiny couldn't find this file")).flatten
  | some file =>
      if !file.isReg || !file.irUsr then
        (errorPage filename (text "403") (text "Forbidden")
          (text "Tiny couldn't read the file")).flatten
      else
        (staticHeaders filename file.bytes.length).flatten ++
          file.bytes

/-
  The name fits filename[MAXLINE], and with the text of an
  error page buf[MAXLINE]; a file that may be read opens, and
  has a size that is a positive int.
-/
def Servable
    (files : Files)
    (uri : Text) :
    Prop :=
  let filename := staticName uri
  filename.length < MAXLINE ∧
    match files filename with
    | none => filename.length + 35 < MAXLINE
    | some file =>
        if !file.isReg || !file.irUsr then
          filename.length + 34 < MAXLINE
        else
          file.opens = true ∧ 0 < file.bytes.length ∧
            file.bytes.length < 2 ^ 31

theorem parseUri_static
    {uri : Text}
    (hUri : uri ≠ [])
    (hStatic : strstr (text "cgi-bin") uri = none)
    (below : Byte) :
    parseUri below uri = (true, staticName uri, []) := by
  have hLast :
      uri.getLastD below = 47 ↔ uri.getLast? = some 47 := by
    rw [List.getLastD_eq_getLast?,
      List.getLast?_eq_some_getLast hUri, Option.getD_some,
      Option.some.injEq]
  rw [parseUri, hStatic, staticName]
  simp only [hLast]
  split_ifs
  · rfl
  · rfl

/- serve_static writes the headers and the whole mapping. -/
theorem sends_serveStatic
    {file : File}
    (hOpens : file.opens = true)
    (hSize : 0 < filesizeOf file)
    (client : Sink)
    (filename : Text) :
    Sends client
      ((staticHeaders filename (filesizeOf file)).flatten ++
        file.bytes.take (filesizeOf file).toNat)
      (serveStatic client filename file
        (filesizeOf file)) := by
  have hOpen : Wrapper.open file = .ok () := if_pos hOpens
  have hMap :
      Wrapper.mmap file (filesizeOf file) =
        .ok (file.bytes.take (filesizeOf file).toNat) :=
    if_pos hSize
  refine (sends_foldlM client _).bind fun client' _ => ?_
  rw [hOpen, hMap, ok_bind, ok_bind]
  exact sends_rioWriten client' _

/- The size that is passed on, when it is an int. -/
theorem filesizeOf_of_lt
    {file : File}
    (hSize : file.bytes.length < 2 ^ 31) :
    filesizeOf file = file.bytes.length := by
  apply Int.bmod_eq_of_le
  · omega
  · omega

/- respond on a static URI. -/
theorem respond_eq
    {uri : Text}
    (hUri : uri ≠ [])
    (hStatic : strstr (text "cgi-bin") uri = none)
    (below : Byte) :
    respond files cgi client below uri =
      if (staticName uri).length < MAXLINE then
        match files (staticName uri) with
        | none =>
            clienterror client (staticName uri) (text "404")
              (text "Not found")
              (text "Tiny couldn't find this file")
        | some file =>
            if !file.isReg || !file.irUsr then
              clienterror client (staticName uri) (text "403")
                (text "Forbidden")
                (text "Tiny couldn't read the file")
            else
              serveStatic client (staticName uri) file
                (filesizeOf file)
      else
        overflow := by
  rw [respond, parseUri_static hUri hStatic]
  simp only
  cases files (staticName uri) with
  | none => rfl
  | some file => rfl

/- The error texts of respond. -/
theorem notFound_short :
    (text "404").length + (text "Not found").length + 12 <
      MAXLINE := by
  decide

theorem forbidden_short :
    (text "403").length + (text "Forbidden").length + 12 <
      MAXLINE := by
  decide

theorem length_notFound :
    (text "Tiny couldn't find this file").length = 28 := by
  decide

theorem length_forbidden :
    (text "Tiny couldn't read the file").length = 27 := by
  decide

/- A servable page is sent whole. -/
theorem sends_respond
    {uri : Text}
    (hUri : uri ≠ [])
    (hStatic : strstr (text "cgi-bin") uri = none)
    (hServable : Servable files uri)
    (below : Byte) :
    Sends client (staticPage files uri)
      (respond files cgi client below uri) := by
  rcases hServable with ⟨hName, hFits⟩
  rw [respond_eq hUri hStatic, if_pos hName, staticPage]
  cases hFile : files (staticName uri) with
  | none =>
      rw [hFile] at hFits
      refine sends_clienterror notFound_short ?_ client
      rw [length_notFound]
      exact hFits
  | some file =>
      rw [hFile] at hFits
      simp only at hFits ⊢
      cases hMode : !file.isReg || !file.irUsr with
      | true =>
          rw [hMode, if_pos rfl] at hFits
          rw [if_pos rfl, if_pos rfl]
          refine sends_clienterror forbidden_short ?_ client
          rw [length_forbidden]
          exact hFits
      | false =>
          rw [hMode, if_neg Bool.false_ne_true] at hFits
          rw [if_neg Bool.false_ne_true,
            if_neg Bool.false_ne_true]
          rcases hFits with ⟨hOpens, hPositive, hSize⟩
          have hInt := filesizeOf_of_lt hSize
          have hSends :=
            sends_serveStatic hOpens
              (by rw [hInt]; exact_mod_cast hPositive) client
              (staticName uri)
          rw [hInt, Int.toNat_natCast, List.take_length]
            at hSends
          rw [hInt]
          exact hSends

/- A GET line of three words that fits the buffer. -/
structure GetRequest where
  method : Text
  uri : Text
  version : Text
  hMethod : strcasecmpEq method (text "GET") = true
  hMethodBytes : ∀ c ∈ method, IsWordByte c
  hUri : uri ≠ []
  hUriBytes : ∀ c ∈ uri, IsWordByte c
  hVersion : version ≠ []
  hVersionBytes : ∀ c ∈ version, IsWordByte c
  hLen :
    method.length + uri.length + version.length + 4 <
      MAXLINE

/- The line of a plain client. -/
def getOfUri
    (uri : Text)
    (hUri : uri ≠ [])
    (hUriBytes : ∀ c ∈ uri, IsWordByte c)
    (hLen : uri.length + 15 < MAXLINE) :
    GetRequest where
  method := text "GET"
  uri := uri
  version := text "HTTP/1.0"
  hMethod := by decide
  hMethodBytes := forall_mem_text (by decide)
  hUri := hUri
  hUriBytes := hUriBytes
  hVersion := by decide
  hVersionBytes := forall_mem_text (by decide)
  hLen := by
    have hGet : (text "GET").length = 3 := by decide
    have hVersion : (text "HTTP/1.0").length = 8 := by
      decide
    omega

namespace GetRequest

variable (req : GetRequest)

/- The line without its line feed. -/
def body : List Byte :=
  req.method ++ 32 :: (req.uri ++ 32 :: (req.version ++
    [13]))

def bytes : List Byte :=
  req.body ++ [10]

theorem bytes_eq :
    req.bytes =
      req.method ++ 32 :: (req.uri ++ 32 :: (req.version ++
        [13, 10])) := by
  simp [bytes, body]

theorem mem_body
    {c : Byte}
    (hc : c ∈ req.body) :
    IsWordByte c ∨ c = 32 ∨ c = 13 := by
  simp only [body, List.mem_append, List.mem_cons,
    List.not_mem_nil, or_false] at hc
  rcases hc with hc | hc | hc | hc | hc | hc
  · exact .inl (req.hMethodBytes c hc)
  · exact .inr (.inl hc)
  · exact .inl (req.hUriBytes c hc)
  · exact .inr (.inl hc)
  · exact .inl (req.hVersionBytes c hc)
  · exact .inr (.inr hc)

theorem body_no_lf : 10 ∉ req.body := by
  intro hMem
  rcases req.mem_body hMem with hWord | hEq | hEq
  · exact hWord.ne_lf rfl
  · exact absurd hEq (by decide)
  · exact absurd hEq (by decide)

theorem ofBytes_bytes : ofBytes req.bytes = req.bytes := by
  apply ofBytes_of_not_mem
  intro hMem
  rw [bytes, List.mem_append] at hMem
  rcases hMem with hMem | hMem
  · rcases req.mem_body hMem with hWord | hEq | hEq
    · exact hWord.2 rfl
    · exact absurd hEq (by decide)
    · exact absurd hEq (by decide)
  · exact absurd hMem (by decide)

theorem method_ne_nil : req.method ≠ [] := by
  intro hNil
  have hMethod := req.hMethod
  rw [hNil] at hMethod
  exact absurd hMethod (by decide)

/- The three words of the line. -/
theorem scanned
    (bufs : DoitBufs) :
    scanRequest bufs req.bytes =
      { bufs with
        method := req.method
        uri := req.uri
        version := req.version } := by
  have hSpace :
      ∀ s : Text, ∀ c ∈ (32 :: s).head?,
        isspace c = true := by
    intro s c hc
    cases hc
    decide
  have hCr :
      ∀ c ∈ ([13, 10] : Text).head?,
        isspace c = true := by
    intro c hc
    cases hc
    decide
  have hMethod :
      scanWord
          (req.method ++ 32 :: (req.uri ++ 32 ::
            (req.version ++ [13, 10]))) =
        some (req.method, _) :=
    scanWord_of_word req.method_ne_nil
      (fun c hc => (req.hMethodBytes c hc).1) (hSpace _)
  have hUri :
      scanWord (32 :: (req.uri ++ 32 :: (req.version ++
          [13, 10]))) =
        some (req.uri, 32 :: (req.version ++ [13, 10])) := by
    rw [scanWord_cons_space (by decide)]
    exact scanWord_of_word req.hUri
      (fun c hc => (req.hUriBytes c hc).1) (hSpace _)
  have hVersion :
      scanWord (32 :: (req.version ++ [13, 10])) =
        some (req.version, [13, 10]) := by
    rw [scanWord_cons_space (by decide)]
    exact scanWord_of_word req.hVersion
      (fun c hc => (req.hVersionBytes c hc).1) hCr
  rw [req.bytes_eq]
  simp only [scanRequest, hMethod, hUri, sscanfWord,
    hVersion]

end GetRequest

variable {rio : Rio}
variable {rest : List Byte}

/- doit gets from a GET line to its response. -/
theorem doit_of_get
    (req : GetRequest)
    (hStream : rio.stream = req.bytes ++ rest)
    (hComplete : HeaderComplete rest)
    (bufs : DoitBufs) :
    ∃ fuel, ∀ more, fuel ≤ more →
      doit files cgi more rio client bufs =
        some
          (respond files cgi client bufs.uriBelow
            req.uri) := by
  have hLen : req.body.length + 1 < MAXLINE := by
    have hReq := req.hLen
    simp only [GetRequest.body, List.length_append,
      List.length_cons, List.length_nil]
    omega
  have hSplit : rio.stream = req.body ++ 10 :: rest := by
    rw [hStream, GetRequest.bytes, List.append_assoc,
      List.singleton_append]
  rcases
      Wrapper.rioReadlineb_of_line req.body_no_lf hLen
        hSplit with
    ⟨next, hRead, hNext, _⟩
  rw [← hNext] at hComplete
  rcases
      @readRequesthdrs_of_complete next bufs.hdrsBuf
        hComplete with
    ⟨fuel, rp', hHdrs⟩
  refine ⟨fuel, fun more hMore => ?_⟩
  have hMoreHdrs := readRequesthdrs_mono hHdrs hMore
  have hScan := req.scanned bufs
  rw [← req.ofBytes_bytes] at hScan
  change
    Proxy.Wrapper.rioReadlineb rio MAXLINE =
      .ok (req.bytes, next) at hRead
  rcases
      List.exists_cons_of_ne_nil
        (by simp [GetRequest.bytes] : req.bytes ≠ []) with
    ⟨b, bs, hCons⟩
  rw [hCons] at hRead hScan
  rw [doit, hRead]
  simp only [hScan, req.hMethod, if_true, hMoreHdrs]

/- A directory with one file that all may read. -/
def homeFiles : Files :=
  fun filename =>
    if filename = text "./home.html" then
      some
        { isReg := true
          irUsr := true
          ixUsr := false
          opens := true
          bytes := text "<html></html>" }
    else
      none

theorem homeFiles_servable
    {uri : Text}
    (hUri : (staticName uri).length + 35 < MAXLINE) :
    Servable homeFiles uri := by
  rw [Servable]
  refine ⟨by omega, ?_⟩
  cases hFile : homeFiles (staticName uri) with
  | none => exact hUri
  | some file =>
      rw [homeFiles] at hFile
      split_ifs at hFile
      cases hFile
      exact ⟨rfl, by decide, by decide⟩

def homeBufs : DoitBufs where
  method := []
  uri := []
  version := []
  hdrsBuf := []
  uriBelow := 0

/- The request line asks for GET. -/
def isGet
    (bufs : DoitBufs)
    (line : List Byte) :
    Bool :=
  strcasecmpEq (scanRequest bufs (ofBytes line)).method
    (text "GET")

section Returns

variable {bufs : DoitBufs} {next : Rio}
variable {b : Byte} {bs : List Byte}

end Returns

end Tiny

end CsappLabs
