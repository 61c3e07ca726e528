import CsappLabs.Proxy.Uri

/-
  Every string that the proxy formats into an array while it
  prepares a request (proxylab/proxy.c).

  parse_hostname, build_http_header and
  from_client_to_server are taken once more, on the lines
  that Rio_readlineb returned, with the strings they write
  in order. Nothing is cut off at the end of an array.

  Key definitions:
    * `Dest.size`
    * `Request`
    * `fromClientToServerWrites`
    * `Fits`

  Key theorems:
    * `parseHostname_eq`, `parseHostnameWrites_eq`
    * `buildHttpHeader_formatted`
    * `prepare_formatted`
    * `formatted_fit_iff_of_stale`
    * `formatted_fit_iff`
-/

------------------------------------------------------------
-- Strings and Their Arrays
------------------------------------------------------------

namespace CsappLabs

namespace Proxy

open CString

/- The arrays that strings are formatted into. -/
inductive Dest where
  | hostname
  | remPath
  | requestHdr
  | hostHdr
  | otherHdr
  | httpHeader
  | port
  deriving DecidableEq, Repr

def Dest.size :
    Dest → Nat
  | .port => 10
  | _ => MAXLINE

abbrev Formatted := Dest × Text

/- sscanf(s, "%s", dest) -/
def storeWord
    (dest : Dest)
    (s : Text) :
    List Formatted :=
  match scanWord s with
  | some (word, _) => [(dest, word)]
  | none => []

/- pos: what stands behind the first two slashes, if any. -/
def behindScheme
    (uri : Text) :
    Text :=
  match strstr (text "//") uri with
  | some (_, found) => found.drop 2
  | none => uri

/- What parse_hostname writes. -/
def parseHostnameWrites
    (uri : Text) :
    List Formatted :=
  let pos := behindScheme uri
  (.remPath, text "/") ::
    match strstr (text ":") pos with
    | some (before, found) =>
        storeWord .hostname before ++
          match scanInt (found.drop 1) with
          | some (_, rest) => storeWord .remPath rest
          | none => []
    | none =>
        match strstr (text "/") pos with
        | some (before, found) =>
            storeWord .hostname before ++
              storeWord .remPath found
        | none => storeWord .hostname pos

/- What the body of the header loop writes. -/
def headerLineWrites
    (bufs : HeaderBufs) :
    List Formatted :=
  if hasKey bufs.buf hostKey then
    [(.hostHdr, bufs.buf)]
  else if hasKey bufs.buf connectionKey &&
      hasKey bufs.buf proxyConnectionKey &&
      hasKey bufs.buf userAgentKey then
    [(.otherHdr, bufs.otherHdr ++ bufs.buf)]
  else
    []

/- The header loop, on the lines that it reads. -/
def headersLoop :
    List Text → HeaderBufs → List Formatted × HeaderBufs
  | [], bufs => ([], bufs)
  | line :: lines, bufs =>
      let bufs' := { bufs with buf := line }
      if line = endofHdr then
        ([], bufs')
      else
        let later := headersLoop lines (headerLine bufs')
        (headerLineWrites bufs' ++ later.1, later.2)

/- What build_http_header writes. -/
def buildHttpHeaderWrites
    (hostname path : Text)
    (lines : List Text)
    (bufs : HeaderBufs) :
    List Formatted :=
  let loop :=
    headersLoop lines
      { bufs with requestHdr := requestlintHdrFormat path }
  let host :=
    if loop.2.hostHdr.length = 0 then
      [(Dest.hostHdr, hostHdrFormat hostname)]
    else
      []
  (.requestHdr, requestlintHdrFormat path) ::
    (loop.1 ++ host ++
      [(.httpHeader, httpHeader hostname loop.2)])

/-
  A request as Rio_readlineb returns it, line by line: the
  strings in buf, each with room for its NUL.
-/
structure Request where
  line : Text
  headers : List Text
  hLine : line.length < MAXLINE
  hHeaders : ∀ h ∈ headers, h.length < MAXLINE

/- What from_client_to_server writes for a request. -/
def fromClientToServerWrites
    (req : Request)
    (bufs : RequestBufs) :
    List Formatted :=
  let scanned := scanRequestLine { bufs with buf := req.line }
  if strcasecmpEq scanned.method (text "GET") then
    let host := parseHostname scanned.uri scanned.host
    parseHostnameWrites scanned.uri ++
      buildHttpHeaderWrites host.hostname host.path
        req.headers scanned.header ++
      [(.port, formatInt host.httpPort)]
  else
    []

------------------------------------------------------------
-- The Parts of a URI
------------------------------------------------------------

/- What stands in front of the first colon, or else slash. -/
def hostText
    (rest : Text) :
    Text :=
  if 58 ∈ rest then
    rest.takeWhile (fun d => d ≠ 58)
  else
    rest.takeWhile (fun d => d ≠ 47)

/- What stands behind the first colon. -/
def behindColon
    (rest : Text) :
    Text :=
  (rest.dropWhile (fun d => d ≠ 58)).drop 1

/- What stands behind the number, or from a slash on. -/
def pathText
    (rest : Text) :
    Text :=
  if 58 ∈ rest then
    ((scanInt (behindColon rest)).map Prod.snd).getD []
  else
    rest.dropWhile (fun d => d ≠ 47)

/- The number behind the colon, or 80. -/
def portNumber
    (rest : Text) :
    Int :=
  if 58 ∈ rest then
    ((scanInt (behindColon rest)).map Prod.fst).getD 80
  else
    80

theorem takeWhile_of_not_mem
    {c : Byte}
    {s : Text}
    (hNot : c ∉ s) :
    s.takeWhile (fun d => d ≠ c) = s := by
  rw [List.takeWhile_eq_self_iff]
  intro d hd
  have hNe : d ≠ c := by
    rintro rfl
    exact hNot hd
  simpa using hNe

theorem dropWhile_of_not_mem
    {c : Byte}
    {s : Text}
    (hNot : c ∉ s) :
    s.dropWhile (fun d => d ≠ c) = [] := by
  rw [List.dropWhile_eq_nil_iff]
  intro d hd
  have hNe : d ≠ c := by
    rintro rfl
    exact hNot hd
  simpa using hNe

theorem strstr_colon
    (s : Text) :
    strstr (text ":") s =
      if 58 ∈ s then
        some (s.takeWhile (fun d => d ≠ 58),
          s.dropWhile (fun d => d ≠ 58))
      else
        none :=
  strstr_singleton 58 s

theorem strstr_slash
    (s : Text) :
    strstr (text "/") s =
      if 47 ∈ s then
        some (s.takeWhile (fun d => d ≠ 47),
          s.dropWhile (fun d => d ≠ 47))
      else
        none :=
  strstr_singleton 47 s

/- The writes of parse_hostname by the parts of the URI. -/
theorem parseHostnameWrites_eq
    (uri : Text) :
    parseHostnameWrites uri =
      (.remPath, text "/") ::
        (storeWord .hostname (hostText (behindScheme uri)) ++
          storeWord .remPath
            (pathText (behindScheme uri))) := by
  unfold parseHostnameWrites hostText pathText behindColon
  simp only
  rw [strstr_colon]
  by_cases hColon : 58 ∈ behindScheme uri
  · rw [if_pos hColon, if_pos hColon, if_pos hColon]
    simp only
    cases scanInt
        (((behindScheme uri).dropWhile
          (fun d => d ≠ 58)).drop 1) with
    | none => rfl
    | some pair => rfl
  · rw [if_neg hColon, if_neg hColon, if_neg hColon,
      strstr_slash]
    by_cases hSlash : 47 ∈ behindScheme uri
    · rw [if_pos hSlash]
    · rw [if_neg hSlash, takeWhile_of_not_mem hSlash,
        dropWhile_of_not_mem hSlash]
      exact congrArg _ (List.append_nil _).symm

/- The results of parse_hostname by the parts of the URI. -/
theorem parseHostname_eq
    (uri : Text)
    (old : HostBufs) :
    parseHostname uri old =
      { hostname :=
          sscanfWord (hostText (behindScheme uri)) old.hostname
        path :=
          sscanfWord (pathText (behindScheme uri)) (text "/")
        httpPort := portNumber (behindScheme uri) } := by
  have hPos :
      parseHostname uri old =
        (match strstr (text ":") (behindScheme uri) with
          | some (before, found) =>
              scanPortPath (found.drop 1)
                { hostname := sscanfWord before old.hostname
                  path := text "/"
                  httpPort := 80 }
          | none =>
              match strstr (text "/") (behindScheme uri) with
              | some (before, found) =>
                  { hostname := sscanfWord before old.hostname
                    path := sscanfWord found (text "/")
                    httpPort := 80 }
              | none =>
                  { hostname :=
                      sscanfWord (behindScheme uri) old.hostname
                    path := text "/"
                    httpPort := 80 }) := rfl
  rw [hPos, strstr_colon]
  unfold hostText pathText portNumber behindColon
  by_cases hColon : 58 ∈ behindScheme uri
  · rw [if_pos hColon, if_pos hColon, if_pos hColon,
      if_pos hColon]
    simp only
    rw [scanPortPath]
    cases scanInt
        (((behindScheme uri).dropWhile
          (fun d => d ≠ 58)).drop 1) with
    | none => rfl
    | some pair => rfl
  · rw [if_neg hColon, if_neg hColon, if_neg hColon,
      if_neg hColon, strstr_slash]
    by_cases hSlash : 47 ∈ behindScheme uri
    · rw [if_pos hSlash]
    · rw [if_neg hSlash, takeWhile_of_not_mem hSlash,
        dropWhile_of_not_mem hSlash]
      rfl

/- The parts are not longer than the URI. -/
theorem length_behindScheme_le
    (uri : Text) :
    (behindScheme uri).length ≤ uri.length := by
  unfold behindScheme
  cases hFound : strstr (text "//") uri with
  | none => exact Nat.le_refl _
  | some pair =>
      have hSplit : pair.1 ++ pair.2 = uri :=
        strstr_append hFound
      have hLen := congrArg List.length hSplit
      rw [List.length_append] at hLen
      simp only [List.length_drop]
      omega

theorem length_hostText_le
    (rest : Text) :
    (hostText rest).length ≤ rest.length := by
  unfold hostText
  split
  · exact (List.takeWhile_prefix _).length_le
  · exact (List.takeWhile_prefix _).length_le

theorem length_pathText_le
    (rest : Text) :
    (pathText rest).length ≤ rest.length := by
  unfold pathText behindColon
  split
  · have hDrop :=
      (List.dropWhile_suffix (l := rest)
        (fun d => decide (d ≠ 58))).length_le
    cases hScan :
        scanInt ((rest.dropWhile (fun d => d ≠ 58)).drop 1) with
    | none => exact Nat.zero_le _
    | some pair =>
        have hLen :
            pair.2.length ≤
              ((rest.dropWhile
                (fun d => d ≠ 58)).drop 1).length :=
          scanInt_length hScan
        rw [List.length_drop] at hLen
        simp only [Option.map_some, Option.getD_some]
        omega
  · exact (List.dropWhile_suffix _).length_le

------------------------------------------------------------
-- Where the Strings Fit
------------------------------------------------------------

/- A string and its NUL fit into the array. -/
def Formatted.Fits
    (f : Formatted) :
    Prop :=
  f.2.length < f.1.size

instance
    (f : Formatted) :
    Decidable f.Fits :=
  inferInstanceAs (Decidable (_ < _))

theorem storeWord_fits
    {dest : Dest}
    {s : Text}
    (hSize : dest.size = MAXLINE)
    (hLen : s.length < MAXLINE) :
    ∀ f ∈ storeWord dest s, Formatted.Fits f := by
  intro f hf
  unfold storeWord at hf
  cases hScan : scanWord s with
  | none =>
      rw [hScan] at hf
      cases hf
  | some pair =>
      rw [hScan] at hf
      have hWord : pair.1.length + pair.2.length ≤ s.length :=
        scanWord_length hScan
      rw [List.mem_singleton.mp hf]
      unfold Formatted.Fits
      rw [hSize]
      simp only
      omega

/- Host and path are parts of the URI. -/
theorem parseHostnameWrites_fits
    {uri : Text}
    (hLen : uri.length < MAXLINE) :
    ∀ f ∈ parseHostnameWrites uri, Formatted.Fits f := by
  have hRest := length_behindScheme_le uri
  have hHost := length_hostText_le (behindScheme uri)
  have hPath := length_pathText_le (behindScheme uri)
  rw [parseHostnameWrites_eq]
  intro f hf
  rcases List.mem_cons.mp hf with hSlash | hf
  · rw [hSlash]
    unfold Formatted.Fits
    decide
  · rcases List.mem_append.mp hf with hf | hf
    · exact storeWord_fits rfl (by omega) f hf
    · exact storeWord_fits rfl (by omega) f hf

/- The lines in front of the empty one that begin with Host. -/
def hostLines
    (lines : List Text) :
    List Text :=
  (lines.takeWhile (fun line => line ≠ endofHdr)).filter
    (fun line => hasKey line hostKey)

theorem headerLineWrites_eq
    (bufs : HeaderBufs) :
    headerLineWrites bufs =
      if hasKey bufs.buf hostKey then
        [(.hostHdr, bufs.buf)]
      else
        [] := by
  rw [headerLineWrites, no_other_line bufs.buf]
  rfl

/- What the header loop leaves and what it wrote. -/
theorem headersLoop_facts
    (lines : List Text)
    (bufs : HeaderBufs) :
    (headersLoop lines bufs).2.requestHdr = bufs.requestHdr ∧
      (headersLoop lines bufs).2.otherHdr = bufs.otherHdr ∧
      (headersLoop lines bufs).2.hostHdr =
        (hostLines lines).getLast?.getD bufs.hostHdr ∧
      (headersLoop lines bufs).1 =
        (hostLines lines).map (fun line => (.hostHdr, line)) := by
  induction lines generalizing bufs with
  | nil => exact ⟨rfl, rfl, rfl, rfl⟩
  | cons line lines ih =>
      by_cases hEnd : line = endofHdr
      · have hNone : hostLines (line :: lines) = [] := by
          rw [hostLines,
            List.takeWhile_cons_of_neg (by simpa using hEnd)]
          rfl
        rw [headersLoop]
        simp only
        rw [if_pos hEnd, hNone]
        exact ⟨rfl, rfl, rfl, rfl⟩
      · have hSome :
            hostLines (line :: lines) =
              (if hasKey line hostKey then [line] else []) ++
                hostLines lines := by
          rw [hostLines,
            List.takeWhile_cons_of_pos (by simpa using hEnd),
            List.filter_cons]
          split
          · rfl
          · rfl
        rw [headersLoop]
        simp only
        rw [if_neg hEnd, hSome, headerLineWrites_eq,
          headerLine_eq]
        cases hKey : hasKey line hostKey with
        | true =>
            have hLater := ih
              { { bufs with buf := line } with hostHdr := line }
            rw [if_pos rfl, if_pos rfl, if_pos rfl]
            refine
              ⟨hLater.1, hLater.2.1, hLater.2.2.1.trans ?_, ?_⟩
            · rw [List.singleton_append, List.getLast?_cons]
              rfl
            · rw [hLater.2.2.2]
              rfl
        | false =>
            have hLater := ih { bufs with buf := line }
            rw [if_neg Bool.false_ne_true,
              if_neg Bool.false_ne_true,
              if_neg Bool.false_ne_true]
            exact hLater

/- The Host line that is sent, with host_hdr empty before. -/
def sentHost
    (hostname : Text)
    (lines : List Text) :
    Text :=
  (hostLines lines).getLast?.getD (hostHdrFormat hostname)

/- The same when host_hdr held the string `stale`. -/
def sentHostAfter
    (stale hostname : Text)
    (lines : List Text) :
    Text :=
  (hostLines lines).getLast?.getD
    (if stale.length = 0 then
      hostHdrFormat hostname
    else
      stale)

theorem sentHostAfter_nil
    (hostname : Text)
    (lines : List Text) :
    sentHostAfter [] hostname lines =
      sentHost hostname lines :=
  rfl

theorem sentHost_only
    {hostname line : Text}
    (hKey : hasKey line hostKey = true)
    (hNe : line ≠ endofHdr) :
    sentHost hostname [line, endofHdr] = line := by
  have hLines : hostLines [line, endofHdr] = [line] := by
    rw [hostLines,
      List.takeWhile_cons_of_pos (by simpa using hNe),
      List.takeWhile_cons_of_neg (by simp),
      List.filter_cons, if_pos hKey]
    rfl
  rw [sentHost, hLines]
  rfl

theorem mem_hostLines
    {lines : List Text}
    {line : Text}
    (hMem : line ∈ hostLines lines) :
    line ∈ lines ∧ line.length ≠ 0 := by
  rw [hostLines, List.mem_filter] at hMem
  refine ⟨(List.takeWhile_subset _) hMem.1, ?_⟩
  intro hZero
  rw [List.length_eq_zero_iff.mp hZero] at hMem
  exact absurd hMem.2 (by decide)

theorem length_requestlintHdrFormat
    (path : Text) :
    (requestlintHdrFormat path).length = path.length + 15 := by
  have hFront : (text "GET ").length = 4 := by decide
  have hBack : (text " HTTP/1.0\r\n").length = 11 := by decide
  rw [requestlintHdrFormat, List.length_append,
    List.length_append]
  omega

/- The Host line in the header text is the one sent. -/
theorem httpHeader_eq
    (hostname : Text)
    (lines : List Text)
    (bufs : HeaderBufs)
    {stale : Text}
    (hHost :
      bufs.hostHdr = (hostLines lines).getLast?.getD stale) :
    httpHeader hostname bufs =
      bufs.requestHdr ++ sentHostAfter stale hostname lines ++
        connHdr ++ proxHdr ++ userAgentHdr ++ bufs.otherHdr ++
        endofHdr := by
  unfold httpHeader sentHostAfter
  cases hLast : (hostLines lines).getLast? with
  | none =>
      rw [hLast] at hHost
      rw [hHost]
      rfl
  | some line =>
      rw [hLast] at hHost
      have hLong := (mem_hostLines (List.mem_of_getLast? hLast)).2
      simp only
      rw [hHost, Option.getD_some, if_neg hLong]
      rfl

/- The header text by its parts. -/
theorem length_httpHeader
    (hostname path : Text)
    (lines : List Text)
    (bufs : HeaderBufs) :
    (httpHeader hostname (headersLoop lines
      { bufs with
        requestHdr := requestlintHdrFormat path }).2).length =
      path.length +
        (sentHostAfter bufs.hostHdr hostname lines).length +
        bufs.otherHdr.length + 147 := by
  rcases headersLoop_facts lines
      { bufs with requestHdr := requestlintHdrFormat path }
    with ⟨hRequest, hKept, hLast, _⟩
  have hRequestLen := length_requestlintHdrFormat path
  have hConn : connHdr.length = 19 := by decide
  have hProx : proxHdr.length = 25 := by decide
  have hAgent : userAgentHdr.length = 86 := by decide
  have hEnd : endofHdr.length = 2 := by decide
  rw [httpHeader_eq hostname lines _ hLast, hRequest, hKept]
  simp only [List.length_append]
  omega

/- The arrays of build_http_header fit when the last does. -/
theorem buildHttpHeaderWrites_fit_iff
    (hostname path : Text)
    {lines : List Text}
    {bufs : HeaderBufs}
    (hLines : ∀ h ∈ lines, h.length < MAXLINE) :
    (∀ f ∈ buildHttpHeaderWrites hostname path lines bufs,
      Formatted.Fits f) ↔
      path.length +
        (sentHostAfter bufs.hostHdr hostname lines).length +
        bufs.otherHdr.length + 147 < MAXLINE := by
  rcases headersLoop_facts lines
      { bufs with requestHdr := requestlintHdrFormat path }
    with ⟨_, _, hLast, hWrites⟩
  have hRequestLen := length_requestlintHdrFormat path
  have hLength := length_httpHeader hostname path lines bufs
  unfold buildHttpHeaderWrites
  simp only
  constructor
  · intro hAll
    rw [← hLength]
    exact
      hAll (.httpHeader, _)
        (List.mem_cons_of_mem _ (List.mem_append_right _
          (List.mem_singleton.mpr rfl)))
  · intro hFits f hf
    rcases List.mem_cons.mp hf with hFirst | hf
    · rw [hFirst]
      change (requestlintHdrFormat path).length < MAXLINE
      omega
    · rcases List.mem_append.mp hf with hf | hf
      · rcases List.mem_append.mp hf with hf | hf
        · -- The Host lines are lines of the client.
          rw [hWrites] at hf
          rcases List.mem_map.mp hf with ⟨line, hMem, rfl⟩
          exact hLines line (mem_hostLines hMem).1
        · -- Without one the format is what is sent.
          split at hf
          · rename_i hZero
            rw [hLast] at hZero
            have hNone : (hostLines lines).getLast? = none := by
              cases hSome : (hostLines lines).getLast? with
              | none => rfl
              | some line =>
                  rw [hSome] at hZero
                  exact absurd hZero
                    (mem_hostLines
                      (List.mem_of_getLast? hSome)).2
            rw [hNone, Option.getD_none] at hZero
            rw [sentHostAfter, hNone, Option.getD_none,
              if_pos hZero] at hFits
            rw [List.mem_singleton.mp hf]
            change (hostHdrFormat hostname).length < MAXLINE
            omega
          · cases hf
      · rw [List.mem_singleton.mp hf]
        change (httpHeader hostname _).length < MAXLINE
        rw [hLength]
        exact hFits

/- The header loop on the lines of a client that ends them. -/
theorem headersLoop_of_lines
    (lines : List HeaderLine)
    (bufs : HeaderBufs) :
    (headersLoop
        (lines.map (fun line => ofBytes line.bytes) ++
          [endofHdr])
        bufs).2 =
      { lines.foldl readHeader bufs with buf := endofHdr } := by
  induction lines generalizing bufs with
  | nil => rfl
  | cons line lines ih =>
      rw [List.map_cons, List.cons_append, headersLoop]
      simp only
      rw [if_neg line.ofBytes_ne_endofHdr, ih,
        List.foldl_cons, readHeader]

/- The text for the server is the last string formatted. -/
theorem buildHttpHeader_formatted
    (hostname path : Text)
    {clientRio : Rio}
    (bufs : HeaderBufs)
    (lines : List HeaderLine)
    {s : List Byte}
    (hStream :
      clientRio.stream =
        lines.flatMap HeaderLine.bytes ++ endofHdr ++ s) :
    ∃ serverHeader clientRio',
      buildHttpHeader hostname path clientRio bufs =
          .ok (serverHeader, clientRio') ∧
        (Dest.httpHeader, serverHeader) ∈
          buildHttpHeaderWrites hostname path
            (lines.map (fun line => ofBytes line.bytes) ++
              [endofHdr])
            bufs := by
  rcases
      headerLoop_of_lines
        { bufs with requestHdr := requestlintHdrFormat path }
        lines hStream with
    ⟨clientRio', hLoop, _⟩
  refine
    ⟨httpHeader hostname
        { lines.foldl readHeader
            { bufs with
              requestHdr := requestlintHdrFormat path } with
          buf := endofHdr },
      clientRio', ?_, ?_⟩
  · rw [buildHttpHeader, hLoop]
  · unfold buildHttpHeaderWrites
    simp only
    rw [headersLoop_of_lines]
    exact List.mem_cons_of_mem _ (List.mem_append_right _
      (List.mem_singleton.mpr rfl))

------------------------------------------------------------
-- Whole Requests
------------------------------------------------------------

/- The first and the second word of the request line. -/
def lineMethod
    (line old : Text) :
    Text :=
  sscanfWord line old

def lineUri
    (line old : Text) :
    Text :=
  ((scanWord line).map
    (fun found => sscanfWord found.2 old)).getD old

theorem scanRequestLine_words
    (bufs : RequestBufs) :
    (scanRequestLine bufs).method =
        lineMethod bufs.buf bufs.method ∧
      (scanRequestLine bufs).uri = lineUri bufs.buf bufs.uri ∧
      (scanRequestLine bufs).host = bufs.host ∧
      (scanRequestLine bufs).header = bufs.header := by
  unfold scanRequestLine lineMethod lineUri
  cases hFirst : scanWord bufs.buf with
  | none =>
      rw [sscanfWord, hFirst]
      exact ⟨rfl, rfl, rfl, rfl⟩
  | some first =>
      simp only [Option.map_some, Option.getD_some]
      rw [sscanfWord, sscanfWord, hFirst]
      cases hSecond : scanWord first.2 with
      | none => exact ⟨rfl, rfl, rfl, rfl⟩
      | some second => exact ⟨rfl, rfl, rfl, rfl⟩

theorem length_lineUri_lt
    {line old : Text}
    (hLine : line.length < MAXLINE)
    (hOld : old.length < MAXLINE) :
    (lineUri line old).length < MAXLINE := by
  unfold lineUri
  cases hFirst : scanWord line with
  | none => exact hOld
  | some first =>
      have hRest :
          first.1.length + first.2.length ≤ line.length :=
        scanWord_length hFirst
      simp only [Option.map_some, Option.getD_some]
      rw [sscanfWord]
      cases hSecond : scanWord first.2 with
      | none => exact hOld
      | some second =>
          have hWord :
              second.1.length + second.2.length ≤
                first.2.length :=
            scanWord_length hSecond
          simp only
          omega

/-
  The path and the Host line leave room for the rest of the
  header text, and the port has less than ten characters.
-/
structure LeavesRoom
    (req : Request)
    (bufs : RequestBufs) :
    Prop where
  header :
    (sscanfWord
        (pathText (behindScheme (lineUri req.line bufs.uri)))
        (text "/")).length +
      (sentHost
        (sscanfWord
          (hostText (behindScheme (lineUri req.line bufs.uri)))
          bufs.host.hostname)
        req.headers).length + 147 < MAXLINE
  port :
    -99999999 ≤
        portNumber (behindScheme (lineUri req.line bufs.uri)) ∧
      portNumber (behindScheme (lineUri req.line bufs.uri)) ≤
        999999999

/- What is written for a GET, by the parts of its URI. -/
theorem fromClientToServerWrites_get
    (req : Request)
    (bufs : RequestBufs)
    (hGet :
      strcasecmpEq (lineMethod req.line bufs.method)
        (text "GET") = true) :
    fromClientToServerWrites req bufs =
      parseHostnameWrites (lineUri req.line bufs.uri) ++
        buildHttpHeaderWrites
          (sscanfWord
            (hostText
              (behindScheme (lineUri req.line bufs.uri)))
            bufs.host.hostname)
          (sscanfWord
            (pathText
              (behindScheme (lineUri req.line bufs.uri)))
            (text "/"))
          req.headers bufs.header ++
        [(.port,
          formatInt (portNumber
            (behindScheme (lineUri req.line bufs.uri))))] := by
  rcases scanRequestLine_words { bufs with buf := req.line }
    with ⟨hMethod, hScanned, hOldHost, hOldHeader⟩
  simp only at hMethod hScanned hOldHost hOldHeader
  unfold fromClientToServerWrites
  simp only
  rw [hMethod, hScanned, hOldHost, hOldHeader, if_pos hGet,
    parseHostname_eq]

theorem fromClientToServerWrites_other
    (req : Request)
    (bufs : RequestBufs)
    (hOther :
      ¬strcasecmpEq (lineMethod req.line bufs.method)
        (text "GET") = true) :
    fromClientToServerWrites req bufs = [] := by
  have hMethod :=
    (scanRequestLine_words { bufs with buf := req.line }).1
  simp only at hMethod
  unfold fromClientToServerWrites
  simp only
  rw [hMethod, if_neg hOther]

/- The same whatever host_hdr and other_hdr held before. -/
structure LeavesRoomAfter
    (req : Request)
    (bufs : RequestBufs) :
    Prop where
  header :
    (sscanfWord
        (pathText (behindScheme (lineUri req.line bufs.uri)))
        (text "/")).length +
      (sentHostAfter bufs.header.hostHdr
        (sscanfWord
          (hostText (behindScheme (lineUri req.line bufs.uri)))
          bufs.host.hostname)
        req.headers).length +
      bufs.header.otherHdr.length + 147 < MAXLINE
  port :
    -99999999 ≤
        portNumber (behindScheme (lineUri req.line bufs.uri)) ∧
      portNumber (behindScheme (lineUri req.line bufs.uri)) ≤
        999999999

/- Host and path fit always, the others with enough room. -/
theorem formatted_fit_iff_of_stale
    (req : Request)
    (bufs : RequestBufs)
    (hUri : bufs.uri.length < MAXLINE) :
    (∀ f ∈ fromClientToServerWrites req bufs,
      Formatted.Fits f) ↔
      (strcasecmpEq (lineMethod req.line bufs.method)
          (text "GET") = true →
        LeavesRoomAfter req bufs) := by
  by_cases hGet :
      strcasecmpEq (lineMethod req.line bufs.method)
        (text "GET") = true
  · have hHostPath := parseHostnameWrites_fits
      (length_lineUri_lt req.hLine hUri)
    have hPort := length_formatInt_lt_ten_iff
      (portNumber (behindScheme (lineUri req.line bufs.uri)))
    rw [fromClientToServerWrites_get req bufs hGet]
    simp only [List.forall_mem_append, List.forall_mem_singleton]
    rw [buildHttpHeaderWrites_fit_iff _ _ req.hHeaders]
    constructor
    · rintro ⟨⟨_, hHeader⟩, hShort⟩ _
      exact ⟨hHeader, hPort.mp hShort⟩
    · intro hRoom
      exact
        ⟨⟨hHostPath, (hRoom hGet).header⟩,
          hPort.mpr (hRoom hGet).port⟩
  · rw [fromClientToServerWrites_other req bufs hGet]
    exact iff_of_true (fun f hf => by cases hf)
      (fun hYes => absurd hYes hGet)

/-
  Every string that is formatted for a request fits exactly
  when the request is no GET or leaves room. The arrays that
  are not cleared hold any strings.
-/
theorem formatted_fit_iff
    (req : Request)
    (bufs : RequestBufs)
    (hUri : bufs.uri.length < MAXLINE)
    (hHost : bufs.header.hostHdr = [])
    (hOther : bufs.header.otherHdr = []) :
    (∀ f ∈ fromClientToServerWrites req bufs,
      Formatted.Fits f) ↔
      (strcasecmpEq (lineMethod req.line bufs.method)
          (text "GET") = true →
        LeavesRoom req bufs) := by
  rw [formatted_fit_iff_of_stale req bufs hUri]
  refine forall_congr' fun _ => ⟨?_, ?_⟩
  · rintro ⟨hHeader, hPort⟩
    rw [hHost, hOther, sentHostAfter_nil] at hHeader
    exact ⟨hHeader, hPort⟩
  · rintro ⟨hHeader, hPort⟩
    refine ⟨?_, hPort⟩
    rw [hHost, hOther, sentHostAfter_nil]
    exact hHeader

/- A short request for http://h/ -/
def shortRequest : Request where
  line := text "GET http://h/ HTTP/1.0\r\n"
  headers := [text "Host: h\r\n", endofHdr]
  hLine := by decide
  hHeaders := by decide

theorem formatted_fit_iff_short :
    lineMethod shortRequest.line [] = text "GET" ∧
      ∀ f ∈ fromClientToServerWrites shortRequest (staleBufs []),
        Formatted.Fits f := by
  constructor
  · decide
  · apply (formatted_fit_iff _ _ _ rfl rfl).mpr
    · exact fun _ => ⟨by decide, by decide⟩
    · decide

/- The smallest int as a port has eleven characters. -/
def portRequest : Request where
  line := text "GET http://h:-2147483648/ HTTP/1.0\r\n"
  headers := [endofHdr]
  hLine := by decide
  hHeaders := by decide

/- A Host line that leaves no room for the other headers. -/
def longHost : Text :=
  text "Host: " ++ (List.replicate 8100 97 ++ [13, 10])

theorem length_longHost : longHost.length = 8108 := by
  have hName : (text "Host: ").length = 6 := by decide
  rw [longHost, List.length_append, List.length_append,
    List.length_replicate, hName]
  rfl

def hostRequest : Request where
  line := text "GET http://h/ HTTP/1.0\r\n"
  headers := [longHost, endofHdr]
  hLine := by decide
  hHeaders := by
    intro h hMem
    rcases List.mem_pair.mp hMem with rfl | rfl
    · rw [length_longHost]
      decide
    · decide

theorem formatted_overflows :
    ¬(∀ f ∈ fromClientToServerWrites portRequest
          (staleBufs []),
        Formatted.Fits f) ∧
      ¬(∀ f ∈ fromClientToServerWrites hostRequest
          (staleBufs []),
        Formatted.Fits f) := by
  constructor
  · intro hAll
    have hPort :=
      hAll (.port, text "-2147483648") (by decide)
    exact absurd hPort (by unfold Formatted.Fits; decide)
  · intro hAll
    have hHost : hasKey longHost hostKey = true := rfl
    have hNe : longHost ≠ endofHdr := by
      intro hEq
      exact absurd (List.cons.inj hEq).1 (by decide)
    rw [fromClientToServerWrites_get hostRequest (staleBufs [])
      (by decide)] at hAll
    have hRoom :=
      (buildHttpHeaderWrites_fit_iff _ _
        hostRequest.hHeaders).mp fun f hf =>
          hAll f (List.mem_append_left _
            (List.mem_append_right _ hf))
    have hHeaders :
        hostRequest.headers = [longHost, endofHdr] := rfl
    have hStale : (staleBufs []).header.hostHdr = [] := rfl
    rw [hHeaders, hStale, sentHostAfter_nil,
      sentHost_only hHost hNe, length_longHost] at hRoom
    unfold MAXLINE at hRoom
    omega

------------------------------------------------------------
-- A Request from Its Bytes
------------------------------------------------------------

/- What Rio_readlineb makes of the bytes, call by call. -/
def linesOf :
    Nat → List Byte → List Text
  | 0, _ => []
  | fuel + 1, s =>
      let line := Line.next 10 (MAXLINE - 1) s
      if line = [] then
        []
      else
        ofBytes line :: linesOf fuel (s.drop line.length)

theorem length_ofBytes_next_lt
    (s : List Byte) :
    (ofBytes (Line.next 10 (MAXLINE - 1) s)).length <
      MAXLINE := by
  have hPrefix :=
    (ofBytes_isPrefix
      (Line.next 10 (MAXLINE - 1) s)).length_le
  have hNext := Line.length_next_le 10 (MAXLINE - 1) s
  have hPositive : 0 < MAXLINE := by decide
  omega

theorem length_lt_of_mem_linesOf
    {fuel : Nat}
    {s : List Byte}
    {h : Text}
    (hMem : h ∈ linesOf fuel s) :
    h.length < MAXLINE := by
  induction fuel generalizing s with
  | zero => cases hMem
  | succ fuel ih =>
      rw [linesOf] at hMem
      split_ifs at hMem with hNil
      · cases hMem
      · cases hMem with
        | head => exact length_ofBytes_next_lt s
        | tail _ hMem => exact ih hMem

def requestOf
    (s : List Byte) :
    Request where
  line := ofBytes (Line.next 10 (MAXLINE - 1) s)
  headers :=
    linesOf s.length
      (s.drop (Line.next 10 (MAXLINE - 1) s).length)
  hLine := length_ofBytes_next_lt s
  hHeaders _ hMem := length_lt_of_mem_linesOf hMem

/- The header loop leaves the same when it gets to its end. -/
theorem headersLoop_of_headerLoop
    {fuel : Nat}
    {clientRio : Rio}
    {bufs : HeaderBufs}
    {out : HeaderBufs × Rio}
    (hFuel : clientRio.stream.length ≤ fuel)
    (hLoop : headerLoop clientRio bufs = .ok out) :
    (headersLoop (linesOf fuel clientRio.stream) bufs).2 =
      out.1 := by
  induction fuel generalizing clientRio bufs with
  | zero =>
      have hStream : clientRio.stream = [] :=
        List.length_eq_zero_iff.mp (Nat.le_zero.mp hFuel)
      by_cases hReadable : clientRio.Readable MAXLINE
      · rcases
            Wrapper.rioReadlineb_of_readable (by decide)
              hReadable with
          ⟨next, hRead, _⟩
        rw [hStream, Line.next_nil] at hRead
        rw [headerLoop_nothing bufs hRead] at hLoop
        cases hLoop
        rfl
      · rw [headerLoop_error bufs
          (Wrapper.rioReadlineb_of_not_readable hReadable)]
          at hLoop
        cases hLoop
  | succ fuel ih =>
      by_cases hReadable : clientRio.Readable MAXLINE
      · rcases
            Wrapper.rioReadlineb_of_readable (by decide)
              hReadable with
          ⟨next, hRead, hRest, _⟩
        rw [linesOf]
        by_cases hNil :
            Line.next 10 (MAXLINE - 1) clientRio.stream = []
        · rw [hNil] at hRead
          rw [headerLoop_nothing bufs hRead] at hLoop
          cases hLoop
          rw [if_pos hNil]
          rfl
        · have hPositive := List.length_pos_iff.mpr hNil
          have hShorter : next.stream.length ≤ fuel := by
            rw [hRest, List.length_drop]
            omega
          rw [headerLoop_line bufs hNil hRead] at hLoop
          rw [if_neg hNil, headersLoop]
          simp only
          by_cases hEnd :
              ofBytes (Line.next 10 (MAXLINE - 1)
                clientRio.stream) = endofHdr
          · rw [if_pos hEnd] at hLoop ⊢
            cases hLoop
            rfl
          · rw [if_neg hEnd] at hLoop ⊢
            rw [← hRest]
            exact ih hShorter hLoop
      · rw [headerLoop_error bufs
          (Wrapper.rioReadlineb_of_not_readable hReadable)]
          at hLoop
        cases hLoop

/- A request made ready, on the lines of its bytes. -/
theorem prepare_ready
    {clientRio clientRio' : Rio}
    {bufs : RequestBufs}
    {host : HostBufs}
    {serverHeader : Text}
    (hPrepare :
      prepare clientRio bufs =
        .ok (.ready host serverHeader, clientRio'))
    {req : Request}
    (hReq : req = requestOf clientRio.stream)
    {scanned : RequestBufs}
    (hScanned :
      scanned = scanRequestLine { bufs with buf := req.line }) :
    strcasecmpEq scanned.method (text "GET") = true ∧
      host = parseHostname scanned.uri scanned.host ∧
      serverHeader =
        httpHeader host.hostname
          (headersLoop req.headers
            { scanned.header with
              requestHdr :=
                requestlintHdrFormat host.path }).2 := by
  by_cases hReadable : clientRio.Readable MAXLINE
  · rcases
        Wrapper.rioReadlineb_of_readable (by decide)
          hReadable with
      ⟨next, hRead, hRest, _⟩
    have hLine :
        req.line =
          ofBytes
            (Line.next 10 (MAXLINE - 1) clientRio.stream) := by
      rw [hReq]
      rfl
    have hHeaders :
        req.headers =
          linesOf clientRio.stream.length next.stream := by
      rw [hReq, hRest]
      rfl
    rw [hLine] at hScanned
    rw [prepare, hRead] at hPrepare
    rw [hHeaders]
    have hShorter :
        next.stream.length ≤ clientRio.stream.length := by
      rw [hRest, List.length_drop]
      exact Nat.sub_le _ _
    cases hBytes :
        Line.next 10 (MAXLINE - 1) clientRio.stream with
    | nil =>
        rw [hBytes] at hPrepare
        cases hPrepare
    | cons b bs =>
        rw [hBytes] at hPrepare hScanned
        simp only [← hScanned] at hPrepare
        split_ifs at hPrepare with hGet
        · rw [buildHttpHeader] at hPrepare
          cases hLoop :
              headerLoop next
                { scanned.header with
                  requestHdr :=
                    requestlintHdrFormat
                      (parseHostname scanned.uri
                        scanned.host).path } with
          | error msg =>
              rw [hLoop] at hPrepare
              cases hPrepare
          | ok out =>
              have hSame :=
                headersLoop_of_headerLoop hShorter hLoop
              rw [hLoop] at hPrepare
              cases hPrepare
              rw [hSame]
              exact ⟨hGet, rfl, rfl⟩
        · cases hPrepare
  · rw [prepare,
      Wrapper.rioReadlineb_of_not_readable hReadable]
      at hPrepare
    cases hPrepare

/-
  Header text and port of a prepared request are among the
  strings formatted for its bytes.
-/
theorem prepare_formatted
    {clientRio clientRio' : Rio}
    {bufs : RequestBufs}
    {host : HostBufs}
    {serverHeader : Text}
    (hPrepare :
      prepare clientRio bufs =
        .ok (.ready host serverHeader, clientRio')) :
    (Dest.httpHeader, serverHeader) ∈
        fromClientToServerWrites
          (requestOf clientRio.stream) bufs ∧
      (Dest.port, formatInt host.httpPort) ∈
        fromClientToServerWrites
          (requestOf clientRio.stream) bufs := by
  rcases prepare_ready hPrepare rfl rfl with
    ⟨hGet, hHost, hHeader⟩
  rw [fromClientToServerWrites, if_pos hGet, ← hHost]
  constructor
  · rw [hHeader]
    apply List.mem_append_left
    apply List.mem_append_right
    exact List.mem_cons_of_mem _ (List.mem_append_right _
      (List.mem_singleton.mpr rfl))
  · exact List.mem_append_right _ (List.mem_singleton.mpr rfl)

/- Room for the strings is room for these two. -/
theorem leavesRoomAfter_iff
    {clientRio clientRio' : Rio}
    {bufs : RequestBufs}
    {host : HostBufs}
    {serverHeader : Text}
    (hPrepare :
      prepare clientRio bufs =
        .ok (.ready host serverHeader, clientRio')) :
    LeavesRoomAfter (requestOf clientRio.stream) bufs ↔
      serverHeader.length < MAXLINE ∧
        -99999999 ≤ host.httpPort ∧
        host.httpPort ≤ 999999999 := by
  rcases prepare_ready hPrepare rfl rfl with
    ⟨_, hHost, hHeader⟩
  rcases scanRequestLine_words
      { bufs with buf := (requestOf clientRio.stream).line }
    with ⟨_, hUri, hOldHost, hOldHeader⟩
  rw [hOldHeader] at hHeader
  rw [hUri, hOldHost, parseHostname_eq] at hHost
  rw [hHeader, length_httpHeader, hHost]
  exact ⟨fun hRoom => ⟨hRoom.header, hRoom.port⟩,
    fun hRoom => ⟨hRoom.1, hRoom.2⟩⟩

/- Only a GET is made ready for its server. -/
theorem get_of_ready
    {clientRio clientRio' : Rio}
    {bufs : RequestBufs}
    {host : HostBufs}
    {serverHeader : Text}
    (hPrepare :
      prepare clientRio bufs =
        .ok (.ready host serverHeader, clientRio')) :
    strcasecmpEq
        (lineMethod (requestOf clientRio.stream).line
          bufs.method)
        (text "GET") = true := by
  have hGet := (prepare_ready hPrepare rfl rfl).1
  rw [(scanRequestLine_words _).1] at hGet
  exact hGet

end Proxy

end CsappLabs
