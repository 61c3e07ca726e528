import CsappLabs.Lib.Decimal
import CsappLabs.Proxy.Worker

/-
  The Tiny web server (proxylab/tiny/tiny.c).

  The file system is what stat() and open() report while a
  request is served.  The locals that the functions do not
  clear are arguments.  A string written past the end of its
  array ends the run, as in the proxy.  What is printed on
  the server's own terminal is left out.

  Key definitions:
    * `readRequesthdrs`
    * `parseUri`
    * `serveStatic`
    * `doit`
-/

------------------------------------------------------------
-- Files
------------------------------------------------------------

namespace CsappLabs

namespace Tiny

open CString Proxy

/-
  What stat() reports of a file: S_ISREG, S_IRUSR and S_IXUSR
  of st_mode.  `opens` tells whether open() for reading
  succeeds; st_size is the number of bytes.
-/
structure File where
  isReg : Bool
  irUsr : Bool
  ixUsr : Bool
  opens : Bool
  bytes : List Byte
  deriving DecidableEq, Repr

/- The files by name; where there is none stat() fails. -/
abbrev Files := Text → Option File

/- An off_t passed as an int. -/
def filesizeOf
    (file : File) :
    Int :=
  Int.bmod file.bytes.length (2 ^ 32)

def Wrapper.open
    (file : File) :
    Except String Unit :=
  if file.opens then
    .ok ()
  else
    unixError "Open error"

/-
  Mmap(0, filesize, PROT_READ, MAP_PRIVATE, srcfd, 0): there is
  no mapping of length 0, and none of a negative int as size_t.
-/
def Wrapper.mmap
    (file : File)
    (filesize : Int) :
    Except String (List Byte) :=
  if 0 < filesize then
    .ok (file.bytes.take filesize.toNat)
  else
    unixError "mmap error"

------------------------------------------------------------
-- The Request
------------------------------------------------------------

/-
  The locals of doit, `buf` of read_requesthdrs, and the byte
  in front of the array uri.
-/
structure DoitBufs where
  method : Text
  uri : Text
  version : Text
  hdrsBuf : Text
  uriBelow : Byte
  deriving DecidableEq, Repr

/- sscanf(buf, "%s %s %s", method, uri, version) -/
def scanRequest
    (bufs : DoitBufs)
    (buf : Text) :
    DoitBufs :=
  match scanWord buf with
  | none => bufs
  | some (method, rest) =>
      match scanWord rest with
      | none => { bufs with method := method }
      | some (uri, rest') =>
          { bufs with
            method := method
            uri := uri
            version := sscanfWord rest' bufs.version }

/-
  read_requesthdrs, for as many turns as there is fuel.  When
  Rio_readlineb returns 0 the buffer keeps its line.
-/
def readRequesthdrs
    (rp : Rio)
    (buf : Text) :
    Nat → Option (Except String Rio)
  | 0 => none
  | fuel + 1 =>
      match Wrapper.rioReadlineb rp MAXLINE with
      | .error msg => some (.error msg)
      | .ok (line, rp') =>
          let buf' := if line = [] then buf else ofBytes line
          if buf' = endofHdr then
            some (.ok rp')
          else
            readRequesthdrs rp' buf' fuel

/- Whether the content is static, filename and cgiargs. -/
def parseUri
    (below : Byte)
    (uri : Text) :
    Bool × Text × Text :=
  match strstr (text "cgi-bin") uri with
  | none =>
      let filename := text "." ++ uri
      if uri.getLastD below = 47 then
        (true, filename ++ text "home.html", [])
      else
        (true, filename, [])
  | some _ =>
      match strstr (text "?") uri with
      | some (before, found) =>
          (false, text "." ++ before, found.drop 1)
      | none => (false, text "." ++ uri, [])

------------------------------------------------------------
-- The Response
------------------------------------------------------------

def getFiletype
    (filename : Text) :
    Text :=
  if (strstr (text ".html") filename).isSome then
    text "text/html"
  else if (strstr (text ".gif") filename).isSome then
    text "image/gif"
  else if (strstr (text ".png") filename).isSome then
    text "image/png"
  else if (strstr (text ".jpg") filename).isSome then
    text "image/jpeg"
  else
    text "text/plain"

/- The headers of serve_static, as they are written. -/
def staticHeaders
    (filename : Text)
    (filesize : Int) :
    List Text :=
  [text "HTTP/1.0 200 OK\r\n",
    text "Server: Tiny Web Server\r\n",
    text "Content-length: " ++ formatInt filesize ++
      text "\r\n",
    text "Content-type: " ++ getFiletype filename ++
      text "\r\n\r\n"]

def serveStatic
    (client : Sink)
    (filename : Text)
    (file : File)
    (filesize : Int) :
    Except String Sink := do
  let client ←
    (staticHeaders filename filesize).foldlM
      Wrapper.rioWriten client
  Wrapper.open file
  let srcp ← Wrapper.mmap file filesize
  Wrapper.rioWriten client srcp

/- The headers of serve_dynamic. -/
def dynamicHeaders : List Text :=
  [text "HTTP/1.0 200 OK\r\n",
    text "Server: Tiny Web Server\r\n"]

/-
  The child that runs the program may do anything with the
  descriptor; it is given filename and QUERY_STRING.
-/
def serveDynamic
    (cgi : Text → Text → Sink → Sink)
    (client : Sink)
    (filename cgiargs : Text) :
    Except String Sink := do
  let client ←
    dynamicHeaders.foldlM Wrapper.rioWriten client
  return cgi filename cgiargs client

def clienterror
    (client : Sink)
    (cause errnum shortmsg longmsg : Text) :
    Except String Sink :=
  Proxy.clienterror client cause errnum shortmsg longmsg

/-
  doit from parse_uri on, which has written the name of the
  file into filename[MAXLINE].
-/
def respond
    (files : Files)
    (cgi : Text → Text → Sink → Sink)
    (client : Sink)
    (below : Byte)
    (uri : Text) :
    Except String Sink :=
  let (isStatic, filename, cgiargs) := parseUri below uri
  if filename.length < MAXLINE then
    match files filename with
    | none =>
        clienterror client filename (text "404")
          (text "Not found")
          (text "Tiny couldn't find this file")
    | some file =>
        if isStatic then
          if !file.isReg || !file.irUsr then
            clienterror client filename (text "403")
              (text "Forbidden")
              (text "Tiny couldn't read the file")
          else
            serveStatic client filename file
              (filesizeOf file)
        else if !file.isReg || !file.ixUsr then
          clienterror client filename (text "403")
            (text "Forbidden")
            (text "Tiny couldn't run the CGI program")
        else
          serveDynamic cgi client filename cgiargs
  else
    overflow

def doit
    (files : Files)
    (cgi : Text → Text → Sink → Sink)
    (fuel : Nat)
    (rio : Rio)
    (client : Sink)
    (bufs : DoitBufs) :
    Option (Except String Sink) :=
  match Wrapper.rioReadlineb rio MAXLINE with
  | .error msg => some (.error msg)
  | .ok ([], _) => some (.ok client)
  | .ok (b :: bs, rio') =>
      let scanned := scanRequest bufs (ofBytes (b :: bs))
      if strcasecmpEq scanned.method (text "GET") then
        match readRequesthdrs rio' bufs.hdrsBuf fuel with
        | none => none
        | some (.error msg) => some (.error msg)
        | some (.ok _) =>
            some
              (respond files cgi client bufs.uriBelow
                scanned.uri)
      else
        some
          (clienterror client scanned.method (text "501")
            (text "Not Implemented")
            (text "Tiny does not implement this method"))

end Tiny

end CsappLabs
