import CsappLabs.Proxy.Request
import CsappLabs.Lib.Decimal

/-
  Absolute URIs and what parse_hostname reads from them
  (proxylab/proxy.c).

  parse_hostname looks for a colon anywhere behind the
  scheme, so a colon in the path of a URI without a port is
  taken for the one in front of the port.

  Key definitions:
    * `AbsoluteUri`
    * `AbsoluteUri.render`
    * `AbsoluteUri.named`

  Key theorems:
    * `parsedParts_port`
    * `parsedParts_path`
    * `parseHostname_named_iff`
-/

------------------------------------------------------------
-- URIs
------------------------------------------------------------

namespace CsappLabs

namespace Proxy

open CString

/- The parts of http://host[:port][path]. -/
structure AbsoluteUri where
  host : Text
  port : Option Nat
  path : Option Text
  hHost : IsHost host
  hPort : ∀ p ∈ port, p ≤ 65535
  hPath :
    ∀ p ∈ path, p.head? = some 47 ∧ ∀ c ∈ p, IsWordByte c

/- The colon and the number, if there is one. -/
def portText :
    Option Nat → Text
  | none => []
  | some p => 58 :: formatNat p

def AbsoluteUri.tail
    (uri : AbsoluteUri) :
    Text :=
  portText uri.port ++ uri.path.getD []

def AbsoluteUri.render
    (uri : AbsoluteUri) :
    Text :=
  text "http://" ++ (uri.host ++ uri.tail)

/- What the URI says, with the defaults of HTTP. -/
def AbsoluteUri.named
    (uri : AbsoluteUri) :
    HostBufs where
  hostname := uri.host
  path := uri.path.getD (text "/")
  httpPort := uri.port.getD 80

theorem isWordByte_of_isdigit
    {c : Byte}
    (hDigit : isdigit c = true) :
    IsWordByte c := by
  refine ⟨(isspace_of_isdigit hDigit).1, ?_⟩
  rintro rfl
  exact absurd hDigit (by decide)

theorem AbsoluteUri.path_bytes
    (uri : AbsoluteUri) :
    ∀ c ∈ uri.path.getD [], IsWordByte c := by
  intro c hc
  cases hPath : uri.path with
  | none =>
      rw [hPath] at hc
      cases hc
  | some p =>
      rw [hPath] at hc
      exact (uri.hPath p hPath).2 c hc

theorem AbsoluteUri.tail_bytes
    (uri : AbsoluteUri) :
    ∀ c ∈ uri.tail, IsWordByte c := by
  intro c hc
  rcases List.mem_append.mp hc with hPort | hPath
  · cases hSome : uri.port with
    | none =>
        rw [hSome] at hPort
        cases hPort
    | some p =>
        rw [hSome] at hPort
        rcases List.mem_cons.mp hPort with hColon | hDigit
        · rw [hColon]
          decide
        · exact isWordByte_of_isdigit
            (isdigit_formatNat p c hDigit)
  · exact uri.path_bytes c hPath

------------------------------------------------------------
-- The Three Cases
------------------------------------------------------------

theorem strstr_head
    (c : Byte)
    (s : Text) :
    strstr [c] (c :: s) = some ([], c :: s) := by
  rw [strstr_singleton, if_pos List.mem_cons_self]
  simp

theorem strstr_of_not_mem
    {c : Byte}
    {s : Text}
    (hNot : c ∉ s) :
    strstr [c] s = none := by
  rw [strstr_singleton, if_neg hNot]

/- A scanned path, or the slash that stands there before. -/
theorem AbsoluteUri.sscanfWord_path
    (uri : AbsoluteUri) :
    sscanfWord (uri.path.getD []) (text "/") =
      uri.path.getD (text "/") := by
  cases hPath : uri.path with
  | none => rfl
  | some p =>
      have hFacts := uri.hPath p hPath
      apply sscanfWord_of_word
      · rintro hNil
        rw [Option.getD_some] at hNil
        rw [hNil] at hFacts
        cases hFacts.1
      · exact fun c hc => (hFacts.2 c hc).1

/- With a port everything is read back. -/
theorem parsedParts_port
    (uri : AbsoluteUri)
    (hPort : uri.port ≠ none) :
    parsedParts uri.host uri.tail = uri.named := by
  rcases Option.ne_none_iff_exists'.mp hPort with ⟨p, hSome⟩
  have hBound := uri.hPort p hSome
  have hTail :
      uri.tail = 58 :: (formatNat p ++ uri.path.getD []) := by
    rw [AbsoluteUri.tail, hSome]
    rfl
  have hStop :
      ∀ c ∈ (uri.path.getD []).head?, isdigit c = false := by
    intro c hc
    cases hPath : uri.path with
    | none =>
        rw [hPath] at hc
        cases hc
    | some path =>
        have hSlash := (uri.hPath path hPath).1
        rw [hPath, Option.getD_some, hSlash] at hc
        cases hc
        decide
  have hFound :
      strstr (text ":") uri.tail = some ([], uri.tail) := by
    rw [hTail]
    exact strstr_head 58 _
  have hScan := scanInt_formatNat
    (lt_of_le_of_lt hBound (by decide)) hStop
  rw [parsedParts, hFound]
  simp only
  rw [hTail, List.drop_one, List.tail_cons, scanPortPath,
    hScan]
  simp only
  rw [uri.sscanfWord_path, AbsoluteUri.named, hSome,
    List.append_nil]
  rfl

/- Without one, if the path has no colon. -/
theorem parsedParts_path
    (uri : AbsoluteUri)
    (hPort : uri.port = none)
    (hPath : ∀ p ∈ uri.path, 58 ∉ p) :
    parsedParts uri.host uri.tail = uri.named := by
  have hTail : uri.tail = uri.path.getD [] := by
    rw [AbsoluteUri.tail, hPort]
    rfl
  have hColon : 58 ∉ uri.path.getD [] := by
    cases hSome : uri.path with
    | none => exact List.not_mem_nil
    | some p => exact hPath p hSome
  have hNone :
      strstr (text ":") (uri.path.getD []) = none :=
    strstr_of_not_mem hColon
  rw [parsedParts, hTail, hNone]
  simp only
  unfold AbsoluteUri.named
  rw [hPort]
  cases hSome : uri.path with
  | none => simp [strstr]
  | some p =>
      have hWord := uri.sscanfWord_path
      have hSlash := (uri.hPath p hSome).1
      rw [hSome, Option.getD_some, Option.getD_some] at hWord
      have hFound : strstr (text "/") p = some ([], p) := by
        cases p with
        | nil => cases hSlash
        | cons c rest =>
            cases hSlash
            exact strstr_head 47 rest
      rw [Option.getD_some, hFound]
      simp only
      rw [hWord, List.append_nil]
      rfl

/- A colon in the path cuts the host too late. -/
theorem parsedParts_colon
    (uri : AbsoluteUri)
    {p : Text}
    (hPort : uri.port = none)
    (hSome : uri.path = some p)
    (hColon : 58 ∈ p) :
    (parsedParts uri.host uri.tail).hostname ≠ uri.host := by
  have hTail : uri.tail = p := by
    rw [AbsoluteUri.tail, hPort, hSome]
    rfl
  have hSlash := (uri.hPath p hSome).1
  rcases List.eq_append_cons_of_mem hColon with
    ⟨before, after, hSplit, hBefore⟩
  have hFound :
      strstr (text ":") p = some (before, 58 :: after) := by
    rw [hSplit]
    have hSkip :=
      strstr_append_of_not_mem [] hBefore (58 :: after)
    change strstr [58] _ = _
    rw [hSkip, strstr_head, Option.map_some,
      List.append_nil]
  have hNe : before ≠ [] := by
    rintro rfl
    rw [hSplit] at hSlash
    exact absurd (Option.some.inj hSlash) (by decide)
  have hKept :
      ∀ s bufs,
        (scanPortPath s bufs).hostname = bufs.hostname := by
    intro s bufs
    rw [scanPortPath]
    cases scanInt s with
    | none => rfl
    | some pair => rfl
  rw [parsedParts, hTail, hFound]
  simp only
  rw [hKept]
  intro hSame
  exact hNe (List.append_right_eq_self.mp hSame)

------------------------------------------------------------
-- Reading a URI Back
------------------------------------------------------------

/-
  parse_hostname reads host, port and path back exactly when
  the URI has a port or no colon in its path.
-/
theorem parseHostname_named_iff
    (uri : AbsoluteUri)
    (old : HostBufs) :
    parseHostname uri.render old = uri.named ↔
      uri.port ≠ none ∨ ∀ p ∈ uri.path, 58 ∉ p := by
  rw [AbsoluteUri.render,
    parseHostname_parts uri.hHost uri.tail_bytes]
  constructor
  · intro hRead
    by_cases hPort : uri.port = none
    · right
      intro p hSome hColon
      apply parsedParts_colon uri hPort hSome hColon
      rw [hRead]
      rfl
    · exact Or.inl hPort
  · rintro (hPort | hPath)
    · exact parsedParts_port uri hPort
    · by_cases hPort : uri.port = none
      · exact parsedParts_path uri hPort hPath
      · exact parsedParts_port uri hPort

/- http://h/a:b -/
def colonUri : AbsoluteUri where
  host := text "h"
  port := none
  path := some (text "/a:b")
  hHost := ⟨by decide, forall_mem_text (by decide)⟩
  hPort := by simp
  hPath := by
    intro p hp
    cases hp
    exact ⟨by decide, forall_mem_text (by decide)⟩

/- The host read is h/a. -/
theorem parseHostname_reads_path :
    parseHostname colonUri.render ⟨[], [], 0⟩ =
        ⟨text "h/a", text "/", 80⟩ ∧
      parseHostname colonUri.render ⟨[], [], 0⟩ ≠
        colonUri.named := by
  decide

end Proxy

end CsappLabs
