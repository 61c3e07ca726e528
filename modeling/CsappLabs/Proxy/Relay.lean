import CsappLabs.Proxy.Rio

/-
  The relay of the server's answer to the client
  (proxylab/proxy.c, the last loop of
  from_client_to_server).

  The wrappers of csapp.c end the process through
  unix_error, which a run shows as an error carrying the
  message.

  Key definitions:
    * `Wrapper.rioReadlineb`
    * `Wrapper.rioWriten`
    * `relayLoop`

  Key theorems:
    * `Wrapper.rioReadlineb_of_readable`
    * `relayLoop_ok_iff`
    * `relayLoop_identity`
-/

------------------------------------------------------------
-- Wrappers
------------------------------------------------------------

namespace CsappLabs

namespace Proxy

/- unix_error prints its message and calls exit(0). -/
def unixError
    {α : Type}
    (msg : String) :
    Except String α :=
  .error msg

/- The bytes stored; none are when the call returns 0. -/
def Wrapper.rioReadlineb
    (rp : Rio)
    (maxlen : Nat) :
    Except String (List Byte × Rio) :=
  match Proxy.rioReadlineb rp maxlen with
  | (.error, _) => unixError "Rio_readlineb error"
  | (.eof, rp') => .ok ([], rp')
  | (.line bs, rp') => .ok (bs, rp')

def Wrapper.rioWriten
    (sink : Sink)
    (usrbuf : List Byte) :
    Except String Sink :=
  match Proxy.rioWriten sink usrbuf with
  | (true, sink') => .ok sink'
  | (false, _) => unixError "Rio_writen error"

/- A line that read() will not cut off with an error. -/
def Rio.Readable
    (rp : Rio)
    (maxlen : Nat) :
    Prop :=
  rp.input.ending = .eof ∨
    Line.Complete 10 (maxlen - 1) rp.stream

/- A readable line comes off the front of the stream. -/
theorem Wrapper.rioReadlineb_of_readable
    {rp : Rio}
    {maxlen : Nat}
    (hMaxlen : 1 < maxlen)
    (hReadable : rp.Readable maxlen) :
    ∃ rp',
      Wrapper.rioReadlineb rp maxlen =
          .ok (Line.next 10 (maxlen - 1) rp.stream, rp') ∧
        rp'.stream =
          rp.stream.drop
            (Line.next 10 (maxlen - 1) rp.stream).length ∧
        rp'.input.ending = rp.input.ending := by
  by_cases hComplete :
      Line.Complete 10 (maxlen - 1) rp.stream
  · rcases rioReadlineb_of_complete hComplete with
      ⟨rp', hLine, hRest, hEnd⟩
    refine ⟨rp', ?_, hRest, hEnd⟩
    rw [Wrapper.rioReadlineb, hLine]
  · have hEnding : rp.input.ending = .eof :=
      hReadable.resolve_right hComplete
    by_cases hNil : rp.stream = []
    · rcases rioReadlineb_of_nil hMaxlen hEnding hNil with
        ⟨rp', hLine, hRest, hEnd⟩
      refine ⟨rp', ?_, ?_, hEnd.trans hEnding.symm⟩
      · rw [Wrapper.rioReadlineb, hLine, hNil,
          Line.next_nil]
      · rw [hRest, hNil, List.drop_nil]
    · rcases @rioReadlineb_of_eof maxlen rp hEnding hNil with
        ⟨rp', hLine, hRest, hEnd⟩
      refine ⟨rp', ?_, hRest, hEnd.trans hEnding.symm⟩
      rw [Wrapper.rioReadlineb, hLine]

theorem Wrapper.rioReadlineb_of_not_readable
    {rp : Rio}
    {maxlen : Nat}
    (hReadable : ¬ rp.Readable maxlen) :
    Wrapper.rioReadlineb rp maxlen =
      .error "Rio_readlineb error" := by
  rcases not_or.mp hReadable with ⟨hEnding, hComplete⟩
  have hError : rp.input.ending = .error := by
    cases hEnd : rp.input.ending with
    | eof => exact absurd hEnd hEnding
    | error => rfl
  rcases rioReadlineb_of_error hError hComplete with ⟨rp', hLine⟩
  rw [Wrapper.rioReadlineb, hLine]
  rfl

/- What is read is the next line, and comes off. -/
theorem Wrapper.rioReadlineb_append
    {rp rp' : Rio}
    {maxlen : Nat}
    (hMaxlen : 1 < maxlen)
    {bs : List Byte}
    (hRead :
      Wrapper.rioReadlineb rp maxlen = .ok (bs, rp')) :
    bs ++ rp'.stream = rp.stream ∧
      rp'.input.ending = rp.input.ending := by
  by_cases hReadable : rp.Readable maxlen
  · rcases
        Wrapper.rioReadlineb_of_readable hMaxlen hReadable with
      ⟨next, hLine, hRest, hEnd⟩
    rw [hLine] at hRead
    cases hRead
    rw [hRest]
    exact ⟨Line.next_append_drop 10 _ rp.stream, hEnd⟩
  · rw [Wrapper.rioReadlineb_of_not_readable hReadable]
      at hRead
    cases hRead

/- A line that fits is read whole. -/
theorem Wrapper.rioReadlineb_of_line
    {rp : Rio}
    {maxlen : Nat}
    {body s : List Byte}
    (hBody : 10 ∉ body)
    (hLen : body.length + 1 < maxlen)
    (hStream : rp.stream = body ++ 10 :: s) :
    ∃ rp',
      Wrapper.rioReadlineb rp maxlen =
          .ok (body ++ [10], rp') ∧
        rp'.stream = s ∧
        rp'.input.ending = rp.input.ending := by
  have hFits : body.length < maxlen - 1 := by
    omega
  have hNext :
      Line.next 10 (maxlen - 1) rp.stream =
        body ++ [10] := by
    rw [hStream]
    exact Line.next_of_line hBody hFits s
  have hComplete :
      Line.Complete 10 (maxlen - 1) rp.stream := by
    rw [hStream]
    exact Line.complete_of_line hFits s
  rcases rioReadlineb_of_complete hComplete with
    ⟨rp', hLine, hRest, hEnd⟩
  rw [hNext] at hLine hRest
  refine ⟨rp', ?_, ?_, hEnd⟩
  · rw [Wrapper.rioReadlineb, hLine]
  · have hSplit : body ++ 10 :: s = (body ++ [10]) ++ s := by
      simp
    rw [hRest, hStream, hSplit, List.drop_left]

theorem Wrapper.rioWriten_of_takes
    (sink : Sink)
    (usrbuf : List Byte)
    (hTakes : sink.Takes usrbuf.length) :
    ∃ sink',
      Wrapper.rioWriten sink usrbuf = .ok sink' ∧
        sink'.sent = sink.sent ++ usrbuf ∧
        sink'.calls = sink.calls ++ [usrbuf] ∧
        sink'.room =
          sink.room.map (fun r => r - usrbuf.length) := by
  rcases Proxy.rioWriten_of_takes sink usrbuf hTakes with
    ⟨sink', hWrite, hSpec⟩
  refine ⟨sink', ?_, hSpec⟩
  rw [Wrapper.rioWriten, hWrite]

theorem Wrapper.rioWriten_of_not_takes
    (sink : Sink)
    (usrbuf : List Byte)
    (hTakes : ¬ sink.Takes usrbuf.length) :
    Wrapper.rioWriten sink usrbuf =
      .error "Rio_writen error" := by
  rcases Proxy.rioWriten_of_not_takes sink usrbuf hTakes with
    ⟨sink', hWrite⟩
  rw [Wrapper.rioWriten, hWrite]
  rfl

------------------------------------------------------------
-- The Relay Loop
------------------------------------------------------------

/- A non-empty line leaves a shorter stream. -/
theorem Wrapper.rioReadlineb_shorter
    {rp rp' : Rio}
    {b : Byte}
    {bs : List Byte}
    (hRead :
      Wrapper.rioReadlineb rp MAXLINE =
        .ok (b :: bs, rp')) :
    rp'.stream.length < rp.stream.length := by
  have hMaxlen : 1 < MAXLINE := by
    decide
  rcases Wrapper.rioReadlineb_append hMaxlen hRead with
    ⟨hStream, _⟩
  rw [← hStream, List.length_append, List.length_cons]
  omega

/- while ((n = Rio_readlineb(..)) != 0) Rio_writen(..) -/
def relayLoop
    (serverRio : Rio)
    (client : Sink) :
    Except String (Rio × Sink) :=
  match _hRead : Wrapper.rioReadlineb serverRio MAXLINE with
  | .error msg => .error msg
  | .ok ([], serverRio') => .ok (serverRio', client)
  | .ok (b :: bs, serverRio') =>
      match Wrapper.rioWriten client (b :: bs) with
      | .error msg => .error msg
      | .ok client' => relayLoop serverRio' client'
termination_by serverRio.stream.length
decreasing_by
  exact Wrapper.rioReadlineb_shorter _hRead

/- The loop ends when Rio_readlineb returns 0. -/
theorem relayLoop_stop
    {serverRio serverRio' : Rio}
    (client : Sink)
    (hRead :
      Wrapper.rioReadlineb serverRio MAXLINE =
        .ok ([], serverRio')) :
    relayLoop serverRio client =
      .ok (serverRio', client) := by
  rw [relayLoop]
  split
  case h_1 => simp_all
  case h_2 => simp_all
  case h_3 => simp_all

/- One turn of the loop hands one line to the client. -/
theorem relayLoop_turn
    {serverRio serverRio' : Rio}
    {client client' : Sink}
    {b : Byte}
    {bs : List Byte}
    (hRead :
      Wrapper.rioReadlineb serverRio MAXLINE =
        .ok (b :: bs, serverRio'))
    (hWrite :
      Wrapper.rioWriten client (b :: bs) = .ok client') :
    relayLoop serverRio client =
      relayLoop serverRio' client' := by
  rw [relayLoop]
  split
  case h_1 => simp_all
  case h_2 => simp_all
  case h_3 => simp_all

/-
  From any point of the relay on, what the loop passes on
  is what the server still has to say.  The induction is
  on the length of that rest.
-/
theorem relayLoop_of_eof
    {serverRio : Rio}
    {client : Sink}
    (hEnding : serverRio.input.ending = .eof)
    (hTakes : client.Takes serverRio.stream.length) :
    ∃ serverRio' client' bufs,
      relayLoop serverRio client =
          .ok (serverRio', client') ∧
        client'.calls = client.calls ++ bufs ∧
        bufs.flatten = serverRio.stream ∧
        client'.sent = client.sent ++ serverRio.stream := by
  have hMaxlen : 1 < MAXLINE := by
    decide
  induction hLen : serverRio.stream.length
      using Nat.strong_induction_on
      generalizing serverRio client with
  | _ len ih =>
      rcases
          Wrapper.rioReadlineb_of_readable hMaxlen
            (Or.inl hEnding) with
        ⟨serverRio', hRead, _⟩
      cases hLine :
          Line.next 10 (MAXLINE - 1) serverRio.stream with
      | nil =>
          rw [hLine] at hRead
          have hNil : serverRio.stream = [] :=
            (Line.next_eq_nil 10 (by decide) _).mp hLine
          refine ⟨serverRio', client, [],
            relayLoop_stop client hRead, ?_, ?_, ?_⟩
          · rw [List.append_nil]
          · rw [hNil, List.flatten_nil]
          · rw [hNil, List.append_nil]
      | cons b bs =>
          rw [hLine] at hRead
          rcases Wrapper.rioReadlineb_append hMaxlen hRead with
            ⟨hStream, hEnd⟩
          rw [← hStream, List.length_append] at hTakes
          have hFirst : client.Takes (b :: bs).length :=
            fun r hr => (Nat.le_add_right _ _).trans
              (hTakes r hr)
          rcases
              Wrapper.rioWriten_of_takes client (b :: bs)
                hFirst with
            ⟨client', hWrite, hSent, hCalls, hRoom⟩
          have hRest :
              client'.Takes serverRio'.stream.length :=
            (Sink.takes_of_room hRoom _ hFirst).mpr hTakes
          have hShorter :
              serverRio'.stream.length < len := by
            rw [← hLen]
            exact Wrapper.rioReadlineb_shorter hRead
          rcases
              ih _ hShorter (hEnd.trans hEnding) hRest rfl with
            ⟨serverRio'', client'', bufs, hLoop, hCalls', hBufs,
             hSent'⟩
          refine ⟨serverRio'', client'', (b :: bs) :: bufs,
            ?_, ?_, ?_, ?_⟩
          · rw [relayLoop_turn hRead hWrite, hLoop]
          · rw [hCalls', hCalls, List.append_assoc,
              List.singleton_append]
          · rw [List.flatten_cons, hBufs, hStream]
          · rw [hSent', hSent, List.append_assoc, hStream]

/- Reading nothing means the end of the file. -/
theorem Wrapper.rioReadlineb_nothing
    {rp rp' : Rio}
    (hRead :
      Wrapper.rioReadlineb rp MAXLINE = .ok ([], rp')) :
    rp.input.ending = .eof ∧ rp.stream = [] := by
  by_cases hReadable : rp.Readable MAXLINE
  · rcases
        Wrapper.rioReadlineb_of_readable (by decide) hReadable with
      ⟨next, hLine, _⟩
    rw [hLine, Except.ok.injEq, Prod.mk.injEq] at hRead
    have hNil : rp.stream = [] :=
      (Line.next_eq_nil 10 (by decide) _).mp hRead.1
    refine ⟨hReadable.resolve_right ?_, hNil⟩
    rw [hNil]
    exact Line.not_complete_nil 10 _
  · rw [Wrapper.rioReadlineb_of_not_readable hReadable]
      at hRead
    cases hRead

/- The loop fails where a read or a write does. -/
theorem relayLoop_ok_iff
    (serverRio : Rio)
    (client : Sink) :
    (∃ out, relayLoop serverRio client = .ok out) ↔
      serverRio.input.ending = .eof ∧
        client.Takes serverRio.stream.length := by
  constructor
  · intro hOk
    induction hLen : serverRio.stream.length
        using Nat.strong_induction_on
        generalizing serverRio client with
    | _ len ih =>
        rcases hOk with ⟨out, hLoop⟩
        rw [relayLoop] at hLoop
        split at hLoop
        case h_1 => cases hLoop
        case h_2 hRead =>
          rcases Wrapper.rioReadlineb_nothing hRead with
            ⟨hEnding, hNil⟩
          refine ⟨hEnding, ?_⟩
          rw [← hLen, hNil]
          simp [Sink.Takes]
        case h_3 b bs serverRio' hRead =>
          rcases
              Wrapper.rioReadlineb_append (by decide) hRead with
            ⟨hStream, hEnd⟩
          by_cases hFirst : client.Takes (b :: bs).length
          · rcases
                Wrapper.rioWriten_of_takes client (b :: bs)
                  hFirst with
              ⟨client', hWrite, _, _, hRoom⟩
            rw [hWrite] at hLoop
            have hShorter :
                serverRio'.stream.length < len := by
              rw [← hLen]
              exact Wrapper.rioReadlineb_shorter hRead
            rcases
                ih _ hShorter serverRio' client'
                  ⟨out, hLoop⟩ rfl with
              ⟨hEnding, hRest⟩
            refine ⟨hEnd.symm.trans hEnding, ?_⟩
            rw [← hLen, ← hStream, List.length_append]
            exact (Sink.takes_of_room hRoom _ hFirst).mp
              hRest
          · rw [Wrapper.rioWriten_of_not_takes client _
              hFirst] at hLoop
            cases hLoop
  · rintro ⟨hEnding, hTakes⟩
    rcases relayLoop_of_eof hEnding hTakes with
      ⟨serverRio', client', _, hLoop, _⟩
    exact ⟨_, hLoop⟩

/-
  The relay is the identity.  Whatever chunks read()
  delivers, with interrupted calls in between, and however
  write() splits what it is given, the loop ends, and the
  buffers given to Rio_writen make up the server's stream.
-/
theorem relayLoop_identity
    (reads : List Read)
    (old : List Byte)
    (writes : List Write)
    (sent : List Byte)
    (calls : List (List Byte)) :
    ∃ serverRio' client' bufs,
      relayLoop (rioReadinitb ⟨reads, .eof⟩ old)
          { writes := writes
            room := none
            sent := sent
            calls := calls } =
          .ok (serverRio', client') ∧
        client'.calls = calls ++ bufs ∧
        bufs.flatten = reads.flatMap Read.bytes ∧
        client'.sent =
          sent ++ reads.flatMap Read.bytes := by
  rcases
      @relayLoop_of_eof
        (rioReadinitb ⟨reads, .eof⟩ old)
        { writes := writes
          room := none
          sent := sent
          calls := calls }
        rfl (by simp [Sink.Takes]) with
    ⟨serverRio', client', bufs, hLoop, hCalls, hBufs, hSent⟩
  rw [rioReadinitb_stream] at hBufs hSent
  exact ⟨serverRio', client', bufs, hLoop, hCalls, hBufs,
    hSent⟩

end Proxy

end CsappLabs
