import CsappLabs.Shell.Machine
import CsappLabs.Shell.JobIds
import Mathlib.Logic.Relation

/-
  do_bgfg as a whole, on the strings of argv: which job it
  selects, what it does to the table, whom it signals and
  what it prints.

  The number of the job is `atoi(argv[1]+1)` whatever the
  first character is, and it is looked up as a job id.

  Key definitions include:
    * `Bgfg.doBgfg`
    * `Bgfg.Reference`
    * `Bgfg.ActsOnNamed`
    * `Bgfg.FindsNamed`

  Key theorems include:
    * `Bgfg.doBgfg_actsOnNamed_iff`
    * `Bgfg.statements_doBgfg`
-/

------------------------------------------------------------
-- The Command
------------------------------------------------------------

namespace CsappLabs

namespace Shell

namespace Bgfg

open SlotTable

/-
  A call of do_bgfg: the table after it, the job it selected,
  the first arguments of kill(., SIGCONT), the arguments of
  waitfg, and the text printed.
-/
structure Outcome where
  jobs : Fin maxJobs → Job
  selected : Option (Fin maxJobs)
  kills : List Int
  waits : List Int
  printed : String

/- A return that only prints. -/
def complain
    (jobs : Fin maxJobs → Job)
    (printed : String) :
    Outcome :=
  { jobs := jobs
    selected := none
    kills := []
    waits := []
    printed := printed }

/-
  The text at argv[1]+1. Behind the NUL of an empty argv[1]
  it is what the buffer holds there.
-/
def afterFirst
    (argument : String)
    (behind : List Char) :
    List Char :=
  match argument.toList with
  | [] => behind
  | _ :: rest => rest

/- do_bgfg once it has the pointer to the job. -/
def act
    (jobs : Fin maxJobs → Job)
    (command : String)
    (i : Fin maxJobs) :
    Outcome :=
  let pid := (jobs i).pid
  let idle : Outcome :=
    { jobs := jobs
      selected := some i
      kills := []
      waits := []
      printed := "" }
  if command = "fg" then
    if (jobs i).state = .bg || (jobs i).state = .st then
      { idle with
        jobs := setState jobs i .fg
        kills := [-pid]
        waits := [pid] }
    else
      idle
  else if command = "bg" then
    if (jobs i).state = .fg || (jobs i).state = .st then
      { idle with
        jobs := setState jobs i .bg
        kills := [-pid]
        printed :=
          "[" ++ toString (jobs i).jid ++ "] (" ++
            toString pid ++ ") " ++ (jobs i).cmdline ++ "\n" }
    else
      idle
  else
    idle

def doBgfg
    (jobs : Fin maxJobs → Job)
    (command : String)
    (argument : Option String)
    (behind : List Char) :
    Outcome :=
  match argument with
  | none =>
      complain jobs
        (command ++ " command requires PID or %jobid argument\n")
  | some argument =>
      let jid := atoi (afterFirst argument behind)
      if jid = 0 then
        complain jobs
          (command ++ ": argument must be a PID or %jobid\n")
      else if 9999999 ≤ jid then
        complain jobs
          ("(" ++ toString jid ++ "): No such process\n")
      else
        match getjobjid jobs jid with
        | none =>
            complain jobs (argument ++ ": No such job\n")
        | some i => act jobs command i

def commandName : Verb → String
| .fg => "fg"
| .bg => "bg"

------------------------------------------------------------
-- What an Argument Names
------------------------------------------------------------

/- `%N`, `N` in digits only, or neither of them. -/
inductive Reference where
| jid (number : Int)
| pid (number : Int)
| neither
deriving DecidableEq, Repr

def allDigits (text : List Char) : Bool :=
  !text.isEmpty && text.all Char.isDigit

def reference (argument : List Char) : Reference :=
  match argument with
  | [] => .neither
  | first :: rest =>
      if first = '%' && allDigits rest then
        .jid (digitsValue rest)
      else if allDigits (first :: rest) then
        .pid (digitsValue (first :: rest))
      else
        .neither

/- What argv[1] names, if it is there. -/
def argumentReference : Option String → Reference
| none => .neither
| some argument => reference argument.toList

/- The numbers that do_bgfg takes for a job. -/
def InRange (number : Int) : Prop :=
  1 ≤ number ∧ number < 9999999

instance (number : Int) : Decidable (InRange number) :=
  inferInstanceAs (Decidable (_ ∧ _))

/- The job in a slot is the one that is named. -/
def Reference.Names
    (jobs : Fin maxJobs → Job)
    (i : Fin maxJobs) :
    Reference → Prop
| .jid number => InRange number ∧ (jobs i).jid = number
| .pid number => InRange number ∧ (jobs i).pid = number
| .neither => False

/-
  The reference is no number, or a number in range of which
  there is no job.
-/
def Reference.NamesNone
    (jobs : Fin maxJobs → Job) :
    Reference → Prop
| .jid number => InRange number ∧ ∀ i, (jobs i).jid ≠ number
| .pid number => InRange number ∧ ∀ i, (jobs i).pid ≠ number
| .neither => True

/-
  The job that is named is selected. Without one nothing is
  done; with one nothing is done to the others.
-/
structure ActsOnNamed
    (jobs : Fin maxJobs → Job)
    (ref : Reference)
    (outcome : Outcome) :
    Prop where
  selects :
    ∀ i, ref.Names jobs i → outcome.selected = some i
  selectsNone :
    ref.NamesNone jobs → ref ≠ .neither →
      outcome.selected = none
  unchanged :
    ref.NamesNone jobs →
      outcome.jobs = jobs ∧ outcome.kills = []
  others :
    ∀ i, ref.Names jobs i →
      (∀ j, j ≠ i → outcome.jobs j = jobs j) ∧
        ∀ target ∈ outcome.kills, target = -(jobs i).pid

/- No positive pid and no positive jid stands in two slots. -/
structure DistinctNames
    (jobs : Fin maxJobs → Job) :
    Prop where
  pids :
    ∀ i j, 1 ≤ (jobs i).pid →
      (jobs i).pid = (jobs j).pid → i = j
  jids :
    ∀ i j, 1 ≤ (jobs i).jid →
      (jobs i).jid = (jobs j).jid → i = j

/-
  The job whose jid is the number after the first character
  is the job that is named, or is left alone by the command
  when nothing is named.
-/
def FindsNamed
    (jobs : Fin maxJobs → Job)
    (verb : Verb)
    (ref : Reference)
    (number : Int) :
    Prop :=
  match ref with
  | .jid _ => True
  | .pid pid =>
      InRange pid →
        ∀ i, (InRange number ∧ (jobs i).jid = number) ↔
          (jobs i).pid = pid
  | .neither =>
      InRange number → ∀ i, (jobs i).jid = number →
        verb.applies (jobs i).state = false

variable {jobs : Fin maxJobs → Job} {table : JobTable}
variable {verb : Verb} {i : Fin maxJobs} {ref : Reference}

/- The tables of the shell with their job ids distinct. -/
theorem distinctNames_of_wellFormed
    (hTable : WellFormed table)
    (hJids : JidsDistinct table.jobs) :
    DistinctNames table.jobs where
  pids := by
    intro i j hPid hEq
    apply hTable.distinctPids i j _ _ hEq
    · unfold Occupied
      omega
    · unfold Occupied
      omega
  jids := by
    intro i j hJid hEq
    -- A free slot has jid 0.
    have hOccupied :
        ∀ k, 1 ≤ (table.jobs k).jid →
          Occupied (table.jobs k) := by
      intro k hPos
      by_contra hFree
      rw [hTable.freeJid k hFree] at hPos
      omega
    exact hJids.distinct i j (hOccupied i hJid)
      (hOccupied j (hEq ▸ hJid)) hEq

------------------------------------------------------------
-- What the Command Does
------------------------------------------------------------

theorem getjobjid_eq_some_iff
    {jid : Int}
    (hNames : DistinctNames jobs)
    (hJid : 1 ≤ jid) :
    getjobjid jobs jid = some i ↔ (jobs i).jid = jid := by
  rw [getjobjid, if_neg (by omega)]
  constructor
  · exact key_of_lookup_eq_some
  · intro hKey
    rcases exists_lookup_eq_some hKey with ⟨j, hLookup⟩
    have hKey' := key_of_lookup_eq_some hLookup
    rw [hLookup, hNames.jids j i (by omega) (by omega)]

@[simp] theorem act_selected (command : String) :
    (act jobs command i).selected = some i := by
  unfold act
  split_ifs <;> rfl

/- The command acts on a job in a state it applies to. -/
theorem act_applies
    (hApplies : verb.applies (jobs i).state = true) :
    (act jobs (commandName verb) i).jobs =
        setState jobs i verb.state ∧
      (act jobs (commandName verb) i).kills =
        [-(jobs i).pid] := by
  cases verb with
  | fg =>
      have hState :
          ((jobs i).state = .bg || (jobs i).state = .st) =
            true := hApplies
      simp only [act, commandName]
      rw [if_pos trivial, if_pos hState]
      exact ⟨rfl, rfl⟩
  | bg =>
      have hState :
          ((jobs i).state = .fg || (jobs i).state = .st) =
            true := hApplies
      simp only [act, commandName]
      rw [if_neg (by decide), if_pos trivial, if_pos hState]
      exact ⟨rfl, rfl⟩

theorem act_idle
    (hIdle : verb.applies (jobs i).state = false) :
    (act jobs (commandName verb) i).jobs = jobs ∧
      (act jobs (commandName verb) i).kills = [] := by
  cases verb with
  | fg =>
      have hState :
          ¬((jobs i).state = .bg || (jobs i).state = .st) =
            true := Bool.eq_false_iff.mp hIdle
      simp only [act, commandName]
      rw [if_pos trivial, if_neg hState]
      exact ⟨rfl, rfl⟩
  | bg =>
      have hState :
          ¬((jobs i).state = .fg || (jobs i).state = .st) =
            true := Bool.eq_false_iff.mp hIdle
      simp only [act, commandName]
      rw [if_neg (by decide), if_pos trivial, if_neg hState]
      exact ⟨rfl, rfl⟩

/- An argument whose number is no job's jid. -/
theorem doBgfg_none
    {argument : String}
    {behind : List Char}
    (hNames : DistinctNames jobs)
    (hNone :
      ∀ i, InRange (atoi (afterFirst argument behind)) →
        (jobs i).jid ≠ atoi (afterFirst argument behind)) :
    (doBgfg jobs (commandName verb) (some argument)
        behind).selected = none ∧
      (doBgfg jobs (commandName verb) (some argument)
        behind).jobs = jobs ∧
      (doBgfg jobs (commandName verb) (some argument)
        behind).kills = [] := by
  unfold doBgfg
  simp only
  split_ifs with hZero hBig
  · exact ⟨rfl, rfl, rfl⟩
  · exact ⟨rfl, rfl, rfl⟩
  · cases hFind :
        getjobjid jobs (atoi (afterFirst argument behind)) with
    | none => exact ⟨rfl, rfl, rfl⟩
    | some i =>
        exfalso
        by_cases hLow : atoi (afterFirst argument behind) < 1
        · rw [getjobjid, if_pos hLow] at hFind
          cases hFind
        · apply hNone i ⟨by omega, by omega⟩
          exact
            (getjobjid_eq_some_iff hNames (by omega)).mp hFind

/- An argument whose number is the jid of a job. -/
theorem doBgfg_some
    {argument : String}
    {behind : List Char}
    (hNames : DistinctNames jobs)
    (hRange : InRange (atoi (afterFirst argument behind)))
    (hJid :
      (jobs i).jid = atoi (afterFirst argument behind)) :
    doBgfg jobs (commandName verb) (some argument) behind =
      act jobs (commandName verb) i := by
  rcases hRange with ⟨hLow, hHigh⟩
  unfold doBgfg
  simp only
  rw [if_neg (by omega), if_neg (by omega),
    (getjobjid_eq_some_iff hNames hLow).mpr hJid]

------------------------------------------------------------
-- Numbers in Digits
------------------------------------------------------------

theorem int32_of_inRange
    {number : Int}
    (hRange : InRange number) :
    int32 number = number := by
  rcases hRange with ⟨hLow, hHigh⟩
  unfold int32
  apply Int.bmod_eq_of_le
  · omega
  · omega

/- A digit is neither a space nor a sign. -/
theorem isDigit_facts
    {c : Char}
    (hDigit : c.isDigit = true) :
    isSpace c = false ∧ c ≠ '-' ∧ c ≠ '+' := by
  have hNat : 48 ≤ c.toNat ∧ c.toNat ≤ 57 := by
    unfold Char.isDigit at hDigit
    simp only [Bool.and_eq_true, decide_eq_true_eq] at hDigit
    exact ⟨hDigit.1, hDigit.2⟩
  refine ⟨?_, ?_, ?_⟩
  · unfold isSpace
    have hSpace : c ≠ ' ' := by
      rintro rfl
      exact absurd hNat.1 (by decide)
    simp [hSpace]
    omega
  · rintro rfl
    exact absurd hNat.1 (by decide)
  · rintro rfl
    exact absurd hNat.1 (by decide)

/- atoi reads a number in digits back. -/
theorem atoi_of_allDigits
    {text : List Char}
    (hDigits : allDigits text = true)
    (hRange : InRange (digitsValue text)) :
    atoi text = digitsValue text := by
  cases text with
  | nil => cases hDigits
  | cons c rest =>
      have hFirst : c.isDigit = true := by
        simp only [allDigits, List.all_cons, Bool.and_eq_true]
          at hDigits
        exact hDigits.2.1
      have hFacts := isDigit_facts hFirst
      have hDrop :
          (c :: rest).dropWhile isSpace = c :: rest := by
        rw [List.dropWhile_cons, if_neg (by simp [hFacts.1])]
      have hBounds :
          max (-2 ^ 63) (min (digitsValue (c :: rest))
            (2 ^ 63 - 1)) = digitsValue (c :: rest) := by
        rcases hRange with ⟨hLow, hHigh⟩
        rw [min_eq_left (by omega), max_eq_right (by omega)]
      unfold atoi
      rw [hDrop]
      simp only
      split
      · rename_i hCons
        exact absurd (List.cons.inj hCons).1 hFacts.2.1
      · rename_i hCons
        exact absurd (List.cons.inj hCons).1 hFacts.2.2
      · rw [hBounds]
        exact int32_of_inRange hRange

/- `%N` names the jid that atoi finds after the `%`. -/
theorem atoi_of_reference_jid
    {argument : String}
    {behind : List Char}
    {number : Int}
    (hRef : reference argument.toList = .jid number)
    (hRange : InRange number) :
    atoi (afterFirst argument behind) = number := by
  unfold afterFirst
  unfold reference at hRef
  cases hText : argument.toList with
  | nil =>
      rw [hText] at hRef
      cases hRef
  | cons first rest =>
      rw [hText] at hRef
      simp only at hRef ⊢
      split_ifs at hRef with hJid hPid
      have hNumber := Reference.jid.inj hRef
      rw [← hNumber] at hRange ⊢
      exact
        atoi_of_allDigits (Bool.and_eq_true_iff.mp hJid).2
          hRange

------------------------------------------------------------
-- The Job That Is Named
------------------------------------------------------------

variable {argument : String} {behind : List Char}

theorem not_names_of_namesNone
    (hNone : ref.NamesNone jobs) :
    ¬ref.Names jobs i := by
  cases ref with
  | jid number => exact fun hNames => hNone.2 i hNames.2
  | pid number => exact fun hNames => hNone.2 i hNames.2
  | neither => exact id

/-
  When the number after the first character picks the job
  that is named, the command acts on it.
-/
theorem actsOnNamed_of_iff
    (hNames : DistinctNames jobs)
    (hSame :
      ∀ i, ref.Names jobs i ↔
        InRange (atoi (afterFirst argument behind)) ∧
          (jobs i).jid = atoi (afterFirst argument behind)) :
    ActsOnNamed jobs ref
      (doBgfg jobs (commandName verb) (some argument)
        behind) := by
  have hMissing :
      ref.NamesNone jobs →
        (doBgfg jobs (commandName verb) (some argument)
            behind).selected = none ∧
          (doBgfg jobs (commandName verb) (some argument)
            behind).jobs = jobs ∧
          (doBgfg jobs (commandName verb) (some argument)
            behind).kills = [] := by
    intro hNone
    apply doBgfg_none hNames
    intro i hRange hJid
    exact
      not_names_of_namesNone hNone
        ((hSame i).mpr ⟨hRange, hJid⟩)
  constructor
  · intro i hNamed
    have hFound := (hSame i).mp hNamed
    rw [doBgfg_some hNames hFound.1 hFound.2, act_selected]
  · exact fun hNone _ => (hMissing hNone).1
  · exact fun hNone => (hMissing hNone).2
  · intro i hNamed
    have hFound := (hSame i).mp hNamed
    rw [doBgfg_some hNames hFound.1 hFound.2]
    cases hApplies : verb.applies (jobs i).state with
    | true =>
        rw [(act_applies hApplies).1, (act_applies hApplies).2]
        refine ⟨?_, ?_⟩
        · intro j hNe
          exact Function.update_of_ne hNe _ _
        · intro target hTarget
          exact List.mem_singleton.mp hTarget
    | false =>
        rw [(act_idle hApplies).1, (act_idle hApplies).2]
        exact
          ⟨fun _ _ => rfl, fun target hTarget => by
            cases hTarget⟩

/- A number out of range promises nothing. -/
theorem actsOnNamed_of_outOfRange
    {outcome : Outcome}
    (hNames : ∀ i, ¬ref.Names jobs i)
    (hNone : ¬ref.NamesNone jobs) :
    ActsOnNamed jobs ref outcome where
  selects := fun i hNamed => absurd hNamed (hNames i)
  selectsNone := fun hNamed => absurd hNamed hNone
  unchanged := fun hNamed => absurd hNamed hNone
  others := fun i hNamed => absurd hNamed (hNames i)

/- A pid in range is served when the job found has it. -/
theorem actsOnNamed_pid_iff
    {pid : Int}
    (hNames : DistinctNames jobs)
    (hRange : InRange pid) :
    ActsOnNamed jobs (.pid pid)
        (doBgfg jobs (commandName verb) (some argument)
          behind) ↔
      ∀ i,
        (InRange (atoi (afterFirst argument behind)) ∧
          (jobs i).jid = atoi (afterFirst argument behind)) ↔
        (jobs i).pid = pid := by
  constructor
  · intro hActs i
    constructor
    · rintro ⟨hNumber, hJid⟩
      have hSelected :
          (doBgfg jobs (commandName verb) (some argument)
            behind).selected = some i := by
        rw [doBgfg_some hNames hNumber hJid, act_selected]
      by_cases hJob : ∃ k, (jobs k).pid = pid
      · rcases hJob with ⟨k, hPid⟩
        have hNamed := hActs.selects k ⟨hRange, hPid⟩
        have hEq := Option.some.inj (hSelected.symm.trans hNamed)
        rwa [hEq]
      · have hNone := hActs.selectsNone
          ⟨hRange, fun k hPid => hJob ⟨k, hPid⟩⟩
          (by simp)
        rw [hSelected] at hNone
        cases hNone
    · intro hPid
      have hNamed := hActs.selects i ⟨hRange, hPid⟩
      by_cases hFound :
          ∃ k, InRange (atoi (afterFirst argument behind)) ∧
            (jobs k).jid = atoi (afterFirst argument behind)
      · rcases hFound with ⟨k, hNumber, hJid⟩
        rw [doBgfg_some hNames hNumber hJid, act_selected]
          at hNamed
        have hEq := Option.some.inj hNamed
        exact ⟨hNumber, hEq ▸ hJid⟩
      · have hNone := @doBgfg_none jobs verb argument behind
          hNames (fun k hNumber hJid =>
            hFound ⟨k, hNumber, hJid⟩)
        rw [hNone.1] at hNamed
        cases hNamed
  · intro hSame
    apply actsOnNamed_of_iff hNames
    intro i
    rw [hSame i]
    exact and_iff_right hRange

/- Without a number nothing must be done to the job found. -/
theorem actsOnNamed_neither_iff
    (hNames : DistinctNames jobs) :
    ActsOnNamed jobs .neither
        (doBgfg jobs (commandName verb) (some argument)
          behind) ↔
      (InRange (atoi (afterFirst argument behind)) →
        ∀ i,
          (jobs i).jid = atoi (afterFirst argument behind) →
            verb.applies (jobs i).state = false) := by
  constructor
  · intro hActs hRange i hJid
    have hKills := (hActs.unchanged trivial).2
    rw [doBgfg_some hNames hRange hJid] at hKills
    cases hApplies : verb.applies (jobs i).state with
    | false => rfl
    | true =>
        rw [(act_applies hApplies).2] at hKills
        cases hKills
  · intro hIdle
    refine
      ⟨fun i hNamed => hNamed.elim,
        fun _ hNe => absurd rfl hNe, fun _ => ?_,
        fun i hNamed => hNamed.elim⟩
    by_cases hFound :
        ∃ k, InRange (atoi (afterFirst argument behind)) ∧
          (jobs k).jid = atoi (afterFirst argument behind)
    · rcases hFound with ⟨k, hNumber, hJid⟩
      rw [doBgfg_some hNames hNumber hJid]
      exact act_idle (hIdle hNumber k hJid)
    · exact (doBgfg_none hNames fun k hNumber hJid =>
        hFound ⟨k, hNumber, hJid⟩).2

/-
  fg and bg act on the job that was named exactly when the
  number after the first character leads to it.
-/
theorem doBgfg_actsOnNamed_iff
    (jobs : Fin maxJobs → Job)
    (hNames : DistinctNames jobs)
    (verb : Verb)
    (argument : Option String)
    (behind : List Char) :
    ActsOnNamed jobs (argumentReference argument)
        (doBgfg jobs (commandName verb) argument behind) ↔
      ∀ text, argument = some text →
        FindsNamed jobs verb (reference text.toList)
          (atoi (afterFirst text behind)) := by
  cases argument with
  | none =>
      refine iff_of_true ?_ (fun text hText => by cases hText)
      exact
        ⟨fun i hNamed => hNamed.elim,
          fun _ hNe => absurd rfl hNe,
          fun _ => ⟨rfl, rfl⟩,
          fun i hNamed => hNamed.elim⟩
  | some text =>
      have hOne :
          (∀ text', some text = some text' →
            FindsNamed jobs verb (reference text'.toList)
              (atoi (afterFirst text' behind))) ↔
            FindsNamed jobs verb (reference text.toList)
              (atoi (afterFirst text behind)) := by
        constructor
        · exact fun hAll => hAll text rfl
        · intro hText text' hEq
          cases hEq
          exact hText
      rw [hOne]
      unfold argumentReference
      simp only
      cases hRef : reference text.toList with
      | jid number =>
          refine iff_of_true ?_ trivial
          by_cases hRange : InRange number
          · have hAtoi :=
              @atoi_of_reference_jid text behind number hRef
                hRange
            apply actsOnNamed_of_iff hNames
            intro i
            rw [hAtoi]
            exact Iff.rfl
          · exact actsOnNamed_of_outOfRange
              (fun i hNamed => hRange hNamed.1)
              (fun hNone => hRange hNone.1)
      | pid number =>
          by_cases hRange : InRange number
          · rw [actsOnNamed_pid_iff hNames hRange]
            exact
              ⟨fun hSame _ => hSame, fun hFinds => hFinds hRange⟩
          · refine iff_of_true ?_
              (fun hIn => absurd hIn hRange)
            exact actsOnNamed_of_outOfRange
              (fun i hNamed => hRange hNamed.1)
              (fun hNone => hRange hNone.1)
      | neither => exact actsOnNamed_neither_iff hNames

------------------------------------------------------------
-- The Statements of the Machine
------------------------------------------------------------

/- Statements of the main flow with nothing in between. -/
def Statements : Tsh → Tsh → Prop :=
  Relation.ReflTransGen fun s t => statement s = some t

/- One statement whose next state is known. -/
theorem Statements.one
    {s t : Tsh}
    (hStatement : statement s = some t) :
    Statements s t :=
  Relation.ReflTransGen.single hStatement

/- The loop of getjobjid from a slot on. -/
theorem statements_getjobjid
    (s : Tsh)
    (jid : Int)
    (left : Nat) :
    ∀ slot, slot + left = maxJobs →
      (∀ k : Fin maxJobs, k.val < slot →
        (s.table.jobs k).jid ≠ jid) →
      (∀ i, lookup Job.jid s.table.jobs jid = some i →
        Statements { s with pc := .getjobjid verb jid slot }
          { s with pc := .readPid verb i }) ∧
      (lookup Job.jid s.table.jobs jid = none →
        Statements { s with pc := .getjobjid verb jid slot }
          { s with pc := .prompt }) := by
  induction left with
  | zero =>
      intro slot hEnd hBefore
      constructor
      · intro i hLookup
        exact absurd (key_of_lookup_eq_some hLookup)
          (hBefore i (by omega))
      · intro _
        apply Statements.one
        simp only [statement]
        rw [dif_neg (by omega)]
  | succ left ih =>
      intro slot hEnd hBefore
      have hLt : slot < maxJobs := by omega
      by_cases hHere : (s.table.jobs ⟨slot, hLt⟩).jid = jid
      · constructor
        · intro i hLookup
          -- The first slot with the jid is this one.
          have hFirst := find_eq_some_iff.mp hLookup
          have hEq : i = ⟨slot, hLt⟩ := by
            rcases lt_trichotomy i ⟨slot, hLt⟩ with
              hLess | hEq | hMore
            · exact absurd (key_of_lookup_eq_some hLookup)
                (hBefore i hLess)
            · exact hEq
            · have hNot := hFirst.2 _ hMore
              exact absurd hHere (decide_eq_false_iff_not.mp hNot)
          apply Statements.one
          simp only [statement]
          rw [dif_pos hLt, if_pos hHere, hEq]
        · intro hLookup
          exact absurd hHere (lookup_eq_none_iff.mp hLookup _)
      · have hNext :
            Statements { s with pc := .getjobjid verb jid slot }
              { s with
                pc := .getjobjid verb jid (slot + 1) } := by
          apply Statements.one
          simp only [statement]
          rw [dif_pos hLt, if_neg hHere]
        have hRest := ih (slot + 1) (by omega) (by
          intro k hK
          by_cases hEq : k.val = slot
          · have hSlot : k = ⟨slot, hLt⟩ := Fin.ext hEq
            rwa [hSlot]
          · exact hBefore k (by omega))
        exact
          ⟨fun i hLookup => hNext.trans (hRest.1 i hLookup),
            fun hLookup => hNext.trans (hRest.2 hLookup)⟩

/-
  The statements of the machine lead from the start of
  do_bgfg to the table and the signal of the whole command.
-/
theorem statements_doBgfg
    (s : Tsh)
    (hPc :
      s.pc =
        Shell.doBgfg verb (some argument)
          (atoi (afterFirst argument behind))) :
    ∃ t, Statements s t ∧
      t.table.jobs =
        (doBgfg s.table.jobs (commandName verb)
          (some argument) behind).jobs ∧
      ((t.pc = .prompt ∧
          (doBgfg s.table.jobs (commandName verb)
            (some argument) behind).kills = []) ∨
        ∃ pid, t.pc = .kill verb pid ∧
          (doBgfg s.table.jobs (commandName verb)
            (some argument) behind).kills = [-pid]) := by
  unfold doBgfg
  unfold Shell.doBgfg at hPc
  simp only at hPc ⊢
  split_ifs at hPc ⊢ with hZero hBig hLow
  · exact ⟨s, .refl, rfl, Or.inl ⟨hPc, rfl⟩⟩
  · exact ⟨s, .refl, rfl, Or.inl ⟨hPc, rfl⟩⟩
  · rw [getjobjid, if_pos hLow]
    exact ⟨s, .refl, rfl, Or.inl ⟨hPc, rfl⟩⟩
  · have hLoop :=
      @statements_getjobjid verb s
        (atoi (afterFirst argument behind)) maxJobs 0 rfl
        (fun k hK => absurd hK (Nat.not_lt_zero _))
    have hStart :
        { s with
          pc := .getjobjid verb
            (atoi (afterFirst argument behind)) 0 } = s := by
      rw [← hPc]
    rw [hStart] at hLoop
    rw [getjobjid, if_neg hLow]
    cases hLookup :
        lookup Job.jid s.table.jobs
          (atoi (afterFirst argument behind)) with
    | none =>
        exact
          ⟨_, hLoop.2 hLookup, rfl, Or.inl ⟨rfl, rfl⟩⟩
    | some i =>
        have hTest := (hLoop.1 i hLookup).trans
          (Statements.one (t := { s with
            pc := .testState verb i (s.table.jobs i).pid }) rfl)
        cases hApplies :
            verb.applies (s.table.jobs i).state with
        | false =>
            refine
              ⟨_, hTest.trans (Statements.one
                (t := { s with pc := .prompt }) ?_), ?_, ?_⟩
            · simp only [statement]
              rw [if_neg (by rw [hApplies]; decide)]
            · exact (act_idle hApplies).1.symm
            · exact Or.inl ⟨rfl, (act_idle hApplies).2⟩
        | true =>
            have hAssign := hTest.trans (Statements.one
              (t := { s with
                pc := .assign verb i (s.table.jobs i).pid }) (by
                  simp only [statement]
                  rw [if_pos hApplies]))
            refine
              ⟨_, hAssign.trans (Statements.one rfl), ?_, ?_⟩
            · exact (act_applies hApplies).1.symm
            · exact Or.inr ⟨_, rfl, (act_applies hApplies).2⟩

------------------------------------------------------------
-- Two Jobs
------------------------------------------------------------

/- Jobs 1 and 2, both stopped, with pids 12 and 13. -/
def twoJobs : Fin maxJobs → Job := fun i =>
  if i = 0 then ⟨12, 1, .st, "./myspin 4 &\n"⟩
  else if i = 1 then ⟨13, 2, .st, "./myspin 5 &\n"⟩
  else clearjob

theorem distinctNames_twoJobs : DistinctNames twoJobs where
  pids := by decide
  jids := by decide

/- `bg %2` acts on job 2. -/
theorem doBgfg_actsOnNamed_iff_twoJobs :
    ActsOnNamed twoJobs (.jid 2)
      (doBgfg twoJobs "bg" (some "%2") []) := by
  apply
    (doBgfg_actsOnNamed_iff twoJobs distinctNames_twoJobs .bg
      (some "%2") []).mpr
  intro text hText
  cases hText
  trivial

/- `bg 12` names the process of job 1 and continues job 2. -/
theorem bg_pid_acts_on_other_job :
    reference "12".toList = .pid 12 ∧
      ¬ActsOnNamed twoJobs (.pid 12)
        (doBgfg twoJobs "bg" (some "12") []) ∧
      (doBgfg twoJobs "bg" (some "12") []).kills = [-13] := by
  refine ⟨by decide, ?_, by decide⟩
  intro hActs
  have hSelects := hActs.selects 0 ⟨by decide, by decide⟩
  exact absurd hSelects (by decide)

end Bgfg

end Shell

end CsappLabs
