import CsappLabs.Lib.Tokens
import CsappLabs.Lib.Transition

/-
  The bounded buffer that hands connections from the accept
  loop of the proxy to its worker threads (sbuf.c, and thread
  and main of proxy.c), one P, V or buffer step at a time.

  The counters front and rear are unbounded here.

  A run is the sequence of its events: the descriptors that
  accept returns, that are put into the buffer, taken out of
  it, and served.

  Key definitions include:
    * `Sbuf`
    * `SbufEvent`
    * `Step`
    * `Accounted`
    * `InHand`

  Key theorems include:
    * `Accounted.step`
    * `InHand.step`
    * `connections_handed_off_in_order`
-/

namespace CsappLabs

namespace Proxy

open Tokens Transition

------------------------------------------------------------
-- The Buffer and its Threads
------------------------------------------------------------

/- sbuf_t, with the value of each semaphore. -/
structure Sbuf where
  buf : Nat → Int
  n : Nat
  front : Nat
  rear : Nat
  mutex : Nat
  slots : Nat
  items : Nat

def sbufInit (n : Nat) : Sbuf where
  buf := fun _ => 0
  n := n
  front := 0
  rear := 0
  mutex := 1
  slots := n
  items := 0

/- The next step of a thread in the accept loop of main. -/
inductive Producer where
| accept
-- sbuf_insert
| waitSlots (item : Int)
| waitMutex (item : Int)
| bumpRear (item : Int)
| store (item : Int)
| postMutex
| postItems
deriving DecidableEq, Repr

/- The next step of a worker thread. -/
inductive Worker where
-- sbuf_remove
| waitItems
| waitMutex
| bumpFront
| fetch
| postMutex (item : Int)
| postSlots (item : Int)
-- from_client_to_server and Close
| serve (connfd : Int)
deriving DecidableEq, Repr

/- The buffer, and where each thread is. -/
structure System (π κ : Type) where
  sbuf : Sbuf
  producer : π → Producer
  worker : κ → Worker

/- What one step does with a descriptor, if anything. -/
inductive SbufEvent (π κ : Type) where
| accept (p : π) (connfd : Int)
| put (p : π) (item : Int)
| take (w : κ) (item : Int)
| serve (w : κ) (connfd : Int)
| other (thread : π ⊕ κ)

variable {π κ : Type}

def systemStart (n : Nat) : System π κ where
  sbuf := sbufInit n
  producer := fun _ => .accept
  worker := fun _ => .waitItems

variable [DecidableEq π] [DecidableEq κ]

def System.moveProducer
    (s : System π κ)
    (p : π)
    (next : Producer) :
    System π κ :=
  { s with producer := Function.update s.producer p next }

def System.moveWorker
    (s : System π κ)
    (w : κ)
    (next : Worker) :
    System π κ :=
  { s with worker := Function.update s.worker w next }

/- One step of one thread; a P waits for a positive value. -/
inductive Step : System π κ → SbufEvent π κ → System π κ → Prop
| accept {s : System π κ} {p : π} {connfd : Int} :
    s.producer p = .accept →
    Step s (.accept p connfd)
      (s.moveProducer p (.waitSlots connfd))
| waitSlots {s : System π κ} {p : π} {item : Int} :
    s.producer p = .waitSlots item →
    0 < s.sbuf.slots →
    Step s (.other (.inl p))
      { s.moveProducer p (.waitMutex item) with
        sbuf := { s.sbuf with slots := s.sbuf.slots - 1 } }
| insertMutex {s : System π κ} {p : π} {item : Int} :
    s.producer p = .waitMutex item →
    0 < s.sbuf.mutex →
    Step s (.other (.inl p))
      { s.moveProducer p (.bumpRear item) with
        sbuf := { s.sbuf with mutex := s.sbuf.mutex - 1 } }
| bumpRear {s : System π κ} {p : π} {item : Int} :
    s.producer p = .bumpRear item →
    Step s (.other (.inl p))
      { s.moveProducer p (.store item) with
        sbuf := { s.sbuf with rear := s.sbuf.rear + 1 } }
| store {s : System π κ} {p : π} {item : Int} :
    s.producer p = .store item →
    Step s (.put p item)
      { s.moveProducer p .postMutex with
        sbuf := { s.sbuf with
          buf := Function.update s.sbuf.buf
            (s.sbuf.rear % s.sbuf.n) item } }
| insertUnlock {s : System π κ} {p : π} :
    s.producer p = .postMutex →
    Step s (.other (.inl p))
      { s.moveProducer p .postItems with
        sbuf := { s.sbuf with mutex := s.sbuf.mutex + 1 } }
| postItems {s : System π κ} {p : π} :
    s.producer p = .postItems →
    Step s (.other (.inl p))
      { s.moveProducer p .accept with
        sbuf := { s.sbuf with items := s.sbuf.items + 1 } }
| waitItems {s : System π κ} {w : κ} :
    s.worker w = .waitItems →
    0 < s.sbuf.items →
    Step s (.other (.inr w))
      { s.moveWorker w .waitMutex with
        sbuf := { s.sbuf with items := s.sbuf.items - 1 } }
| removeMutex {s : System π κ} {w : κ} :
    s.worker w = .waitMutex →
    0 < s.sbuf.mutex →
    Step s (.other (.inr w))
      { s.moveWorker w .bumpFront with
        sbuf := { s.sbuf with mutex := s.sbuf.mutex - 1 } }
| bumpFront {s : System π κ} {w : κ} :
    s.worker w = .bumpFront →
    Step s (.other (.inr w))
      { s.moveWorker w .fetch with
        sbuf := { s.sbuf with front := s.sbuf.front + 1 } }
| fetch {s : System π κ} {w : κ} {item : Int} :
    s.worker w = .fetch →
    item = s.sbuf.buf (s.sbuf.front % s.sbuf.n) →
    Step s (.take w item)
      (s.moveWorker w (.postMutex item))
| removeUnlock {s : System π κ} {w : κ} {item : Int} :
    s.worker w = .postMutex item →
    Step s (.other (.inr w))
      { s.moveWorker w (.postSlots item) with
        sbuf := { s.sbuf with mutex := s.sbuf.mutex + 1 } }
| postSlots {s : System π κ} {w : κ} {item : Int} :
    s.worker w = .postSlots item →
    Step s (.other (.inr w))
      { s.moveWorker w (.serve item) with
        sbuf := { s.sbuf with slots := s.sbuf.slots + 1 } }
| serve {s : System π κ} {w : κ} {connfd : Int} :
    s.worker w = .serve connfd →
    Step s (.serve w connfd) (s.moveWorker w .waitItems)

------------------------------------------------------------
-- Events
------------------------------------------------------------

section Events

omit [DecidableEq π] [DecidableEq κ]

def SbufEvent.accept? : SbufEvent π κ → Option (π × Int)
| .accept p connfd => some (p, connfd)
| _ => none

def SbufEvent.put? : SbufEvent π κ → Option (π × Int)
| .put p item => some (p, item)
| _ => none

def SbufEvent.take? : SbufEvent π κ → Option (κ × Int)
| .take w item => some (w, item)
| _ => none

def SbufEvent.serve? : SbufEvent π κ → Option (κ × Int)
| .serve w connfd => some (w, connfd)
| _ => none

/- The descriptors put into the buffer, in order. -/
def put (events : List (SbufEvent π κ)) : List Int :=
  (events.filterMap SbufEvent.put?).map Prod.snd

/- The descriptors taken out of the buffer, in order. -/
def taken (events : List (SbufEvent π κ)) : List Int :=
  (events.filterMap SbufEvent.take?).map Prod.snd

/- The part of one thread, where each entry names its thread. -/
def ofThread
    {ι : Type}
    [DecidableEq ι]
    (thread : ι)
    (entries : List (ι × Int)) :
    List Int :=
  (entries.filter (fun entry => entry.1 = thread)).map Prod.snd

section Threads

variable {ι : Type} [DecidableEq ι]
variable {thread other : ι} {entries : List (ι × Int)}

theorem ofThread_append
    (earlier later : List (ι × Int)) :
    ofThread thread (earlier ++ later) =
      ofThread thread earlier ++ ofThread thread later := by
  rw [ofThread, List.filter_append, List.map_append]
  rfl

theorem ofThread_of_all
    (hAll : ∀ entry ∈ entries, entry.1 = thread) :
    ofThread thread entries = entries.map Prod.snd := by
  rw [ofThread, List.filter_eq_self.mpr]
  intro entry hEntry
  exact decide_eq_true (hAll entry hEntry)

theorem ofThread_of_all_other
    (hAll : ∀ entry ∈ entries, entry.1 = thread)
    (hOther : other ≠ thread) :
    ofThread other entries = [] := by
  rw [ofThread, List.filter_eq_nil_iff.mpr]
  · rfl
  · intro entry hEntry
    simpa [hAll entry hEntry] using hOther.symm

end Threads

/- The thread that makes a step. -/
def SbufEvent.thread : SbufEvent π κ → π ⊕ κ
| .accept p _ => .inl p
| .put p _ => .inl p
| .take w _ => .inr w
| .serve w _ => .inr w
| .other thread => thread

section Thread

variable {event : SbufEvent π κ} {p : π} {w : κ}

theorem SbufEvent.accept?_thread
    (hThread : event.thread = .inl p) :
    ∀ entry ∈ event.accept?.toList, entry.1 = p := by
  cases event <;> simp_all [SbufEvent.accept?, SbufEvent.thread]

theorem SbufEvent.put?_thread
    (hThread : event.thread = .inl p) :
    ∀ entry ∈ event.put?.toList, entry.1 = p := by
  cases event <;> simp_all [SbufEvent.put?, SbufEvent.thread]

theorem SbufEvent.take?_thread
    (hThread : event.thread = .inr w) :
    ∀ entry ∈ event.take?.toList, entry.1 = w := by
  cases event <;> simp_all [SbufEvent.take?, SbufEvent.thread]

theorem SbufEvent.serve?_thread
    (hThread : event.thread = .inr w) :
    ∀ entry ∈ event.serve?.toList, entry.1 = w := by
  cases event <;> simp_all [SbufEvent.serve?, SbufEvent.thread]

theorem SbufEvent.accept?_of_worker
    (hThread : event.thread = .inr w) :
    event.accept? = none := by
  cases event <;> simp_all [SbufEvent.accept?, SbufEvent.thread]

theorem SbufEvent.put?_of_worker
    (hThread : event.thread = .inr w) :
    event.put? = none := by
  cases event <;> simp_all [SbufEvent.put?, SbufEvent.thread]

theorem SbufEvent.take?_of_producer
    (hThread : event.thread = .inl p) :
    event.take? = none := by
  cases event <;> simp_all [SbufEvent.take?, SbufEvent.thread]

theorem SbufEvent.serve?_of_producer
    (hThread : event.thread = .inl p) :
    event.serve? = none := by
  cases event <;> simp_all [SbufEvent.serve?, SbufEvent.thread]

end Thread

theorem filterMap_snoc
    {α : Type}
    (kind : SbufEvent π κ → Option α)
    (events : List (SbufEvent π κ))
    (event : SbufEvent π κ) :
    (events ++ [event]).filterMap kind =
      events.filterMap kind ++ (kind event).toList := by
  rw [List.filterMap_append]
  cases hKind : kind event with
  | none => rw [List.filterMap_cons_none hKind]; rfl
  | some entry => rw [List.filterMap_cons_some hKind]; rfl

/- The descriptor that an accept loop is about to put in. -/
def Producer.held : Producer → List Int
| .waitSlots item => [item]
| .waitMutex item => [item]
| .bumpRear item => [item]
| .store item => [item]
| _ => []

/- The descriptor that a worker has taken out to serve. -/
def Worker.held : Worker → List Int
| .postMutex item => [item]
| .postSlots item => [item]
| .serve connfd => [connfd]
| _ => []

/-
  Every descriptor accepted is put in or in the hand of its
  accept loop; every one taken out is served or in the hand of
  its worker.
-/
structure InHand
    [DecidableEq π]
    [DecidableEq κ]
    (events : List (SbufEvent π κ))
    (s : System π κ) : Prop where
  producers :
    ∀ p, ofThread p (events.filterMap SbufEvent.accept?) =
      ofThread p (events.filterMap SbufEvent.put?) ++
        (s.producer p).held
  workers :
    ∀ w, ofThread w (events.filterMap SbufEvent.take?) =
      ofThread w (events.filterMap SbufEvent.serve?) ++
        (s.worker w).held

end Events

------------------------------------------------------------
-- Tokens
------------------------------------------------------------

/- A slot taken from slots for an item not yet put in. -/
def Producer.slot : Producer → Nat
| .waitMutex _ => 1
| .bumpRear _ => 1
| .store _ => 1
| _ => 0

/- An item put in and not yet announced on items. -/
def Producer.unannounced : Producer → Nat
| .postMutex => 1
| .postItems => 1
| _ => 0

def Producer.locks : Producer → Nat
| .bumpRear _ => 1
| .store _ => 1
| .postMutex => 1
| _ => 0

/- rear is one ahead of the items put in. -/
def Producer.bumped : Producer → Nat
| .store _ => 1
| _ => 0

/- An item taken from items and not yet taken out. -/
def Worker.claim : Worker → Nat
| .waitMutex => 1
| .bumpFront => 1
| .fetch => 1
| _ => 0

/- A slot emptied and not yet announced on slots. -/
def Worker.emptied : Worker → Nat
| .postMutex _ => 1
| .postSlots _ => 1
| _ => 0

def Worker.locks : Worker → Nat
| .bumpFront => 1
| .fetch => 1
| .postMutex _ => 1
| _ => 0

/- front is one ahead of the items taken out. -/
def Worker.bumped : Worker → Nat
| .fetch => 1
| _ => 0

variable [Fintype π] [Fintype κ]

/-
  Every token of the three semaphores is accounted for: it is
  in the semaphore, held by a thread, or stands for a stored
  item. The counters follow the items put in and taken out,
  and the items in between are in the buffer.
-/
structure Accounted
    (n : Nat)
    (put taken : List Int)
    (s : System π κ) : Prop where
  capacity : s.sbuf.n = n
  mutex :
    s.sbuf.mutex + total Producer.locks s.producer +
      total Worker.locks s.worker = 1
  slots :
    s.sbuf.slots + total Producer.slot s.producer +
        put.length + total Worker.emptied s.worker =
      n + taken.length
  items :
    s.sbuf.items + total Worker.claim s.worker +
        total Producer.unannounced s.producer +
        taken.length =
      put.length
  rear :
    s.sbuf.rear =
      put.length + total Producer.bumped s.producer
  front :
    s.sbuf.front =
      taken.length + total Worker.bumped s.worker
  stored :
    ∀ k item, taken.length ≤ k → put[k]? = some item →
      s.sbuf.buf ((k + 1) % n) = item
  inOrder : taken <+: put

omit [DecidableEq π] [DecidableEq κ] in
theorem accounted_systemStart (n : Nat) :
    Accounted n [] [] (systemStart n : System π κ) := by
  have hProducer : ∀ held : Producer → Nat,
      held .accept = 0 →
      total held (systemStart n : System π κ).producer = 0 :=
    fun _ hNone => total_const hNone
  have hWorker : ∀ held : Worker → Nat,
      held .waitItems = 0 →
      total held (systemStart n : System π κ).worker = 0 :=
    fun _ hNone => total_const hNone
  refine
    { capacity := rfl
      mutex := ?_
      slots := ?_
      items := ?_
      rear := ?_
      front := ?_
      stored := ?_
      inOrder := List.nil_prefix }
  · rw [hProducer _ rfl, hWorker _ rfl]
    rfl
  · rw [hProducer _ rfl, hWorker _ rfl]
    rfl
  · rw [hProducer _ rfl, hWorker _ rfl]
    rfl
  · rw [hProducer _ rfl]
    rfl
  · rw [hWorker _ rfl]
    rfl
  · intro k item _ hItem
    cases hItem

------------------------------------------------------------
-- Steps
------------------------------------------------------------

section Steps

variable {n : Nat} {put taken : List Int}
variable {s t : System π κ} {p : π} {w : κ}

omit [DecidableEq κ] [Fintype κ] in
/- How the tokens of the producers follow one of them. -/
theorem producer_tokens
    (s : System π κ)
    {now : Producer}
    (hNow : s.producer p = now)
    (next : Producer)
    (held : Producer → Nat) :
    total held (s.moveProducer p next).producer + held now =
      total held s.producer + held next := by
  rw [← hNow]
  exact total_update held s.producer p next

omit [DecidableEq π] [Fintype π] in
theorem worker_tokens
    (s : System π κ)
    {now : Worker}
    (hNow : s.worker w = now)
    (next : Worker)
    (held : Worker → Nat) :
    total held (s.moveWorker w next).worker + held now =
      total held s.worker + held next := by
  rw [← hNow]
  exact total_update held s.worker w next

omit [DecidableEq κ] in
/- A step of a producer that leaves buffer and logs alone. -/
theorem Accounted.producer
    (hAccounted : Accounted n put taken s)
    {now next : Producer}
    (hNow : s.producer p = now)
    {sbuf : Sbuf}
    (hBuf : sbuf.buf = s.sbuf.buf)
    (hCapacity : sbuf.n = s.sbuf.n)
    (hFront : sbuf.front = s.sbuf.front)
    (hMutex :
      sbuf.mutex + next.locks = s.sbuf.mutex + now.locks)
    (hSlots : sbuf.slots + next.slot = s.sbuf.slots + now.slot)
    (hItems :
      sbuf.items + next.unannounced =
        s.sbuf.items + now.unannounced)
    (hRear :
      sbuf.rear + now.bumped = s.sbuf.rear + next.bumped) :
    Accounted n put taken
      { s.moveProducer p next with sbuf := sbuf } where
  capacity := hCapacity.trans hAccounted.capacity
  mutex := by
    have hTokens := producer_tokens s hNow next Producer.locks
    have hBefore := hAccounted.mutex
    simp only [System.moveProducer] at hTokens ⊢
    omega
  slots := by
    have hTokens := producer_tokens s hNow next Producer.slot
    have hBefore := hAccounted.slots
    simp only [System.moveProducer] at hTokens ⊢
    omega
  items := by
    have hTokens :=
      producer_tokens s hNow next Producer.unannounced
    have hBefore := hAccounted.items
    simp only [System.moveProducer] at hTokens ⊢
    omega
  rear := by
    have hTokens := producer_tokens s hNow next Producer.bumped
    have hBefore := hAccounted.rear
    simp only [System.moveProducer] at hTokens ⊢
    omega
  front := hFront.trans hAccounted.front
  stored := by
    rw [hBuf]
    exact hAccounted.stored
  inOrder := hAccounted.inOrder

omit [DecidableEq π] in
/- A step of a worker that leaves buffer and logs alone. -/
theorem Accounted.worker
    (hAccounted : Accounted n put taken s)
    {now next : Worker}
    (hNow : s.worker w = now)
    {sbuf : Sbuf}
    (hBuf : sbuf.buf = s.sbuf.buf)
    (hCapacity : sbuf.n = s.sbuf.n)
    (hRear : sbuf.rear = s.sbuf.rear)
    (hMutex :
      sbuf.mutex + next.locks = s.sbuf.mutex + now.locks)
    (hSlots :
      sbuf.slots + next.emptied = s.sbuf.slots + now.emptied)
    (hItems :
      sbuf.items + next.claim = s.sbuf.items + now.claim)
    (hFront :
      sbuf.front + now.bumped = s.sbuf.front + next.bumped) :
    Accounted n put taken
      { s.moveWorker w next with sbuf := sbuf } where
  capacity := hCapacity.trans hAccounted.capacity
  mutex := by
    have hTokens := worker_tokens s hNow next Worker.locks
    have hBefore := hAccounted.mutex
    simp only [System.moveWorker] at hTokens ⊢
    omega
  slots := by
    have hTokens := worker_tokens s hNow next Worker.emptied
    have hBefore := hAccounted.slots
    simp only [System.moveWorker] at hTokens ⊢
    omega
  items := by
    have hTokens := worker_tokens s hNow next Worker.claim
    have hBefore := hAccounted.items
    simp only [System.moveWorker] at hTokens ⊢
    omega
  rear := hRear.trans hAccounted.rear
  front := by
    have hTokens := worker_tokens s hNow next Worker.bumped
    have hBefore := hAccounted.front
    simp only [System.moveWorker] at hTokens ⊢
    omega
  stored := by
    rw [hBuf]
    exact hAccounted.stored
  inOrder := hAccounted.inOrder

/- Two counts less than n apart go to different slots. -/
theorem mod_ne_of_lt_add
    {low high : Nat}
    (hLess : low < high)
    (hNear : high < low + n) :
    low % n ≠ high % n := by
  intro hSame
  have hZero := Nat.sub_mod_eq_zero_of_mod_eq hSame.symm
  rw [Nat.mod_eq_of_lt (by omega)] at hZero
  omega

theorem Producer.bumped_le_locks (point : Producer) :
    point.bumped ≤ point.locks := by
  cases point with
  | store item => exact Nat.le_refl 1
  | _ => exact Nat.zero_le _

theorem Worker.bumped_le_locks (point : Worker) :
    point.bumped ≤ point.locks := by
  cases point with
  | fetch => exact Nat.le_refl 1
  | _ => exact Nat.zero_le _

omit [DecidableEq κ] in
/-
  A producer that stores holds a slot token, so fewer than n
  items are in the buffer and none of them is overwritten.
-/
theorem Accounted.store
    (hAccounted : Accounted n put taken s)
    {item : Int}
    (hNow : s.producer p = .store item) :
    Accounted n (put ++ [item]) taken
      { s.moveProducer p .postMutex with
        sbuf := { s.sbuf with
          buf := Function.update s.sbuf.buf
            (s.sbuf.rear % s.sbuf.n) item } } := by
  have hSlot := le_total Producer.slot s.producer p
  have hBumpedHere := le_total Producer.bumped s.producer p
  have hBumpedAll :=
    total_mono Producer.bumped_le_locks s.producer
  have hLocks := producer_tokens s hNow .postMutex
    Producer.locks
  have hSlots := producer_tokens s hNow .postMutex
    Producer.slot
  have hUnannounced := producer_tokens s hNow .postMutex
    Producer.unannounced
  have hBumped := producer_tokens s hNow .postMutex
    Producer.bumped
  have hMutexBefore := hAccounted.mutex
  have hSlotsBefore := hAccounted.slots
  have hItemsBefore := hAccounted.items
  have hRearBefore := hAccounted.rear
  rw [hNow] at hSlot hBumpedHere
  simp only [System.moveProducer, Producer.slot, Producer.locks,
    Producer.bumped, Producer.unannounced] at *
  have hLength : (put ++ [item]).length = put.length + 1 :=
    List.length_append
  refine
    { capacity := hAccounted.capacity
      mutex := by simp only; omega
      slots := by simp only; omega
      items := by simp only; omega
      rear := by simp only; omega
      front := hAccounted.front
      stored := ?_
      inOrder := hAccounted.inOrder.trans
        (List.prefix_append put [item]) }
  intro k old hTaken hOld
  simp only [hAccounted.capacity] at hTaken hOld ⊢
  rcases Nat.lt_trichotomy k put.length with
    hBefore | hHere | hAfter
  · rw [List.getElem?_append_left hBefore] at hOld
    rw [Function.update_of_ne]
    · exact hAccounted.stored k old hTaken hOld
    · apply mod_ne_of_lt_add
      · omega
      · omega
  · rw [hHere, List.getElem?_concat_length,
      Option.some_inj] at hOld
    have hRear : s.sbuf.rear = k + 1 := by omega
    rw [hRear, Function.update_self, hOld]
  · rw [List.getElem?_eq_none (by omega)] at hOld
    cases hOld

omit [DecidableEq π] in
/-
  A worker that fetches holds an item token, so the next item
  has been put in and is still in its slot.
-/
theorem Accounted.fetch
    (hAccounted : Accounted n put taken s)
    {item : Int}
    (hNow : s.worker w = .fetch)
    (hItem : item = s.sbuf.buf (s.sbuf.front % s.sbuf.n)) :
    Accounted n put (taken ++ [item])
      (s.moveWorker w (.postMutex item)) := by
  have hClaim := le_total Worker.claim s.worker w
  have hBumpedHere := le_total Worker.bumped s.worker w
  have hBumpedAll :=
    total_mono Worker.bumped_le_locks s.worker
  have hLocks := worker_tokens s hNow (.postMutex item)
    Worker.locks
  have hEmptied := worker_tokens s hNow (.postMutex item)
    Worker.emptied
  have hClaims := worker_tokens s hNow (.postMutex item)
    Worker.claim
  have hBumped := worker_tokens s hNow (.postMutex item)
    Worker.bumped
  have hMutexBefore := hAccounted.mutex
  have hSlotsBefore := hAccounted.slots
  have hItemsBefore := hAccounted.items
  have hFrontBefore := hAccounted.front
  rw [hNow] at hClaim hBumpedHere
  simp only [System.moveWorker, Worker.claim, Worker.locks,
    Worker.bumped, Worker.emptied] at *
  have hLength :
      (taken ++ [item]).length = taken.length + 1 :=
    List.length_append
  have hMore : taken.length < put.length := by omega
  have hFront : s.sbuf.front = taken.length + 1 := by omega
  have hNext : put[taken.length] = item := by
    rw [hItem, hFront, hAccounted.capacity]
    exact (hAccounted.stored _ _ (Nat.le_refl _)
      (List.getElem?_eq_getElem hMore)).symm
  refine
    { capacity := hAccounted.capacity
      mutex := by simp only; omega
      slots := by simp only; omega
      items := by simp only; omega
      rear := hAccounted.rear
      front := by simp only; omega
      stored := ?_
      inOrder := ?_ }
  · intro k old hTaken
    simp only [hLength] at hTaken
    exact hAccounted.stored k old (by omega)
  · have hTake : taken = put.take taken.length :=
      List.prefix_iff_eq_take.mp hAccounted.inOrder
    have hTakeNext := List.take_append_getElem hMore
    rw [← hTake, hNext] at hTakeNext
    rw [hTakeNext]
    exact List.take_prefix _ _

end Steps

section Runs

variable {n : Nat} {s t : System π κ} {p : π} {w : κ}
variable {events : List (SbufEvent π κ)} {event : SbufEvent π κ}

omit [DecidableEq π] [DecidableEq κ] in
/- A step that neither puts in nor takes out. -/
theorem Accounted.quiet
    (hAccounted : Accounted n (put events) (taken events) s)
    (hPut : event.put? = none)
    (hTake : event.take? = none) :
    Accounted n (put (events ++ [event]))
      (taken (events ++ [event])) s := by
  rw [put, taken, filterMap_snoc, filterMap_snoc, hPut, hTake,
    Option.toList_none, Option.toList_none, List.append_nil,
    List.append_nil]
  exact hAccounted

theorem Accounted.step
    (hAccounted : Accounted n (put events) (taken events) s)
    (hStep : Step s event t) :
    Accounted n (put (events ++ [event]))
      (taken (events ++ [event])) t := by
  cases hStep with
  | accept hNow =>
      refine Accounted.quiet ?_ rfl rfl
      exact hAccounted.producer hNow rfl rfl rfl rfl rfl rfl rfl
  | waitSlots hNow hSlots =>
      refine Accounted.quiet ?_ rfl rfl
      refine hAccounted.producer hNow rfl rfl rfl rfl ?_ rfl rfl
      simp only [Producer.slot]
      omega
  | insertMutex hNow hMutex =>
      refine Accounted.quiet ?_ rfl rfl
      refine hAccounted.producer hNow rfl rfl rfl ?_ rfl rfl rfl
      simp only [Producer.locks]
      omega
  | bumpRear hNow =>
      refine Accounted.quiet ?_ rfl rfl
      exact hAccounted.producer hNow rfl rfl rfl rfl rfl rfl rfl
  | store hNow =>
      rw [put, taken, List.filterMap_append, List.map_append,
        List.filterMap_append, List.map_append]
      have hAfter := hAccounted.store hNow
      rwa [← List.append_nil (taken events)] at hAfter
  | insertUnlock hNow =>
      refine Accounted.quiet ?_ rfl rfl
      exact hAccounted.producer hNow rfl rfl rfl rfl rfl rfl rfl
  | postItems hNow =>
      refine Accounted.quiet ?_ rfl rfl
      exact hAccounted.producer hNow rfl rfl rfl rfl rfl rfl rfl
  | waitItems hNow hItems =>
      refine Accounted.quiet ?_ rfl rfl
      refine hAccounted.worker hNow rfl rfl rfl rfl rfl ?_ rfl
      simp only [Worker.claim]
      omega
  | removeMutex hNow hMutex =>
      refine Accounted.quiet ?_ rfl rfl
      refine hAccounted.worker hNow rfl rfl rfl ?_ rfl rfl rfl
      simp only [Worker.locks]
      omega
  | bumpFront hNow =>
      refine Accounted.quiet ?_ rfl rfl
      exact hAccounted.worker hNow rfl rfl rfl rfl rfl rfl rfl
  | fetch hNow hItem =>
      rw [put, taken, List.filterMap_append, List.map_append,
        List.filterMap_append, List.map_append]
      have hAfter := hAccounted.fetch hNow hItem
      rwa [← List.append_nil (put events)] at hAfter
  | removeUnlock hNow =>
      refine Accounted.quiet ?_ rfl rfl
      exact hAccounted.worker hNow rfl rfl rfl rfl rfl rfl rfl
  | postSlots hNow =>
      refine Accounted.quiet ?_ rfl rfl
      exact hAccounted.worker hNow rfl rfl rfl rfl rfl rfl rfl
  | serve hNow =>
      refine Accounted.quiet ?_ rfl rfl
      exact hAccounted.worker hNow rfl rfl rfl rfl rfl rfl rfl

omit [Fintype π] [Fintype κ]

theorem inHand_systemStart
    (n : Nat) :
    InHand [] (systemStart n : System π κ) where
  producers _ := rfl
  workers _ := rfl

/- A step of one producer. -/
theorem InHand.producer
    (hInHand : InHand events s)
    (hThread : event.thread = .inl p)
    {now next : Producer}
    (hNow : s.producer p = now)
    (hHeld :
      now.held ++ event.accept?.toList.map Prod.snd =
        event.put?.toList.map Prod.snd ++ next.held)
    {sbuf : Sbuf} :
    InHand (events ++ [event])
      { s.moveProducer p next with sbuf := sbuf } where
  producers q := by
    have hBefore := hInHand.producers q
    rw [filterMap_snoc, filterMap_snoc, ofThread_append,
      ofThread_append, hBefore]
    by_cases hSame : q = p
    · rw [hSame, ofThread_of_all (SbufEvent.accept?_thread hThread),
        ofThread_of_all (SbufEvent.put?_thread hThread), hNow,
        List.append_assoc, List.append_assoc, hHeld]
      simp only [System.moveProducer, Function.update_self]
    · rw [ofThread_of_all_other (SbufEvent.accept?_thread hThread)
          hSame,
        ofThread_of_all_other (SbufEvent.put?_thread hThread) hSame,
        List.append_nil, List.append_nil]
      simp only [System.moveProducer,
        Function.update_of_ne hSame]
  workers w := by
    rw [filterMap_snoc, filterMap_snoc,
      SbufEvent.take?_of_producer hThread,
      SbufEvent.serve?_of_producer hThread, Option.toList_none,
      List.append_nil, List.append_nil]
    exact hInHand.workers w

/- A step of one worker. -/
theorem InHand.worker
    (hInHand : InHand events s)
    (hThread : event.thread = .inr w)
    {now next : Worker}
    (hNow : s.worker w = now)
    (hHeld :
      now.held ++ event.take?.toList.map Prod.snd =
        event.serve?.toList.map Prod.snd ++ next.held)
    {sbuf : Sbuf} :
    InHand (events ++ [event])
      { s.moveWorker w next with sbuf := sbuf } where
  producers p := by
    rw [filterMap_snoc, filterMap_snoc,
      SbufEvent.accept?_of_worker hThread,
      SbufEvent.put?_of_worker hThread, Option.toList_none,
      List.append_nil, List.append_nil]
    exact hInHand.producers p
  workers v := by
    have hBefore := hInHand.workers v
    rw [filterMap_snoc, filterMap_snoc, ofThread_append,
      ofThread_append, hBefore]
    by_cases hSame : v = w
    · rw [hSame, ofThread_of_all (SbufEvent.take?_thread hThread),
        ofThread_of_all (SbufEvent.serve?_thread hThread), hNow,
        List.append_assoc, List.append_assoc, hHeld]
      simp only [System.moveWorker, Function.update_self]
    · rw [ofThread_of_all_other (SbufEvent.take?_thread hThread)
          hSame,
        ofThread_of_all_other (SbufEvent.serve?_thread hThread)
          hSame,
        List.append_nil, List.append_nil]
      simp only [System.moveWorker,
        Function.update_of_ne hSame]

theorem InHand.step
    (hInHand : InHand events s)
    (hStep : Step s event t) :
    InHand (events ++ [event]) t := by
  cases hStep with
  | accept hNow => exact hInHand.producer rfl hNow rfl
  | waitSlots hNow hSlots => exact hInHand.producer rfl hNow rfl
  | insertMutex hNow hMutex =>
      exact hInHand.producer rfl hNow rfl
  | bumpRear hNow => exact hInHand.producer rfl hNow rfl
  | store hNow => exact hInHand.producer rfl hNow rfl
  | insertUnlock hNow => exact hInHand.producer rfl hNow rfl
  | postItems hNow => exact hInHand.producer rfl hNow rfl
  | waitItems hNow hItems => exact hInHand.worker rfl hNow rfl
  | removeMutex hNow hMutex =>
      exact hInHand.worker rfl hNow rfl
  | bumpFront hNow => exact hInHand.worker rfl hNow rfl
  | fetch hNow hItem => exact hInHand.worker rfl hNow rfl
  | removeUnlock hNow => exact hInHand.worker rfl hNow rfl
  | postSlots hNow => exact hInHand.worker rfl hNow rfl
  | serve hNow => exact hInHand.worker rfl hNow rfl

end Runs

------------------------------------------------------------
-- The Hand-off
------------------------------------------------------------

/-
  For any number of threads and any schedule: what has been
  taken out is a prefix of what has been put in, at most n
  items are stored, and each of them is still in the buffer.
  Every accept loop has put in all that it accepted, in order
  and but for the one in its hand, and every worker has served
  all that it took out, but for the one in its hand.
-/
theorem connections_handed_off_in_order
    {n : Nat}
    {events : List (SbufEvent π κ)}
    {s : System π κ}
    (hRun : Run Step (systemStart n) events s) :
    taken events <+: put events ∧
      (put events).length - (taken events).length ≤ n ∧
      (∀ k item, (taken events).length ≤ k →
        (put events)[k]? = some item →
        s.sbuf.buf ((k + 1) % n) = item) ∧
      (∀ p, ofThread p (events.filterMap SbufEvent.accept?) =
        ofThread p (events.filterMap SbufEvent.put?) ++
          (s.producer p).held) ∧
      ∀ w, ofThread w (events.filterMap SbufEvent.take?) =
        ofThread w (events.filterMap SbufEvent.serve?) ++
          (s.worker w).held := by
  have hAccounted := hRun.history
    (fun events s => Accounted n (put events) (taken events) s)
    (accounted_systemStart n)
    (fun _ _ _ _ hBefore hStep => hBefore.step hStep)
  have hInHand := hRun.history InHand (inHand_systemStart n)
    (fun _ _ _ _ hBefore hStep => hBefore.step hStep)
  refine ⟨hAccounted.inOrder, ?_, hAccounted.stored,
    hInHand.producers, hInHand.workers⟩
  have hSlots := hAccounted.slots
  omega

/-
  One producer puts in descriptors 5 and 6; one worker of two
  has served 5, the other has just taken out 6.
-/
theorem connections_handed_off_in_order_two :
    ∃ (events : List (SbufEvent Unit Bool)) (s : System Unit Bool),
      put events = [5, 6] ∧
        events.filterMap SbufEvent.serve? = [(true, 5)] ∧
        (s.worker false).held = [6] ∧
        taken events <+: put events ∧
        (put events).length - (taken events).length ≤ 2 ∧
        (∀ k item, (taken events).length ≤ k →
          (put events)[k]? = some item →
          s.sbuf.buf ((k + 1) % 2) = item) ∧
        (∀ p, ofThread p (events.filterMap SbufEvent.accept?) =
          ofThread p (events.filterMap SbufEvent.put?) ++
            (s.producer p).held) ∧
        ∀ w, ofThread w (events.filterMap SbufEvent.take?) =
          ofThread w (events.filterMap SbufEvent.serve?) ++
            (s.worker w).held := by
  have hAccept : Step (systemStart 2 : System Unit Bool)
      (.accept () 5)
      (System.moveProducer (systemStart 2) () (.waitSlots 5)) :=
    .accept rfl
  have hStarted := Run.nil.snoc hAccept
  have hSlots := hStarted.snoc
    (.waitSlots (p := ()) rfl (by decide))
  have hMutex := hSlots.snoc
    (.insertMutex (p := ()) rfl (by decide))
  have hBump := hMutex.snoc (.bumpRear (p := ()) rfl)
  have hStore := hBump.snoc (.store (p := ()) rfl)
  have hUnlock := hStore.snoc (.insertUnlock (p := ()) rfl)
  have hPut := hUnlock.snoc (.postItems (p := ()) rfl)
  -- the second descriptor
  have hAgain := hPut.snoc
    (@Step.accept _ _ _ _ _ () 6 rfl)
  have hSlots' := hAgain.snoc
    (.waitSlots (p := ()) rfl (by decide))
  have hMutex' := hSlots'.snoc
    (.insertMutex (p := ()) rfl (by decide))
  have hBump' := hMutex'.snoc (.bumpRear (p := ()) rfl)
  have hStore' := hBump'.snoc (.store (p := ()) rfl)
  have hUnlock' := hStore'.snoc (.insertUnlock (p := ()) rfl)
  have hPut' := hUnlock'.snoc (.postItems (p := ()) rfl)
  -- the first worker
  have hItems := hPut'.snoc
    (.waitItems (w := true) rfl (by decide))
  have hLock := hItems.snoc
    (.removeMutex (w := true) rfl (by decide))
  have hFront := hLock.snoc (.bumpFront (w := true) rfl)
  have hFetch := hFront.snoc (.fetch (w := true) rfl rfl)
  have hRelease := hFetch.snoc (.removeUnlock (w := true) rfl)
  have hPost := hRelease.snoc (.postSlots (w := true) rfl)
  have hServe := hPost.snoc (.serve (w := true) rfl)
  -- the second worker
  have hItems' := hServe.snoc
    (.waitItems (w := false) rfl (by decide))
  have hLock' := hItems'.snoc
    (.removeMutex (w := false) rfl (by decide))
  have hFront' := hLock'.snoc (.bumpFront (w := false) rfl)
  have hFetch' := hFront'.snoc (.fetch (w := false) rfl rfl)
  exact ⟨_, _, rfl, rfl, rfl,
    connections_handed_off_in_order hFetch'⟩

end Proxy

end CsappLabs
