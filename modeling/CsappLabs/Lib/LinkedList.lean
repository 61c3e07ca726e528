import Mathlib.Data.List.Nodup
import Mathlib.Logic.Function.Basic

/-
  Doubly linked lists in a store.

  A store holds a list of items when the node of each item is
  linked to the nodes of its neighbours.  Linking a new item
  in its place, or unlinking one, is a few stores.

  Key definitions include:
    * `LinkedList.Links`
    * `LinkedList.Held`
    * `LinkedList.put`, `LinkedList.insert`,
      `LinkedList.remove`

  Key theorems include:
    * `LinkedList.held_append`
    * `LinkedList.Held.insert`
    * `LinkedList.Held.remove`
-/

------------------------------------------------------------
-- Held Lists
------------------------------------------------------------

namespace LinkedList

variable {Loc Item Node : Type}

/- The nodes of a kind of list, and the stores to a link. -/
structure Links (Loc Item Node : Type) where
  loc : Item → Loc
  cell : Item → Option Loc → Option Loc → Node
  setNext : Option Loc → Node → Node
  setPrev : Option Loc → Node → Node
  setNext_cell :
    ∀ item next prev link,
      setNext link (cell item next prev) =
        cell item link prev
  setPrev_cell :
    ∀ item next prev link,
      setPrev link (cell item next prev) =
        cell item next link
  cell_inj :
    ∀ {item item' next next' prev prev'},
      loc item = loc item' →
        cell item next prev = cell item' next' prev' →
          item = item'

variable (links : Links Loc Item Node)

/- The first node of a list that goes on at `after`. -/
def first : List Item → Option Loc → Option Loc
| [], after => after
| item :: _, _ => some (links.loc item)

/- The last node of a list that follows `before`. -/
def last : Option Loc → List Item → Option Loc
| before, [] => before
| _, item :: rest => last (some (links.loc item)) rest

/-
  The nodes of the items are in the store, each linked to its
  neighbours, the ends to `before` and `after`.
-/
def Held (store : Loc → Option Node) :
    Option Loc → List Item → Option Loc → Prop
| _, [], _ => True
| before, item :: rest, after =>
    store (links.loc item) =
        some (links.cell item (first links rest after)
          before) ∧
      Held store (some (links.loc item)) rest after

variable {links}
variable {store store' : Loc → Option Node}
variable {before after : Option Loc}
variable {item : Item} {items front back : List Item}

@[simp] theorem first_nil :
    first links [] after = after := rfl

@[simp] theorem first_cons :
    first links (item :: back) after =
      some (links.loc item) := rfl

@[simp] theorem first_append :
    first links (front ++ back) after =
      first links front (first links back after) := by
  cases front <;> rfl

@[simp] theorem last_nil :
    last links before [] = before := rfl

@[simp] theorem last_append :
    last links before (front ++ back) =
      last links (last links before front) back := by
  induction front generalizing before with
  | nil => rfl
  | cons item front ih => exact ih

theorem last_concat :
    last links before (front ++ [item]) =
      some (links.loc item) := by
  rw [last_append]
  rfl

/- The last node is one of the items. -/
theorem last_mem {x : Loc} :
    last links none front = some x →
      x ∈ front.map links.loc := by
  rcases List.eq_nil_or_concat front with
    rfl | ⟨rest, item, rfl⟩
  · intro hLast
    cases hLast
  · rw [List.concat_eq_append, last_concat]
    rintro ⟨⟩
    simp

theorem first_mem {x : Loc} :
    first links back none = some x →
      x ∈ back.map links.loc := by
  cases back with
  | nil =>
      intro hFirst
      cases hFirst
  | cons item back =>
      rintro ⟨⟩
      simp

theorem held_append :
    Held links store before (front ++ back) after ↔
      Held links store before front
          (first links back after) ∧
        Held links store (last links before front) back
          after := by
  induction front generalizing before with
  | nil => simp [Held]
  | cons item front ih =>
      simp only [List.cons_append, Held, first_append, ih,
        last, and_assoc]

/- The node of an item in the middle. -/
theorem Held.node
    (hHeld :
      Held links store before (front ++ item :: back)
        after) :
    store (links.loc item) =
      some (links.cell item (first links back after)
        (last links before front)) :=
  (held_append.mp hHeld).2.1

/- Only the nodes of the items matter. -/
theorem Held.congr
    (hHeld : Held links store before items after)
    (hSame :
      ∀ item ∈ items,
        store' (links.loc item) = store (links.loc item)) :
    Held links store' before items after := by
  induction items generalizing before with
  | nil => trivial
  | cons item rest ih =>
      refine ⟨?_, ih hHeld.2 fun other hOther =>
        hSame other (List.mem_cons_of_mem _ hOther)⟩
      rw [hSame item List.mem_cons_self]
      exact hHeld.1

/- The two sides of a place in a list without repetitions. -/
theorem last_apart
    (hNodup : ((front ++ back).map links.loc).Nodup) :
    ∀ x ∈ back.map links.loc,
      last links none front ≠ some x := by
  intro x hBack hLast
  rw [List.map_append, List.nodup_append] at hNodup
  exact hNodup.2.2 x (last_mem hLast) x hBack rfl

theorem first_apart
    (hNodup : ((front ++ back).map links.loc).Nodup) :
    ∀ x ∈ front.map links.loc,
      first links back none ≠ some x := by
  intro x hFront hFirst
  rw [List.map_append, List.nodup_append] at hNodup
  exact hNodup.2.2 x hFront x (first_mem hFirst) rfl

theorem Held.mem
    (hHeld : Held links store before items after)
    (hItem : item ∈ items) :
    ∃ next prev,
      store (links.loc item) =
        some (links.cell item next prev) := by
  rcases List.append_of_mem hItem with ⟨front, back, rfl⟩
  exact ⟨_, _, hHeld.node⟩

/- Different items lie in different nodes. -/
theorem Held.nodup
    (hHeld : Held links store before items after)
    (hNodup : items.Nodup) :
    (items.map links.loc).Nodup := by
  refine hNodup.map_on fun item hItem other hOther hSame => ?_
  rcases hHeld.mem hItem with ⟨next, prev, hNode⟩
  rcases hHeld.mem hOther with ⟨next', prev', hNode'⟩
  rw [hSame, hNode'] at hNode
  exact links.cell_inj hSame (Option.some.inj hNode).symm

------------------------------------------------------------
-- Changes
------------------------------------------------------------

variable [DecidableEq Loc]

/- A store through a link, none through a null one. -/
def put
    (store : Loc → Option Node)
    (target : Option Loc)
    (change : Node → Node) :
    Loc → Option Node :=
  match target with
  | none => store
  | some x =>
      Function.update store x ((store x).map change)

theorem put_self
    {x : Loc} {node : Node} {change : Node → Node}
    (hNode : store x = some node) :
    put store (some x) change x = some (change node) := by
  simp [put, hNode]

theorem put_other
    {x : Loc} {target : Option Loc} {change : Node → Node}
    (hNe : target ≠ some x) :
    put store target change x = store x := by
  cases target with
  | none => rfl
  | some y =>
      have hApart : x ≠ y := fun hEq => hNe (hEq ▸ rfl)
      simp [put, hApart]

/- Store a new node and link its neighbours to it. -/
def insert
    (links : Links Loc Item Node)
    (store : Loc → Option Node)
    (item : Item)
    (prev next : Option Loc) :
    Loc → Option Node :=
  put
    (put
      (Function.update store (links.loc item)
        (some (links.cell item next prev)))
      prev (links.setNext (some (links.loc item))))
    next (links.setPrev (some (links.loc item)))

/- Link the neighbours of a node and free it. -/
def remove
    (links : Links Loc Item Node)
    (store : Loc → Option Node)
    (x : Loc)
    (prev next : Option Loc) :
    Loc → Option Node :=
  Function.update
    (put (put store prev (links.setNext next)) next
      (links.setPrev prev))
    x none

------------------------------------------------------------
-- Rules
------------------------------------------------------------

/- A store outside the items. -/
theorem Held.put
    {target : Option Loc} {change : Node → Node}
    (hHeld : Held links store before items after)
    (hApart : ∀ x ∈ items.map links.loc, target ≠ some x) :
    Held links (put store target change) before items
      after :=
  hHeld.congr fun _ hItem =>
    put_other (hApart _ (List.mem_map_of_mem hItem))

theorem Held.update
    {x : Loc} {node : Option Node}
    (hHeld : Held links store before items after)
    (hApart : x ∉ items.map links.loc) :
    Held links (Function.update store x node) before items
      after := by
  refine hHeld.congr fun item hItem => ?_
  have hNe : links.loc item ≠ x := fun hEq =>
    hApart (hEq ▸ List.mem_map_of_mem hItem)
  simp [hNe]

/- The store that links the last node to `link`. -/
theorem Held.putNext
    {link : Option Loc}
    (hHeld : Held links store none front after)
    (hNodup : (front.map links.loc).Nodup) :
    Held links
      (LinkedList.put store (last links none front)
        (links.setNext link))
      none front link := by
  rcases List.eq_nil_or_concat front with
    rfl | ⟨rest, item, rfl⟩
  · trivial
  · rw [List.concat_eq_append] at *
    rw [List.map_append, List.nodup_append] at hNodup
    rcases held_append.mp hHeld with ⟨hRest, hItem, -⟩
    rw [last_concat]
    refine held_append.mpr ⟨hRest.put ?_, ?_, trivial⟩
    · intro x hMember hSame
      cases hSame
      exact hNodup.2.2 _ hMember _ (by simp) rfl
    · rw [put_self hItem, links.setNext_cell]
      rfl

/- The store that links the first node back to `link`. -/
theorem Held.putPrev
    {link : Option Loc}
    (hHeld : Held links store before back none)
    (hNodup : (back.map links.loc).Nodup) :
    Held links
      (LinkedList.put store (first links back none)
        (links.setPrev link))
      link back none := by
  cases back with
  | nil => trivial
  | cons item back =>
      rw [List.map_cons, List.nodup_cons] at hNodup
      refine ⟨?_, hHeld.2.put ?_⟩
      · rw [first_cons, put_self hHeld.1,
          links.setPrev_cell]
      · intro x hMember hSame
        cases hSame
        exact hNodup.1 hMember

/- A new node between its neighbours. -/
theorem Held.insert
    (hHeld : Held links store none (front ++ back) none)
    (hNodup : ((front ++ back).map links.loc).Nodup)
    (hFresh :
      links.loc item ∉ (front ++ back).map links.loc) :
    Held links
      (LinkedList.insert links store item
        (last links none front) (first links back none))
      none (front ++ item :: back) none := by
  have hParts := hNodup
  rw [List.map_append, List.nodup_append] at hParts
  rw [List.map_append, List.mem_append, not_or] at hFresh
  rcases held_append.mp hHeld with ⟨hFront, hBack⟩
  unfold LinkedList.insert
  refine held_append.mpr ⟨?_, ?_, ?_⟩
  · exact ((hFront.update hFresh.1).putNext hParts.1).put
      (first_apart hNodup)
  · rw [put_other, put_other, Function.update_self]
    · exact fun hLast => hFresh.1 (last_mem hLast)
    · exact fun hFirst => hFresh.2 (first_mem hFirst)
  · exact ((hBack.update hFresh.2).put
      (last_apart hNodup)).putPrev hParts.2.1

/- A node taken out. -/
theorem Held.remove
    (hHeld :
      Held links store none (front ++ item :: back) none)
    (hNodup :
      ((front ++ item :: back).map links.loc).Nodup) :
    Held links
      (LinkedList.remove links store (links.loc item)
        (last links none front) (first links back none))
      none (front ++ back) none := by
  have hParts := hNodup
  rw [List.map_append, List.map_cons,
    List.nodup_middle, List.nodup_cons, ← List.map_append]
    at hParts
  have hSides := hParts.2
  rw [List.map_append, List.nodup_append] at hSides
  rcases held_append.mp hHeld with ⟨hFront, -, hBack⟩
  unfold LinkedList.remove
  refine Held.update ?_ hParts.1
  refine held_append.mpr ⟨?_, ?_⟩
  · exact (hFront.putNext hSides.1).put
      (first_apart hParts.2)
  · exact (hBack.put (last_apart hParts.2)).putPrev
      hSides.2.1

end LinkedList
