import CsappLabs.Lib.TreePath

/-
  The splay tree of the malloc driver, translated function by
  function (malloc/f19-rec-malloc/stree.c).

  Nodes lie in a store that malloc and free allocate from.
  An access through NULL or through a pointer to no node is a
  fault.  A loop that runs longer than the tree has nodes
  does not come to an end, since no path is longer.

  Key definitions:
    * `Node`, `Tree`
    * `leftRotate`, `rightRotate`
    * `splay`, `replace`, `subtreeMinimum`
    * `treeInsert`, `treeFind`, `treeFindNearest`
    * `treeRemove`
-/

------------------------------------------------------------
-- Nodes
------------------------------------------------------------

namespace CsappLabs

namespace Splay

open TreePath (Side)

/- A pointer; `none` is NULL. -/
abbrev Ptr := Option Nat

structure Node where
  left : Ptr
  right : Ptr
  parent : Ptr
  key : Int
  record : Ptr

namespace Node

def child
    (node : Node) :
    Side → Ptr
  | .left => node.left
  | .right => node.right

def setChild
    (node : Node)
    (p : Ptr) :
    Side → Node
  | .left => { node with left := p }
  | .right => { node with right := p }

def setParent
    (node : Node)
    (p : Ptr) :
    Node :=
  { node with parent := p }

end Node

/- tree_t and the nodes that malloc gave. -/
structure Tree where
  nodes : Nat → Option Node
  root : Ptr
  nodeCount : Nat
  comparisonCount : Nat

/- Why a call does not return. -/
inductive Stop where
  | fault
  | loop
  | exit
  deriving DecidableEq, Repr

/- *x -/
def Tree.get
    (tree : Tree)
    (x : Ptr) :
    Except Stop Node :=
  match x.bind tree.nodes with
  | none => .error .fault
  | some node => .ok node

/- A store to a field of *x. -/
def Tree.modify
    (tree : Tree)
    (x : Ptr)
    (change : Node → Node) :
    Except Stop Tree :=
  match x with
  | none => .error .fault
  | some loc =>
      match tree.nodes loc with
      | none => .error .fault
      | some node =>
          .ok { tree with
            nodes :=
              Function.update tree.nodes loc
                (some (change node)) }

/- tree->comparison_count++ -/
def Tree.compared
    (tree : Tree) :
    Tree :=
  { tree with comparisonCount := tree.comparisonCount + 1 }

/- tree_new -/
def treeNew : Tree where
  nodes := fun _ => none
  root := none
  nodeCount := 0
  comparisonCount := 0

------------------------------------------------------------
-- Rotations
------------------------------------------------------------

/-
  The lines that put v where u hangs, without the parent link
  of v itself.
-/
def setInParent
    (tree : Tree)
    (u v : Ptr) :
    Except Stop Tree := do
  let parent := (← tree.get u).parent
  if parent = none then
    return { tree with root := v }
  else if u = (← tree.get parent).left then
    tree.modify parent (fun node => node.setChild v .left)
  else
    tree.modify parent (fun node => node.setChild v .right)

/- if (v) v->parent = u; -/
def adopt
    (tree : Tree)
    (v u : Ptr) :
    Except Stop Tree :=
  if v = none then
    .ok tree
  else
    tree.modify v (fun node => node.setParent u)

/- The rotation that moves x down to `side`. -/
def rotate
    (side : Side)
    (tree : Tree)
    (x : Ptr) :
    Except Stop Tree := do
  let y := (← tree.get x).child side.other
  let mut tree := tree
  if y ≠ none then
    let inner := (← tree.get y).child side
    tree ← tree.modify x
      (fun node => node.setChild inner side.other)
    tree ← adopt tree ((← tree.get y).child side) x
    let parent := (← tree.get x).parent
    tree ← tree.modify y (fun node => node.setParent parent)
  tree ← setInParent tree x y
  if y ≠ none then
    tree ← tree.modify y (fun node => node.setChild x side)
  tree.modify x (fun node => node.setParent y)

def leftRotate
    (tree : Tree)
    (x : Ptr) :
    Except Stop Tree :=
  rotate .left tree x

def rightRotate
    (tree : Tree)
    (x : Ptr) :
    Except Stop Tree :=
  rotate .right tree x

------------------------------------------------------------
-- Splaying
------------------------------------------------------------

/- One round of splay's loop, for a node with a parent. -/
def splayStep
    (tree : Tree)
    (x : Ptr) :
    Except Stop Tree := do
  let parent := (← tree.get x).parent
  let grand := (← tree.get parent).parent
  if grand = none then
    if (← tree.get parent).left = x then
      rightRotate tree parent
    else
      leftRotate tree parent
  else if (← tree.get parent).left = x ∧
      (← tree.get grand).left = parent then
    let tree ← rightRotate tree grand
    rightRotate tree (← tree.get x).parent
  else if (← tree.get parent).right = x ∧
      (← tree.get grand).right = parent then
    let tree ← leftRotate tree grand
    leftRotate tree (← tree.get x).parent
  else if (← tree.get parent).left = x ∧
      (← tree.get grand).right = parent then
    let tree ← rightRotate tree parent
    leftRotate tree (← tree.get x).parent
  else
    let tree ← leftRotate tree parent
    rightRotate tree (← tree.get x).parent

def splayLoop
    (x : Ptr) :
    Nat → Tree → Except Stop Tree
  | 0, _ => .error .loop
  | fuel + 1, tree => do
      if (← tree.get x).parent = none then
        return tree
      else
        splayLoop x fuel (← splayStep tree x)

def splay
    (tree : Tree)
    (x : Ptr) :
    Except Stop Tree :=
  splayLoop x (tree.nodeCount + 1) tree

def replace
    (tree : Tree)
    (u v : Ptr) :
    Except Stop Tree := do
  let tree ← setInParent tree u v
  adopt tree v (← tree.get u).parent

def minimumLoop
    (tree : Tree) :
    Nat → Ptr → Except Stop Ptr
  | 0, _ => .error .loop
  | fuel + 1, u => do
      let left := (← tree.get u).left
      if left = none then
        return u
      else
        minimumLoop tree fuel left

def subtreeMinimum
    (tree : Tree)
    (u : Ptr) :
    Except Stop Ptr :=
  minimumLoop tree (tree.nodeCount + 1) u

------------------------------------------------------------
-- The Map Operations
------------------------------------------------------------

/- Where tree_insert's loop ends. -/
inductive Place where
  | present
  | under (p : Ptr)

def insertLoop
    (key : Int) :
    Nat → Tree → Ptr → Ptr → Except Stop (Tree × Place)
  | 0, _, _, _ => .error .loop
  | _ + 1, tree, none, p => .ok (tree, .under p)
  | fuel + 1, tree, some z, _ => do
      let node ← tree.get (some z)
      let tree := tree.compared
      if key = node.key then
        return (tree, .present)
      else
        let tree := tree.compared
        if key > node.key then
          insertLoop key fuel tree node.right (some z)
        else
          insertLoop key fuel tree node.left (some z)

/- The link from p, or from the root, to the new node z. -/
def linkNew
    (tree : Tree)
    (p z : Ptr) :
    Except Stop Tree := do
  if p = none then
    return { tree with root := z }
  else if (← tree.get p).key < (← tree.get z).key then
    tree.modify p (fun node => node.setChild z .right)
  else
    tree.modify p (fun node => node.setChild z .left)

/- The part of tree_insert after malloc gave the node z. -/
def insertUnder
    (tree : Tree)
    (key : Int)
    (record p : Ptr)
    (z : Nat) :
    Except Stop Tree := do
  let tree :=
    { tree with
      nodes :=
        Function.update tree.nodes z
          (some
            { left := none
              right := none
              parent := p
              key := key
              record := record }) }
  let tree ← linkNew tree p (some z)
  let tree ← splay tree (some z)
  return { tree with nodeCount := tree.nodeCount + 1 }

/- `malloced` is what malloc returns for a new node. -/
def treeInsert
    (tree : Tree)
    (key : Int)
    (record malloced : Ptr) :
    Except Stop (Tree × Bool) := do
  match ← insertLoop key (tree.nodeCount + 1) tree
      tree.root none with
  | (tree, .present) => return (tree, false)
  | (tree, .under p) =>
      match malloced with
      | none => .error .exit
      | some z =>
          return (← insertUnder tree key record p z, true)

def findLoop
    (key : Int) :
    Nat → Tree → Ptr → Except Stop (Tree × Ptr)
  | 0, _, _ => .error .loop
  | _ + 1, tree, none => .ok (tree, none)
  | fuel + 1, tree, some z => do
      let node ← tree.get (some z)
      let tree := tree.compared
      if key = node.key then
        return (tree, node.record)
      else
        let tree := tree.compared
        if key > node.key then
          findLoop key fuel tree node.right
        else
          findLoop key fuel tree node.left

def treeFind
    (tree : Tree)
    (key : Int) :
    Except Stop (Tree × Ptr) :=
  findLoop key (tree.nodeCount + 1) tree tree.root

/- n ? n->record : NULL -/
def recordOf
    (tree : Tree)
    (n : Ptr) :
    Except Stop Ptr := do
  if n = none then
    return none
  else
    return (← tree.get n).record

/- The new n: z where !n || n->key < z->key. -/
def nearer
    (tree : Tree)
    (n : Ptr)
    (z : Nat)
    (key : Int) :
    Except Stop Ptr := do
  if n = none then
    return some z
  else if (← tree.get n).key < key then
    return some z
  else
    return n

def nearestLoop
    (key : Int) :
    Nat → Tree → Ptr → Ptr → Except Stop (Tree × Ptr)
  | 0, _, _, _ => .error .loop
  | _ + 1, tree, none, n => do
      return (tree, ← recordOf tree n)
  | fuel + 1, tree, some z, n => do
      let node ← tree.get (some z)
      let tree := tree.compared
      if key = node.key then
        return (tree, node.record)
      else
        let tree := tree.compared
        if key > node.key then
          nearestLoop key fuel tree node.right
            (← nearer tree n z node.key)
        else
          nearestLoop key fuel tree node.left n

def treeFindNearest
    (tree : Tree)
    (key : Int) :
    Except Stop (Tree × Ptr) :=
  nearestLoop key (tree.nodeCount + 1) tree tree.root none

def removeLoop
    (key : Int) :
    Nat → Tree → Ptr → Except Stop (Tree × Ptr)
  | 0, _, _ => .error .loop
  | _ + 1, tree, none => .ok (tree, none)
  | fuel + 1, tree, some z => do
      let node ← tree.get (some z)
      if node.key = key then
        return (tree, some z)
      else
        let tree := tree.compared
        if key > node.key then
          removeLoop key fuel tree node.right
        else
          removeLoop key fuel tree node.left

/- The successor y of z takes the place of z. -/
def spliceSuccessor
    (tree : Tree)
    (z : Ptr) :
    Except Stop Tree := do
  let y ← subtreeMinimum tree (← tree.get z).right
  let mut tree := tree
  if (← tree.get y).parent ≠ z then
    tree ← replace tree y (← tree.get y).right
    let right := (← tree.get z).right
    tree ← tree.modify y
      (fun node => node.setChild right .right)
    tree ← tree.modify (← tree.get y).right
      (fun node => node.setParent y)
  tree ← replace tree z y
  let left := (← tree.get z).left
  tree ← tree.modify y (fun node => node.setChild left .left)
  tree.modify (← tree.get y).left
    (fun node => node.setParent y)

/- free(z) -/
def Tree.freeNode
    (tree : Tree)
    (z : Nat) :
    Tree :=
  { tree with nodes := Function.update tree.nodes z none }

/- The part of tree_remove after the node z was found. -/
def unlink
    (tree : Tree)
    (z : Ptr) :
    Except Stop Tree := do
  let tree ← splay tree z
  if (← tree.get z).left = none then
    replace tree z (← tree.get z).right
  else if (← tree.get z).right = none then
    replace tree z (← tree.get z).left
  else
    spliceSuccessor tree z

def treeRemove
    (tree : Tree)
    (key : Int) :
    Except Stop (Tree × Ptr) := do
  match ← removeLoop key (tree.nodeCount + 1) tree
      tree.root with
  | (tree, none) => return (tree, none)
  | (tree, some z) =>
      let tree ← unlink tree (some z)
      let r := (← tree.get (some z)).record
      let tree :=
        { tree with nodeCount := tree.nodeCount - 1 }
      return (tree.freeNode z, r)

end Splay

end CsappLabs
