import Colinlib.Theory.CMemory
import Colinlib.Theory.RedBlack

/-!
# The red-black set (`co_set.c`)

Nodes are cells of a heap, named by address; a freed cell is `none`. The sentinel
`nilnode` has a parent and a colour. Its `left` and `right` are null and never
meant to be used: reading or writing them is reported as `nullPointer`. The
mirror-image branches of the source are one body with the side as parameter. A
loop is given one step for every element, and `starved` reports the need of more.
-/
namespace Colinlib.Source.Set
open Colinlib.Theory Colinlib.Theory.CMemory Colinlib.Theory.RedBlack

/-- A `coset_node_t *` that is not null. -/
inductive Ref where
  | nil
  | node (a : Nat)
  deriving DecidableEq, Repr

/-- Colour 0 is `red`, colour 1 is `black`. -/
structure Node (α : Type) where
  parent : Ref
  left : Ref
  right : Ref
  data : α
  color : Color

/-- `nodes` and `next` stand for the allocator: `next` has never been handed out. -/
structure Coset (α : Type) where
  nilParent : Ref
  nilColor : Color
  root : Ref
  fnComp : α → α → Int
  size : Int
  nodes : Nat → Option (Node α)
  next : Nat

variable {α : Type}

def cosetNew (fn : α → α → Int) : Coset α where
  nilParent := .nil
  nilColor := .black
  root := .nil
  fnComp := fn
  size := 0
  nodes := fun _ => none
  next := 0

def deref (set : Coset α) (p : Ref) : Except Fault (Nat × Node α) :=
  match p with
  | .nil => .error .nullPointer
  | .node a =>
    match set.nodes a with
    | some node => .ok (a, node)
    | none => .error .badPointer

def store (set : Coset α) (a : Nat) (node : Node α) : Coset α :=
  { set with nodes := Function.update set.nodes a (some node) }

def getChild (side : Side) (set : Coset α) (p : Ref) : Except Fault Ref := do
  let (_, node) ← deref set p
  .ok (match side with | .left => node.left | .right => node.right)

def setChild (side : Side) (set : Coset α) (p v : Ref) : Except Fault (Coset α) := do
  let (a, node) ← deref set p
  .ok (store set a (match side with | .left => { node with left := v }
                                    | .right => { node with right := v }))

def getData (set : Coset α) (p : Ref) : Except Fault α := do
  let (_, node) ← deref set p
  .ok node.data

def setData (set : Coset α) (p : Ref) (v : α) : Except Fault (Coset α) := do
  let (a, node) ← deref set p
  .ok (store set a { node with data := v })

def getParent (set : Coset α) (p : Ref) : Except Fault Ref :=
  match p with
  | .nil => .ok set.nilParent
  | .node _ => do
    let (_, node) ← deref set p
    .ok node.parent

def setParent (set : Coset α) (p v : Ref) : Except Fault (Coset α) :=
  match p with
  | .nil => .ok { set with nilParent := v }
  | .node _ => do
    let (a, node) ← deref set p
    .ok (store set a { node with parent := v })

def getColor (set : Coset α) (p : Ref) : Except Fault Color :=
  match p with
  | .nil => .ok set.nilColor
  | .node _ => do
    let (_, node) ← deref set p
    .ok node.color

def setColor (set : Coset α) (p : Ref) (c : Color) : Except Fault (Coset α) :=
  match p with
  | .nil => .ok { set with nilColor := c }
  | .node _ => do
    let (a, node) ← deref set p
    .ok (store set a { node with color := c })

/-- One step for every element, and one more. -/
def fuel (set : Coset α) : Nat := set.size.toNat + 1

def searchLoop (set : Coset α) (data : α) : Nat → Ref → Except Fault Ref
  | 0, _ => .error .starved
  | fuel + 1, curr =>
    if curr = .nil then .ok curr else do
      let ret := set.fnComp data (← getData set curr)
      if ret < 0 then do
        let next ← getChild .left set curr
        searchLoop set data fuel next
      else if ret > 0 then do
        let next ← getChild .right set curr
        searchLoop set data fuel next
      else .ok curr

def cosetSearch (set : Coset α) (data : α) : Except Fault Ref :=
  searchLoop set data (fuel set) set.root

def smallestLoop (set : Coset α) : Nat → Ref → Except Fault Ref
  | 0, _ => .error .starved
  | fuel + 1, curr => do
    let left ← getChild .left set curr
    if left = .nil then .ok curr else smallestLoop set fuel left

def cosetSmallest (set : Coset α) (curr : Ref) : Except Fault Ref :=
  smallestLoop set (fuel set) curr

/-- Hang `y` where `x` hangs under `parent`: the test of the rotations and of
`coset_delete` on the parent of the node they replace. -/
def replaceChild (set : Coset α) (parent x y : Ref) : Except Fault (Coset α) :=
  if parent = .nil then .ok { set with root := y } else do
    let left ← getChild .left set parent
    if x = left then setChild .left set parent y else setChild .right set parent y

/-- `if (p != set->nil) p->parent = v`. -/
def setParentOf (set : Coset α) (p v : Ref) : Except Fault (Coset α) :=
  if p ≠ .nil then setParent set p v else .ok set

/-- `_coset_leftrot` for `side = left`, `_coset_rightrot` for `side = right`. -/
def rotate (side : Side) (set : Coset α) (x : Ref) : Except Fault (Coset α) := do
  let y ← getChild side.flip set x
  let inner ← getChild side set y
  let set ← setChild side.flip set x inner
  let set ← setParentOf set inner x
  let parent ← getParent set x
  let set ← setParent set y parent
  let set ← replaceChild set parent x y
  let set ← setChild side set y x
  setParent set x y

def cosetLeftrot (set : Coset α) (x : Ref) : Except Fault (Coset α) := rotate .left set x

def cosetRightrot (set : Coset α) (y : Ref) : Except Fault (Coset α) := rotate .right set y

/-- Case 2 of the insert fix-up: an inner child is rotated outside. -/
def insertInner (side : Side) (set : Coset α) (parent curr : Ref) :
    Except Fault (Coset α × Ref) := do
  let inner ← getChild side.flip set parent
  if curr = inner then do
    let set ← rotate side set parent
    .ok (set, parent)
  else .ok (set, curr)

/-- The body of the insert fix-up where the parent is the grandparent's child on
`side`. -/
def insertFixedupBody (side : Side) (set : Coset α) (curr : Ref) :
    Except Fault (Coset α × Ref) := do
  let parent ← getParent set curr
  let grand ← getParent set parent
  let uncle ← getChild side.flip set grand
  if (← getColor set uncle) = .red then do
    let set ← setColor set parent .black
    let set ← setColor set uncle .black
    let set ← setColor set grand .red
    .ok (set, grand)
  else do
    let (set, curr) ← insertInner side set parent curr
    let parent ← getParent set curr
    let set ← setColor set parent .black
    let grand ← getParent set parent
    let set ← setColor set grand .red
    let set ← rotate side.flip set grand
    .ok (set, curr)

/-- `curr->parent->color == 0`. -/
def insertFixedupGuard (set : Coset α) (curr : Ref) : Except Fault Bool := do
  let parent ← getParent set curr
  let color ← getColor set parent
  .ok (color == .red)

def insertFixedupStep (set : Coset α) (curr : Ref) : Except Fault (Coset α × Ref) := do
  let parent ← getParent set curr
  let grand ← getParent set parent
  let left ← getChild .left set grand
  if parent = left then insertFixedupBody .left set curr else insertFixedupBody .right set curr

def insertFixedupLoop : Nat → Coset α → Ref → Except Fault (Coset α)
  | 0, set, curr => do
    if (← insertFixedupGuard set curr) then .error .starved else .ok set
  | fuel + 1, set, curr => do
    if (← insertFixedupGuard set curr) then do
      let (set, curr) ← insertFixedupStep set curr
      insertFixedupLoop fuel set curr
    else .ok set

def cosetInsertFixedup (set : Coset α) (node : Ref) : Except Fault (Coset α) := do
  let set ← insertFixedupLoop (fuel set) set node
  setColor set set.root .black

/-- The descent of `coset_add`: `none` if an equal element is found, else the
parent for the new node and the last comparison. -/
def placeLoop (set : Coset α) (data : α) : Nat → Ref → Ref → Int →
    Except Fault (Option (Ref × Int))
  | 0, _, _, _ => .error .starved
  | fuel + 1, parent, curr, ret =>
    if curr = .nil then .ok (some (parent, ret)) else do
      let ret := set.fnComp data (← getData set curr)
      if ret < 0 then do
        let next ← getChild .left set curr
        placeLoop set data fuel curr next ret
      else if ret > 0 then do
        let next ← getChild .right set curr
        placeLoop set data fuel curr next ret
      else .ok none

/-- `size++` is an `int` operation. -/
def countUp (set : Coset α) : Except Fault (Coset α) :=
  if set.size + 1 ≤ (intMax : Int) then .ok { set with size := set.size + 1 }
  else .error .intOverflow

def newNode (set : Coset α) (parent : Ref) (data : α) : Ref × Coset α :=
  (.node set.next,
    { store set set.next { parent, left := .nil, right := .nil, data, color := .red } with
      next := set.next + 1 })

/-- Hang a new node under the parent the descent ended at. -/
def attach (set : Coset α) (parent node : Ref) (ret : Int) : Except Fault (Coset α) :=
  if parent = .nil then .ok { set with root := node }
  else if ret < 0 then setChild .left set parent node
  else setChild .right set parent node

def cosetAdd (set : Coset α) (data : α) : Except Fault (Coset α) := do
  match ← placeLoop set data (fuel set) .nil set.root 0 with
  | none => .ok set
  | some (parent, ret) => do
    let (node, set) := newNode set parent data
    let set ← countUp set
    let set ← attach set parent node ret
    cosetInsertFixedup set node

/-- The first step of the delete fix-up: a red sibling is rotated above the parent. -/
def deleteRedSibling (side : Side) (set : Coset α) (curr sibling : Ref) :
    Except Fault (Coset α × Ref) := do
  let color ← getColor set sibling
  if color = .red then do
    let set ← setColor set sibling .black
    let parent ← getParent set curr
    let set ← setColor set parent .red
    let set ← rotate side set parent
    let parent ← getParent set curr
    let sibling ← getChild side.flip set parent
    .ok (set, sibling)
  else .ok (set, sibling)

/-- The step of the delete fix-up for a sibling with a black outer child. -/
def deleteInnerNephew (side : Side) (set : Coset α) (curr sibling : Ref) :
    Except Fault (Coset α × Ref) := do
  let far ← getChild side.flip set sibling
  let farColor ← getColor set far
  if farColor = .black then do
    let near ← getChild side set sibling
    let set ← setColor set near .black
    let set ← setColor set sibling .red
    let set ← rotate side.flip set sibling
    let parent ← getParent set curr
    let sibling ← getChild side.flip set parent
    .ok (set, sibling)
  else .ok (set, sibling)

/-- The body of the delete fix-up where `curr` is its parent's child on `side`. -/
def deleteFixedupBody (side : Side) (set : Coset α) (curr : Ref) :
    Except Fault (Coset α × Ref) := do
  let parent ← getParent set curr
  let sibling ← getChild side.flip set parent
  let (set, sibling) ← deleteRedSibling side set curr sibling
  let near ← getChild side set sibling
  let far ← getChild side.flip set sibling
  let nearColor ← getColor set near
  let farColor ← getColor set far
  if nearColor = .black ∧ farColor = .black then do
    let set ← setColor set sibling .red
    let parent ← getParent set curr
    .ok (set, parent)
  else do
    let (set, sibling) ← deleteInnerNephew side set curr sibling
    let parent ← getParent set curr
    let color ← getColor set parent
    let set ← setColor set sibling color
    let set ← setColor set parent .black
    let far ← getChild side.flip set sibling
    let set ← setColor set far .black
    let set ← rotate side set parent
    .ok (set, set.root)

/-- `curr != set->root && curr->color == 1`. -/
def deleteFixedupGuard (set : Coset α) (curr : Ref) : Except Fault Bool :=
  if curr = set.root then .ok false else do
    let color ← getColor set curr
    .ok (color == .black)

def deleteFixedupStep (set : Coset α) (curr : Ref) : Except Fault (Coset α × Ref) := do
  let parent ← getParent set curr
  let left ← getChild .left set parent
  if curr = left then deleteFixedupBody .left set curr else deleteFixedupBody .right set curr

def deleteFixedupLoop : Nat → Coset α → Ref → Except Fault (Coset α × Ref)
  | 0, set, curr => do
    if (← deleteFixedupGuard set curr) then .error .starved else .ok (set, curr)
  | fuel + 1, set, curr => do
    if (← deleteFixedupGuard set curr) then do
      let (set, curr) ← deleteFixedupStep set curr
      deleteFixedupLoop fuel set curr
    else .ok (set, curr)

def cosetDeleteFixedup (set : Coset α) (curr : Ref) : Except Fault (Coset α) := do
  let (set, curr) ← deleteFixedupLoop (fuel set) set curr
  setColor set curr .black

/-- `CO_FREE` of a node. -/
def freeNode (set : Coset α) (p : Ref) : Except Fault (Coset α) := do
  let (a, _) ← deref set p
  .ok { set with nodes := Function.update set.nodes a none }

/-- The node that is unlinked: `curr`, or its successor when it has two children. -/
def chooseRemoved (set : Coset α) (curr left right : Ref) : Except Fault Ref :=
  if left = .nil ∨ right = .nil then .ok curr else cosetSmallest set right

/-- `if (dnode != curr) memcpy(curr->data, dnode->data, …)`. -/
def copyData (set : Coset α) (curr dnode : Ref) : Except Fault (Coset α) :=
  if dnode ≠ curr then do
    let data ← getData set dnode
    setData set curr data
  else .ok set

/-- `if (dnode->color == 1) _coset_delete_fixedup(set, child)`. -/
def rebalance (set : Coset α) (dnode child : Ref) : Except Fault (Coset α) := do
  let color ← getColor set dnode
  if color = .black then cosetDeleteFixedup set child else .ok set

def cosetDelete (set : Coset α) (data : α) : Except Fault (Coset α) := do
  let curr ← cosetSearch set data
  if curr = .nil then .ok set else do
    let left ← getChild .left set curr
    let right ← getChild .right set curr
    let dnode ← chooseRemoved set curr left right
    let dleft ← getChild .left set dnode
    let dright ← getChild .right set dnode
    let child := if dleft ≠ .nil then dleft else dright
    let dparent ← getParent set dnode
    let set ← setParent set child dparent
    let set ← replaceChild set dparent dnode child
    let set ← copyData set curr dnode
    let set ← rebalance { set with size := set.size - 1 } dnode child
    freeNode set dnode

def cosetExist (set : Coset α) (data : α) : Except Fault Bool := do
  let curr ← cosetSearch set data
  .ok (curr != .nil)

/-- The `data` argument of a call: the caller's own bytes, or those of a node. -/
inductive Data (α : Type) where
  | value (x : α)
  | inside (node : Nat)

/-- What an argument points to. `coset_add` and `coset_delete` read it before they
write anything. -/
def readData (set : Coset α) : Data α → Except Fault α
  | .value x => .ok x
  | .inside a => getData set (.node a)

end Colinlib.Source.Set
