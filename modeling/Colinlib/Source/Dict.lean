import Colinlib.Theory.CMemory
import Mathlib.Logic.Function.Basic

/-!
# The dictionary (`co_dict.c`)

Nodes are cells of a heap, named by address; a freed cell is `none`. The hash and
the equality of keys are parameters. A loop over nodes is given one step for every
node ever allocated, and `starved` reports the need of more.
-/
namespace Colinlib.Source.Dict
open Colinlib.Theory Colinlib.Theory.CMemory

structure Node (κ υ : Type) where
  next : Option Nat
  listprev : Option Nat
  listnext : Option Nat
  key : κ
  value : υ
  hash : UInt64

/-- `nodes` and `fresh` stand for the allocator: `fresh` has never been handed out. -/
structure Codict (κ υ : Type) where
  buckets : List (Option Nat)
  listhead : Option Nat
  listtail : Option Nat
  fnHash : κ → UInt64
  fnEqual : κ → κ → Bool
  cap : Nat
  count : Nat
  nodes : Nat → Option (Node κ υ)
  fresh : Nat

variable {κ υ : Type}

def deref (dict : Codict κ υ) (a : Nat) : Except Fault (Node κ υ) :=
  match dict.nodes a with
  | some node => .ok node
  | none => .error .badPointer

def store (dict : Codict κ υ) (a : Nat) (node : Node κ υ) : Codict κ υ :=
  { dict with nodes := Function.update dict.nodes a (some node) }

def setNext (dict : Codict κ υ) (a : Nat) (v : Option Nat) : Except Fault (Codict κ υ) := do
  let node ← deref dict a
  .ok (store dict a { node with next := v })

def setListprev (dict : Codict κ υ) (a : Nat) (v : Option Nat) : Except Fault (Codict κ υ) := do
  let node ← deref dict a
  .ok (store dict a { node with listprev := v })

def setListnext (dict : Codict κ υ) (a : Nat) (v : Option Nat) : Except Fault (Codict κ υ) := do
  let node ← deref dict a
  .ok (store dict a { node with listnext := v })

def getBucket (dict : Codict κ υ) (idx : Nat) : Except Fault (Option Nat) :=
  match dict.buckets[idx]? with
  | some head => .ok head
  | none => .error .outOfBounds

def setBucket (dict : Codict κ υ) (idx : Nat) (v : Option Nat) : Except Fault (Codict κ υ) :=
  if idx < dict.buckets.length then .ok { dict with buckets := dict.buckets.set idx v }
  else .error .outOfBounds

/-- `hash % dict->cap`. -/
def slot (dict : Codict κ υ) (hash : UInt64) : Except Fault Nat :=
  if dict.cap = 0 then .error .divideByZero else .ok (hash.toNat % dict.cap)

def bucketSizes : List Nat :=
  [61, 113, 251, 509, 1021, 2039, 4093, 8191, 16381,
   32749, 65521, 126727, 262063, 522713, 1046429,
   2090867, 4186067, 8363639, 16777207, 33489353]

/-- The first size above `cap`, or the last size. -/
def nextCap (cap : Nat) : Nat :=
  match bucketSizes.find? (fun size => decide (cap < size)) with
  | some size => size
  | none => 33489353

/-- Put a node at the front of its bucket: `node->next = buckets[idx]; buckets[idx] = node`. -/
def pushBucket (dict : Codict κ υ) (idx a : Nat) : Except Fault (Codict κ υ) := do
  let head ← getBucket dict idx
  let dict ← setNext dict a head
  setBucket dict idx (some a)

def rehashLoop : Nat → Option Nat → Codict κ υ → Except Fault (Codict κ υ)
  | _, none, dict => .ok dict
  | 0, some _, _ => .error .starved
  | fuel + 1, some curr, dict => do
    let node ← deref dict curr
    let idx ← slot dict node.hash
    let dict ← pushBucket dict idx curr
    let node ← deref dict curr
    rehashLoop fuel node.listnext dict

/-- `count >= cap * 0.75` is a comparison of doubles, exact for 32-bit operands. -/
def _checkAndResize (dict : Codict κ υ) : Except Fault (Codict κ υ) :=
  if 3 * dict.cap ≤ 4 * dict.count then
    let cap := nextCap dict.cap
    rehashLoop dict.fresh dict.listhead { dict with cap, buckets := List.replicate cap none }
  else .ok dict

/-- The fields as `codict_new` sets them. -/
def blank (fnHash : κ → UInt64) (fnEqual : κ → κ → Bool) : Codict κ υ where
  buckets := []
  listhead := none
  listtail := none
  fnHash := fnHash
  fnEqual := fnEqual
  cap := 0
  count := 0
  nodes := fun _ => none
  fresh := 0

def codictNew (fnHash : κ → UInt64) (fnEqual : κ → κ → Bool) : Except Fault (Codict κ υ) :=
  _checkAndResize (blank fnHash fnEqual)

/-- The test of a chain's nodes against a key. -/
def sameKey (dict : Codict κ υ) (hash : UInt64) (key : κ) (node : Node κ υ) : Bool :=
  node.hash == hash && dict.fnEqual node.key key

def getLoop (dict : Codict κ υ) (hash : UInt64) (key : κ) :
    Nat → Option Nat → Except Fault (Option Nat)
  | _, none => .ok none
  | 0, some _ => .error .starved
  | fuel + 1, some a => do
    let node ← deref dict a
    if sameKey dict hash key node then .ok (some a) else getLoop dict hash key fuel node.next

def codictGet (dict : Codict κ υ) (key : κ) : Except Fault (Option Nat) := do
  let hash := dict.fnHash key
  let idx ← slot dict hash
  let head ← getBucket dict idx
  getLoop dict hash key dict.fresh head

def setValue (dict : Codict κ υ) (a : Nat) (val : υ) : Except Fault (Codict κ υ) := do
  let node ← deref dict a
  .ok (store dict a { node with value := val })

/-- The new node at the end of the traversal list. -/
def appendNode (dict : Codict κ υ) (a : Nat) : Except Fault (Codict κ υ) :=
  match dict.listhead with
  | none => do
    let dict := { dict with listhead := some a, listtail := some a }
    let dict ← setListnext dict a none
    setListprev dict a none
  | some _ => do
    match dict.listtail with
    | none => .error .nullPointer
    | some tail => do
      let dict ← setListnext dict tail (some a)
      let dict ← setListprev dict a (some tail)
      let dict ← setListnext dict a none
      .ok { dict with listtail := some a }

/-- `CO_MALLOC` of a node with its hash, key and value; the links are set later. -/
def newNode (dict : Codict κ υ) (hash : UInt64) (key : κ) (value : υ) : Nat × Codict κ υ :=
  (dict.fresh,
    { store dict dict.fresh { next := none, listprev := none, listnext := none, key, value, hash }
      with fresh := dict.fresh + 1 })

def uint32 (n : Nat) : Nat := n % 2 ^ 32

def codictSet (dict : Codict κ υ) (key : κ) (val : υ) : Except Fault (Nat × Codict κ υ) := do
  match ← codictGet dict key with
  | some a => do
    let dict ← setValue dict a val
    .ok (a, dict)
  | none => do
    let dict ← _checkAndResize dict
    let hash := dict.fnHash key
    let idx ← slot dict hash
    let (a, dict) := newNode dict hash key val
    let dict ← pushBucket dict idx a
    let dict ← appendNode dict a
    .ok (a, { dict with count := uint32 (dict.count + 1) })

/-- The search of `codict_del`: the node before the one found, and the one found. -/
def delLoop (dict : Codict κ υ) (hash : UInt64) (key : κ) :
    Nat → Option Nat → Option Nat → Except Fault (Option Nat × Option Nat)
  | _, prev, none => .ok (prev, none)
  | 0, _, some _ => .error .starved
  | fuel + 1, prev, some a => do
    let node ← deref dict a
    if sameKey dict hash key node then .ok (prev, some a)
    else delLoop dict hash key fuel (some a) node.next

/-- Take a node out of its bucket. -/
def unlinkBucket (dict : Codict κ υ) (idx : Nat) (prev head : Option Nat) (curr : Nat) :
    Except Fault (Codict κ υ) := do
  let node ← deref dict curr
  if head = some curr then setBucket dict idx node.next else
    match prev with
    | some p => setNext dict p node.next
    | none => .error .badPointer

/-- `if (node->listprev) node->listprev->listnext = node->listnext`. -/
def skipForward (dict : Codict κ υ) (a : Nat) : Except Fault (Codict κ υ) := do
  let node ← deref dict a
  match node.listprev with
  | some p => setListnext dict p node.listnext
  | none => .ok dict

/-- `if (node->listnext) node->listnext->listprev = node->listprev`. -/
def skipBackward (dict : Codict κ υ) (a : Nat) : Except Fault (Codict κ υ) := do
  let node ← deref dict a
  match node.listnext with
  | some n => setListprev dict n node.listprev
  | none => .ok dict

/-- The neighbours of a node in the traversal list skip it. -/
def bypassNode (dict : Codict κ υ) (a : Nat) : Except Fault (Codict κ υ) := do
  let dict ← skipForward dict a
  skipBackward dict a

/-- `if (listhead == node) listhead = node->listnext`. -/
def dropHead (dict : Codict κ υ) (a : Nat) : Except Fault (Codict κ υ) :=
  if dict.listhead = some a then do
    let node ← deref dict a
    .ok { dict with listhead := node.listnext }
  else .ok dict

/-- `if (listtail == node) listtail = node->listprev`. -/
def dropTail (dict : Codict κ υ) (a : Nat) : Except Fault (Codict κ υ) :=
  if dict.listtail = some a then do
    let node ← deref dict a
    .ok { dict with listtail := node.listprev }
  else .ok dict

def freeNode (dict : Codict κ υ) (a : Nat) : Except Fault (Codict κ υ) := do
  let _ ← deref dict a
  .ok { dict with nodes := Function.update dict.nodes a none }

def codictDel (dict : Codict κ υ) (key : κ) : Except Fault (Bool × Codict κ υ) := do
  let hash := dict.fnHash key
  let idx ← slot dict hash
  let head ← getBucket dict idx
  let (prev, found) ← delLoop dict hash key dict.fresh none head
  match found with
  | none => .ok (false, dict)
  | some curr => do
    let dict ← unlinkBucket dict idx prev head curr
    let dict ← dropHead dict curr
    let dict ← dropTail dict curr
    let dict ← bypassNode dict curr
    let dict ← freeNode dict curr
    .ok (true, { dict with count := uint32 (dict.count + (2 ^ 32 - 1)) })

def freeChain : Nat → Option Nat → Codict κ υ → Except Fault (Codict κ υ)
  | _, none, dict => .ok dict
  | 0, some _, _ => .error .starved
  | fuel + 1, some a, dict => do
    let node ← deref dict a
    let dict ← freeNode dict a
    freeChain fuel node.next dict

/-- The loop of `codict_clear` from bucket `i` on, with `n` buckets to go. -/
def clearLoop : Nat → Nat → Codict κ υ → Except Fault (Codict κ υ)
  | 0, _, dict => .ok dict
  | n + 1, i, dict => do
    let head ← getBucket dict i
    let dict ← freeChain dict.fresh head dict
    let dict ← setBucket dict i none
    clearLoop n (i + 1) dict

def codictClear (dict : Codict κ υ) : Except Fault (Codict κ υ) := do
  let dict ← clearLoop dict.cap 0 dict
  .ok { dict with listhead := none, listtail := none, count := 0 }

/-- A node at the head of the traversal list, before the one that is there. -/
def putFirst (dict : Codict κ υ) (a : Nat) : Except Fault (Codict κ υ) := do
  let dict ← setListprev dict a none
  let dict ← setListnext dict a dict.listhead
  match dict.listhead with
  | none => .error .nullPointer
  | some head => do
    let dict ← setListprev dict head (some a)
    .ok { dict with listhead := some a }

/-- A node at the end of the traversal list, after the one that is there. -/
def putLast (dict : Codict κ υ) (a : Nat) : Except Fault (Codict κ υ) := do
  let dict ← setListnext dict a none
  let dict ← setListprev dict a dict.listtail
  match dict.listtail with
  | none => .error .nullPointer
  | some tail => do
    let dict ← setListnext dict tail (some a)
    .ok { dict with listtail := some a }

def codictMove (dict : Codict κ υ) (a : Nat) (head : Bool) : Except Fault (Codict κ υ) :=
  if head then
    if dict.listhead = some a then .ok dict else do
      let dict ← dropTail dict a
      let dict ← bypassNode dict a
      putFirst dict a
  else
    if dict.listtail = some a then .ok dict else do
      let dict ← dropHead dict a
      let dict ← bypassNode dict a
      putLast dict a

def codictCount (dict : Codict κ υ) : Nat := dict.count

def codictBegin (dict : Codict κ υ) : Option Nat := dict.listhead

def codictEnd (dict : Codict κ υ) : Option Nat := dict.listtail

def codictNext (dict : Codict κ υ) (a : Nat) : Except Fault (Option Nat) := do
  let node ← deref dict a
  .ok node.listnext

def codictPrev (dict : Codict κ υ) (a : Nat) : Except Fault (Option Nat) := do
  let node ← deref dict a
  .ok node.listprev

def codictIntHash (key : Int32) : UInt64 := key.toInt64.toUInt64

def codictIntEqual (key1 key2 : Int32) : Bool := key1 == key2

end Colinlib.Source.Dict
