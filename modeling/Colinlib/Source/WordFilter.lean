import Mathlib.Data.List.InsertIdx
import Mathlib.Data.List.Pairwise
import Mathlib.Data.List.Basic
import Colinlib.Source.Utf8

/-!
# The word filter: `co_wordfilter.c`

A node owns its children, so a trie is a value and a function that changes a node
returns the trie with that node changed. `chvec` is `none` for `NULL`; a search that
comes to a node without a child array gives it an empty one. The array is the list of
the items of the vector.
-/
namespace Colinlib.Source.WordFilter
open Colinlib.Theory.CMemory Colinlib.Theory.Utf8 Colinlib.Source.Utf8

/-- `cowf_node_t` -/
structure Node where
  chvec : Option (List Node)
  code : Nat
  isend : Bool
  deriving Repr

structure Cowf where
  root : Option Node
  deriving Repr

def newNode : Node := ⟨none, 0, false⟩

def cowfNew : Cowf := ⟨none⟩

/-- The nodes go with their root. -/
def cowfClear (wf : Cowf) : Cowf := { wf with root := none }

def Node.children (node : Node) : List Node := node.chvec.getD []

def Node.withChildren (node : Node) (children : List Node) : Node :=
  { node with chvec := some children }

/-- `covec_get_tp` -/
def childAt (children : List Node) (index : Int) : Except Fault Node :=
  match children[index.toNat]? with
  | some node => .ok node
  | none => .error .outOfBounds

/-- The child with the code and its index, or the index to insert one at. -/
def searchLoop (children : List Node) (code : Nat) :
    Nat → Int → Int → Int → Option Node → Except Fault (Option Node × Int)
  | 0, _, _, _, _ => .error .starved
  | fuel + 1, mid, low, high, node =>
    if low ≤ high then do
      let mid := (high + low) / 2
      let node ← childAt children mid
      if code = node.code then return (some node, mid)
      else if code > node.code then searchLoop children code fuel mid (mid + 1) high (some node)
      else searchLoop children code fuel mid low (mid - 1) (some node)
    else
      match node with
      | none => return (none, mid)
      | some node => return (none, if code < node.code then mid else mid + 1)

/-- `_cowf_find_child` -/
def findChild (parent : Node) (code : Nat) : Except Fault (Node × Option Node × Int) := do
  let parent := parent.withChildren parent.children
  let n := parent.children.length
  let (node, index) ← searchLoop parent.children code (n + 1) 0 0 (n - 1 : Int) none
  return (parent, node, index)

/-- `_cowf_insert_child`; the child is named by its index. -/
def insertChild (parent : Node) (code : Nat) : Except Fault (Node × Int) := do
  let (parent, node, index) ← findChild parent code
  match node with
  | some _ => return (parent, index)
  | none =>
    let node := { newNode with code := code }
    return (parent.withChildren (parent.children.insertIdx index.toNat node), index)

def Node.setChild (parent : Node) (index : Int) (child : Node) : Node :=
  parent.withChildren (parent.children.set index.toNat child)

/-- The loop of `cowf_addword` from `parent` on, which is `child` too unless it is the
root; at the end the child is marked. The answer is whether a decode error is printed. -/
def addLoop : Nat → Node → Bool → List UInt8 → Except Fault (Bool × Node)
  | 0, _, _, _ => .error .starved
  | fuel + 1, parent, child, p => do
    let marked := if child then { parent with isend := true } else parent
    if (← charAt p) = 0 then return (false, marked)
    match ← coutf8Decode p with
    | none => return (true, marked)
    | some (code, n) =>
      let (parent, index) ← insertChild parent code
      let next ← childAt parent.children index
      let (printed, next) ← addLoop fuel next true (p.drop n)
      return (printed, parent.setChild index next)

def cowfAddword (wf : Cowf) (word : List UInt8) : Except Fault (Bool × Cowf) := do
  let (printed, root) ← addLoop word.length (wf.root.getD newNode) false word
  return (printed, { wf with root := some root })

/-- `_cowf_get_lastchild`: the caller's use of the child found is to read `isend` and to
store what `mark` makes of it; nothing is read where the function returns `NULL`. -/
def getLastchild (mark : Bool → Bool) : Nat → Node → Bool → List UInt8 → Except Fault (Option Bool × Node)
  | 0, _, _, _ => .error .starved
  | fuel + 1, parent, child, p => do
    if (← charAt p) = 0 then
      if child then return (some parent.isend, { parent with isend := mark parent.isend })
      else return (none, parent)
    match ← coutf8Decode p with
    | none => return (none, parent)
    | some (code, n) =>
      let (parent, next, index) ← findChild parent code
      match next with
      | none => return (none, parent)
      | some next =>
        let (found, next) ← getLastchild mark fuel next true (p.drop n)
        return (found, parent.setChild index next)

def cowfExist (wf : Cowf) (word : List UInt8) : Except Fault (Bool × Cowf) := do
  match wf.root with
  | none => return (false, wf)
  | some root =>
    let (found, root) ← getLastchild id word.length root false word
    return (found.getD false, { wf with root := some root })

def cowfDelword (wf : Cowf) (word : List UInt8) : Except Fault Cowf := do
  match wf.root with
  | none => return wf
  | some root =>
    let (_, root) ← getLastchild (fun _ => false) word.length root false word
    return { wf with root := some root }

/-- `_cowf_check_word`: how far after the start the pointer returned is. -/
def checkLoop : Nat → Node → List UInt8 → Nat → Except Fault (Option Nat × Node)
  | 0, _, _, _ => .error .starved
  | fuel + 1, parent, p, moved => do
    if (← charAt p) = 0 then return (none, parent)
    match ← coutf8Decode p with
    | none => return (none, parent)
    | some (code, n) =>
      let (parent, child, index) ← findChild parent code
      match child with
      | none => return (none, parent)
      | some child =>
        if child.isend then return (some (moved + n), parent)
        let (out, child) ← checkLoop fuel child (p.drop n) (moved + n)
        return (out, parent.setChild index child)

def checkWord (parent : Node) (text : List UInt8) : Except Fault (Option Nat × Node) :=
  checkLoop text.length parent text 0

def scanLoop : Nat → Node → List UInt8 → Except Fault (Bool × Node)
  | 0, _, _ => .error .starved
  | fuel + 1, root, p => do
    if (← charAt p) = 0 then return (false, root)
    let (e, root) ← checkWord root p
    if e.isSome then return (true, root)
    match ← coutf8Decode p with
    | none => return (false, root)
    | some (_, n) => scanLoop fuel root (p.drop n)

def cowfCheck (wf : Cowf) (text : List UInt8) : Except Fault (Bool × Cowf) := do
  match wf.root with
  | none => return (false, wf)
  | some root =>
    let (found, root) ← scanLoop text.length root text
    return (found, { wf with root := some root })

/-- The variables of `cowf_fitler`, the trie and the text it rewrites. -/
structure Filtering where
  root : Node
  text : List UInt8
  p : Nat
  result : Bool
  deriving Repr

/-- `while (p != e) *p++ = ch;` -/
def fill (text : List UInt8) (p : Nat) (ch : UInt8) : Nat → Except Fault (List UInt8)
  | 0 => .ok text
  | n + 1 =>
    if p < text.length then fill (text.set p ch) (p + 1) ch n else .error .outOfBounds

/-- One round of the loop, and whether there is another one. -/
def fitlerRound (ch : UInt8) (st : Filtering) : Except Fault (Bool × Filtering) := do
  if (← charAt (st.text.drop st.p)) = 0 then return (false, st)
  let (e, root) ← checkWord st.root (st.text.drop st.p)
  match e with
  | some n =>
    let text ← fill st.text st.p ch n
    return (true, ⟨root, text, st.p + n, true⟩)
  | none =>
    match ← coutf8Decode (st.text.drop st.p) with
    | none => return (false, { st with root := root })
    | some (_, n) => return (true, { st with root := root, p := st.p + n })

def fitlerLoop (ch : UInt8) : Nat → Filtering → Except Fault Filtering
  | 0, _ => .error .starved
  | fuel + 1, st => do
    let (more, st) ← fitlerRound ch st
    if more then fitlerLoop ch fuel st else return st

/-- `cowf_fitler`: what it returns, the text and the trie afterwards. -/
def cowfFitler (wf : Cowf) (text : List UInt8) (ch : UInt8) :
    Except Fault (Bool × List UInt8 × Cowf) := do
  match wf.root with
  | none => return (false, text, wf)
  | some root =>
    let st ← fitlerLoop ch text.length ⟨root, text, 0, false⟩
    return (st.result, st.text, { wf with root := some st.root })

end Colinlib.Source.WordFilter
