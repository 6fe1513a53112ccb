import Colinlib.Theory.CMemory
import Colinlib.Theory.Chains

/-!
# The linked list (`co_list.c`)

Nodes are cells of a heap, named by address; a freed cell is `none`. The address that
`CO_MALLOC` returns is an argument of the call that allocates: any address will do that is
not in use, one that was freed before among them. `α` stands for an item of `itemsize` bytes.
-/
namespace Colinlib.Source.LinkedList
open Colinlib.Theory.CMemory Colinlib.Theory.Chains

structure Node (α : Type) where
  prev : Option Nat
  next : Option Nat
  data : α

structure Colist (α : Type) where
  head : Option Nat
  tail : Option Nat
  nodes : Nat → Option (Node α)

variable {α : Type}

def deref (list : Colist α) (a : Nat) : Except Fault (Node α) :=
  match list.nodes a with
  | some node => .ok node
  | none => .error .badPointer

def store (list : Colist α) (a : Nat) (node : Node α) : Colist α :=
  { list with nodes := Function.update list.nodes a (some node) }

/-- `CO_FREE`. -/
def release (list : Colist α) (a : Nat) : Colist α :=
  { list with nodes := Function.update list.nodes a none }

/-- `CO_MALLOC`, `memset` and `memcpy` of a node. An address in use is never returned. -/
def newNode (list : Colist α) (a : Nat) (data : α) : Except Fault (Colist α) :=
  match list.nodes a with
  | some _ => .error .starved
  | none => .ok (store list a ⟨none, none, data⟩)

def setPrev (list : Colist α) (a : Nat) (v : Option Nat) : Except Fault (Colist α) := do
  let node ← deref list a
  .ok (store list a { node with prev := v })

def setNext (list : Colist α) (a : Nat) (v : Option Nat) : Except Fault (Colist α) := do
  let node ← deref list a
  .ok (store list a { node with next := v })

/-- `if (at) at->prev = v`. -/
def setPrevIf (list : Colist α) (at' v : Option Nat) : Except Fault (Colist α) :=
  match at' with
  | none => .ok list
  | some a => setPrev list a v

/-- `if (at) at->next = v`. -/
def setNextIf (list : Colist α) (at' v : Option Nat) : Except Fault (Colist α) :=
  match at' with
  | none => .ok list
  | some a => setNext list a v

def colistNew : Colist α := ⟨none, none, fun _ => none⟩

def colistPushHead (list : Colist α) (a : Nat) (data : α) : Except Fault (Colist α) := do
  let list ← newNode list a data
  match list.head with
  | none => .ok { list with head := some a, tail := some a }
  | some head => do
    let list ← setNext list a (some head)
    let list ← setPrev list head (some a)
    .ok { list with head := some a }

def colistPushTail (list : Colist α) (a : Nat) (data : α) : Except Fault (Colist α) := do
  let list ← newNode list a data
  match list.tail with
  | none => .ok { list with head := some a, tail := some a }
  | some tail => do
    let list ← setPrev list a (some tail)
    let list ← setNext list tail (some a)
    .ok { list with tail := some a }

/-- The branch of `colist_push_at` that puts the new node before `node`. -/
def pushBefore (list : Colist α) (node a : Nat) : Except Fault (Colist α) := do
  let list ← setNext list a (some node)
  let list ← setPrev list a (← deref list node).prev
  let list ← setNextIf list (← deref list node).prev (some a)
  let list ← setPrev list node (some a)
  .ok (if list.head = some node then { list with head := some a } else list)

/-- The branch that puts it after `node`. -/
def pushAfter (list : Colist α) (node a : Nat) : Except Fault (Colist α) := do
  let list ← setPrev list a (some node)
  let list ← setNext list a (← deref list node).next
  let list ← setPrevIf list (← deref list node).next (some a)
  let list ← setNext list node (some a)
  .ok (if list.tail = some node then { list with tail := some a } else list)

def colistPushAt (list : Colist α) (node : Option Nat) (a : Nat) (data : α) (before : Bool) :
    Except Fault (Colist α) :=
  match node with
  | none => .error .assertion
  | some node => do
    let list ← newNode list a data
    if before then pushBefore list node a else pushAfter list node a

/-- `colist_pop_at` where the node is the head. -/
def leaveHead (list : Colist α) (node : Nat) : Except Fault (Colist α) :=
  if list.head = some node then do
    let next := (← deref list node).next
    setPrevIf { list with head := next } next none
  else .ok list

/-- `colist_pop_at` where the node is the tail. -/
def leaveTail (list : Colist α) (node : Nat) : Except Fault (Colist α) :=
  if list.tail = some node then do
    let prev := (← deref list node).prev
    setNextIf { list with tail := prev } prev none
  else .ok list

/-- `if (node->prev) node->prev->next = node->next`, and the same the other way. -/
def joinNeighbours (list : Colist α) (node : Nat) : Except Fault (Colist α) := do
  let this ← deref list node
  let list ← setNextIf list this.prev this.next
  let this ← deref list node
  setPrevIf list this.next this.prev

/-- The item is copied out where the caller passes a place for it. -/
def colistPopAt (list : Colist α) (node : Option Nat) (keep : Bool) :
    Except Fault (Bool × Option α × Colist α) :=
  match node with
  | none => .ok (false, none, list)
  | some node => do
    let list ← leaveHead list node
    let list ← leaveTail list node
    let list ← joinNeighbours list node
    let data ← if keep then do .ok (some (← deref list node).data) else .ok none
    .ok (true, data, release list node)

def colistPopHead (list : Colist α) (keep : Bool) : Except Fault (Bool × Option α × Colist α) :=
  colistPopAt list list.head keep

def colistPopTail (list : Colist α) (keep : Bool) : Except Fault (Bool × Option α × Colist α) :=
  colistPopAt list list.tail keep

/-- The loop of `colist_free` from a node on. -/
def freeLoop : Nat → Option Nat → Colist α → Except Fault (Colist α)
  | _, none, list => .ok list
  | 0, some _, _ => .error .starved
  | fuel + 1, some node, list => do
    let temp := (← deref list node).next
    freeLoop fuel temp (release list node)

/-- `colist_free`: the nodes that are left when the list itself is released too. -/
def colistFree (fuel : Nat) (list : Colist α) : Except Fault (Nat → Option (Node α)) := do
  let list ← freeLoop fuel list.head list
  .ok list.nodes

/-- A loop over the list from `colist_begin` by `next`, or from `colist_end` by `prev`. -/
def traverse (list : Colist α) (link : Node α → Option Nat) :
    Nat → Option Nat → Except Fault (List (Nat × α))
  | _, none => .ok []
  | 0, some _ => .error .starved
  | fuel + 1, some a => do
    let node ← deref list a
    let rest ← traverse list link fuel (link node)
    .ok ((a, node.data) :: rest)

/-! ## What the calls do to the links and to the items -/

def linksOf (list : Colist α) : Links where
  prev a := (list.nodes a).bind Node.prev
  next a := (list.nodes a).bind Node.next
  head := list.head
  tail := list.tail

def dataOf (list : Colist α) (a : Nat) : Option α := (list.nodes a).map Node.data

/-- The node is allocated. -/
def Alloc (list : Colist α) (a : Nat) : Prop := dataOf list a ≠ none

section Views
variable {list list' : Colist α} {a : Nat}

theorem Alloc.of_data (same : dataOf list' = dataOf list) (h : Alloc list a) : Alloc list' a := by
  unfold Alloc
  rwa [same]

/-- An allocated node read through the views. -/
theorem Alloc.node (h : Alloc list a) : ∃ node, deref list a = .ok node ∧
    node.prev = (linksOf list).prev a ∧ node.next = (linksOf list).next a ∧
    dataOf list a = some node.data := by
  unfold Alloc dataOf at h
  cases hn : list.nodes a with
  | none => simp [hn] at h
  | some node => exact ⟨node, by simp [deref, linksOf, dataOf, hn]⟩

theorem linksOf_store (list : Colist α) (a : Nat) (node : Node α) :
    linksOf (store list a node) = ((linksOf list).setPrev a node.prev).setNext a node.next := by
  unfold linksOf store Links.setPrev Links.setNext
  congr 1
  all_goals
    funext b
    by_cases same : b = a <;> simp [same]

theorem dataOf_store (list : Colist α) (a : Nat) (node : Node α) :
    dataOf (store list a node) = Function.update (dataOf list) a (some node.data) := by
  funext b
  by_cases same : b = a <;> simp [dataOf, store, same]

theorem linksOf_release (list : Colist α) (a : Nat) :
    linksOf (release list a) = ((linksOf list).setPrev a none).setNext a none := by
  unfold linksOf release Links.setPrev Links.setNext
  congr 1
  all_goals
    funext b
    by_cases same : b = a <;> simp [same]

theorem dataOf_release (list : Colist α) (a : Nat) :
    dataOf (release list a) = Function.update (dataOf list) a none := by
  funext b
  by_cases same : b = a <;> simp [dataOf, release, same]

/-- A node written back with its item keeps all items. -/
theorem dataOf_rewrite {node : Node α} (found : dataOf list a = some node.data) :
    dataOf (store list a node) = dataOf list := by
  rw [dataOf_store, ← found, Function.update_eq_self]

theorem newNode_spec (free : dataOf list a = none) (data : α) :
    ∃ list', newNode list a data = .ok list' ∧
      linksOf list' = ((linksOf list).setPrev a none).setNext a none ∧
      dataOf list' = Function.update (dataOf list) a (some data) := by
  refine ⟨store list a ⟨none, none, data⟩, ?_, linksOf_store _ _ _, dataOf_store _ _ _⟩
  have free : list.nodes a = none := Option.map_eq_none_iff.mp free
  rw [newNode, free]

theorem setPrev_spec (h : Alloc list a) (v : Option Nat) :
    ∃ list', setPrev list a v = .ok list' ∧ linksOf list' = (linksOf list).setPrev a v ∧
      dataOf list' = dataOf list := by
  obtain ⟨node, found, -, next, data⟩ := h.node
  refine ⟨store list a { node with prev := v }, ?_, ?_, dataOf_rewrite data⟩
  · rw [setPrev, found, ok_bind]
  · exact (linksOf_store _ _ _).trans (Links.setNext_self next)

theorem setNext_spec (h : Alloc list a) (v : Option Nat) :
    ∃ list', setNext list a v = .ok list' ∧ linksOf list' = (linksOf list).setNext a v ∧
      dataOf list' = dataOf list := by
  obtain ⟨node, found, prev, -, data⟩ := h.node
  refine ⟨store list a { node with next := v }, ?_, ?_, dataOf_rewrite data⟩
  · rw [setNext, found, ok_bind]
  · rw [linksOf_store, Links.setPrev_self prev]

theorem setPrevIf_spec {at' : Option Nat} (h : ∀ a, at' = some a → Alloc list a) (v : Option Nat) :
    ∃ list', setPrevIf list at' v = .ok list' ∧
      linksOf list' = { linksOf list with prev := bypass (linksOf list).prev at' v } ∧
      dataOf list' = dataOf list := by
  cases at' with
  | none => exact ⟨list, rfl, rfl, rfl⟩
  | some a => exact setPrev_spec (h a rfl) v

theorem setNextIf_spec {at' : Option Nat} (h : ∀ a, at' = some a → Alloc list a) (v : Option Nat) :
    ∃ list', setNextIf list at' v = .ok list' ∧
      linksOf list' = { linksOf list with next := bypass (linksOf list).next at' v } ∧
      dataOf list' = dataOf list := by
  cases at' with
  | none => exact ⟨list, rfl, rfl, rfl⟩
  | some a => exact setNext_spec (h a rfl) v

end Views

end Colinlib.Source.LinkedList
