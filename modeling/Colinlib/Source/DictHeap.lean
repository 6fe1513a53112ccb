import Colinlib.Source.Dict
import Colinlib.Theory.Chains

/-!
# The two structures over the dictionary's nodes

A node is in the traversal list and in one bucket chain. The views below read the
links and the payload out of the heap; each part of an operation changes one view
and keeps the others.
-/
namespace Colinlib.Source.Dict
open Colinlib.Theory Colinlib.Theory.CMemory Colinlib.Theory.Chains

variable {κ υ : Type} {dict dict' : Codict κ υ} {a : Nat}

def nextOf (dict : Codict κ υ) (a : Nat) : Option Nat := (dict.nodes a).bind Node.next

/-- What a node holds besides its links. -/
structure Payload (κ υ : Type) where
  key : κ
  value : υ
  hash : UInt64

def Node.payload (node : Node κ υ) : Payload κ υ := ⟨node.key, node.value, node.hash⟩

def payloadOf (dict : Codict κ υ) (a : Nat) : Option (Payload κ υ) :=
  (dict.nodes a).map Node.payload

/-- The traversal list. -/
def linksOf (dict : Codict κ υ) : Links where
  prev a := (dict.nodes a).bind Node.listprev
  next a := (dict.nodes a).bind Node.listnext
  head := dict.listhead
  tail := dict.listtail

/-- Everything but the nodes, the buckets and the ends of the list. -/
structure SameFrame (dict dict' : Codict κ υ) : Prop where
  fnHash : dict'.fnHash = dict.fnHash
  fnEqual : dict'.fnEqual = dict.fnEqual
  cap : dict'.cap = dict.cap
  count : dict'.count = dict.count
  fresh : dict'.fresh = dict.fresh

/-- At most the traversal list changed. -/
structure Relinked (dict dict' : Codict κ υ) : Prop extends SameFrame dict dict' where
  buckets : dict'.buckets = dict.buckets
  next : nextOf dict' = nextOf dict
  payload : payloadOf dict' = payloadOf dict

/-- At most the bucket chains changed. -/
structure Rechained (dict dict' : Codict κ υ) : Prop extends SameFrame dict dict' where
  links : linksOf dict' = linksOf dict
  payload : payloadOf dict' = payloadOf dict

theorem SameFrame.refl (dict : Codict κ υ) : SameFrame dict dict := ⟨rfl, rfl, rfl, rfl, rfl⟩

theorem SameFrame.trans {d₁ d₂ d₃ : Codict κ υ} (h : SameFrame d₁ d₂) (h' : SameFrame d₂ d₃) :
    SameFrame d₁ d₃ :=
  ⟨h'.fnHash.trans h.fnHash, h'.fnEqual.trans h.fnEqual, h'.cap.trans h.cap,
    h'.count.trans h.count, h'.fresh.trans h.fresh⟩

theorem Relinked.refl (dict : Codict κ υ) : Relinked dict dict := ⟨.refl dict, rfl, rfl, rfl⟩

theorem Relinked.trans {d₁ d₂ d₃ : Codict κ υ} (h : Relinked d₁ d₂) (h' : Relinked d₂ d₃) :
    Relinked d₁ d₃ :=
  ⟨h.toSameFrame.trans h'.toSameFrame, h'.buckets.trans h.buckets, h'.next.trans h.next,
    h'.payload.trans h.payload⟩

theorem Rechained.refl (dict : Codict κ υ) : Rechained dict dict := ⟨.refl dict, rfl, rfl⟩

theorem Rechained.trans {d₁ d₂ d₃ : Codict κ υ} (h : Rechained d₁ d₂) (h' : Rechained d₂ d₃) :
    Rechained d₁ d₃ :=
  ⟨h.toSameFrame.trans h'.toSameFrame, h'.links.trans h.links, h'.payload.trans h.payload⟩

/-- A live node. -/
def Alloc (dict : Codict κ υ) (a : Nat) : Prop := payloadOf dict a ≠ none

theorem Alloc.of_payload (same : payloadOf dict' = payloadOf dict) (h : Alloc dict a) :
    Alloc dict' a := by
  unfold Alloc
  rwa [same]

/-- A live node read through the views. -/
theorem Alloc.node (h : Alloc dict a) : ∃ node, dict.nodes a = some node ∧
    node.next = nextOf dict a ∧ node.listprev = (linksOf dict).prev a ∧
    node.listnext = (linksOf dict).next a ∧ payloadOf dict a = some node.payload := by
  unfold Alloc payloadOf at h
  cases hn : dict.nodes a with
  | none => simp [hn] at h
  | some node => exact ⟨node, rfl, by simp [nextOf, linksOf, payloadOf, hn]⟩

theorem deref_ok {node : Node κ υ} (h : dict.nodes a = some node) : deref dict a = .ok node := by
  rw [deref, h]

section Stores

variable {node : Node κ υ}

theorem payloadOf_store (dict : Codict κ υ) (a : Nat) (node : Node κ υ) :
    payloadOf (store dict a node) = Function.update (payloadOf dict) a (some node.payload) := by
  funext b
  by_cases same : b = a
  · simp [payloadOf, store, same]
  · simp [payloadOf, store, same]

theorem nextOf_store (dict : Codict κ υ) (a : Nat) (node : Node κ υ) :
    nextOf (store dict a node) = Function.update (nextOf dict) a node.next := by
  funext b
  by_cases same : b = a
  · simp [nextOf, store, same]
  · simp [nextOf, store, same]

theorem linksOf_store (dict : Codict κ υ) (a : Nat) (node : Node κ υ) :
    linksOf (store dict a node) =
      ((linksOf dict).setPrev a node.listprev).setNext a node.listnext := by
  unfold linksOf store Chains.Links.setPrev Chains.Links.setNext
  congr 1
  all_goals
    funext b
    by_cases same : b = a <;> simp [same]

/-- A write of a node that keeps its payload and its bucket link. -/
theorem relinked_store {node' : Node κ υ} (h : dict.nodes a = some node)
    (next : node'.next = node.next) (payload : node'.payload = node.payload) :
    Relinked dict (store dict a node') := by
  refine ⟨⟨rfl, rfl, rfl, rfl, rfl⟩, rfl, ?_, ?_⟩
  · rw [nextOf_store, Function.update_eq_self_iff, next, nextOf, h]
    rfl
  · rw [payloadOf_store, Function.update_eq_self_iff, payload, payloadOf, h]
    rfl

theorem setListnext_spec (h : Alloc dict a) (v : Option Nat) :
    ∃ dict', setListnext dict a v = .ok dict' ∧ Relinked dict dict' ∧
      linksOf dict' = (linksOf dict).setNext a v := by
  obtain ⟨node, found, -, hprev, -, -⟩ := h.node
  refine ⟨store dict a { node with listnext := v }, ?_, relinked_store found rfl rfl, ?_⟩
  · rw [setListnext, deref_ok found, ok_bind]
  · rw [linksOf_store, Links.setPrev_self hprev]

theorem setListprev_spec (h : Alloc dict a) (v : Option Nat) :
    ∃ dict', setListprev dict a v = .ok dict' ∧ Relinked dict dict' ∧
      linksOf dict' = (linksOf dict).setPrev a v := by
  obtain ⟨node, found, -, -, hnext, -⟩ := h.node
  refine ⟨store dict a { node with listprev := v }, ?_, relinked_store found rfl rfl, ?_⟩
  · rw [setListprev, deref_ok found, ok_bind]
  · rw [linksOf_store]
    exact Links.setNext_self hnext

theorem setNext_spec (h : Alloc dict a) (v : Option Nat) :
    ∃ dict', setNext dict a v = .ok dict' ∧ Rechained dict dict' ∧
      dict'.buckets = dict.buckets ∧ nextOf dict' = Function.update (nextOf dict) a v := by
  obtain ⟨node, found, -, hprev, hnext, hload⟩ := h.node
  refine ⟨store dict a { node with next := v }, ?_, ⟨⟨rfl, rfl, rfl, rfl, rfl⟩, ?_, ?_⟩, rfl,
    nextOf_store dict a _⟩
  · rw [setNext, deref_ok found, ok_bind]
  · rw [linksOf_store, Links.setPrev_self hprev, Links.setNext_self hnext]
  · rw [payloadOf_store, Function.update_eq_self_iff, hload]
    rfl

theorem setValue_spec (h : Alloc dict a) (v : υ) :
    ∃ dict' load, setValue dict a v = .ok dict' ∧ payloadOf dict a = some load ∧
      SameFrame dict dict' ∧ dict'.buckets = dict.buckets ∧ nextOf dict' = nextOf dict ∧
      linksOf dict' = linksOf dict ∧
      payloadOf dict' = Function.update (payloadOf dict) a (some { load with value := v }) := by
  obtain ⟨node, found, hchain, hprev, hnext, hload⟩ := h.node
  refine ⟨store dict a { node with value := v }, node.payload, ?_, hload, ⟨rfl, rfl, rfl, rfl, rfl⟩,
    rfl, ?_, ?_, payloadOf_store dict a _⟩
  · rw [setValue, deref_ok found, ok_bind]
  · rw [nextOf_store, Function.update_eq_self_iff, ← hchain]
  · rw [linksOf_store, Links.setPrev_self hprev, Links.setNext_self hnext]

/-- A freed node is in no view any more. -/
theorem freeNode_spec (h : Alloc dict a) :
    ∃ dict', freeNode dict a = .ok dict' ∧ SameFrame dict dict' ∧ dict'.buckets = dict.buckets ∧
      nextOf dict' = Function.update (nextOf dict) a none ∧
      payloadOf dict' = Function.update (payloadOf dict) a none ∧
      linksOf dict' = ((linksOf dict).setPrev a none).setNext a none := by
  obtain ⟨node, found, -⟩ := h.node
  refine ⟨{ dict with nodes := Function.update dict.nodes a none }, ?_, ⟨rfl, rfl, rfl, rfl, rfl⟩,
    rfl, ?_, ?_, ?_⟩
  · rw [freeNode, deref_ok found, ok_bind]
  · funext b
    by_cases same : b = a <;> simp [nextOf, same]
  · funext b
    by_cases same : b = a <;> simp [payloadOf, same]
  · unfold linksOf Chains.Links.setPrev Chains.Links.setNext
    congr 1
    all_goals
      funext b
      by_cases same : b = a <;> simp [same]

end Stores

section TraversalList

variable {xs l r : List Nat}

/-- The traversal list has the nodes `xs`, all of them live. -/
structure Listed (dict : Codict κ υ) (xs : List Nat) : Prop where
  holds : (linksOf dict).Holds xs
  live : ∀ a ∈ xs, Alloc dict a

theorem dropHead_spec (h : Alloc dict a) :
    ∃ dict', dropHead dict a = .ok dict' ∧ Relinked dict dict' ∧ linksOf dict' =
      (linksOf dict).dropHead a := by
  obtain ⟨node, found, -, -, hnext, -⟩ := h.node
  unfold dropHead Links.dropHead
  split
  · next first =>
    rw [if_pos (show (linksOf dict).head = some a from first)]
    rw [deref_ok found, ok_bind, hnext]
    exact ⟨_, rfl, ⟨⟨rfl, rfl, rfl, rfl, rfl⟩, rfl, rfl, rfl⟩, rfl⟩
  · next other =>
    exact ⟨dict, rfl, .refl dict, (if_neg (show (linksOf dict).head ≠ some a from other)).symm⟩

theorem dropTail_spec (h : Alloc dict a) :
    ∃ dict', dropTail dict a = .ok dict' ∧ Relinked dict dict' ∧ linksOf dict' =
      (linksOf dict).dropTail a := by
  obtain ⟨node, found, -, hprev, -, -⟩ := h.node
  unfold dropTail Links.dropTail
  split
  · next last =>
    rw [if_pos (show (linksOf dict).tail = some a from last)]
    rw [deref_ok found, ok_bind, hprev]
    exact ⟨_, rfl, ⟨⟨rfl, rfl, rfl, rfl, rfl⟩, rfl, rfl, rfl⟩, rfl⟩
  · next other =>
    exact ⟨dict, rfl, .refl dict, (if_neg (show (linksOf dict).tail ≠ some a from other)).symm⟩

theorem skipForward_spec (h : Alloc dict a)
    (before : ∀ p, (linksOf dict).prev a = some p → Alloc dict p) :
    ∃ dict', skipForward dict a = .ok dict' ∧ Relinked dict dict' ∧
      linksOf dict' = (linksOf dict).skipForward a := by
  obtain ⟨node, found, -, hprev, hnext, -⟩ := h.node
  rw [skipForward, deref_ok found, ok_bind, hprev, hnext, Links.skipForward]
  cases hp : (linksOf dict).prev a with
  | none => exact ⟨dict, rfl, .refl dict, rfl⟩
  | some p => exact setListnext_spec (before p hp) _

theorem skipBackward_spec (h : Alloc dict a)
    (after : ∀ n, (linksOf dict).next a = some n → Alloc dict n) :
    ∃ dict', skipBackward dict a = .ok dict' ∧ Relinked dict dict' ∧
      linksOf dict' = (linksOf dict).skipBackward a := by
  obtain ⟨node, found, -, hprev, hnext, -⟩ := h.node
  rw [skipBackward, deref_ok found, ok_bind, hprev, hnext, Links.skipBackward]
  cases hn : (linksOf dict).next a with
  | none => exact ⟨dict, rfl, .refl dict, rfl⟩
  | some n => exact setListprev_spec (after n hn) _

theorem bypassNode_spec (h : Alloc dict a)
    (before : ∀ p, (linksOf dict).prev a = some p → Alloc dict p)
    (after : ∀ n, (linksOf dict).next a = some n → Alloc dict n) :
    ∃ dict', bypassNode dict a = .ok dict' ∧ Relinked dict dict' ∧
      linksOf dict' = (linksOf dict).skip a := by
  obtain ⟨d, run, same, links⟩ := skipForward_spec h before
  have after' : ∀ n, (linksOf d).next a = some n → Alloc d n := by
    intro n hn
    rw [links, Links.skipForward_next] at hn
    exact (after n hn).of_payload same.payload
  obtain ⟨d', run', same', links'⟩ := skipBackward_spec (h.of_payload same.payload) after'
  refine ⟨d', ?_, same.trans same', by rw [links', links, Links.skip]⟩
  rw [bypassNode, run, ok_bind, run']

theorem Listed.neighbours (h : Listed dict (l ++ a :: r)) :
    (∀ p, (linksOf dict).prev a = some p → Alloc dict p) ∧
      (∀ n, (linksOf dict).next a = some n → Alloc dict n) := by
  rw [Double.prev_eq h.holds, Double.next_eq h.holds]
  constructor
  · intro p hp
    exact h.live p (by simp [List.mem_of_getLast? hp])
  · intro n hn
    exact h.live n (by simp [List.mem_of_head? hn])

theorem Listed.once (h : Listed dict (l ++ a :: r)) : a ∉ l ++ r :=
  (List.nodup_middle.mp h.holds.forward.nodup).notMem

theorem Listed.of_relinked {ys : List Nat} (h : Listed dict xs) (same : Relinked dict dict')
    (holds : (linksOf dict').Holds ys) (sub : ∀ y ∈ ys, y ∈ xs ∨ Alloc dict y) :
    Listed dict' ys := by
  refine ⟨holds, fun y hy => ?_⟩
  apply Alloc.of_payload same.payload
  rcases sub y hy with hx | live
  · exact h.live y hx
  · exact live

/-- A new node goes to the end of the list. -/
theorem appendNode_spec (h : Listed dict xs) (live : Alloc dict a) (new : a ∉ xs) :
    ∃ dict', appendNode dict a = .ok dict' ∧ Relinked dict dict' ∧ Listed dict' (xs ++ [a]) := by
  have sub : ∀ y ∈ xs ++ [a], y ∈ xs ∨ Alloc dict y := by
    intro y hy
    rcases List.mem_append.mp hy with hy | hy
    · exact .inl hy
    · rw [List.mem_singleton.mp hy]
      exact .inr live
  unfold appendNode
  cases hhead : dict.listhead with
  | none =>
      obtain rfl := h.holds.empty_iff.mp hhead
      have ends : Relinked dict { dict with listhead := some a, listtail := some a } :=
        ⟨⟨rfl, rfl, rfl, rfl, rfl⟩, rfl, rfl, rfl⟩
      obtain ⟨d₁, run₁, same₁, links₁⟩ := setListnext_spec (live.of_payload ends.payload) none
      obtain ⟨d₂, run₂, same₂, links₂⟩ :=
        setListprev_spec (live.of_payload (ends.trans same₁).payload) none
      have same := (ends.trans same₁).trans same₂
      refine ⟨d₂, by simp only [run₁, ok_bind, run₂], same, h.of_relinked same ?_ sub⟩
      rw [links₂, links₁]
      exact double_single (by simp [Chains.Links.setPrev])
        (by simp [Chains.Links.setPrev, Chains.Links.setNext])
  | some head =>
      have more : xs ≠ [] := by
        intro empty
        have none : dict.listhead = none := h.holds.empty_iff.mpr empty
        rw [hhead] at none
        cases none
      obtain ⟨x, tail⟩ := h.holds.tail_some more
      have hx := h.holds.tail_mem tail
      have ne : x ≠ a := fun same => new (same ▸ hx)
      obtain ⟨d₁, run₁, same₁, links₁⟩ := setListnext_spec (h.live x hx) (some a)
      obtain ⟨d₂, run₂, same₂, links₂⟩ :=
        setListprev_spec (live.of_payload same₁.payload) (some x)
      obtain ⟨d₃, run₃, same₃, links₃⟩ :=
        setListnext_spec (live.of_payload (same₁.trans same₂).payload) none
      have ends : Relinked d₃ { d₃ with listtail := some a } :=
        ⟨⟨rfl, rfl, rfl, rfl, rfl⟩, rfl, rfl, rfl⟩
      have same := ((same₁.trans same₂).trans same₃).trans ends
      have tail' : dict.listtail = some x := tail
      refine ⟨{ d₃ with listtail := some a }, by simp only [tail', run₁, ok_bind, run₂, run₃], same,
        h.of_relinked same ?_ sub⟩
      have links : linksOf { d₃ with listtail := some a } = (linksOf dict).last a x := by
        change { linksOf d₃ with tail := some a } = _
        rw [links₃, links₂, links₁, Links.last, Function.update_comm ne.symm]
        rfl
      rw [links]
      exact h.holds.last tail new

/-- The node in hand becomes the first of those that remain. -/
theorem putFirst_spec (h : Listed dict xs) (more : xs ≠ []) (live : Alloc dict a) (new : a ∉ xs) :
    ∃ dict', putFirst dict a = .ok dict' ∧ Relinked dict dict' ∧ Listed dict' (a :: xs) := by
  obtain ⟨x, head⟩ := h.holds.head_some more
  have hx := h.holds.head_mem head
  obtain ⟨d₁, run₁, same₁, links₁⟩ := setListprev_spec live none
  obtain ⟨d₂, run₂, same₂, links₂⟩ :=
    setListnext_spec (live.of_payload same₁.payload) d₁.listhead
  have head₁ : d₁.listhead = some x := by
    change (linksOf d₁).head = some x
    rw [links₁]
    exact head
  have head₂ : d₂.listhead = some x := by
    change (linksOf d₂).head = some x
    rw [links₂, links₁]
    exact head
  obtain ⟨d₃, run₃, same₃, links₃⟩ :=
    setListprev_spec ((h.live x hx).of_payload (same₁.trans same₂).payload) (some a)
  have ends : Relinked d₃ { d₃ with listhead := some a } :=
    ⟨⟨rfl, rfl, rfl, rfl, rfl⟩, rfl, rfl, rfl⟩
  have same := ((same₁.trans same₂).trans same₃).trans ends
  refine ⟨{ d₃ with listhead := some a }, ?_, same, h.of_relinked same ?_ ?_⟩
  · simp only [putFirst, run₁, ok_bind, run₂, head₂, run₃]
  · have links : linksOf { d₃ with listhead := some a } = (linksOf dict).first a x := by
      change { linksOf d₃ with head := some a } = _
      rw [links₃, links₂, links₁, head₁]
      rfl
    rw [links]
    exact h.holds.first head new
  · intro y hy
    rcases List.mem_cons.mp hy with rfl | hy
    · exact .inr live
    · exact .inl hy

/-- The node in hand becomes the last of those that remain. -/
theorem putLast_spec (h : Listed dict xs) (more : xs ≠ []) (live : Alloc dict a) (new : a ∉ xs) :
    ∃ dict', putLast dict a = .ok dict' ∧ Relinked dict dict' ∧ Listed dict' (xs ++ [a]) := by
  obtain ⟨x, tail⟩ := h.holds.tail_some more
  have hx := h.holds.tail_mem tail
  obtain ⟨d₁, run₁, same₁, links₁⟩ := setListnext_spec live none
  obtain ⟨d₂, run₂, same₂, links₂⟩ :=
    setListprev_spec (live.of_payload same₁.payload) d₁.listtail
  have tail₁ : d₁.listtail = some x := by
    change (linksOf d₁).tail = some x
    rw [links₁]
    exact tail
  have tail₂ : d₂.listtail = some x := by
    change (linksOf d₂).tail = some x
    rw [links₂, links₁]
    exact tail
  obtain ⟨d₃, run₃, same₃, links₃⟩ :=
    setListnext_spec ((h.live x hx).of_payload (same₁.trans same₂).payload) (some a)
  have ends : Relinked d₃ { d₃ with listtail := some a } :=
    ⟨⟨rfl, rfl, rfl, rfl, rfl⟩, rfl, rfl, rfl⟩
  have same := ((same₁.trans same₂).trans same₃).trans ends
  refine ⟨{ d₃ with listtail := some a }, ?_, same, h.of_relinked same ?_ ?_⟩
  · simp only [putLast, run₁, ok_bind, run₂, tail₂, run₃]
  · have links : linksOf { d₃ with listtail := some a } = (linksOf dict).last a x := by
      change { linksOf d₃ with tail := some a } = _
      rw [links₃, links₂, links₁, tail₁]
      rfl
    rw [links]
    exact h.holds.last tail new
  · intro y hy
    rcases List.mem_append.mp hy with hy | hy
    · exact .inl hy
    · rw [List.mem_singleton.mp hy]
      exact .inr live

/-- The list without a node, as `codict_del` and `codict_move` leave it. -/
theorem unlinkList_spec (h : Listed dict (l ++ a :: r)) :
    ∃ d₁ d₂ dict', dropHead dict a = .ok d₁ ∧ dropTail d₁ a = .ok d₂ ∧
      bypassNode d₂ a = .ok dict' ∧ Relinked dict dict' ∧ Listed dict' (l ++ r) ∧
      ((linksOf dict).head ≠ some a → d₁ = dict) ∧ ((linksOf dict).tail ≠ some a → d₂ = d₁) := by
  have live := h.live a (by simp)
  obtain ⟨before, after⟩ := h.neighbours
  obtain ⟨d₁, run₁, same₁, links₁⟩ := dropHead_spec live
  obtain ⟨d₂, run₂, same₂, links₂⟩ := dropTail_spec (live.of_payload same₁.payload)
  have same := same₁.trans same₂
  rw [links₁] at links₂
  obtain ⟨d₃, run₃, same₃, links₃⟩ := bypassNode_spec (live.of_payload same.payload)
    (by
      intro p hp
      rw [links₂, Links.dropTail_prev, Links.dropHead_prev] at hp
      exact (before p hp).of_payload same.payload)
    (by
      intro n hn
      rw [links₂, Links.dropTail_next, Links.dropHead_next] at hn
      exact (after n hn).of_payload same.payload)
  refine ⟨d₁, d₂, d₃, run₁, run₂, run₃, same.trans same₃, ?_, ?_, ?_⟩
  · apply h.of_relinked (same.trans same₃)
    · rw [links₃, links₂]
      exact h.holds.unlink
    · intro y hy
      refine .inl ?_
      simp only [List.mem_append, List.mem_cons] at hy ⊢
      tauto
  · intro other
    exact (Except.ok.inj ((if_neg other).symm.trans run₁)).symm
  · intro other
    have other : d₁.listtail ≠ some a := by
      change (linksOf d₁).tail ≠ some a
      rw [links₁, Links.dropHead_tail]
      exact other
    exact (Except.ok.inj ((if_neg other).symm.trans run₂)).symm

/-- `codict_move` changes the place of one node. -/
theorem codictMove_spec (h : Listed dict (l ++ a :: r)) (head : Bool) :
    ∃ dict', codictMove dict a head = .ok dict' ∧ Relinked dict dict' ∧
      Listed dict' (if head then a :: (l ++ r) else (l ++ r) ++ [a]) := by
  have live := h.live a (by simp)
  obtain ⟨d₁, d₂, d₃, run₁, run₂, run₃, same, listed, firstKept, lastKept⟩ := unlinkList_spec h
  have live' := live.of_payload same.payload
  cases head with
  | true =>
      rw [codictMove, if_pos rfl, if_pos rfl]
      by_cases first : dict.listhead = some a
      · obtain rfl := h.holds.head_iff.mp first
        exact ⟨dict, if_pos first, .refl dict, h⟩
      · rw [if_neg first]
        obtain rfl := firstKept first
        have more : l ++ r ≠ [] := by
          intro empty
          exact first (h.holds.head_iff.mpr (List.append_eq_nil_iff.mp empty).1)
        obtain ⟨d', run, same', listed'⟩ := putFirst_spec listed more live' h.once
        refine ⟨d', ?_, same.trans same', listed'⟩
        rw [run₂, ok_bind, run₃, ok_bind, run]
  | false =>
      rw [codictMove, if_neg Bool.false_ne_true, if_neg Bool.false_ne_true]
      by_cases last : dict.listtail = some a
      · obtain rfl := h.holds.tail_iff.mp last
        refine ⟨dict, if_pos last, .refl dict, ?_⟩
        rw [List.append_nil]
        exact h
      · rw [if_neg last]
        obtain rfl := lastKept last
        have more : l ++ r ≠ [] := by
          intro empty
          exact last (h.holds.tail_iff.mpr (List.append_eq_nil_iff.mp empty).2)
        obtain ⟨d', run, same', listed'⟩ := putLast_spec listed more live' h.once
        refine ⟨d', ?_, same.trans same', listed'⟩
        rw [run₁, ok_bind, run₃, ok_bind, run]

end TraversalList

end Colinlib.Source.Dict
