import Mathlib.Data.Multiset.Basic
import Mathlib.Data.List.Nodup

/-!
# Priority queues and binary heaps

A priority queue is a bag from which a greatest element is taken; among equals any
may be taken, so its steps are a relation. A binary heap stores the bag in a list in
which the children of position `i` are `2 * i + 1` and `2 * i + 2`. While an element
moves up or down the order is broken at one position only; `UpOrdered` and
`DownOrdered` say what still holds there, and each swap carries it along.
-/
namespace Colinlib.Theory.PriorityQueue

variable {α : Type}

/-- `ge a b` says that `a` is at least `b`. -/
structure TotalPreorder (ge : α → α → Prop) : Prop where
  total : ∀ a b, ge a b ∨ ge b a
  trans : ∀ {a b c}, ge a b → ge b c → ge a c

theorem TotalPreorder.refl {ge : α → α → Prop} (order : TotalPreorder ge) (a : α) : ge a a :=
  (order.total a a).elim id id

/-! ## The bag -/

inductive Op (α : Type) where
  | push (a : α)
  | pop
  deriving DecidableEq, Repr

/-- The bag serves the calls and answers each pop: with a greatest element, or with
nothing if it is empty. -/
inductive Serves (ge : α → α → Prop) : Multiset α → List (Op α) → List (Option α) → Multiset α → Prop
  | done (bag) : Serves ge bag [] [] bag
  | push {bag a ops outs bag'} (rest : Serves ge (a ::ₘ bag) ops outs bag') :
      Serves ge bag (.push a :: ops) outs bag'
  | pop {a bag ops outs bag'} (greatest : ∀ b ∈ bag, ge a b) (rest : Serves ge bag ops outs bag') :
      Serves ge (a ::ₘ bag) (.pop :: ops) (some a :: outs) bag'
  | empty {ops outs bag'} (rest : Serves ge 0 ops outs bag') :
      Serves ge 0 (.pop :: ops) (none :: outs) bag'

/-- As many pops as there are elements return all of them, the greatest first. -/
theorem Serves.drained {ge : α → α → Prop} (n : Nat) {bag bag' : Multiset α}
    {outs : List (Option α)} (serves : Serves ge bag (List.replicate n .pop) outs bag')
    (all : bag.card = n) :
    ∃ sorted : List α, outs = sorted.map some ∧ sorted.Pairwise ge ∧ (sorted : Multiset α) = bag ∧
      bag' = 0 := by
  induction n generalizing bag outs with
  | zero =>
      cases serves
      have none := Multiset.card_eq_zero.mp all
      exact ⟨[], rfl, .nil, none.symm, none⟩
  | succ n ih =>
      rw [List.replicate_succ] at serves
      cases serves with
      | empty => cases all
      | @pop a rest _ outs _ greatest serves =>
          rw [Multiset.card_cons, Nat.succ.injEq] at all
          obtain ⟨sorted, shown, order, same, gone⟩ := ih serves all
          refine ⟨a :: sorted, by rw [shown]; rfl, ?_, ?_, gone⟩
          · refine List.pairwise_cons.mpr ⟨fun b hb => greatest b ?_, order⟩
            rw [← same]
            exact hb
          · rw [← same]
            rfl

/-- Pushes only add. -/
theorem Serves.pushed {ge : α → α → Prop} (n : Nat) {a : α} {bag bag' : Multiset α}
    {outs : List (Option α)} (serves : Serves ge bag (List.replicate n (.push a)) outs bag') :
    bag'.card = bag.card + n := by
  induction n generalizing bag with
  | zero =>
      cases serves
      rfl
  | succ n ih =>
      rw [List.replicate_succ] at serves
      cases serves with
      | push rest => rw [ih rest, Multiset.card_cons, Nat.add_assoc, Nat.add_comm 1]

/-! ## Positions -/

def parent (i : Nat) : Nat := (i - 1) / 2
def lchild (i : Nat) : Nat := i * 2 + 1
def rchild (i : Nat) : Nat := i * 2 + 2

theorem parent_lt {i : Nat} (h : 0 < i) : parent i < i := by
  unfold parent
  omega

theorem parent_lchild (i : Nat) : parent (lchild i) = i := by
  unfold parent lchild
  omega

theorem parent_rchild (i : Nat) : parent (rchild i) = i := by
  unfold parent rchild
  omega

theorem child_cases {i c : Nat} (positive : 0 < c) (h : parent c = i) :
    c = lchild i ∨ c = rchild i := by
  unfold parent at h
  unfold lchild rchild
  omega

/-- The list with the elements at two positions exchanged. -/
def swapAt (xs : List α) (i j : Nat) : List α :=
  match xs[i]?, xs[j]? with
  | some a, some b => (xs.set i b).set j a
  | _, _ => xs

/-- Where the element now at `k` was before the exchange. -/
def swapped (i j k : Nat) : Nat := if k = i then j else if k = j then i else k

section Swap
variable {xs : List α} {i j : Nat}

theorem swapAt_eq (hi : i < xs.length) (hj : j < xs.length) :
    swapAt xs i j = (xs.set i xs[j]).set j xs[i] := by
  simp [swapAt, hi, hj]

@[simp] theorem swapAt_length (xs : List α) (i j : Nat) : (swapAt xs i j).length = xs.length := by
  unfold swapAt
  split <;> simp

theorem swapAt_comm (xs : List α) (i j : Nat) : swapAt xs i j = swapAt xs j i := by
  unfold swapAt
  cases at_i : xs[i]? with
  | none => cases xs[j]? <;> rfl
  | some a =>
      cases at_j : xs[j]? with
      | none => rfl
      | some b =>
          by_cases same : i = j
          · subst same
            rw [at_i] at at_j
            cases at_j
            rfl
          · exact List.set_comm b a same

theorem swapAt_perm (hi : i < xs.length) (hj : j < xs.length) : (swapAt xs i j).Perm xs := by
  rw [swapAt_eq hi hj]
  exact List.set_set_perm hi hj

theorem swapAt_getElem? (hi : i < xs.length) (hj : j < xs.length) (k : Nat) :
    (swapAt xs i j)[k]? = xs[swapped i j k]? := by
  rw [swapAt_eq hi hj, List.getElem?_set, List.getElem?_set]
  unfold swapped
  by_cases atj : j = k
  · subst atj
    by_cases same : j = i
    · subst same
      simp [hj]
    · simp [same, hj, hi]
  · by_cases ati : i = k
    · subst ati
      simp [atj, hi, hj]
    · simp [atj, ati, Ne.symm atj, Ne.symm ati]

end Swap

/-! ## Heap order -/

/-- Where both positions are occupied, the first holds at least the second. -/
def GeAt (ge : α → α → Prop) (xs : List α) (i j : Nat) : Prop :=
  ∀ a ∈ xs[i]?, ∀ b ∈ xs[j]?, ge a b

/-- No element is less than one of its children. -/
def Ordered (ge : α → α → Prop) (xs : List α) : Prop := ∀ i, 0 < i → GeAt ge xs (parent i) i

/-- The element at `k` may be greater than its parent; all else is in order. -/
structure UpOrdered (ge : α → α → Prop) (xs : List α) (k : Nat) : Prop where
  others : ∀ i, 0 < i → i ≠ k → GeAt ge xs (parent i) i
  grand : ∀ c, 0 < k → 0 < c → parent c = k → GeAt ge xs (parent k) c

/-- The element at `k` may be less than its children; all else is in order. -/
structure DownOrdered (ge : α → α → Prop) (xs : List α) (k : Nat) : Prop where
  others : ∀ i, 0 < i → parent i ≠ k → GeAt ge xs (parent i) i
  grand : ∀ c, 0 < k → 0 < c → parent c = k → GeAt ge xs (parent k) c

section Order
variable {ge : α → α → Prop} {xs : List α} {i j k c : Nat}

theorem GeAt.trans (order : TotalPreorder ge) (h : GeAt ge xs i j) (h' : GeAt ge xs j k)
    (occupied : j < xs.length) : GeAt ge xs i k := by
  intro a ha b hb
  have middle : xs[j] ∈ xs[j]? := List.getElem?_eq_getElem occupied
  exact order.trans (h a ha _ middle) (h' _ middle b hb)

theorem GeAt.refl (order : TotalPreorder ge) (i : Nat) : GeAt ge xs i i := by
  intro a ha b hb
  rw [Option.mem_def] at ha hb
  rw [ha] at hb
  cases hb
  exact order.refl a

theorem GeAt.other (order : TotalPreorder ge) (h : ¬ GeAt ge xs i j) : GeAt ge xs j i := by
  intro b hb a ha
  refine (order.total b a).resolve_right fun reverse => h fun a' ha' b' hb' => ?_
  rw [Option.mem_def] at ha hb ha' hb'
  rw [ha] at ha'
  rw [hb] at hb'
  cases ha'
  cases hb'
  exact reverse

theorem GeAt.of_swap (hi : i < xs.length) (hj : j < xs.length) {p q : Nat}
    (h : GeAt ge xs (swapped i j p) (swapped i j q)) : GeAt ge (swapAt xs i j) p q := by
  intro a ha b hb
  rw [swapAt_getElem? hi hj] at ha hb
  exact h a ha b hb

/-- The head is greatest. -/
theorem Ordered.head (order : TotalPreorder ge) (h : Ordered ge xs) (i : Nat) :
    GeAt ge xs 0 i := by
  induction i using Nat.strong_induction_on with
  | _ i ih =>
      cases i with
      | zero => exact GeAt.refl order 0
      | succ n =>
          have lt : parent (n + 1) < n + 1 := parent_lt (Nat.succ_pos n)
          by_cases occupied : parent (n + 1) < xs.length
          · exact (ih _ lt).trans order (h _ (Nat.succ_pos n)) occupied
          · intro a _ b hb
            have inside := (List.getElem?_eq_some_iff.mp hb).1
            omega

/-! ### Moving up -/

theorem Ordered.append (h : Ordered ge xs) (x : α) : UpOrdered ge (xs ++ [x]) xs.length := by
  constructor
  · intro i positive other a ha b hb
    rw [Option.mem_def] at ha hb
    have inside := (List.getElem?_eq_some_iff.mp hb).1
    rw [List.length_append, List.length_singleton] at inside
    have before : parent i < i := parent_lt positive
    rw [List.getElem?_append_left (by omega)] at ha hb
    exact h i positive a ha b hb
  · intro c _ positive child a _ b hb
    rw [Option.mem_def] at hb
    have inside := (List.getElem?_eq_some_iff.mp hb).1
    rw [List.length_append, List.length_singleton] at inside
    have before : parent c < c := parent_lt positive
    omega

theorem UpOrdered.finish (h : UpOrdered ge xs k) (stop : 0 < k → GeAt ge xs (parent k) k) :
    Ordered ge xs := by
  intro i positive
  by_cases here : i = k
  · rw [here] at positive ⊢
    exact stop positive
  · exact h.others i positive here

theorem UpOrdered.swap (order : TotalPreorder ge) (h : UpOrdered ge xs k) (positive : 0 < k)
    (inside : k < xs.length) (greater : GeAt ge xs k (parent k)) :
    UpOrdered ge (swapAt xs k (parent k)) (parent k) := by
  have lt : parent k < k := parent_lt positive
  have above : parent k < xs.length := Nat.lt_trans lt inside
  have atk : swapped k (parent k) k = parent k := if_pos rfl
  have atp : swapped k (parent k) (parent k) = k := by
    unfold swapped
    rw [if_neg (Nat.ne_of_lt lt), if_pos rfl]
  have off : ∀ i, i ≠ k → i ≠ parent k → swapped k (parent k) i = i := by
    intro i hk hp
    unfold swapped
    rw [if_neg hk, if_neg hp]
  constructor
  · intro i hi other
    refine GeAt.of_swap inside above ?_
    by_cases self : i = k
    · rw [self, atk, atp]
      exact greater
    · rw [off i self other]
      by_cases below : parent i = k
      · rw [below, atk]
        exact h.grand i positive hi below
      · by_cases sibling : parent i = parent k
        · rw [sibling, atp]
          have old := h.others i hi self
          rw [sibling] at old
          exact greater.trans order old above
        · rw [off _ below sibling]
          exact h.others i hi self
  · intro c root hc child
    refine GeAt.of_swap inside above ?_
    have top : parent (parent k) < parent k := parent_lt root
    rw [off _ (by omega) (by omega)]
    have first := h.others (parent k) root (Nat.ne_of_lt lt)
    by_cases self : c = k
    · rw [self, atk]
      exact first
    · have later : c ≠ parent k := by
        have := parent_lt hc
        omega
      rw [off c self later]
      have second := h.others c hc self
      rw [child] at second
      exact first.trans order second above

/-! ### Moving down -/

theorem DownOrdered.finish (h : DownOrdered ge xs k)
    (stop : ∀ c, 0 < c → parent c = k → GeAt ge xs k c) : Ordered ge xs := by
  intro i positive
  by_cases here : parent i = k
  · rw [here]
    exact stop i positive here
  · exact h.others i positive here

theorem DownOrdered.swap (h : DownOrdered ge xs k) (positive : 0 < c)
    (child : parent c = k) (inside : c < xs.length) (less : GeAt ge xs c k)
    (greatest : ∀ d, 0 < d → parent d = k → GeAt ge xs c d) :
    DownOrdered ge (swapAt xs k c) c := by
  have lt : k < c := by
    rw [← child]
    exact parent_lt positive
  have above : k < xs.length := Nat.lt_trans lt inside
  have atk : swapped k c k = c := if_pos rfl
  have atc : swapped k c c = k := by
    unfold swapped
    rw [if_neg (Nat.ne_of_gt lt), if_pos rfl]
  have off : ∀ i, i ≠ k → i ≠ c → swapped k c i = i := by
    intro i hk hc
    unfold swapped
    rw [if_neg hk, if_neg hc]
  constructor
  · intro i hi other
    refine GeAt.of_swap above inside ?_
    by_cases self : i = c
    · rw [self, child, atk, atc]
      exact less
    · by_cases moved : i = k
      · have root : parent k < k := parent_lt (moved ▸ hi)
        rw [moved, atk, off _ (by omega) (by omega)]
        exact h.grand c (moved ▸ hi) positive child
      · rw [off i moved self]
        by_cases below : parent i = k
        · rw [below, atk]
          exact greatest i hi below
        · rw [off _ below other]
          exact h.others i hi below
  · intro d _ hd grandchild
    have later : c < d := by
      rw [← grandchild]
      exact parent_lt hd
    refine GeAt.of_swap above inside ?_
    rw [child, atk, off d (by omega) (by omega)]
    have old := h.others d hd (by omega)
    rwa [grandchild] at old

/-- The last element takes the place of the head. -/
theorem Ordered.replaceHead (h : Ordered ge xs) (nonempty : xs ≠ []) :
    DownOrdered ge (swapAt xs 0 (xs.length - 1)).dropLast 0 := by
  have length : 0 < xs.length := List.length_pos_iff.mpr nonempty
  have kept : ∀ i, 0 < i → i < xs.length - 1 →
      (swapAt xs 0 (xs.length - 1)).dropLast[i]? = xs[i]? := by
    intro i positive inside
    rw [List.dropLast_eq_take, List.getElem?_take, if_pos (by simpa using inside),
      swapAt_getElem? length (by omega)]
    unfold swapped
    rw [if_neg (by omega), if_neg (by omega)]
  constructor
  · intro i positive deep a ha b hb
    have inside : i < xs.length - 1 := by
      have bound := (List.getElem?_eq_some_iff.mp hb).1
      simpa using bound
    have before : parent i < i := parent_lt positive
    rw [kept i positive inside] at hb
    rw [kept _ (by omega) (by omega)] at ha
    exact h i positive a ha b hb
  · intro c root
    omega

end Order

end Colinlib.Theory.PriorityQueue
