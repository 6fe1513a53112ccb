import Colinlib.Source.VecItems

/-!
# The priority queue: `co_pqueue.c`

A binary heap in a vector, ordered by the comparator of the user, which gets two
pointers to items and reads the bytes behind them. The sizes and offsets of the vector are
products modulo `2 ^ 32`; the positions of the children are computed in `int`.
-/
namespace Colinlib.Source.Pqueue
open Colinlib.Theory.CMemory Colinlib.Theory.PriorityQueue
open Colinlib.Source.Vec (initCap)
open Colinlib.Source.VecBytes Colinlib.Source.VecItems

variable {U : Type}

structure Copqueue (U : Type) where
  vec : Covec
  fnComp : U → List UInt8 → List UInt8 → Int
  ud : U

def copqueueNew (itemsize : UInt16) (fn : U → List UInt8 → List UInt8 → Int) (ud : U) :
    Copqueue U :=
  ⟨covecNew itemsize, fn, ud⟩

def copqueueSize (pq : Copqueue U) : Nat := pq.vec.size

/-- The bytes of the item behind a pointer into the vector. -/
def item (vec : Covec) (ptr : Option Nat) : Except Fault (List UInt8) :=
  match ptr with
  | none => .error .nullPointer
  | some offset => do
    let cells ← load vec.data offset vec.itemsize
    if cells.all Option.isSome then return cells.filterMap id else .error .badPointer

/-- `fn_comp` on the items at two positions. -/
def compareAt (comp : List UInt8 → List UInt8 → Int) (vec : Covec) (i j : Nat) : Except Fault Int := do
  let ptr1 ← covecGetPtr mul32 vec i
  let ptr2 ← covecGetPtr mul32 vec j
  return comp (← item vec ptr1) (← item vec ptr2)

/-- The loop of `_heap_up_tail`. -/
def heapUp (comp : List UInt8 → List UInt8 → Int) (vec : Covec) (child : Nat) : Except Fault Covec := do
  if _h : child > 0 then
    let ret ← compareAt comp vec (parent child) child
    if ret ≥ 0 then return vec
    let vec ← covecSwap mul32 vec child (parent child)
    heapUp comp vec (parent child)
  else return vec
termination_by child
decreasing_by exact parent_lt _h

def heapUpTail (pq : Copqueue U) : Except Fault (Copqueue U) := do
  let size := pq.vec.size
  if size ≤ 1 then return pq
  return { pq with vec := ← heapUp (pq.fnComp pq.ud) pq.vec (size - 1) }

/-- The loop of `_heap_down_head`, which moves the greater child up. -/
def heapDown (comp : List UInt8 → List UInt8 → Int) (size : Nat) (vec : Covec) (parent : Nat) :
    Except Fault Covec := do
  let _ ← int32 (lchild parent)
  if _h : lchild parent < size then
    let _ ← int32 (rchild parent)
    let ret ←
      if rchild parent < size then compareAt comp vec (lchild parent) (rchild parent) else .ok 0
    let child := if ret < 0 then rchild parent else lchild parent
    let ret ← compareAt comp vec parent child
    if ret ≥ 0 then return vec
    let vec ← covecSwap mul32 vec child parent
    heapDown comp size vec child
  else return vec
termination_by size - parent
decreasing_by
  unfold lchild at _h
  unfold lchild rchild
  split <;> omega

def heapDownHead (pq : Copqueue U) : Except Fault (Copqueue U) := do
  let size := pq.vec.size
  if size ≤ 1 then return pq
  return { pq with vec := ← heapDown (pq.fnComp pq.ud) size pq.vec 0 }

def copqueuePush (pq : Copqueue U) (data : Nat → Option UInt8) : Except Fault (Copqueue U) := do
  let (_, vec) ← covecPushTail mul32 pq.vec data
  heapUpTail { pq with vec := vec }

/-- The bytes copied out, or nothing where the function returns `false`. -/
def copqueuePop (pq : Copqueue U) :
    Except Fault (Option (List (Option UInt8)) × Copqueue U) := do
  let size := pq.vec.size
  if size > 0 then
    let vec ← covecSwap mul32 pq.vec 0 (size - 1 : Nat)
    let (data, vec) ← covecDelTail mul32 vec true
    return (data.join, ← heapDownHead { pq with vec := vec })
  return (none, pq)

/-! ## What the loops keep -/

section Specs
variable {n : Nat} {comp : List UInt8 → List UInt8 → Int} {vec : Covec} {xs : List (Item n)}

/-- The order the code looks at, between items of one size. -/
abbrev Ge (comp : List UInt8 → List UInt8 → Int) (a b : Item n) : Prop := 0 ≤ comp a.bytes b.bytes

theorem item_cells (h : Holds vec xs) {i : Nat} (inside : i < xs.length) :
    item vec (some (i * n)) = .ok xs[i].bytes := by
  rw [item, h.itemsize, load_item h inside, ok_bind, Item.cells,
    if_pos (by simp), List.filterMap_map]
  simp
  rfl

theorem compareAt_spec (h : Holds vec xs) {i j : Nat} (hi : i < xs.length) (hj : j < xs.length) :
    compareAt comp vec i j = .ok (comp xs[i].bytes xs[j].bytes) := by
  rw [compareAt, covecGetPtr_item h hi, ok_bind, covecGetPtr_item h hj, ok_bind, item_cells h hi,
    ok_bind, item_cells h hj]
  rfl

theorem geAt_iff {i j : Nat} (hi : i < xs.length) (hj : j < xs.length) :
    GeAt (Ge comp) xs i j ↔ 0 ≤ comp xs[i].bytes xs[j].bytes := by
  constructor
  · intro h
    exact h _ (List.getElem?_eq_getElem hi) _ (List.getElem?_eq_getElem hj)
  · intro h a ha b hb
    rw [List.getElem?_eq_getElem hi, Option.mem_some_iff] at ha
    rw [List.getElem?_eq_getElem hj, Option.mem_some_iff] at hb
    rwa [← ha, ← hb]

/-- The vector holds a rearrangement of `xs` in heap order. -/
structure Heaped (comp : List UInt8 → List UInt8 → Int) (cap : Nat) (xs : List (Item n))
    (vec : Covec) : Prop where
  same : vec.cap = cap
  heap : ∃ ys, Holds vec ys ∧ ys.Perm xs ∧ Ordered (Ge comp) ys

theorem Heaped.of_perm {cap : Nat} {ys : List (Item n)} (h : Heaped comp cap ys vec)
    (perm : ys.Perm xs) : Heaped comp cap xs vec := by
  obtain ⟨zs, holds, perm', ordered⟩ := h.heap
  exact ⟨h.same, zs, holds, perm'.trans perm, ordered⟩

theorem heapUp_spec (order : TotalPreorder (Ge (n := n) comp)) (k : Nat) (h : Holds vec xs)
    (up : UpOrdered (Ge comp) xs k) (inside : k < xs.length) :
    ∃ vec', heapUp comp vec k = .ok vec' ∧ Heaped comp vec.cap xs vec' := by
  induction k using Nat.strong_induction_on generalizing vec xs with
  | _ k ih =>
      rw [heapUp]
      by_cases positive : k > 0
      · have lt : parent k < k := parent_lt positive
        have above : parent k < xs.length := Nat.lt_trans lt inside
        rw [dif_pos positive, compareAt_spec h above inside, ok_bind]
        by_cases stop : comp xs[parent k].bytes xs[k].bytes ≥ 0
        · rw [if_pos stop]
          refine ⟨vec, rfl, rfl, xs, h, .refl xs, up.finish fun _ => ?_⟩
          exact (geAt_iff above inside).mpr stop
        · have greater : GeAt (Ge comp) xs k (parent k) := by
            apply GeAt.other order
            rw [geAt_iff above inside]
            exact stop
          obtain ⟨vec₁, ran, holds, cap⟩ := covecSwap_items h inside above
          obtain ⟨vec', done, heaped⟩ := ih (parent k) lt holds
            (up.swap order positive inside greater) (by simpa using above)
          rw [if_neg stop, ran]
          exact ⟨vec', done, cap ▸ heaped.of_perm (swapAt_perm inside above)⟩
      · rw [dif_neg positive]
        exact ⟨vec, rfl, rfl, xs, h, .refl xs, up.finish fun absurd => (positive absurd).elim⟩

/-- The child chosen is the greater one. -/
theorem child_greatest {k c : Nat} (order : TotalPreorder (Ge (n := n) comp))
    (left : lchild k < xs.length)
    (choice : c = lchild k ∧ (∀ h : rchild k < xs.length, 0 ≤ comp xs[lchild k].bytes xs[rchild k].bytes) ∨
      c = rchild k ∧ ∃ h : rchild k < xs.length, comp xs[lchild k].bytes xs[rchild k].bytes < 0) :
    ∀ d, 0 < d → parent d = k → GeAt (Ge comp) xs c d := by
  intro d positive child
  rcases choice with ⟨rfl, least⟩ | ⟨rfl, right, less⟩
  · rcases child_cases positive child with rfl | rfl
    · exact GeAt.refl order _
    · by_cases right : rchild k < xs.length
      · exact (geAt_iff left right).mpr (least right)
      · intro a _ b hb
        exact absurd (List.getElem?_eq_some_iff.mp hb).1 right
  · rcases child_cases positive child with rfl | rfl
    · apply GeAt.other order
      rw [geAt_iff left right]
      exact Int.not_le.mpr less
    · exact GeAt.refl order _

/-- The positions of the children of an item that is there fit an `int`. -/
theorem int32_child {k size : Nat} (few : size ≤ 2 ^ 30) (inside : k < size) :
    int32 (lchild k) = .ok (lchild k) ∧
      (lchild k < size → int32 (rchild k) = .ok (rchild k)) := by
  unfold lchild rchild int32 intMax
  exact ⟨if_pos (by omega), fun left => if_pos (by omega)⟩

theorem heapDown_spec (order : TotalPreorder (Ge (n := n) comp)) (k : Nat) (h : Holds vec xs)
    (few : xs.length ≤ 2 ^ 30) (inside : k < xs.length) (down : DownOrdered (Ge comp) xs k) :
    ∃ vec', heapDown comp xs.length vec k = .ok vec' ∧ Heaped comp vec.cap xs vec' := by
  induction hn : xs.length - k using Nat.strong_induction_on generalizing vec xs k with
  | _ m ih =>
      have ints := int32_child few inside
      rw [heapDown, ints.1, ok_bind]
      by_cases left : lchild k < xs.length
      · rw [dif_pos left, ints.2 left, ok_bind]
        -- The child that is compared with the parent, whichever the code takes.
        have continue' : ∀ c, c = lchild k ∧ (∀ h : rchild k < xs.length,
              0 ≤ comp xs[lchild k].bytes xs[rchild k].bytes) ∨
            c = rchild k ∧ (∃ h : rchild k < xs.length,
              comp xs[lchild k].bytes xs[rchild k].bytes < 0) →
            ∃ vec', (do
              let ret ← compareAt comp vec k c
              if ret ≥ 0 then return vec
              let vec ← covecSwap mul32 vec c k
              heapDown comp xs.length vec c) = .ok vec' ∧ Heaped comp vec.cap xs vec' := by
          intro c choice
          have greatest := child_greatest order left choice
          have bound : c < xs.length := by
            rcases choice with ⟨rfl, -⟩ | ⟨rfl, right, -⟩
            · exact left
            · exact right
          have child : 0 < c ∧ parent c = k ∧ k < c := by
            rcases choice with ⟨rfl, -⟩ | ⟨rfl, -⟩
            · exact ⟨Nat.succ_pos _, parent_lchild k, by unfold lchild; omega⟩
            · exact ⟨Nat.succ_pos _, parent_rchild k, by unfold rchild; omega⟩
          rw [compareAt_spec h inside bound, ok_bind]
          by_cases stop : comp xs[k].bytes xs[c].bytes ≥ 0
          · rw [if_pos stop]
            refine ⟨vec, rfl, rfl, xs, h, .refl xs, down.finish fun d positive below => ?_⟩
            exact ((geAt_iff inside bound).mpr stop).trans order (greatest d positive below) bound
          · have less : GeAt (Ge comp) xs c k := by
              apply GeAt.other order
              rw [geAt_iff inside bound]
              exact stop
            obtain ⟨vec₁, ran, holds, cap⟩ := covecSwap_items h bound inside
            rw [swapAt_comm] at holds
            have lower := ih (xs.length - c) (by omega) c holds (by rwa [swapAt_length])
              (by rwa [swapAt_length]) (down.swap child.1 child.2.1 bound less greatest)
              (by rw [swapAt_length])
            rw [swapAt_length, cap] at lower
            obtain ⟨vec', done, heaped⟩ := lower
            rw [if_neg stop, ran]
            exact ⟨vec', done, heaped.of_perm (swapAt_perm inside bound)⟩
        by_cases right : rchild k < xs.length
        · rw [if_pos right, compareAt_spec h left right, ok_bind]
          by_cases less : comp xs[lchild k].bytes xs[rchild k].bytes < 0
          · simp only [if_pos less]
            exact continue' _ (Or.inr ⟨rfl, right, less⟩)
          · simp only [if_neg less]
            exact continue' _ (Or.inl ⟨rfl, fun _ => Int.not_lt.mp less⟩)
        · rw [if_neg right, ok_bind]
          exact continue' _ (Or.inl ⟨rfl, fun absurd => (right absurd).elim⟩)
      · rw [dif_neg left]
        refine ⟨vec, rfl, rfl, xs, h, .refl xs, down.finish fun c positive child a _ b hb => ?_⟩
        have bound := (List.getElem?_eq_some_iff.mp hb).1
        rcases child_cases positive child with rfl | rfl
        · exact absurd bound left
        · unfold lchild rchild at *
          omega

/-- The queue holds the items, in heap order, under its comparator. -/
structure Queued (comp : List UInt8 → List UInt8 → Int) (pq : Copqueue U) (xs : List (Item n)) :
    Prop where
  comparator : pq.fnComp pq.ud = comp
  items : Holds pq.vec xs
  grown : Grown pq.vec
  ordered : Ordered (Ge comp) xs

theorem copqueueNew_queued (itemsize : UInt16) (fn : U → List UInt8 → List UInt8 → Int) (ud : U) :
    Queued (fn ud) (copqueueNew itemsize fn ud) ([] : List (Item itemsize.toNat)) := by
  refine ⟨rfl, covecNew_items itemsize, covecNew_grown itemsize, ?_⟩
  intro i _ a _ b hb
  cases hb

theorem heapUpTail_spec (pq : Copqueue U) (order : TotalPreorder (Ge (n := n) comp))
    (same : pq.fnComp pq.ud = comp) (h : Holds pq.vec xs) (grown : Grown pq.vec)
    (up : UpOrdered (Ge comp) xs (xs.length - 1)) :
    ∃ pq' ys, heapUpTail pq = .ok pq' ∧ Queued comp pq' ys ∧ ys.Perm xs := by
  have size := h.size
  unfold heapUpTail
  by_cases single : pq.vec.size ≤ 1
  · refine ⟨pq, xs, if_pos single, ⟨same, h, grown, up.finish fun positive => ?_⟩, .refl xs⟩
    omega
  · obtain ⟨vec', ran, cap, ys, final, perm, ordered⟩ :=
      heapUp_spec order (xs.length - 1) h up (by omega)
    simp only
    rw [if_neg single, same, size, ran]
    refine ⟨_, ys, rfl, ⟨same, final, grown.shrink cap ?_, ordered⟩, perm⟩
    rw [final.size, perm.length_eq, ← size]

theorem heapDownHead_spec (pq : Copqueue U) (order : TotalPreorder (Ge (n := n) comp))
    (same : pq.fnComp pq.ud = comp) (h : Holds pq.vec xs) (grown : Grown pq.vec)
    (down : DownOrdered (Ge comp) xs 0) :
    ∃ pq' ys, heapDownHead pq = .ok pq' ∧ Queued comp pq' ys ∧ ys.Perm xs := by
  have size := h.size
  unfold heapDownHead
  by_cases single : pq.vec.size ≤ 1
  · refine ⟨pq, xs, if_pos single, ⟨same, h, grown, down.finish fun c positive _ a _ b hb => ?_⟩,
      .refl xs⟩
    have bound := (List.getElem?_eq_some_iff.mp hb).1
    omega
  · obtain ⟨vec', ran, cap, ys, final, perm, ordered⟩ :=
      heapDown_spec order 0 h (h.few grown) (by omega) down
    simp only
    rw [if_neg single, same, size, ran]
    refine ⟨_, ys, rfl, ⟨same, final, grown.shrink cap ?_, ordered⟩, perm⟩
    rw [final.size, perm.length_eq, ← size]

theorem copqueuePush_spec {pq : Copqueue U} (order : TotalPreorder (Ge (n := n) comp))
    (h : Queued comp pq xs) (room : HasRoom pq.vec) (x : Item n) :
    ∃ pq' ys, copqueuePush pq x.pointer = .ok pq' ∧ Queued comp pq' ys ∧ ys.Perm (x :: xs) := by
  obtain ⟨vec, pushed, holds, grown⟩ := covecPushTail_items h.items h.grown room x
  have last : UpOrdered (Ge comp) (xs ++ [x]) ((xs ++ [x]).length - 1) := by
    rw [List.length_append, List.length_singleton, Nat.add_sub_cancel]
    exact h.ordered.append x
  obtain ⟨pq', ys, ran, queued, perm⟩ :=
    heapUpTail_spec { pq with vec := vec } order h.comparator holds grown last
  refine ⟨pq', ys, ?_, queued, perm.trans (List.perm_append_singleton x xs)⟩
  rw [copqueuePush, pushed]
  exact ran

/-- Without room there is no way on. -/
theorem copqueuePush_stops {pq : Copqueue U} (h : Queued comp pq xs) (narrow : n < 2 ^ 16)
    (full : ¬ HasRoom pq.vec) (data : Nat → Option UInt8) :
    ∃ f, copqueuePush pq data = .error f := by
  obtain ⟨f, stops⟩ := covecPushTail_stops h.items.toSound (by rwa [h.items.itemsize]) full data
  refine ⟨f, ?_⟩
  rw [copqueuePush, stops]
  rfl

theorem copqueuePop_empty {pq : Copqueue U} (h : Queued comp pq ([] : List (Item n))) :
    copqueuePop pq = .ok (none, pq) := by
  unfold copqueuePop
  simp only
  rw [if_neg (by rw [h.items.size]; simp)]
  rfl

theorem copqueuePop_spec {pq : Copqueue U} (order : TotalPreorder (Ge (n := n) comp))
    (h : Queued comp pq xs) (nonempty : xs ≠ []) : ∃ a ys pq',
      copqueuePop pq = .ok (some a.cells, pq') ∧ Queued comp pq' ys ∧ (a :: ys).Perm xs ∧
      ∀ b ∈ ys, Ge comp a b := by
  have length : 0 < xs.length := List.length_pos_iff.mpr nonempty
  have size := h.items.size
  have inside : pq.vec.size - 1 < xs.length := by omega
  obtain ⟨vec₁, swapped, holds₁, cap₁⟩ := covecSwap_items h.items length inside
  have nonempty₁ : swapAt xs 0 (pq.vec.size - 1) ≠ [] := by
    apply List.length_pos_iff.mp
    rw [swapAt_length]
    exact length
  obtain ⟨vec₂, deleted, holds₂, cap₂⟩ := covecDelTail_items holds₁ nonempty₁
  -- The old head is now last, and leaves.
  have head : (swapAt xs 0 (pq.vec.size - 1)).getLast nonempty₁ = xs[0] := by
    have last := swapAt_getElem? length inside (pq.vec.size - 1)
    rw [List.getLast_eq_getElem]
    apply Option.some.inj
    rw [← List.getElem?_eq_getElem, swapAt_length, show xs.length - 1 = pq.vec.size - 1 by omega,
      last, ← List.getElem?_eq_getElem length]
    congr 1
    unfold Colinlib.Theory.PriorityQueue.swapped
    split
    · omega
    · simp
  have rest : ((swapAt xs 0 (pq.vec.size - 1)).getLast nonempty₁ ::
      (swapAt xs 0 (pq.vec.size - 1)).dropLast).Perm xs := by
    have whole := List.dropLast_append_getLast nonempty₁
    have perm := List.perm_append_singleton ((swapAt xs 0 (pq.vec.size - 1)).getLast nonempty₁)
      (swapAt xs 0 (pq.vec.size - 1)).dropLast
    rw [whole] at perm
    exact perm.symm.trans (swapAt_perm length inside)
  have down : DownOrdered (Ge comp) (swapAt xs 0 (pq.vec.size - 1)).dropLast 0 := by
    rw [size]
    exact h.ordered.replaceHead nonempty
  generalize (swapAt xs 0 (pq.vec.size - 1)).dropLast = remaining at holds₂ rest down
  rw [head] at rest deleted
  have fewer := rest.length_eq
  have greatest : ∀ ys : List (Item n), ys.Perm remaining → ∀ b ∈ ys, Ge comp xs[0] b := by
    intro ys perm b hb
    have member : b ∈ xs := rest.subset (List.mem_cons_of_mem _ (perm.subset hb))
    obtain ⟨i, hi, same⟩ := List.getElem_of_mem member
    have top := h.ordered.head order i
    rw [geAt_iff length hi, same] at top
    exact top
  have grown : Grown vec₂ := by
    refine h.grown.shrink (cap₂.trans cap₁) ?_
    rw [holds₂.size, size, ← fewer]
    exact Nat.le_succ _
  obtain ⟨pq', ys, ran, queued, perm⟩ :=
    heapDownHead_spec { pq with vec := vec₂ } order h.comparator holds₂ grown down
  refine ⟨xs[0], ys, pq', ?_, queued, (perm.cons _).trans rest, greatest ys perm⟩
  unfold copqueuePop
  simp only
  rw [if_pos (by omega)]
  have swapped' : covecSwap mul32 pq.vec 0 ((pq.vec.size - 1 : Nat) : Int) = .ok vec₁ := swapped
  rw [swapped', ok_bind, deleted, ok_bind]
  simp only
  rw [ran]
  rfl

end Specs

end Colinlib.Source.Pqueue
