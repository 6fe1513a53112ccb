import Colinlib.Theory.CMemory

/-!
# The vector: `co_vec.c`

`data` holds one cell for each item the allocation has room for; a null pointer is
the empty block. An index below zero counts from the end. The size of an allocation
is computed in `uint32_t`; like the `int` results, one that does not fit ends the run.
-/
namespace Colinlib.Source.Vec
open Colinlib.Theory.CMemory

variable {α : Type}

structure Covec (α : Type) where
  data : Block α
  cap : Nat
  size : Nat
  itemsize : Nat
  deriving DecidableEq, Repr

def initCap : Nat := 8

/-- The bytes of `n` items, as long as `uint32_t` holds them. `VecBytes` goes on with the product
that wraps; here the run ends. -/
def bytes (n itemsize : Nat) : Except Fault Nat :=
  if n * itemsize < 2 ^ 32 then .ok (n * itemsize) else .error .intOverflow

def covecNew (α : Type) (itemsize : Nat) : Covec α := ⟨[], 0, 0, itemsize⟩

def covecClear (vec : Covec α) : Covec α := { vec with data := [], cap := 0, size := 0 }

def covecResize (vec : Covec α) (size : Nat) : Except Fault (Covec α) := do
  if vec.size = size then return vec
  if vec.cap ≥ size then return { vec with size := size }
  let _ ← bytes size vec.itemsize
  return { vec with data := realloc vec.data size, cap := size, size := size }

def covecGrowcap (vec : Covec α) (cap : Nat) : Except Fault (Covec α) := do
  if cap > vec.cap then
    let _ ← bytes cap vec.itemsize
    return { vec with data := realloc vec.data cap, cap := cap }
  return vec

/-- `_check_and_grow`. -/
def checkAndGrow (vec : Covec α) : Except Fault (Covec α) := do
  if (← int32 (vec.size + 1)) ≥ vec.cap then
    covecGrowcap vec (max initCap (← int32 (vec.cap * 2)))
  else return vec

/-- `index = vec->size + index` for a negative index. -/
def fromEnd (size : Nat) (index : Int) : Int := if index < 0 then size + index else index

def covecMove (vec : Covec α) (from' to' count : Nat) : Except Fault (Covec α) := do
  let cells ← load vec.data from' count
  return { vec with data := ← store vec.data to' cells }

def covecPush (vec : Covec α) (index : Int) (data : α) : Except Fault (Bool × Covec α) := do
  let index := fromEnd vec.size index
  if index < 0 ∨ index > vec.size then return (false, vec)
  let vec ← checkAndGrow vec
  let at' := index.toNat
  let vec ← if at' ≠ vec.size then covecMove vec at' (at' + 1) (vec.size - at') else .ok vec
  let cells ← store vec.data at' [some data]
  return (true, { vec with data := cells, size := ← int32 (vec.size + 1) })

def covecPushTail (vec : Covec α) (data : α) : Except Fault (Bool × Covec α) :=
  covecPush vec vec.size data

def covecPushHead (vec : Covec α) (data : α) : Except Fault (Bool × Covec α) :=
  covecPush vec 0 data

/-- The cell at an index, or nothing where the function returns `false`. -/
def covecGet (vec : Covec α) (index : Int) : Except Fault (Option (Option α)) := do
  let index := fromEnd vec.size index
  if index < 0 ∨ index ≥ vec.size then return none
  let cells ← load vec.data index.toNat 1
  return cells.head?

def covecGetHead (vec : Covec α) : Except Fault (Option (Option α)) := covecGet vec 0

/-- `vec->size-1` is negative for an empty vector. -/
def covecGetTail (vec : Covec α) : Except Fault (Option (Option α)) :=
  covecGet vec (vec.size - 1 : Int)

/-- The pointer returned, as the position of the item. -/
def covecGetPtr (vec : Covec α) (index : Int) : Option Nat :=
  let index := fromEnd vec.size index
  if index < 0 ∨ index ≥ vec.size then none else some index.toNat

def covecSet (vec : Covec α) (index : Int) (cell : Option α) : Except Fault (Bool × Covec α) := do
  let index := fromEnd vec.size index
  if index < 0 ∨ index ≥ vec.size then return (false, vec)
  return (true, { vec with data := ← store vec.data index.toNat [cell] })

def covecSetHead (vec : Covec α) (cell : Option α) : Except Fault (Bool × Covec α) :=
  covecSet vec 0 cell

def covecSetTail (vec : Covec α) (cell : Option α) : Except Fault (Bool × Covec α) :=
  covecSet vec (vec.size - 1 : Int) cell

/-- The item is copied out before the rest moves up. A caller that passes no `data` for it
does not look at it. -/
def covecDel (vec : Covec α) (index : Int) : Except Fault (Option (Option α) × Covec α) := do
  let index := fromEnd vec.size index
  if index < 0 ∨ index ≥ vec.size then return (none, vec)
  let cell ← covecGet vec index
  let at' := index.toNat
  let vec ←
    if at' ≠ vec.size - 1 then covecMove vec (at' + 1) at' (vec.size - at' - 1) else .ok vec
  return (cell, { vec with size := vec.size - 1 })

def covecDelHead (vec : Covec α) : Except Fault (Option (Option α) × Covec α) := covecDel vec 0

def covecDelTail (vec : Covec α) : Except Fault (Option (Option α) × Covec α) :=
  covecDel vec (vec.size - 1 : Int)

def covecSwap (vec : Covec α) (idx1 idx2 : Int) : Except Fault (Covec α) := do
  match ← covecGet vec idx1 with
  | none => return vec
  | some cell1 =>
    match ← covecGet vec idx2 with
    | none => return vec
    | some cell2 =>
      let (_, vec) ← covecSet vec idx1 cell2
      let (_, vec) ← covecSet vec idx2 cell1
      return vec

/-! ## The cells of a vector -/

/-- The block has `cap` cells, and the size is within. -/
structure Shaped (vec : Covec α) : Prop where
  cap : vec.data.length = vec.cap
  fits : vec.size ≤ vec.cap

section Cells
variable {vec : Covec α}

theorem fromEnd_nat (size i : Nat) : fromEnd size (i : Int) = i := if_neg (by omega)

theorem covecResize_spec (h : Shaped vec) (size : Nat) : UnlessOverflow (covecResize vec size)
    (fun vec' => Shaped vec' ∧ vec'.size = size ∧
      ∀ i, i < vec.size → i < size → vec'.data[i]? = vec.data[i]?) := by
  have cap := h.cap
  have fits := h.fits
  unfold covecResize
  refine .ite (fun same => .pure ⟨h, same, fun _ _ _ => rfl⟩) fun _ => ?_
  refine .ite (fun within => .pure ⟨⟨cap, within⟩, rfl, fun _ _ _ => rfl⟩) fun beyond => ?_
  unfold bytes
  split
  · refine .pure ⟨⟨realloc_length _ _, Nat.le_refl _⟩, rfl, fun i inside _ => ?_⟩
    have bound : i < (vec.data.take size).length := by
      rw [List.length_take]
      omega
    rw [realloc, List.getElem?_append_left bound, List.getElem?_take, if_pos (by omega)]
  · rfl

/-- Moving items rearranges the cells and nothing else. -/
theorem covecMove_data (h : Shaped vec) (from' to' count : Nat) (source : from' + count ≤ vec.cap)
    (target : to' + count ≤ vec.cap) : ∃ data, covecMove vec from' to' count =
      .ok { vec with data := data } ∧ data.length = vec.data.length ∧ ∀ i, data[i]? =
        if to' ≤ i ∧ i < to' + count then vec.data[from' + (i - to')]? else vec.data[i]? := by
  have cap := h.cap
  have length : (slice vec.data from' count).length = count := slice_length _ _ _ (by omega)
  have bound : to' + (slice vec.data from' count).length ≤ vec.data.length := by omega
  refine ⟨splice vec.data to' (slice vec.data from' count), ?_, splice_length _ _ _ bound, ?_⟩
  · unfold covecMove load store
    rw [if_pos (by omega), ok_bind, if_pos bound]
    rfl
  · intro i
    rw [splice_getElem? _ _ _ _ bound, length]
    split
    · rw [slice_getElem?, if_pos (by omega)]
    · rfl

theorem covecMove_spec (h : Shaped vec) (from' to' count : Nat) (source : from' + count ≤ vec.cap)
    (target : to' + count ≤ vec.cap) : ∃ vec', covecMove vec from' to' count = .ok vec' ∧
      Shaped vec' ∧ vec'.size = vec.size ∧ ∀ i, vec'.data[i]? =
        if to' ≤ i ∧ i < to' + count then vec.data[from' + (i - to')]? else vec.data[i]? := by
  obtain ⟨data, ran, length, cells⟩ := covecMove_data h from' to' count source target
  exact ⟨_, ran, ⟨length.trans h.cap, h.fits⟩, rfl, cells⟩

theorem covecGet_at (h : Shaped vec) (i : Nat) (inside : i < vec.size) :
    covecGet vec i = .ok vec.data[i]? := by
  have bound : i + 1 ≤ vec.data.length := by
    rw [h.cap]
    exact Nat.lt_of_lt_of_le inside h.fits
  unfold covecGet
  simp only [fromEnd_nat]
  rw [if_neg (by omega), Int.toNat_natCast, load, if_pos bound, ok_bind]
  show Except.ok (slice vec.data i 1).head? = _
  rw [List.head?_eq_getElem?, slice_getElem?, if_pos Nat.one_pos, Nat.add_zero]

theorem covecSet_data (h : Shaped vec) (i : Nat) (inside : i < vec.size) (cell : Option α) :
    ∃ data, covecSet vec i cell = .ok (true, { vec with data := data }) ∧
      data.length = vec.data.length ∧ ∀ k, data[k]? = if k = i then some cell else vec.data[k]? := by
  have bound : i + [cell].length ≤ vec.data.length := by
    rw [h.cap, List.length_singleton]
    exact Nat.lt_of_lt_of_le inside h.fits
  refine ⟨splice vec.data i [cell], ?_, splice_length _ _ _ bound, fun k => ?_⟩
  · unfold covecSet
    simp only [fromEnd_nat]
    rw [if_neg (by omega), Int.toNat_natCast, store, if_pos bound]
    rfl
  · rw [splice_getElem? _ _ _ _ bound, List.length_singleton]
    by_cases same : k = i
    · rw [if_pos (by omega), if_pos same, same, Nat.sub_self]
      rfl
    · rw [if_neg (by omega), if_neg same]

theorem covecSet_at (h : Shaped vec) (i : Nat) (inside : i < vec.size) (cell : Option α) :
    ∃ vec', covecSet vec i cell = .ok (true, vec') ∧ Shaped vec' ∧ vec'.size = vec.size ∧
      ∀ k, vec'.data[k]? = if k = i then some cell else vec.data[k]? := by
  obtain ⟨data, ran, length, cells⟩ := covecSet_data h i inside cell
  exact ⟨_, ran, ⟨length.trans h.cap, h.fits⟩, rfl, cells⟩

end Cells

/-! ## A vector whose items are all set -/

/-- The items of the vector are `xs`. -/
structure Holds (vec : Covec α) (xs : List α) : Prop extends Shaped vec where
  cells : slice vec.data 0 vec.size = xs.map some
  size : vec.size = xs.length

section Specs
variable {vec : Covec α} {xs : List α}

theorem covecNew_holds (itemsize : Nat) : Holds (covecNew α itemsize) [] :=
  ⟨⟨rfl, Nat.le_refl 0⟩, rfl, rfl⟩

theorem Holds.cell (h : Holds vec xs) (i : Nat) (inside : i < xs.length) :
    vec.data[i]? = some (some xs[i]) := by
  have at' := congrArg (·[i]?) h.cells
  simp only [slice_getElem?, Nat.zero_add, h.size, if_pos inside] at at'
  rw [at', List.getElem?_map, List.getElem?_eq_getElem inside]
  rfl

theorem covecGetPtr_spec (h : Holds vec xs) (i : Nat) (inside : i < xs.length) :
    covecGetPtr vec i = some i := by
  have size := h.size
  unfold covecGetPtr
  simp only [fromEnd_nat]
  rw [if_neg (by omega), Int.toNat_natCast]

/-- Growing keeps the items and makes room for one more. -/
theorem checkAndGrow_spec (h : Holds vec xs) : UnlessOverflow (checkAndGrow vec)
    (fun vec' => Holds vec' xs ∧ vec'.size < vec'.cap) := by
  unfold checkAndGrow
  refine .bind (.int32 _) fun n hn => ?_
  refine .ite (fun full => ?_) fun room => ?_
  · refine .bind (.int32 _) fun m hm => ?_
    unfold covecGrowcap
    have fits := h.fits
    have wider : vec.cap < max initCap m := by
      unfold initCap
      omega
    rw [if_pos wider]
    unfold bytes
    split
    · refine .pure ⟨⟨⟨realloc_length _ _, ?_⟩, ?_, h.size⟩, ?_⟩
      · exact Nat.le_of_lt (Nat.lt_of_le_of_lt fits wider)
      · rw [← h.cells]
        apply slice_realloc
        · rw [h.cap]
          simp only
          omega
        · simp only
          omega
      · exact Nat.lt_of_le_of_lt fits wider
    · rfl
  · refine .pure ⟨h, ?_⟩
    omega

/-- The items from the gap on move up, and the new one takes the gap. -/
theorem covecPush_spec (h : Holds vec xs) {i : Nat} (inside : i ≤ xs.length) (x : α) :
    UnlessOverflow (covecPush vec i x)
      (fun out => out.1 = true ∧ Holds out.2 (xs.insertIdx i x)) := by
  have size := h.size
  unfold covecPush
  simp only [fromEnd_nat]
  rw [if_neg (by omega)]
  refine .bind (checkAndGrow_spec h) fun vec' hv => ?_
  obtain ⟨grown, room⟩ := hv
  have size' := grown.size
  have cap := grown.cap
  obtain ⟨data, shifted, length, cells⟩ : ∃ data,
      (if i ≠ vec'.size then covecMove vec' i (i + 1) (vec'.size - i) else .ok vec') =
        .ok { vec' with data := data } ∧ data.length = vec'.data.length ∧
      ∀ j, j ≤ vec'.size → j ≠ i → data[j]? = vec'.data[if j < i then j else j - 1]? := by
    by_cases last : i = vec'.size
    · refine ⟨vec'.data, if_neg (fun ne => ne last), rfl, fun j hj other => ?_⟩
      rw [if_pos (by omega)]
    · obtain ⟨data, ran, length, cells⟩ :=
        covecMove_data grown.toShaped i (i + 1) (vec'.size - i) (by omega) (by omega)
      refine ⟨data, (if_pos last).trans ran, length, fun j hj other => ?_⟩
      rw [cells]
      by_cases before : j < i
      · rw [if_neg (by omega), if_pos before]
      · rw [if_pos (by omega), if_neg before]
        congr 1
        omega
  have bound : i + [some x].length ≤ data.length := by
    rw [length, cap, List.length_singleton]
    omega
  rw [Int.toNat_natCast, ok_bind, ite_bind, shifted, ok_bind]
  refine .bind (.store bound) fun cells' same => ?_
  subst same
  refine .bind (.int32 _) fun n hn => ?_
  obtain ⟨rfl, -⟩ := hn
  refine .pure ⟨rfl, ⟨((splice_length _ _ _ bound).trans length).trans cap, room⟩, ?_, ?_⟩
  · apply List.ext_getElem?
    intro j
    simp only
    rw [slice_getElem?, Nat.zero_add, splice_getElem? _ _ _ _ bound, List.getElem?_map,
      List.getElem?_insertIdx, List.length_singleton]
    by_cases beyond : vec'.size < j
    · rw [if_neg (by omega), if_neg (by omega), if_neg (by omega),
        List.getElem?_eq_none (by omega : xs.length ≤ j - 1)]
      rfl
    · rw [if_pos (by omega)]
      by_cases here : j = i
      · rw [if_pos (by omega), if_neg (by omega), if_pos here, if_pos (by omega), here, Nat.sub_self]
        rfl
      · rw [if_neg (by omega), cells j (by omega) here]
        by_cases before : j < i
        · rw [if_pos before, if_pos before, grown.cell j (by omega),
            List.getElem?_eq_getElem (by omega)]
          rfl
        · rw [if_neg before, if_neg before, if_neg here, grown.cell (j - 1) (by omega),
            List.getElem?_eq_getElem (by omega)]
          rfl
  · simp only
    rw [List.length_insertIdx_of_le_length inside, size']

end Specs

end Colinlib.Source.Vec
