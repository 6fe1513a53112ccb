import Mathlib.Logic.Function.Basic
import Colinlib.Source.Vec

/-!
# The bytes of a vector (`co_vec.c`)

`Source.Vec` counts in items; here an allocation is counted in bytes, as the source does. A
count is an `int` and the item size a `uint32_t`, so their product is taken in `uint32_t`,
both for the sizes passed to `realloc` and for the offsets of items. The multiplication is a
parameter: `mul32` is the one of the source, and `mulExact` stops at a product that is not
the mathematical one.
-/
namespace Colinlib.Source.VecBytes
open Colinlib.Theory Colinlib.Theory.CMemory
open Colinlib.Source.Vec (initCap fromEnd)

structure Covec where
  data : Block UInt8
  cap : Nat
  size : Nat
  itemsize : Nat
  deriving DecidableEq, Repr

abbrev Product := Nat → Nat → Except Fault Nat

def mul32 : Product := fun n itemsize => .ok (n * itemsize % 2 ^ 32)

def mulExact : Product := fun n itemsize =>
  if n * itemsize < 2 ^ 32 then .ok (n * itemsize) else .error .intOverflow

/-- `itemsize` is a `uint16_t`. -/
def covecNew (itemsize : UInt16) : Covec := ⟨[], 0, 0, itemsize.toNat⟩

def covecClear (vec : Covec) : Covec := { vec with data := [], cap := 0, size := 0 }

section
variable (mul : Product)

def covecResize (vec : Covec) (size : Nat) : Except Fault Covec := do
  if vec.size = size then return vec
  if vec.cap ≥ size then return { vec with size := size }
  let bytes ← mul size vec.itemsize
  return { vec with data := realloc vec.data bytes, cap := size, size := size }

def covecGrowcap (vec : Covec) (cap : Nat) : Except Fault Covec := do
  if cap > vec.cap then
    let bytes ← mul cap vec.itemsize
    return { vec with data := realloc vec.data bytes, cap := cap }
  return vec

/-- `_check_and_grow`. -/
def checkAndGrow (vec : Covec) : Except Fault Covec := do
  if (← int32 (vec.size + 1)) ≥ vec.cap then
    covecGrowcap mul vec (max initCap (← int32 (vec.cap * 2)))
  else return vec

def covecMove (vec : Covec) (from' to' count : Nat) : Except Fault Covec := do
  let dst ← mul to' vec.itemsize
  let src ← mul from' vec.itemsize
  let bytes ← mul count vec.itemsize
  let cells ← load vec.data src bytes
  return { vec with data := ← store vec.data dst cells }

/-- `data` is the caller's memory from a pointer on. -/
def readItem (data : Nat → Option UInt8) (itemsize : Nat) : List (Option UInt8) :=
  (List.range itemsize).map data

def covecPush (vec : Covec) (index : Int) (data : Nat → Option UInt8) :
    Except Fault (Bool × Covec) := do
  let index := fromEnd vec.size index
  if index < 0 ∨ index > vec.size then return (false, vec)
  let vec ← checkAndGrow mul vec
  let at' := index.toNat
  let vec ←
    (if at' ≠ vec.size then covecMove mul vec at' (at' + 1) (vec.size - at') else .ok vec)
  let offset ← mul at' vec.itemsize
  let cells ← store vec.data offset (readItem data vec.itemsize)
  return (true, { vec with data := cells, size := ← int32 (vec.size + 1) })

/-- The bytes copied out, or nothing where the function returns `false`. -/
def covecGet (vec : Covec) (index : Int) : Except Fault (Option (List (Option UInt8))) := do
  let index := fromEnd vec.size index
  if index < 0 ∨ index ≥ vec.size then return none
  let offset ← mul index.toNat vec.itemsize
  return some (← load vec.data offset vec.itemsize)

/-- The pointer returned, as an offset in `data`. -/
def covecGetPtr (vec : Covec) (index : Int) : Except Fault (Option Nat) := do
  let index := fromEnd vec.size index
  if index < 0 ∨ index ≥ vec.size then return none
  return some (← mul index.toNat vec.itemsize)

def covecSet (vec : Covec) (index : Int) (data : Nat → Option UInt8) :
    Except Fault (Bool × Covec) := do
  let index := fromEnd vec.size index
  if index < 0 ∨ index ≥ vec.size then return (false, vec)
  let offset ← mul index.toNat vec.itemsize
  return (true, { vec with data := ← store vec.data offset (readItem data vec.itemsize) })

/-- `wanted` says whether the caller passes `data`. -/
def covecDel (vec : Covec) (index : Int) (wanted : Bool) :
    Except Fault (Option (Option (List (Option UInt8))) × Covec) := do
  let index := fromEnd vec.size index
  if index < 0 ∨ index ≥ vec.size then return (none, vec)
  let item ← (if wanted then covecGet mul vec index else .ok none)
  let at' := index.toNat
  let vec ←
    (if at' ≠ vec.size - 1 then covecMove mul vec (at' + 1) at' (vec.size - at' - 1) else .ok vec)
  return (some item, { vec with size := vec.size - 1 })

def covecSwap (vec : Covec) (idx1 idx2 : Int) : Except Fault Covec := do
  match ← covecGet mul vec idx1 with
  | none => return vec
  | some item1 =>
    match ← covecGet mul vec idx2 with
    | none => return vec
    | some item2 =>
      let (_, vec) ← covecSet mul vec idx1 fun k => item2.getD k none
      let (_, vec) ← covecSet mul vec idx2 fun k => item1.getD k none
      return vec

def covecPushTail (vec : Covec) (data : Nat → Option UInt8) : Except Fault (Bool × Covec) :=
  covecPush mul vec vec.size data

/-- `vec->size-1` is negative for an empty vector. -/
def covecDelTail (vec : Covec) (wanted : Bool) :
    Except Fault (Option (Option (List (Option UInt8))) × Covec) :=
  covecDel mul vec (vec.size - 1 : Int) wanted

/-- The vectors of a program, by their addresses. Each has an allocation of its own. -/
abbrev Vectors := Nat → Covec

/-- `covec_copy`. The two addresses may be the same. -/
def covecCopy (vecs : Vectors) (vfrom vto : Nat) : Except Fault Vectors := do
  let vecs := Function.update vecs vto (covecClear (vecs vto))
  let vecs := Function.update vecs vto (← covecResize mul (vecs vto) (vecs vfrom).size)
  let bytes ← mul (vecs vfrom).size (vecs vfrom).itemsize
  let cells ← load (vecs vfrom).data 0 bytes
  let data ← store (vecs vto).data 0 cells
  return Function.update vecs vto { vecs vto with data := data }

end

/-! ## Computations that agree on their products -/

/-- Small products are the mathematical ones. -/
def Right (mul : Product) : Prop := ∀ n itemsize, n * itemsize < 2 ^ 32 →
  mul n itemsize = .ok (n * itemsize)

theorem mul32_right : Right mul32 := fun n itemsize small => by
  rw [mul32, Nat.mod_eq_of_lt small]

theorem mulExact_right : Right mulExact := fun _ _ small => if_pos small

/-- The computation returns one value in `Q` under every such multiplication. -/
def Settled {β : Type} (x : Product → Except Fault β) (Q : β → Prop) : Prop :=
  ∃ b, Q b ∧ ∀ mul, Right mul → x mul = .ok b

namespace Settled
variable {β γ : Type} {Q : β → Prop} {R : γ → Prop}

theorem pure {b : β} (h : Q b) : Settled (fun _ => .ok b) Q := ⟨b, h, fun _ _ => rfl⟩

theorem bind {x : Product → Except Fault β} {next : Product → β → Except Fault γ}
    (h : Settled x Q) (step : ∀ b, Q b → Settled (fun mul => next mul b) R) :
    Settled (fun mul => x mul >>= next mul) R := by
  obtain ⟨b, hb, same⟩ := h
  obtain ⟨c, hc, then'⟩ := step b hb
  refine ⟨c, hc, fun mul right => ?_⟩
  simp only [same mul right, ok_bind]
  exact then' mul right

theorem ite {c : Prop} [Decidable c] {x y : Product → Except Fault β}
    (yes : c → Settled x Q) (no : ¬ c → Settled y Q) :
    Settled (fun mul => if c then x mul else y mul) Q := by
  by_cases h : c
  · simpa only [if_pos h] using yes h
  · simpa only [if_neg h] using no h

theorem mono {Q' : β → Prop} {x : Product → Except Fault β} (h : Settled x Q)
    (weaker : ∀ b, Q b → Q' b) : Settled x Q' := by
  obtain ⟨b, hb, same⟩ := h
  exact ⟨b, weaker b hb, same⟩

theorem product {n itemsize : Nat} (small : n * itemsize < 2 ^ 32) :
    Settled (fun mul => mul n itemsize) (· = n * itemsize) :=
  ⟨_, rfl, fun _ right => right n itemsize small⟩

theorem load {b : Block UInt8} {off len : Nat} (h : off + len ≤ b.length) :
    Settled (fun _ => CMemory.load b off len) (· = slice b off len) :=
  ⟨_, rfl, fun _ _ => if_pos h⟩

theorem store {b : Block UInt8} {off : Nat} {cells : List (Option UInt8)}
    (h : off + cells.length ≤ b.length) :
    Settled (fun _ => CMemory.store b off cells) (· = splice b off cells) :=
  ⟨_, rfl, fun _ _ => if_pos h⟩

theorem int32 {n : Nat} (h : n ≤ intMax) : Settled (fun _ => CMemory.int32 n) (· = n) :=
  ⟨_, rfl, fun _ _ => if_pos h⟩

end Settled

/-! ## Vectors whose allocation has room for their capacity -/

/-- The allocation has the bytes of `cap` items. -/
structure Sound (vec : Covec) : Prop where
  bytes : vec.data.length = vec.cap * vec.itemsize
  fits : vec.size ≤ vec.cap
  small : vec.cap * vec.itemsize < 2 ^ 32
  int : vec.cap ≤ intMax

section Specs
variable {vec : Covec}

theorem covecNew_sound (itemsize : UInt16) : Sound (covecNew itemsize) :=
  ⟨(Nat.zero_mul _).symm, Nat.le_refl 0, by simp [covecNew], by simp [covecNew]⟩

theorem Sound.within (h : Sound vec) {n : Nat} (le : n ≤ vec.cap) :
    n * vec.itemsize ≤ vec.data.length := by
  rw [h.bytes]
  exact Nat.mul_le_mul_right _ le

theorem Sound.product (h : Sound vec) {n : Nat} (le : n ≤ vec.cap) :
    Settled (fun mul => mul n vec.itemsize) (· = n * vec.itemsize) :=
  .product (Nat.lt_of_le_of_lt (Nat.mul_le_mul_right _ le) h.small)

/-- The same vector with other bytes in its allocation. -/
theorem Sound.refill (h : Sound vec) {data : Block UInt8} (length : data.length = vec.data.length) :
    Sound { vec with data := data } :=
  { h with bytes := length.trans h.bytes }

theorem realloc_sound {data : Block UInt8} {cap size itemsize : Nat} (fits : size ≤ cap)
    (small : cap * itemsize < 2 ^ 32) (int : cap ≤ intMax) :
    Sound ⟨realloc data (cap * itemsize), cap, size, itemsize⟩ :=
  ⟨realloc_length _ _, fits, small, int⟩

theorem covecResize_settled (h : Sound vec) {size : Nat} (int : size ≤ intMax)
    (room : size ≤ vec.cap ∨ size * vec.itemsize < 2 ^ 32) :
    Settled (fun mul => covecResize mul vec size) Sound := by
  unfold covecResize
  refine .ite (fun _ => .pure h) fun _ => ?_
  refine .ite (fun within => .pure { h with fits := within }) fun beyond => ?_
  have small := room.resolve_left beyond
  refine .bind (.product small) fun bytes same => ?_
  subst same
  exact .pure (realloc_sound (Nat.le_refl _) small int)

theorem covecGrowcap_settled (h : Sound vec) {cap : Nat} (int : cap ≤ intMax)
    (room : cap ≤ vec.cap ∨ cap * vec.itemsize < 2 ^ 32) :
    Settled (fun mul => covecGrowcap mul vec cap) fun vec' =>
      Sound vec' ∧ vec'.size = vec.size ∧ vec'.itemsize = vec.itemsize ∧
        vec'.cap = max cap vec.cap := by
  unfold covecGrowcap
  refine .ite (fun beyond => ?_) fun within => .pure ⟨h, rfl, rfl, by omega⟩
  have small := room.resolve_left (by omega)
  refine .bind (.product small) fun bytes same => ?_
  subst same
  have fits : vec.size ≤ cap := Nat.le_of_lt (Nat.lt_of_le_of_lt h.fits beyond)
  exact .pure ⟨realloc_sound fits small int, rfl, rfl, (Nat.max_eq_left (Nat.le_of_lt beyond)).symm⟩

/-- Growing makes room for one more item. -/
theorem checkAndGrow_settled (h : Sound vec) (room : vec.size + 1 < vec.cap ∨
      (vec.cap * 2 ≤ intMax ∧ max initCap (vec.cap * 2) * vec.itemsize < 2 ^ 32)) :
    Settled (fun mul => checkAndGrow mul vec) fun vec' =>
      Sound vec' ∧ vec'.size = vec.size ∧ vec'.itemsize = vec.itemsize ∧ vec.size < vec'.cap := by
  have fits := h.fits
  have int := h.int
  unfold checkAndGrow
  refine .bind (.int32 (by unfold intMax at *; omega)) fun n same => ?_
  subst same
  refine .ite (fun full => ?_) fun free => .pure ⟨h, rfl, rfl, by omega⟩
  obtain ⟨twice, small⟩ := room.resolve_left (by omega)
  refine .bind (.int32 twice) fun n same => ?_
  subst same
  have wider : max initCap (vec.cap * 2) ≤ intMax := Nat.max_le.mpr ⟨by decide, twice⟩
  refine (covecGrowcap_settled h wider (.inr small)).mono fun vec' grown => ?_
  obtain ⟨sound, size, itemsize, cap⟩ := grown
  refine ⟨sound, size, itemsize, ?_⟩
  unfold initCap at cap
  omega

theorem covecMove_settled (h : Sound vec) {from' to' count : Nat} (source : from' + count ≤ vec.cap)
    (target : to' + count ≤ vec.cap) : Settled (fun mul => covecMove mul vec from' to' count)
      fun vec' => Sound vec' ∧ vec'.size = vec.size ∧ vec'.itemsize = vec.itemsize ∧
        vec'.cap = vec.cap := by
  have from_bytes := h.within source
  have to_bytes := h.within target
  rw [Nat.add_mul] at from_bytes to_bytes
  unfold covecMove
  refine .bind (h.product (by omega)) fun dst same => ?_
  subst same
  refine .bind (h.product (by omega)) fun src same => ?_
  subst same
  refine .bind (h.product (by omega)) fun bytes same => ?_
  subst same
  refine .bind (.load from_bytes) fun cells same => ?_
  subst same
  have length := slice_length _ _ _ from_bytes
  have bound : to' * vec.itemsize + (slice vec.data (from' * vec.itemsize)
      (count * vec.itemsize)).length ≤ vec.data.length := by
    rw [length]
    exact to_bytes
  refine .bind (.store bound) fun data same => ?_
  subst same
  exact .pure ⟨h.refill (splice_length _ _ _ bound), rfl, rfl, rfl⟩

/-- An item fits behind every offset below the capacity. -/
theorem Sound.item (h : Sound vec) {i : Nat} (inside : i < vec.cap) :
    i * vec.itemsize + vec.itemsize ≤ vec.data.length := by
  have bytes := h.within (Nat.succ_le_of_lt inside)
  rwa [Nat.succ_mul] at bytes

@[simp] theorem readItem_length (data : Nat → Option UInt8) (itemsize : Nat) :
    (readItem data itemsize).length = itemsize := by simp [readItem]

/-- Storing an item. -/
theorem Sound.store (h : Sound vec) {i : Nat} (inside : i < vec.cap)
    (data : Nat → Option UInt8) :
    Settled (fun _ => CMemory.store vec.data (i * vec.itemsize) (readItem data vec.itemsize))
      (·.length = vec.data.length) := by
  have bound : i * vec.itemsize + (readItem data vec.itemsize).length ≤ vec.data.length := by
    rw [readItem_length]
    exact h.item inside
  refine (Settled.store bound).mono fun cells same => ?_
  subst same
  exact splice_length _ _ _ bound

theorem covecPush_settled (h : Sound vec) (index : Int) (data : Nat → Option UInt8)
    (room : fromEnd vec.size index < 0 ∨ fromEnd vec.size index > vec.size ∨
      vec.size + 1 < vec.cap ∨
      (vec.cap * 2 ≤ intMax ∧ max initCap (vec.cap * 2) * vec.itemsize < 2 ^ 32)) :
    Settled (fun mul => covecPush mul vec index data) (Sound ·.2) := by
  unfold covecPush
  simp only
  refine .ite (fun _ => .pure h) fun inside => ?_
  have grows := (room.resolve_left fun low => inside (.inl low)).resolve_left
    fun high => inside (.inr high)
  refine .bind (checkAndGrow_settled h grows) fun vec₁ grown => ?_
  obtain ⟨sound₁, size₁, itemsize₁, cap₁⟩ := grown
  have moved : Settled (fun mul => if (fromEnd vec.size index).toNat ≠ vec₁.size then
      covecMove mul vec₁ (fromEnd vec.size index).toNat ((fromEnd vec.size index).toNat + 1)
        (vec₁.size - (fromEnd vec.size index).toNat) else .ok vec₁)
      fun vec' => Sound vec' ∧ vec'.size = vec₁.size ∧ vec'.itemsize = vec₁.itemsize ∧
        vec'.cap = vec₁.cap := by
    refine .ite (fun _ => ?_) fun _ => .pure ⟨sound₁, rfl, rfl, rfl⟩
    exact covecMove_settled sound₁ (by omega) (by omega)
  refine .bind moved fun vec₂ shifted => ?_
  obtain ⟨sound₂, size₂, itemsize₂, cap₂⟩ := shifted
  have here : (fromEnd vec.size index).toNat < vec₂.cap := by omega
  refine .bind (sound₂.product (Nat.le_of_lt here)) fun offset same => ?_
  subst same
  refine .bind (sound₂.store here data) fun cells length => ?_
  have int := sound₂.int
  refine .bind (.int32 (by omega)) fun n same => ?_
  subst same
  exact .pure { sound₂.refill length with fits := show vec₂.size + 1 ≤ vec₂.cap by omega }

theorem covecGet_settled (h : Sound vec) (index : Int) :
    Settled (fun mul => covecGet mul vec index) fun _ => True := by
  have fits := h.fits
  unfold covecGet
  simp only
  refine .ite (fun _ => .pure trivial) fun inside => ?_
  have here : (fromEnd vec.size index).toNat < vec.cap := by omega
  refine .bind (h.product (Nat.le_of_lt here)) fun offset same => ?_
  subst same
  exact .bind (.load (h.item here)) fun _ _ => .pure trivial

theorem covecGetPtr_settled (h : Sound vec) (index : Int) :
    Settled (fun mul => covecGetPtr mul vec index) fun _ => True := by
  have fits := h.fits
  unfold covecGetPtr
  simp only
  refine .ite (fun _ => .pure trivial) fun inside => ?_
  exact .bind (h.product (by omega)) fun _ _ => .pure trivial

theorem covecSet_settled (h : Sound vec) (index : Int) (data : Nat → Option UInt8) :
    Settled (fun mul => covecSet mul vec index data) (Sound ·.2) := by
  have fits := h.fits
  unfold covecSet
  simp only
  refine .ite (fun _ => .pure h) fun inside => ?_
  have here : (fromEnd vec.size index).toNat < vec.cap := by omega
  refine .bind (h.product (Nat.le_of_lt here)) fun offset same => ?_
  subst same
  exact .bind (h.store here data) fun _ length => .pure (h.refill length)

theorem covecDel_settled (h : Sound vec) (index : Int) (wanted : Bool) :
    Settled (fun mul => covecDel mul vec index wanted) (Sound ·.2) := by
  have fits := h.fits
  unfold covecDel
  simp only
  refine .ite (fun _ => .pure h) fun inside => ?_
  have taken : Settled (fun mul => if wanted = true then covecGet mul vec (fromEnd vec.size index)
      else .ok none) fun _ => True :=
    .ite (fun _ => covecGet_settled h _) fun _ => .pure trivial
  refine .bind taken fun item _ => ?_
  have moved : Settled (fun mul => if (fromEnd vec.size index).toNat ≠ vec.size - 1 then
      covecMove mul vec ((fromEnd vec.size index).toNat + 1) (fromEnd vec.size index).toNat
        (vec.size - (fromEnd vec.size index).toNat - 1) else .ok vec)
      fun vec' => Sound vec' ∧ vec'.size = vec.size := by
    refine .ite (fun _ => ?_) fun _ => .pure ⟨h, rfl⟩
    refine (covecMove_settled h (by omega) (by omega)).mono fun vec' moved => ?_
    exact ⟨moved.1, moved.2.1⟩
  refine .bind moved fun vec₁ shifted => ?_
  obtain ⟨sound₁, size₁⟩ := shifted
  exact .pure { sound₁ with fits := Nat.le_trans (Nat.sub_le _ _) sound₁.fits }

theorem covecSwap_settled (h : Sound vec) (idx1 idx2 : Int) :
    Settled (fun mul => covecSwap mul vec idx1 idx2) Sound := by
  unfold covecSwap
  refine .bind (covecGet_settled h idx1) fun found₁ _ => ?_
  cases found₁ with
  | none => exact .pure h
  | some item₁ =>
      refine .bind (covecGet_settled h idx2) fun found₂ _ => ?_
      cases found₂ with
      | none => exact .pure h
      | some item₂ =>
          refine .bind (covecSet_settled h idx1 _) fun first sound₁ => ?_
          obtain ⟨b₁, vec₁⟩ := first
          refine .bind (covecSet_settled sound₁ idx2 _) fun second sound₂ => ?_
          exact .pure sound₂

end Specs

end Colinlib.Source.VecBytes
