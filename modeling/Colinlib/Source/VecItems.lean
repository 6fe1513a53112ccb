import Colinlib.Source.VecBytes
import Colinlib.Theory.PriorityQueue

/-!
# The items of a vector of bytes

Item `i` is the slice of the allocation behind the offset `i * itemsize`. The offsets are
taken modulo `2 ^ 32`; they are right as long as the capacity is less than `2 ^ 32` bytes. A
growth to more leaves an allocation in which the new last item has no room.
-/
namespace Colinlib.Source.VecItems
open Colinlib.Theory.CMemory Colinlib.Theory.PriorityQueue
open Colinlib.Source.Vec (initCap fromEnd fromEnd_nat)
open Colinlib.Source.VecBytes

/-- An item, as the `itemsize` bytes its caller hands over. -/
structure Item (n : Nat) where
  bytes : List UInt8
  length : bytes.length = n
  deriving DecidableEq, Repr

variable {n : Nat}

namespace Item

def cells (x : Item n) : List (Option UInt8) := x.bytes.map some

/-- The caller's memory from a pointer to the item on. -/
def pointer (x : Item n) : Nat → Option UInt8 := fun k => x.bytes[k]?

@[simp] theorem cells_length (x : Item n) : x.cells.length = n := by
  rw [cells, List.length_map, x.length]

theorem readItem_pointer (x : Item n) : readItem x.pointer n = x.cells := by
  apply List.ext_getElem?
  intro k
  rw [readItem, cells, List.getElem?_map, List.getElem?_map]
  by_cases inside : k < n
  · have bound : k < x.bytes.length := by rwa [x.length]
    rw [List.getElem?_range inside, List.getElem?_eq_getElem bound]
    exact congrArg some (List.getElem?_eq_getElem bound)
  · rw [List.getElem?_eq_none (by simpa using inside),
      List.getElem?_eq_none (by rw [x.length]; omega)]
    rfl

end Item

/-- A push needs no growth, or a growth to less than `2 ^ 32` bytes that the `int` of the
capacity allows. -/
def HasRoom (vec : Covec) : Prop :=
  vec.size + 1 < vec.cap ∨
    (vec.cap * 2 ≤ intMax ∧ max initCap (vec.cap * 2) * vec.itemsize < 2 ^ 32)

instance (vec : Covec) : Decidable (HasRoom vec) := inferInstanceAs (Decidable (_ ∨ _))

/-- The items of the vector are `xs`. -/
structure Holds (vec : Covec) (xs : List (Item n)) : Prop extends Sound vec where
  itemsize : vec.itemsize = n
  size : vec.size = xs.length
  item : ∀ i x, xs[i]? = some x → slice vec.data (i * n) n = x.cells

/-- The capacity has come from doublings, and the last push left a free place. -/
structure Grown (vec : Covec) : Prop where
  power : vec.cap = 0 ∨ ∃ k, vec.cap = initCap * 2 ^ k
  free : vec.size = 0 ∨ vec.size < vec.cap

section Specs
variable {vec : Covec} {xs : List (Item n)}

/-- Taking items leaves the capacity. -/
theorem Grown.shrink {vec' : Covec} (h : Grown vec) (cap : vec'.cap = vec.cap)
    (fewer : vec'.size ≤ vec.size) : Grown vec' := by
  have free := h.free
  exact ⟨cap ▸ h.power, by omega⟩

/-- A capacity below a power of two is at most half of it. -/
theorem Grown.half (h : Grown vec) {e : Nat} (below : vec.cap < 2 ^ (e + 1)) : vec.cap ≤ 2 ^ e := by
  rcases h.power with none | ⟨k, power⟩
  · rw [none]
    exact Nat.zero_le _
  · rw [power, initCap, show 8 * 2 ^ k = 2 ^ (k + 3) by rw [Nat.pow_add, Nat.mul_comm]] at below ⊢
    have exponent := (Nat.pow_lt_pow_iff_right (by decide)).mp below
    exact Nat.pow_le_pow_right (by decide) (Nat.le_of_lt_succ exponent)

theorem Holds.few (h : Holds vec xs) (grown : Grown vec) : xs.length ≤ 2 ^ 30 := by
  have int := h.int
  unfold intMax at int
  rw [← h.size]
  exact Nat.le_trans h.fits (grown.half (by omega))

theorem covecNew_items (itemsize : UInt16) :
    Holds (covecNew itemsize) ([] : List (Item itemsize.toNat)) where
  toSound := covecNew_sound itemsize
  itemsize := rfl
  size := rfl
  item i x found := by cases found

theorem covecNew_grown (itemsize : UInt16) : Grown (covecNew itemsize) := ⟨.inl rfl, .inl rfl⟩

theorem Holds.bound (h : Holds vec xs) {i : Nat} (inside : i < xs.length) :
    i * n + n ≤ vec.data.length := by
  have bytes := h.toSound.item (Nat.lt_of_lt_of_le (h.size ▸ inside) h.fits)
  rwa [h.itemsize] at bytes

theorem Holds.offset (h : Holds vec xs) {i : Nat} (inside : i < xs.length) :
    i * n % 2 ^ 32 = i * n := by
  have bytes := h.bytes
  have small := h.small
  have bound := h.bound inside
  rw [Nat.mod_eq_of_lt]
  omega

/-- An item ends where the items behind it begin, or before. -/
theorem behind {i j : Nat} (before : i < j) : i * n + n ≤ j * n := by
  rw [← Nat.succ_mul]
  exact Nat.mul_le_mul_right n before

theorem covecGetPtr_item (h : Holds vec xs) {i : Nat} (inside : i < xs.length) :
    covecGetPtr mul32 vec i = .ok (some (i * n)) := by
  have size := h.size
  unfold covecGetPtr
  simp only [fromEnd_nat]
  rw [if_neg (by omega), Int.toNat_natCast, h.itemsize, mul32, ok_bind, h.offset inside]
  rfl

theorem load_item (h : Holds vec xs) {i : Nat} (inside : i < xs.length) :
    load vec.data (i * n) n = .ok xs[i].cells := by
  rw [load, if_pos (h.bound inside), h.item i _ (List.getElem?_eq_getElem inside)]

theorem covecGet_item (h : Holds vec xs) {i : Nat} (inside : i < xs.length) :
    covecGet mul32 vec i = .ok (some xs[i].cells) := by
  have size := h.size
  unfold covecGet
  simp only [fromEnd_nat]
  rw [if_neg (by omega), Int.toNat_natCast, h.itemsize, mul32, ok_bind, h.offset inside,
    load_item h inside]
  rfl

theorem Holds.set (h : Holds vec xs) {i : Nat} (inside : i < xs.length) (x : Item n) :
    Holds { vec with data := splice vec.data (i * n) x.cells } (xs.set i x) := by
  have bound := h.bound inside
  have fits : i * n + x.cells.length ≤ vec.data.length := by rwa [x.cells_length]
  refine ⟨h.toSound.refill (splice_length _ _ _ fits), h.itemsize, ?_, fun j y found => ?_⟩
  · rw [List.length_set]
    exact h.size
  · rw [List.getElem?_set] at found
    by_cases here : i = j
    · subst here
      rw [if_pos rfl, if_pos inside] at found
      cases found
      have whole := slice_splice_same vec.data (i * n) x.cells fits
      rwa [x.cells_length] at whole
    · rw [if_neg here] at found
      rw [slice_splice_frame _ _ _ _ _ fits, h.item j y found]
      rw [x.cells_length]
      exact (Nat.lt_or_gt_of_ne here).symm.imp behind behind

theorem covecSet_item (h : Holds vec xs) {i : Nat} (inside : i < xs.length) (x : Item n)
    {data : Nat → Option UInt8} (reads : readItem data n = x.cells) :
    covecSet mul32 vec i data =
      .ok (true, { vec with data := splice vec.data (i * n) x.cells }) := by
  have size := h.size
  have fits : i * n + x.cells.length ≤ vec.data.length := by
    rw [x.cells_length]
    exact h.bound inside
  unfold covecSet
  simp only [fromEnd_nat]
  rw [if_neg (by omega), Int.toNat_natCast, h.itemsize, mul32, ok_bind, h.offset inside, reads,
    store, if_pos fits]
  rfl

theorem readItem_getD (x : Item n) : readItem (fun k => x.cells.getD k none) n = x.cells := by
  rw [← x.readItem_pointer]
  apply List.map_congr_left
  intro k inside
  have bound : k < x.bytes.length := by
    rw [x.length]
    exact List.mem_range.mp inside
  rw [x.readItem_pointer, Item.cells, Item.pointer, List.getD_eq_getElem?_getD, List.getElem?_map,
    List.getElem?_eq_getElem bound]
  rfl

theorem covecSwap_items (h : Holds vec xs) {i j : Nat} (hi : i < xs.length) (hj : j < xs.length) :
    ∃ vec', covecSwap mul32 vec i j = .ok vec' ∧ Holds vec' (swapAt xs i j) ∧
      vec'.cap = vec.cap := by
  have first := h.set hi xs[j]
  have hj' : j < (xs.set i xs[j]).length := by rwa [List.length_set]
  rw [swapAt_eq hi hj]
  refine ⟨_, ?_, first.set hj' xs[i], rfl⟩
  unfold covecSwap
  rw [covecGet_item h hi, ok_bind]
  simp only
  rw [covecGet_item h hj, ok_bind]
  simp only
  rw [covecSet_item h hi xs[j] (readItem_getD _), ok_bind]
  simp only
  rw [covecSet_item first hj' xs[i] (readItem_getD _)]
  rfl

theorem covecDelTail_items (h : Holds vec xs) (nonempty : xs ≠ []) : ∃ vec',
    covecDelTail mul32 vec true = .ok (some (some (xs.getLast nonempty).cells), vec') ∧
      Holds vec' xs.dropLast ∧ vec'.cap = vec.cap := by
  have length : 0 < xs.length := List.length_pos_iff.mpr nonempty
  have size := h.size
  have last : ((vec.size : Int) - 1) = ((vec.size - 1 : Nat) : Int) := by omega
  have position : vec.size - 1 = xs.length - 1 := by omega
  refine ⟨{ vec with size := vec.size - 1 }, ?_, ⟨{ h.toSound with
      fits := Nat.le_trans (Nat.sub_le _ _) h.fits }, h.itemsize, ?_, fun i x found => ?_⟩,
    rfl⟩
  · unfold covecDelTail covecDel
    rw [last]
    simp only [fromEnd_nat]
    rw [if_neg (by omega), if_pos trivial, covecGet_item h (by omega), ok_bind, Int.toNat_natCast,
      if_neg (by omega), ok_bind]
    simp only [position, List.getLast_eq_getElem]
    rfl
  · rw [List.length_dropLast, ← size]
  · rw [List.getElem?_dropLast] at found
    split at found
    · exact h.item i x found
    · cases found

/-! ## A push at the end -/

theorem covecGrowcap_items (h : Holds vec xs) {cap : Nat} (wider : cap > vec.cap)
    (int : cap ≤ intMax) (small : cap * vec.itemsize < 2 ^ 32) : ∃ vec',
    covecGrowcap mul32 vec cap = .ok vec' ∧ Holds vec' xs ∧ vec'.cap = cap := by
  have bytes : cap * vec.itemsize % 2 ^ 32 = cap * vec.itemsize := Nat.mod_eq_of_lt small
  have more : vec.data.length ≤ cap * vec.itemsize := by
    rw [h.bytes]
    exact Nat.mul_le_mul_right _ (Nat.le_of_lt wider)
  refine ⟨⟨realloc vec.data (cap * vec.itemsize), cap, vec.size, vec.itemsize⟩, ?_,
    ⟨realloc_sound (Nat.le_trans h.fits (Nat.le_of_lt wider)) small int, h.itemsize, h.size,
      fun i x found => ?_⟩, rfl⟩
  · rw [covecGrowcap, if_pos wider, mul32, ok_bind, bytes]
    rfl
  · have bound := h.bound (List.getElem?_eq_some_iff.mp found).1
    have kept := slice_realloc vec.data (cap * vec.itemsize) (i * n) n bound (by omega)
    exact kept.trans (h.item i x found)

theorem checkAndGrow_items (h : Holds vec xs) (grown : Grown vec) (room : HasRoom vec) : ∃ vec',
    checkAndGrow mul32 vec = .ok vec' ∧ Holds vec' xs ∧ xs.length + 1 < vec'.cap ∧
      (∃ k, vec'.cap = initCap * 2 ^ k) := by
  have size := h.size
  have fits := h.fits
  have int := h.int
  have free := grown.free
  have below : vec.size + 1 ≤ intMax := by
    unfold intMax at *
    omega
  unfold checkAndGrow int32
  rw [if_pos below, ok_bind]
  by_cases full : vec.size + 1 ≥ vec.cap
  · obtain ⟨twice, small⟩ := room.resolve_left (by omega)
    have wider : max initCap (vec.cap * 2) > vec.cap := by
      unfold initCap
      omega
    have most : max initCap (vec.cap * 2) ≤ intMax := Nat.max_le.mpr ⟨by decide, twice⟩
    obtain ⟨vec', ran, holds, cap⟩ := covecGrowcap_items h wider most small
    rw [if_pos full, if_pos twice, ok_bind]
    refine ⟨vec', ran, holds, by unfold initCap at *; omega, ?_⟩
    rw [cap]
    rcases grown.power with none | ⟨k, power⟩
    · exact ⟨0, by rw [none]; rfl⟩
    · refine ⟨k + 1, ?_⟩
      rw [power, Nat.pow_succ, ← Nat.mul_assoc, Nat.max_eq_right]
      have positive : 0 < 2 ^ k := Nat.two_pow_pos k
      rw [Nat.mul_assoc]
      exact Nat.le_mul_of_pos_right _ (by omega)
  · rw [if_neg full]
    refine ⟨vec, rfl, h, by omega, grown.power.resolve_left (by omega)⟩

theorem Holds.push (h : Holds vec xs) (free : xs.length < vec.cap) (x : Item n) :
    Holds { vec with data := splice vec.data (xs.length * n) x.cells, size := vec.size + 1 }
      (xs ++ [x]) := by
  have bound := h.toSound.item free
  rw [h.itemsize] at bound
  have fits : xs.length * n + x.cells.length ≤ vec.data.length := by rwa [x.cells_length]
  have size := h.size
  refine ⟨{ h.toSound.refill (splice_length _ _ _ fits) with
      fits := show vec.size + 1 ≤ vec.cap by omega }, h.itemsize, ?_, fun i y found => ?_⟩
  · rw [List.length_append, List.length_singleton]
    exact congrArg (· + 1) size
  · by_cases before : i < xs.length
    · rw [List.getElem?_append_left before] at found
      rw [slice_splice_frame _ _ _ _ _ fits, h.item i y found]
      exact .inl (behind before)
    · have last : i = xs.length := by
        have inside := (List.getElem?_eq_some_iff.mp found).1
        rw [List.length_append, List.length_singleton] at inside
        omega
      subst last
      rw [List.getElem?_concat_length] at found
      cases found
      have whole := slice_splice_same vec.data (xs.length * n) x.cells fits
      rwa [x.cells_length] at whole

/-- With room for it, an item becomes the last one. -/
theorem covecPushTail_items (h : Holds vec xs) (grown : Grown vec) (room : HasRoom vec)
    (x : Item n) : ∃ vec', covecPushTail mul32 vec x.pointer = .ok (true, vec') ∧
      Holds vec' (xs ++ [x]) ∧ Grown vec' := by
  obtain ⟨vec₁, ran, holds, free, power⟩ := checkAndGrow_items h grown room
  have size := h.size
  have size₁ := holds.size
  have int := holds.int
  have bound := holds.toSound.item (Nat.lt_of_succ_lt free)
  have bytes := holds.bytes
  have small := holds.small
  rw [holds.itemsize] at bound bytes small
  have fits : xs.length * n + x.cells.length ≤ vec₁.data.length := by rwa [x.cells_length]
  have offset : xs.length * n % 2 ^ 32 = xs.length * n := Nat.mod_eq_of_lt (by omega)
  refine ⟨_, ?_, holds.push (Nat.lt_of_succ_lt free) x, .inr power, .inr (size₁ ▸ free)⟩
  unfold covecPushTail covecPush int32
  simp only [fromEnd_nat]
  rw [if_neg (by omega), ran, ok_bind, Int.toNat_natCast, if_neg (by omega), ok_bind, mul32,
    ok_bind, holds.itemsize, size, offset, x.readItem_pointer, store, if_pos fits, ok_bind,
    if_pos (by omega)]
  rfl

/-- Twice a capacity below `2 ^ 32` bytes, where it is not below, leaves too little modulo
`2 ^ 32` for as many items as there were. -/
theorem wrapped_short {cap size itemsize : Nat} (small : cap * itemsize < 2 ^ 32)
    (narrow : itemsize < 2 ^ 16) (wraps : ¬ max initCap (cap * 2) * itemsize < 2 ^ 32)
    (fits : size ≤ cap) (full : cap ≤ size + 1) :
    ¬ size * itemsize % 2 ^ 32 + itemsize ≤ max initCap (cap * 2) * itemsize % 2 ^ 32 := by
  have doubled : max initCap (cap * 2) = cap * 2 := by
    apply Nat.max_eq_right
    by_contra least
    rw [Nat.max_eq_left (by omega), initCap] at wraps
    omega
  have last : cap * itemsize ≤ size * itemsize + itemsize := by
    rw [← Nat.succ_mul]
    exact Nat.mul_le_mul_right _ full
  have offset : size * itemsize ≤ cap * itemsize := Nat.mul_le_mul_right _ fits
  rw [doubled, Nat.mul_right_comm] at wraps ⊢
  omega

/-- Without room, the push overruns the allocation, or `int`. -/
theorem covecPushTail_stops (h : Sound vec) (narrow : vec.itemsize < 2 ^ 16)
    (full : ¬ HasRoom vec) (data : Nat → Option UInt8) :
    ∃ f, covecPushTail mul32 vec data = .error f := by
  have fits := h.fits
  unfold HasRoom at full
  unfold covecPushTail covecPush checkAndGrow int32
  simp only [fromEnd_nat]
  rw [if_neg (by omega)]
  split
  · rw [ok_bind, if_pos (by omega)]
    split
    · next twice =>
      have wraps : ¬ max initCap (vec.cap * 2) * vec.itemsize < 2 ^ 32 := fun small =>
        full (.inr ⟨twice, small⟩)
      have wider : max initCap (vec.cap * 2) > vec.cap := by
        unfold initCap
        omega
      have short := wrapped_short h.small narrow wraps fits (by omega)
      rw [ok_bind, covecGrowcap, if_pos wider, mul32, ok_bind]
      simp only [pure, Except.pure]
      rw [ok_bind, Int.toNat_natCast,
        if_neg (by simp), ok_bind, mul32, ok_bind, store, realloc_length, readItem_length,
        if_neg short]
      exact ⟨_, rfl⟩
    · exact ⟨_, rfl⟩
  · exact ⟨_, rfl⟩

end Specs

end Colinlib.Source.VecItems
