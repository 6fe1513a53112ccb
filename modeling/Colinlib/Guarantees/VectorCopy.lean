import Colinlib.Source.VecBytes

/-!
# Copies of vectors

`covec_copy` makes room for items of the destination's size and fills it with items of the
source's size. The copy is right where these are the same; where the source's items are
larger, it runs over the end of the allocation.
-/
namespace Colinlib.Guarantees.VectorCopy
open Colinlib.Theory.CMemory
open Colinlib.Source.Vec (fromEnd fromEnd_nat)
open Colinlib.Source.VecBytes

/-- Item by item, `vto` is afterwards what `vfrom` was; nothing else changed. -/
structure Copied (vecs vecs' : Vectors) (vfrom vto : Nat) : Prop where
  size : (vecs' vto).size = (vecs vfrom).size
  items : ∀ i < (vecs vfrom).size, ∃ item, covecGet mul32 (vecs vfrom) i = .ok (some item) ∧
    covecGet mul32 (vecs' vto) i = .ok (some item)
  frame : ∀ v, v ≠ vto → vecs' v = vecs v

/-- `covec_copy` stays inside the allocations, and makes an equal vector. -/
def Copies (vecs : Vectors) (vfrom vto : Nat) : Prop :=
  ∃ vecs', covecCopy mul32 vecs vfrom vto = .ok vecs' ∧ Copied vecs vecs' vfrom vto

/-- The items of a vector are inside its allocation, and take less than `2^32` bytes. -/
def Whole (vec : Covec) : Prop :=
  vec.size * vec.itemsize ≤ vec.data.length ∧ vec.size * vec.itemsize < 2 ^ 32

instance (vec : Covec) : Decidable (Whole vec) := inferInstanceAs (Decidable (_ ∧ _))

/-- There is nothing to copy, or two vectors have items of one size. -/
def Copyable (vecs : Vectors) (vfrom vto : Nat) : Prop :=
  (vecs vfrom).size = 0 ∨
    vfrom ≠ vto ∧ (vecs vfrom).itemsize = (vecs vto).itemsize ∧ Whole (vecs vfrom)

section Items
variable {vec : Covec}

theorem covecGet_iff {i : Nat} (inside : i < vec.size) {item : List (Option UInt8)} :
    covecGet mul32 vec i = .ok (some item) ↔
      i * vec.itemsize % 2 ^ 32 + vec.itemsize ≤ vec.data.length ∧
        item = slice vec.data (i * vec.itemsize % 2 ^ 32) vec.itemsize := by
  unfold covecGet load
  simp only [fromEnd_nat]
  rw [if_neg (by omega), Int.toNat_natCast, mul32, ok_bind]
  split
  · next bound =>
    constructor
    · intro got
      cases got
      exact ⟨bound, rfl⟩
    · rintro ⟨-, rfl⟩
      rfl
  · next beyond =>
    constructor
    · intro got
      cases got
    · rintro ⟨bound, -⟩
      exact absurd bound beyond

/-- Items that can all be read one by one are inside a small allocation. -/
theorem all_inside {count itemsize length : Nat} (small : length < 2 ^ 32)
    (each : ∀ i < count, i * itemsize % 2 ^ 32 + itemsize ≤ length) :
    count * itemsize ≤ length := by
  induction count with
  | zero => omega
  | succ n ih =>
      have before := ih fun i below => each i (Nat.lt_succ_of_lt below)
      have last := each n (Nat.lt_succ_self n)
      rw [Nat.mod_eq_of_lt (by omega)] at last
      rwa [Nat.succ_mul]

end Items

section Copy
variable {vecs : Vectors} {vfrom vto : Nat}

theorem covecResize_cleared (vec : Covec) (size : Nat) : covecResize mul32 (covecClear vec) size =
    .ok ⟨malloc UInt8 (size * vec.itemsize % 2 ^ 32), size, size, vec.itemsize⟩ := by
  unfold covecResize covecClear
  by_cases empty : size = 0
  · subst empty
    simp only [if_pos, Nat.zero_mul]
    rfl
  · have more : ¬ 0 ≥ size := by omega
    simp only [if_neg (Ne.symm empty), if_neg more, mul32, ok_bind, realloc, malloc,
      List.take_nil, List.nil_append, List.length_nil, Nat.sub_zero]
    rfl

/-- Copied onto itself, a vector is cleared. -/
theorem covecCopy_self (vecs : Vectors) (v : Nat) :
    covecCopy mul32 vecs v v = .ok (Function.update vecs v (covecClear (vecs v))) := by
  unfold covecCopy
  simp only [Function.update_self, Function.update_idem, covecResize_cleared, ok_bind, mul32]
  simp only [covecClear, Nat.zero_mul]
  rfl

/-- What is stored has the bytes of the source's items, the room is for items of the
destination's size. -/
theorem covecCopy_apart (other : vfrom ≠ vto) : covecCopy mul32 vecs vfrom vto = (do
    let v := vecs vfrom
    let cells ← load v.data 0 (v.size * v.itemsize % 2 ^ 32)
    let data ← store (malloc UInt8 (v.size * (vecs vto).itemsize % 2 ^ 32)) 0 cells
    .ok (Function.update vecs vto ⟨data, v.size, v.size, (vecs vto).itemsize⟩)) := by
  unfold covecCopy
  simp only [Function.update_self, Function.update_of_ne other, Function.update_idem,
    covecResize_cleared, ok_bind, mul32]
  rfl

theorem covecCopy_effect {vecs' : Vectors} (other : vfrom ≠ vto)
    (ran : covecCopy mul32 vecs vfrom vto = .ok vecs') : ∃ data,
      (vecs vfrom).size * (vecs vfrom).itemsize % 2 ^ 32 ≤ (vecs vfrom).data.length ∧
      data.length = (vecs vfrom).size * (vecs vto).itemsize % 2 ^ 32 ∧
      vecs' vto = ⟨data, (vecs vfrom).size, (vecs vfrom).size, (vecs vto).itemsize⟩ := by
  rw [covecCopy_apart other] at ran
  obtain ⟨cells, loaded, ran⟩ := bind_ok ran
  obtain ⟨data, stored, last⟩ := bind_ok ran
  cases last
  unfold load at loaded
  split at loaded
  · next bound =>
    unfold store at stored
    split at stored
    · next room =>
      cases stored
      refine ⟨_, by simpa using bound, ?_, Function.update_self _ _ _⟩
      rw [splice_length _ _ _ room, malloc_length]
    · cases stored
  · cases loaded

/-- The bytes of the source are all of the copy. -/
theorem covecCopy_whole (other : vfrom ≠ vto) (same : (vecs vfrom).itemsize = (vecs vto).itemsize)
    (whole : Whole (vecs vfrom)) : covecCopy mul32 vecs vfrom vto = .ok (Function.update vecs vto
      ⟨slice (vecs vfrom).data 0 ((vecs vfrom).size * (vecs vfrom).itemsize), (vecs vfrom).size,
        (vecs vfrom).size, (vecs vto).itemsize⟩) := by
  obtain ⟨inside, small⟩ := whole
  rw [covecCopy_apart other, ← same]
  dsimp only
  generalize (vecs vfrom).size * (vecs vfrom).itemsize = bytes at inside small ⊢
  have length : (slice (vecs vfrom).data 0 bytes).length = bytes :=
    slice_length _ _ _ (by omega)
  have behind : (malloc UInt8 bytes).drop bytes = [] := List.drop_eq_nil_of_le (by simp)
  simp only [Nat.mod_eq_of_lt small, load, Nat.zero_add, if_pos inside, ok_bind, store, length,
    malloc_length, Nat.le_refl, if_true, splice, List.take_zero, List.nil_append, behind,
    List.append_nil]

theorem copies_whole (other : vfrom ≠ vto) (same : (vecs vfrom).itemsize = (vecs vto).itemsize)
    (whole : Whole (vecs vfrom)) : Copies vecs vfrom vto := by
  refine ⟨_, covecCopy_whole other same whole, by rw [Function.update_self], fun i here => ?_,
    fun v away => Function.update_of_ne away _ _⟩
  obtain ⟨inside, small⟩ := whole
  have before : i * (vecs vfrom).itemsize + (vecs vfrom).itemsize ≤
      (vecs vfrom).size * (vecs vfrom).itemsize := by
    rw [← Nat.succ_mul]
    exact Nat.mul_le_mul_right _ here
  have offset : i * (vecs vfrom).itemsize % 2 ^ 32 = i * (vecs vfrom).itemsize :=
    Nat.mod_eq_of_lt (by omega)
  refine ⟨_, (covecGet_iff here).mpr ⟨by omega, rfl⟩, ?_⟩
  rw [Function.update_self]
  refine (covecGet_iff (by exact here)).mpr ?_
  simp only [← same, offset]
  refine ⟨?_, ?_⟩
  · rw [slice_length _ _ _ (by omega)]
    exact before
  · apply List.ext_getElem?
    intro k
    rw [slice_getElem?, slice_getElem?, slice_getElem?, Nat.zero_add]
    split
    · rw [if_pos (by omega)]
    · rfl

theorem copies_empty (empty : (vecs vfrom).size = 0) : Copies vecs vfrom vto := by
  obtain ⟨vecs', ran, size, frame⟩ : ∃ vecs', covecCopy mul32 vecs vfrom vto = .ok vecs' ∧
      (vecs' vto).size = 0 ∧ ∀ v, v ≠ vto → vecs' v = vecs v := by
    by_cases same : vfrom = vto
    · subst same
      exact ⟨_, covecCopy_self vecs vfrom, by rw [Function.update_self]; rfl,
        fun v other => Function.update_of_ne other _ _⟩
    · rw [covecCopy_apart same]
      simp only [empty, Nat.zero_mul]
      exact ⟨_, rfl, by rw [Function.update_self], fun v other => Function.update_of_ne other _ _⟩
  refine ⟨vecs', ran, size.trans empty.symm, fun i here => ?_, frame⟩
  rw [empty] at here
  cases here

theorem copies_copyable (copies : Copies vecs vfrom vto) : Copyable vecs vfrom vto := by
  obtain ⟨vecs', ran, copied⟩ := copies
  by_cases same : vfrom = vto
  · subst same
    rw [covecCopy_self] at ran
    cases ran
    refine .inl (copied.size.symm.trans ?_)
    rw [Function.update_self]
    rfl
  · obtain ⟨data, bound, length, copy⟩ := covecCopy_effect same ran
    by_cases empty : (vecs vfrom).size = 0
    · exact .inl empty
    · have item {i : Nat} (here : i < (vecs vfrom).size) :
          (vecs vfrom).itemsize = (vecs vto).itemsize ∧
            i * (vecs vto).itemsize % 2 ^ 32 + (vecs vto).itemsize ≤ data.length := by
        obtain ⟨bytes, was, is⟩ := copied.items i here
        obtain ⟨in_source, rfl⟩ := (covecGet_iff here).mp was
        have there : i < (vecs' vto).size := by
          rw [copied.size]
          exact here
        obtain ⟨in_copy, equal⟩ := (covecGet_iff there).mp is
        have lengths := congrArg List.length equal
        rw [slice_length _ _ _ in_source, slice_length _ _ _ in_copy, copy] at lengths
        rw [copy] at in_copy
        exact ⟨lengths, in_copy⟩
      have sizes := (item (Nat.pos_of_ne_zero empty)).1
      have small : data.length < 2 ^ 32 := by
        rw [length]
        exact Nat.mod_lt _ (by decide)
      have inside := all_inside small fun i here => (item here).2
      have exact' : (vecs vfrom).size * (vecs vto).itemsize < 2 ^ 32 :=
        Nat.lt_of_le_of_lt inside small
      rw [sizes, Nat.mod_eq_of_lt exact'] at bound
      exact .inr ⟨same, sizes, by rw [sizes]; exact bound, by rw [sizes]; exact exact'⟩

/-- **Copying a vector.** `covec_copy` makes an equal vector if and only if there is nothing to
copy, or two vectors have items of one size and those of the source are in its allocation. -/
theorem copies_iff (vecs : Vectors) (vfrom vto : Nat) :
    Copies vecs vfrom vto ↔ Copyable vecs vfrom vto := by
  constructor
  · exact copies_copyable
  · rintro (empty | ⟨other, same, whole⟩)
    · exact copies_empty empty
    · exact copies_whole other same whole

/-- One item of eight bytes, and a destination for items of four. -/
def unequalSizes : Vectors := fun v =>
  if v = 0 then ⟨List.replicate 64 (some 0), 8, 1, 8⟩ else covecNew 4

theorem copies_overrun : ¬ ∀ vecs vfrom vto, Copies vecs vfrom vto := by
  intro always
  obtain ⟨vecs', ran, -⟩ := always unequalSizes 0 1
  have stops : covecCopy mul32 unequalSizes 0 1 = .error .outOfBounds := rfl
  rw [stops] at ran
  cases ran

end Copy

end Colinlib.Guarantees.VectorCopy
