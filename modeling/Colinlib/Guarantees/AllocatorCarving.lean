import Colinlib.Source.FallocPool

/-!
# The first item of an allocator

A new block is carved into items, and the last of them is handed out. Where not even one item
fits behind the header, there is none: for sizes that are negative as an `int` the loop walks
out of the block, and for the others `cofalloc_newitem` follows a null pointer.
-/
namespace Colinlib.Guarantees.AllocatorCarving
open Colinlib.Theory.CMemory Colinlib.Theory.ByteMemory
open Colinlib.Source.Falloc

/-- The size of the blocks that `cofalloc_init` settles on. -/
def blockBytes (blocksize : UInt32) : Nat := clamp blocksize.toNat minBlockSize maxBlockSize

/-- What the first call of `cofalloc_newitem` leaves: an item inside the block that was
allocated at `base`, and memory outside the block as it was. -/
structure Carves (blocksize itemsize : UInt32) (mem : Memory) (base item : Nat) (mem' : Memory) :
    Prop where
  nonnull : item ≠ 0
  low : base ≤ item
  high : item + itemsize.toNat ≤ base + blockBytes blocksize
  elsewhere : Elsewhere base (base + blockBytes blocksize)
    (allocate mem base (blockBytes blocksize)) mem'

/-- In any memory and wherever the block is placed, the call returns such an item. -/
def FirstItem (blocksize itemsize : UInt32) : Prop :=
  ∀ mem base, Fresh mem base (blockBytes blocksize) → ∃ item alloc mem',
    cofallocNewitem base (cofallocInit blocksize.toNat itemsize.toNat, mem) =
      .ok (item, alloc, mem') ∧ Carves blocksize itemsize mem base item mem'

/-- A block has room for an item behind its header. -/
def Roomy (blocksize itemsize : UInt32) : Prop :=
  itemsize.toNat + bufferOffset ≤ blockBytes blocksize

instance (blocksize itemsize : UInt32) : Decidable (Roomy blocksize itemsize) :=
  inferInstanceAs (Decidable (_ ≤ _))

variable {blocksize itemsize : UInt32}

/-- Items of the least size always fit. -/
theorem Roomy.fits (h : Roomy blocksize itemsize) :
    max sizeofBlockitem itemsize.toNat + bufferOffset ≤ blockBytes blocksize := by
  unfold Roomy blockBytes clamp minBlockSize maxBlockSize sizeofBlockitem bufferOffset at *
  omega

theorem firstItem_roomy (h : Roomy blocksize itemsize) : FirstItem blocksize itemsize := by
  intro mem base fresh
  have pool := Pool.init blocksize.toNat itemsize.toNat h.fits mem
  obtain ⟨item, ⟨alloc, mem'⟩, free', ran, outcome⟩ := pool.newitem (.inr fresh)
  rcases outcome with ⟨none, -⟩ | ⟨-, -, grown, pool'⟩
  · cases none
  · obtain ⟨b, here, low, high⟩ :=
      carved_inside pool'.header (pool'.held_carved (List.mem_singleton_self item))
    obtain rfl := List.mem_singleton.mp here
    have wide : itemsize.toNat ≤ max sizeofBlockitem itemsize.toNat := Nat.le_max_right _ _
    have placed := fresh.1
    unfold bufferOffset at low
    refine ⟨item, alloc, mem', ran, by omega, by omega, ?_, grown.1⟩
    exact Nat.le_trans (Nat.add_le_add_left wide item) high

theorem firstItem_unroomy (h : ¬ Roomy blocksize itemsize) : ¬ FirstItem blocksize itemsize := by
  intro always
  have fresh : Fresh ⟨fun _ => 0, []⟩ 1 (blockBytes blocksize) := by
    refine ⟨Nat.one_pos, ?_, nofun⟩
    unfold blockBytes clamp minBlockSize maxBlockSize
    omega
  obtain ⟨item, alloc, mem', ran, -⟩ := always _ 1 fresh
  refine cofallocNewitem_unfit (s := (cofallocInit blocksize.toNat itemsize.toNat, _)) rfl rfl rfl
    ?_ 1 _ ran
  unfold Roomy blockBytes at h
  exact Nat.lt_of_lt_of_le (Nat.lt_of_not_le h)
    (Nat.add_le_add_right (Nat.le_max_right _ _) bufferOffset)

/-- **Carving for every size.** -/
theorem firstItem_iff (blocksize itemsize : UInt32) :
    FirstItem blocksize itemsize ↔ Roomy blocksize itemsize := by
  constructor
  · intro always
    by_contra unroomy
    exact firstItem_unroomy unroomy always
  · exact firstItem_roomy

/-- Blocks of 4096 bytes and items of 5000. -/
theorem firstItem_none : ¬ ∀ blocksize itemsize, FirstItem blocksize itemsize := fun always =>
  firstItem_unroomy (by decide) (always 4096 5000)

end Colinlib.Guarantees.AllocatorCarving
