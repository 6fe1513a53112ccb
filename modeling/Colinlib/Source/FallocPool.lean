import Mathlib.Data.List.Pairwise
import Mathlib.Data.List.Perm.Basic
import Colinlib.Source.Falloc

/-!
# What the allocator's memory looks like

`Pool` describes a state of the allocator by three lists: the memory blocks, the
free items in list order, and the items handed out. Each operation has one
lemma, which says what becomes of the lists and which bytes it leaves alone.
-/
namespace Colinlib.Source.Falloc
open Colinlib.Theory Colinlib.Theory.CMemory Colinlib.Theory.ByteMemory Colinlib.Theory.Chains

def ptr (v : Nat) : Option Nat := if v = 0 then none else some v

/-- The `next` field of a block header or a free item. -/
def pointer (byte : Nat → UInt8) (a : Nat) : Option Nat := ptr (wordAt byte 8 a)

/-- The first `n` items of the block at `base`. -/
def itemsOf (S n base : Nat) : List Nat :=
  (List.range n).map (fun k => base + bufferOffset + S * k)

def capacity (B S : Nat) : Nat := (B - bufferOffset) / S

def carved (B S : Nat) (bases : List Nat) : List Nat :=
  bases.flatMap (itemsOf S (capacity B S))

/-- The state of an allocator with blocks of `B` bytes and items of `S`; `others`
are the allocations of the rest of the program. -/
structure Pool (B S : Nat) (others : List (Nat × Nat)) (s : State)
    (bases free held : List Nat) : Prop where
  item : sizeofBlockitem ≤ S
  fits : S + bufferOffset ≤ B
  bounded : B ≤ maxBlockSize
  blocksize : s.1.blocksize = B
  itemsize : s.1.itemsize = S
  memblocks : Chain (pointer s.2.byte) (ptr s.1.memblock) bases
  freeitems : Chain (pointer s.2.byte) (ptr s.1.freeitem) free
  blocks : s.2.blocks = bases.map (fun b => (b, B)) ++ others
  placed : ∀ b ∈ bases, 0 < b ∧ b + B ≤ 2 ^ 64
  apart : bases.Pairwise (fun b c => Apart b B c B)
  alone : ∀ b ∈ bases, ∀ c ∈ others, c.1 ≠ b ∧ Apart c.1 c.2 b B
  division : (free ++ held).Perm (carved B S bases)

section Layout

variable {B S : Nat} {bases : List Nat}

theorem ptr_pos {v : Nat} (h : 0 < v) : ptr v = some v := if_neg (Nat.pos_iff_ne_zero.mp h)

theorem mem_carved {i : Nat} :
    i ∈ carved B S bases ↔ ∃ b ∈ bases, ∃ k < capacity B S, i = b + bufferOffset + S * k := by
  simp only [carved, itemsOf, List.mem_flatMap, List.mem_map, List.mem_range]
  constructor
  · intro h
    obtain ⟨b, hb, k, hk, rfl⟩ := h
    exact ⟨b, hb, k, hk, rfl⟩
  · intro h
    obtain ⟨b, hb, k, hk, rfl⟩ := h
    exact ⟨b, hb, k, hk, rfl⟩

theorem capacity_inside {k : Nat} (h : k < capacity B S) : S * k + S ≤ B - bufferOffset := by
  have := Nat.mul_le_of_le_div S (k + 1) (B - bufferOffset) h
  rw [Nat.mul_comm, Nat.mul_add, Nat.mul_one] at this
  exact this

theorem capacity_reached {k : Nat} (hS : 0 < S) (h : ¬ k < capacity B S) :
    B - bufferOffset < S * k + S := by
  by_contra low
  apply h
  apply (Nat.le_div_iff_mul_le hS).mpr
  rw [Nat.succ_mul, Nat.mul_comm]
  omega

theorem itemsOf_nodup (hS : 0 < S) (n base : Nat) : (itemsOf S n base).Nodup := by
  apply List.Nodup.map _ List.nodup_range
  intro k l same
  have equal : S * k = S * l := by
    simp only at same
    omega
  exact Nat.eq_of_mul_eq_mul_left hS equal

/-- An item lies after the header of a block and before its end. -/
theorem carved_inside {i : Nat} (fits : bufferOffset ≤ B) (h : i ∈ carved B S bases) :
    ∃ b ∈ bases, b + bufferOffset ≤ i ∧ i + S ≤ b + B := by
  obtain ⟨b, hb, k, hk, rfl⟩ := mem_carved.mp h
  have inside := capacity_inside hk
  exact ⟨b, hb, by omega, by omega⟩

theorem blocks_apart (apart : bases.Pairwise (fun b c => Apart b B c B)) {b c : Nat}
    (hb : b ∈ bases) (hc : c ∈ bases) (ne : b ≠ c) : Apart b B c B :=
  have : Std.Symm (fun b c => Apart b B c B) := ⟨fun _ _ h => h.symm⟩
  apart.forall hb hc ne

/-- Distinct items do not overlap. -/
theorem items_apart (fits : bufferOffset ≤ B)
    (apart : bases.Pairwise (fun b c => Apart b B c B)) {i j : Nat}
    (hi : i ∈ carved B S bases) (hj : j ∈ carved B S bases) (ne : i ≠ j) : Apart i S j S := by
  obtain ⟨b, hb, k, hk, rfl⟩ := mem_carved.mp hi
  obtain ⟨c, hc, l, hl, rfl⟩ := mem_carved.mp hj
  have insideK := capacity_inside hk
  have insideL := capacity_inside hl
  by_cases same : b = c
  · subst same
    have order : k < l ∨ l < k := by
      rcases Nat.lt_trichotomy k l with h | h | h
      · exact .inl h
      · exact absurd (by rw [h]) ne
      · exact .inr h
    unfold Apart
    rcases order with h | h
    · have := Nat.mul_le_mul_left S h
      rw [Nat.mul_succ] at this
      omega
    · have := Nat.mul_le_mul_left S h
      rw [Nat.mul_succ] at this
      omega
  · apply (blocks_apart apart hb hc same).inner <;> omega

/-- An item does not meet the header of any block. -/
theorem header_apart (fits : bufferOffset ≤ B)
    (apart : bases.Pairwise (fun b c => Apart b B c B)) {b i : Nat} (hb : b ∈ bases)
    (hi : i ∈ carved B S bases) : Apart b bufferOffset i S := by
  obtain ⟨c, hc, lo, hi'⟩ := carved_inside fits hi
  by_cases same : b = c
  · subst same
    exact .inl lo
  · apply (blocks_apart apart hb hc same).inner <;> omega

end Layout

section Stamping

/-- The bytes once the two fields of a free item are written. -/
def stamp (byte : Nat → UInt8) (item next flag : Nat) : Nat → UInt8 :=
  put (put byte item (encode 8 next)) (item + flagOffset) (encode 4 flag)

variable {byte : Nat → UInt8} {item next flag : Nat}

theorem stamp_next (h : next < 2 ^ 64) : pointer (stamp byte item next flag) item = ptr next := by
  rw [pointer, stamp, wordAt_put_frame _ (by simp [Apart, flagOffset]), wordAt_put _ h]

theorem stamp_flag (byte : Nat → UInt8) (item next : Nat) (h : flag < 2 ^ 32) :
    wordAt (stamp byte item next flag) 4 (item + flagOffset) = flag := wordAt_put _ h

theorem stamp_same {x : Nat} (h : x < item ∨ item + sizeofBlockitem ≤ x) :
    stamp byte item next flag x = byte x := by
  unfold sizeofBlockitem at h
  unfold stamp flagOffset
  rw [put_outside _ _ _ _ (by simp; omega), put_outside _ _ _ _ (by simp; omega)]

/-- The stores of the carving loop. -/
theorem stamp_stores {mem : Memory} (next flag : Nat) (pos : 0 < item)
    (owned : Owned mem item sizeofBlockitem) :
    store mem 8 item next = .ok { mem with byte := put mem.byte item (encode 8 next) } ∧
      store { mem with byte := put mem.byte item (encode 8 next) } 4 (item + flagOffset) flag =
        .ok { mem with byte := stamp mem.byte item next flag } := by
  constructor
  · exact store_ok (by omega) (owned.inner (Nat.le_refl _) (by simp [sizeofBlockitem]))
  · exact store_ok (by omega) (Owned.inner owned (by simp) (by simp [flagOffset, sizeofBlockitem]))

/-- The stores of `cofalloc_freeitem`, in their order. -/
theorem stamp_stores_flag_first {mem : Memory} (next flag : Nat) (pos : 0 < item)
    (owned : Owned mem item sizeofBlockitem) :
    store mem 4 (item + flagOffset) flag =
        .ok { mem with byte := put mem.byte (item + flagOffset) (encode 4 flag) } ∧
      store { mem with byte := put mem.byte (item + flagOffset) (encode 4 flag) } 8 item next =
        .ok { mem with byte := stamp mem.byte item next flag } := by
  constructor
  · exact store_ok (by omega) (owned.inner (by simp) (by simp [flagOffset, sizeofBlockitem]))
  · rw [stamp, put_comm mem.byte (by simp [Apart, flagOffset])]
    exact store_ok (by omega) (Owned.inner owned (Nat.le_refl _) (by simp [sizeofBlockitem]))

end Stamping

section Carving

/-- The allocator's blocks are as they were, and so is memory outside `[lo, hi)`. -/
structure Elsewhere (lo hi : Nat) (mem mem' : Memory) : Prop where
  blocks : mem'.blocks = mem.blocks
  same : ∀ x, x < lo ∨ hi ≤ x → mem'.byte x = mem.byte x

theorem Elsewhere.word {lo hi a n : Nat} {mem mem' : Memory} (h : Elsewhere lo hi mem mem')
    (apart : Apart lo (hi - lo) a n) : wordAt mem'.byte n a = wordAt mem.byte n a := by
  apply wordAt_congr
  intro x low high
  apply h.same
  unfold Apart at apart
  omega

theorem itemsOf_succ (S k base : Nat) :
    itemsOf S (k + 1) base = itemsOf S k base ++ [base + bufferOffset + S * k] := by
  simp [itemsOf, List.range_succ]

/-- From the `k`-th item on, the loop carves what is left of the block. -/
theorem carveLoop_spec {B S base : Nat} (item : sizeofBlockitem ≤ S) (fits : bufferOffset ≤ B)
    (pos : 0 < base) (high : base + B ≤ 2 ^ 64) (fuel k : Nat) (alloc : Cofalloc)
    (mem : Memory) (owned : Owned mem base B) (room : k ≤ capacity B S)
    (enough : capacity B S ≤ k + fuel)
    (chain : Chain (pointer mem.byte) (ptr alloc.freeitem) (itemsOf S k base).reverse)
    (small : alloc.freeitem < 2 ^ 64) :
    ∃ first mem', carveLoop (base + bufferOffset) S (B - bufferOffset : Nat) fuel (S * k : Nat)
        (alloc, mem) = .ok ({ alloc with freeitem := first }, mem') ∧
      Elsewhere (base + bufferOffset + S * k) (base + B) mem mem' ∧
      Chain (pointer mem'.byte) (ptr first) (itemsOf S (capacity B S) base).reverse ∧
      (∀ j, k ≤ j → j < capacity B S →
        wordAt mem'.byte 4 (base + bufferOffset + S * j + flagOffset) = 0) := by
  have hS : 0 < S := Nat.lt_of_lt_of_le (by decide) item
  induction fuel generalizing k alloc mem with
  | zero =>
      obtain rfl : k = capacity B S := by omega
      have full := capacity_reached (B := B) hS (Nat.lt_irrefl _)
      refine ⟨alloc.freeitem, mem, ?_, ⟨rfl, fun _ _ => rfl⟩, chain, by omega⟩
      rw [carveLoop, if_neg (by omega)]
  | succ fuel ih =>
      by_cases more : k < capacity B S
      · have inside := capacity_inside more
        have next : S * (k + 1) = S * k + S := Nat.mul_succ S k
        have at' : address (base + bufferOffset) (S * k : Nat) = base + bufferOffset + S * k := by
          unfold address
          omega
        have mine : Owned mem (base + bufferOffset + S * k) sizeofBlockitem :=
          owned.inner (by omega) (by omega)
        obtain ⟨store₁, store₂⟩ := stamp_stores alloc.freeitem 0 (by omega) mine
        have below : ∀ x, x < base + bufferOffset + S * k ∨
            base + bufferOffset + S * (k + 1) ≤ x →
            stamp mem.byte (base + bufferOffset + S * k) alloc.freeitem 0 x = mem.byte x :=
          fun x hx => stamp_same (by omega)
        have flag := stamp_flag mem.byte (base + bufferOffset + S * k) alloc.freeitem
          (show 0 < 2 ^ 32 by decide)
        have chain' : Chain (pointer (stamp mem.byte (base + bufferOffset + S * k)
            alloc.freeitem 0)) (ptr (base + bufferOffset + S * k))
            (itemsOf S (k + 1) base).reverse := by
          rw [itemsOf_succ, List.reverse_append]
          refine ⟨ptr_pos (by omega), ?_⟩
          rw [stamp_next small]
          apply chain.congr
          intro x hx
          obtain ⟨l, hl, rfl⟩ := List.mem_map.mp (List.mem_reverse.mp hx)
          have gap := Nat.mul_le_mul_left S (List.mem_range.mp hl)
          rw [Nat.mul_succ] at gap
          unfold sizeofBlockitem at item
          rw [pointer, pointer, wordAt_congr (g := mem.byte)]
          intro y _ hy
          exact below y (by omega)
        obtain ⟨first, mem', run, elsewhere, chained, flags⟩ :=
          ih (k + 1) { alloc with freeitem := base + bufferOffset + S * k }
            { mem with byte := stamp mem.byte _ alloc.freeitem 0 } owned more (by omega)
            chain' (show base + bufferOffset + S * k < 2 ^ 64 by omega)
        refine ⟨first, mem', ?_, ⟨elsewhere.blocks, ?_⟩, chained, ?_⟩
        · rw [carveLoop, if_pos (by omega), at']
          change (store mem 8 _ alloc.freeitem >>= _) = _
          rw [store₁, ok_bind, store₂, ok_bind]
          have idx : ((S * k : Nat) : Int) + S = ((S * (k + 1) : Nat) : Int) := by omega
          rw [idx]
          exact run
        · intro x hx
          rw [elsewhere.same x (by omega)]
          exact below x (by omega)
        · intro j low high
          by_cases here : j = k
          · subst here
            unfold sizeofBlockitem flagOffset at *
            rw [elsewhere.word (by unfold Apart; omega)]
            exact flag
          · exact flags j (by omega) high
      · obtain rfl : k = capacity B S := by omega
        have full := capacity_reached (B := B) hS (Nat.lt_irrefl _)
        refine ⟨alloc.freeitem, mem, ?_, ⟨rfl, fun _ _ => rfl⟩, chain, by omega⟩
        rw [carveLoop, if_neg (by omega)]

end Carving

section Operations

variable {B S : Nat} {others : List (Nat × Nat)} {s : State} {bases free held : List Nat}

theorem Pool.header (h : Pool B S others s bases free held) : bufferOffset ≤ B := by
  have := h.fits
  omega

theorem Pool.positive (h : Pool B S others s bases free held) : 0 < capacity B S := by
  have hS : 0 < S := Nat.lt_of_lt_of_le (by decide) h.item
  apply Nat.div_pos _ hS
  have := h.fits
  omega

theorem Pool.free_carved (h : Pool B S others s bases free held) {i : Nat} (hi : i ∈ free) :
    i ∈ carved B S bases := h.division.subset (List.mem_append_left _ hi)

theorem Pool.held_carved (h : Pool B S others s bases free held) {i : Nat} (hi : i ∈ held) :
    i ∈ carved B S bases := h.division.subset (List.mem_append_right _ hi)

/-- Items are owned memory, at addresses that a pointer holds. -/
theorem Pool.owned (h : Pool B S others s bases free held) {i : Nat}
    (hi : i ∈ carved B S bases) : 0 < i ∧ i < 2 ^ 64 ∧ Owned s.2 i S := by
  obtain ⟨b, hb, lo, hi'⟩ := carved_inside h.header hi
  have placed := h.placed b hb
  have item := h.item
  unfold bufferOffset sizeofBlockitem at *
  refine ⟨by omega, by omega, (b, B), ?_, by simp only; omega, hi'⟩
  rw [h.blocks]
  exact List.mem_append_left _ (List.mem_map_of_mem hb)

theorem Pool.owned_fields (h : Pool B S others s bases free held) {i : Nat}
    (hi : i ∈ carved B S bases) : Owned s.2 i sizeofBlockitem :=
  (h.owned hi).2.2.inner (Nat.le_refl _) (Nat.add_le_add_left h.item i)

/-- A null-terminated list's first pointer fits a pointer if its nodes do. -/
theorem head_small {byte : Nat → UInt8} {v : Nat} {xs : List Nat}
    (chain : Chain (pointer byte) (ptr v) xs) (small : ∀ x ∈ xs, x < 2 ^ 64) : v < 2 ^ 64 := by
  cases xs with
  | nil =>
      have null : ptr v = none := chain
      unfold ptr at null
      split at null
      · omega
      · cases null
  | cons x rest =>
      have head : ptr v = some x := chain.1
      unfold ptr at head
      split at head
      · cases head
      · cases head
        exact small _ (by simp)

theorem Pool.freeitem_small (h : Pool B S others s bases free held) : s.1.freeitem < 2 ^ 64 :=
  head_small h.freeitems (fun _ hx => (h.owned (h.free_carved hx)).2.1)

theorem Pool.memblock_small (h : Pool B S others s bases free held) : s.1.memblock < 2 ^ 64 := by
  apply head_small h.memblocks
  intro b hb
  have placed := h.placed b hb
  have header := h.header
  unfold bufferOffset at header
  omega

theorem Pool.free_nil_iff (h : Pool B S others s bases free held) :
    free = [] ↔ s.1.freeitem = 0 := by
  have chain := h.freeitems
  unfold ptr at chain
  constructor
  · intro empty
    subst empty
    by_contra pos
    rw [if_neg pos] at chain
    cases chain
  · intro null
    rw [if_pos null] at chain
    cases free with
    | nil => rfl
    | cons x rest => cases chain.1

/-- The parts of memory a pool depends on: the blocks' headers and the links of
the free items. -/
theorem Pool.frame (h : Pool B S others s bases free held) {mem : Memory}
    (blocks : mem.blocks = s.2.blocks)
    (headers : ∀ b ∈ bases, pointer mem.byte b = pointer s.2.byte b)
    (links : ∀ i ∈ free, pointer mem.byte i = pointer s.2.byte i) :
    Pool B S others (s.1, mem) bases free held where
  item := h.item
  fits := h.fits
  bounded := h.bounded
  blocksize := h.blocksize
  itemsize := h.itemsize
  memblocks := h.memblocks.congr headers
  freeitems := h.freeitems.congr links
  blocks := blocks.trans h.blocks
  placed := h.placed
  apart := h.apart
  alone := h.alone
  division := h.division

/-- The allocator's memory tells which items are held. -/
theorem Pool.held_perm {others' : List (Nat × Nat)} {bases' free' held' : List Nat}
    (h : Pool B S others s bases free held) (h' : Pool B S others' s bases' free' held') :
    held.Perm held' := by
  obtain rfl := h.memblocks.unique h'.memblocks
  obtain rfl := h.freeitems.unique h'.freeitems
  exact (List.perm_append_left_iff free).mp (h.division.trans h'.division.symm)

theorem Pool.nodup (h : Pool B S others s bases free held) : (carved B S bases).Nodup := by
  have hS : 0 < S := Nat.lt_of_lt_of_le (by decide) h.item
  apply List.nodup_flatMap.mpr
  constructor
  · intro b _
    exact itemsOf_nodup hS _ b
  · apply h.apart.imp
    intro b c apart x hb hc
    have inB : ∃ b' ∈ [b], b' + bufferOffset ≤ x ∧ x + S ≤ b' + B :=
      carved_inside h.header (by simpa [carved] using hb)
    have inC : ∃ c' ∈ [c], c' + bufferOffset ≤ x ∧ x + S ≤ c' + B :=
      carved_inside h.header (by simpa [carved] using hc)
    simp only [List.mem_singleton, exists_eq_left] at inB inC
    unfold Apart at apart
    omega

/-- The list head is handed out. -/
theorem Pool.take {x : Nat} {rest : List Nat} (h : Pool B S others s bases (x :: rest) held) :
    s.1.freeitem = x ∧ ∃ next, load s.2 8 x = .ok next ∧
      Pool B S others ({ s.1 with freeitem := next }, s.2) bases rest (x :: held) := by
  obtain ⟨pos, small, owned⟩ := h.owned (i := x) (h.free_carved (by simp))
  have head : s.1.freeitem = x := by
    have chain := h.freeitems.1
    unfold ptr at chain
    split at chain
    · cases chain
    · exact Option.some.inj chain
  have item := h.item
  unfold sizeofBlockitem at item
  refine ⟨head, wordAt s.2.byte 8 x, load_ok (by omega) (owned.inner (Nat.le_refl _) (by omega)),
    ?_⟩
  have division : (rest ++ x :: held).Perm (carved B S bases) :=
    List.perm_middle.trans h.division
  have chain : Chain (pointer s.2.byte) (ptr (wordAt s.2.byte 8 x)) rest := h.freeitems.2
  exact ⟨h.item, h.fits, h.bounded, h.blocksize, h.itemsize, h.memblocks, chain, h.blocks, h.placed,
    h.apart, h.alone, division⟩

/-- The list was empty: a block is allocated and its items are put on the list. -/
theorem Pool.grow (h : Pool B S others s bases [] held) {base : Nat} (fresh : Fresh s.2 base B) :
    ∃ s', Falloc.grow base s = .ok s' ∧
      Pool B S others s' (base :: bases) (itemsOf S (capacity B S) base).reverse held ∧
      Elsewhere base (base + B) (allocate s.2 base B) s'.2 ∧
      ∀ i ∈ itemsOf S (capacity B S) base, wordAt s'.2.byte 4 (i + flagOffset) = 0 := by
  obtain ⟨alloc, mem⟩ := s
  obtain ⟨pos, high, others_apart⟩ := fresh
  have header := h.header
  have owned : Owned (allocate mem base B) base B := ⟨(base, B), by simp [allocate], by simp⟩
  have hB : alloc.blocksize = B := h.blocksize
  have hS : alloc.itemsize = S := h.itemsize
  have fits := h.fits
  have item := h.item
  have bounded := h.bounded
  have null : alloc.freeitem = 0 := h.free_nil_iff.mp rfl
  unfold maxBlockSize at bounded
  have store₁ := store_ok (v := alloc.memblock) (m := allocate mem base B) (n := 8) (a := base)
    (by omega) (owned.inner (Nat.le_refl _) (Nat.add_le_add_left header base))
  have below : capacity B S ≤ B := Nat.le_trans (Nat.div_le_self _ _) (Nat.sub_le _ _)
  have empty : ptr alloc.freeitem = none := by rw [null]; rfl
  obtain ⟨first, mem', run, elsewhere, chained, flags⟩ :=
    carveLoop_spec item header pos high B 0 { alloc with memblock := base }
      { allocate mem base B with
        byte := put (allocate mem base B).byte base (encode 8 alloc.memblock) }
      owned (Nat.zero_le _) (by omega) empty h.freeitem_small
  have same : ∀ x, x < base ∨ base + B ≤ x → mem'.byte x = mem.byte x := by
    intro x hx
    rw [elsewhere.same x (by unfold bufferOffset at *; omega)]
    exact put_outside _ _ _ _ (by simp only [encode_length]; unfold bufferOffset at *; omega)
  have mine : ∀ b ∈ bases, (b, B) ∈ mem.blocks := by
    intro b hb
    rw [show mem.blocks = _ from h.blocks]
    exact List.mem_append_left _ (List.mem_map_of_mem hb)
  have headers : ∀ b ∈ bases, pointer mem'.byte b = pointer mem.byte b := by
    intro b hb
    have apart := (others_apart (b, B) (mine b hb)).2
    unfold Apart bufferOffset at *
    simp only at apart
    rw [pointer, pointer, wordAt_congr (fun x _ _ => same x (by omega))]
  have link : pointer mem'.byte base = ptr alloc.memblock := by
    rw [pointer, elsewhere.word (by unfold Apart bufferOffset; omega),
      wordAt_put _ h.memblock_small]
  refine ⟨({ alloc with memblock := base, freeitem := first }, mem'), ?_, ?_,
    ⟨elsewhere.blocks, same⟩, ?_⟩
  · rw [← hB, ← hS, Nat.mul_zero] at run
    rw [Falloc.grow]
    change (store (allocate mem base alloc.blocksize) 8 base alloc.memblock >>= fun mem =>
      carveLoop (base + bufferOffset) (toInt32 alloc.itemsize)
        (toInt32 (alloc.blocksize - bufferOffset)) alloc.blocksize 0
        ({ alloc with memblock := base }, mem)) = _
    have small : alloc.itemsize ≤ intMax := by
      unfold intMax sizeofBlockitem at *
      omega
    rw [hB, store₁, ok_bind, ← hB, toInt32_of_le small, toInt32_of_le (by unfold intMax; omega)]
    exact run
  · exact {
      item := item
      fits := fits
      bounded := h.bounded
      blocksize := hB
      itemsize := hS
      memblocks := ⟨ptr_pos pos, by rw [link]; exact h.memblocks.congr headers⟩
      freeitems := chained
      blocks := by
        rw [elsewhere.blocks]
        exact congrArg (List.cons (base, B)) h.blocks
      placed := List.forall_mem_cons.mpr ⟨⟨pos, high⟩, h.placed⟩
      apart := List.pairwise_cons.mpr
        ⟨fun b hb => (others_apart (b, B) (mine b hb)).2.symm, h.apart⟩
      alone := by
        refine List.forall_mem_cons.mpr ⟨fun c hc => others_apart c ?_, h.alone⟩
        rw [show mem.blocks = _ from h.blocks]
        exact List.mem_append_right _ hc
      division := (List.reverse_perm _).append h.division }
  · intro i hi
    obtain ⟨k, hk, rfl⟩ := List.mem_map.mp hi
    exact flags k (Nat.zero_le k) (List.mem_range.mp hk)

/-- What a call of `cofalloc_newitem` that finds no free item does to memory. -/
def Grown (B S base : Nat) (mem mem' : Memory) : Prop :=
  Elsewhere base (base + B) (allocate mem base B) mem' ∧
    ∀ i ∈ itemsOf S (capacity B S) base, wordAt mem'.byte 4 (i + flagOffset) = 0

theorem Pool.newitem (h : Pool B S others s bases free held) {base : Nat}
    (room : s.1.freeitem ≠ 0 ∨ Fresh s.2 base B) :
    ∃ item s' free', cofallocNewitem base s = .ok (item, s') ∧
      ((free = item :: free' ∧ s'.2 = s.2 ∧ Pool B S others s' bases free' (item :: held)) ∨
        (free = [] ∧ (itemsOf S (capacity B S) base).reverse = item :: free' ∧
          Grown B S base s.2 s'.2 ∧
          Pool B S others s' (base :: bases) free' (item :: held))) := by
  cases free with
  | cons x rest =>
      have pos : s.1.freeitem ≠ 0 := fun null => by cases h.free_nil_iff.mpr null
      obtain ⟨head, next, loaded, pool⟩ := h.take
      refine ⟨x, ({ s.1 with freeitem := next }, s.2), rest, ?_, .inl ⟨rfl, rfl, pool⟩⟩
      rw [cofallocNewitem, if_neg pos]
      change (load s.2 8 s.1.freeitem >>= _) = _
      rw [head, loaded, ok_bind]
  | nil =>
      have null := h.free_nil_iff.mp rfl
      obtain ⟨s₁, run, pool₁, elsewhere, flags⟩ := h.grow (room.resolve_left (fun ne => ne null))
      obtain ⟨last, before, items⟩ : ∃ last before,
          (itemsOf S (capacity B S) base).reverse = last :: before := by
        apply List.exists_cons_of_length_pos
        simpa [itemsOf] using h.positive
      rw [items] at pool₁
      obtain ⟨head, next, loaded, pool⟩ := pool₁.take
      refine ⟨last, ({ s₁.1 with freeitem := next }, s₁.2), before, ?_,
        .inr ⟨rfl, items, ⟨elsewhere, flags⟩, pool⟩⟩
      rw [cofallocNewitem, if_pos null, run, ok_bind]
      change (load s₁.2 8 s₁.1.freeitem >>= _) = _
      rw [head, loaded, ok_bind]

/-- What is written to one item leaves the other items held. -/
theorem Pool.held_frame (h : Pool B S others s bases free held) {i j : Nat} (hi : i ∈ held)
    (hj : j ∈ held) (ne : i ≠ j) {byte : Nat → UInt8}
    (same : ∀ x, x < i ∨ i + S ≤ x → byte x = s.2.byte x) {x : Nat} (lo : j ≤ x)
    (hi' : x < j + S) : byte x = s.2.byte x := by
  have apart := items_apart h.header h.apart (h.held_carved hi) (h.held_carved hj) ne
  unfold Apart at apart
  exact same x (by omega)

/-- A new item costs the items held nothing. -/
theorem Pool.newitem_kept (h : Pool B S others s bases free held) {base : Nat}
    (room : s.1.freeitem ≠ 0 ∨ Fresh s.2 base B) :
    ∃ item s' bases' free', cofallocNewitem base s = .ok (item, s') ∧
      Pool B S others s' bases' free' (item :: held) ∧
      ∀ j ∈ held, ∀ x, j ≤ x → x < j + S → s'.2.byte x = s.2.byte x := by
  obtain ⟨item, s', free', run, ⟨-, same, pool⟩ | ⟨empty, -, grew, pool⟩⟩ := h.newitem room
  · exact ⟨item, s', bases, free', run, pool, fun _ _ _ _ _ => by rw [same]⟩
  · refine ⟨item, s', base :: bases, free', run, pool, ?_⟩
    intro j hj x lo hi
    obtain ⟨b, hb, lo', hi'⟩ := carved_inside h.header (h.held_carved hj)
    have apart := blocks_apart pool.apart (List.mem_cons_of_mem base hb) List.mem_cons_self
    have ne : b ≠ base := fun same =>
      (List.nodup_cons.mp pool.memblocks.nodup).1 (same ▸ hb)
    have disjoint := apart ne
    unfold Apart at disjoint
    exact grew.1.same x (by omega)

theorem Pool.flag_ok (h : Pool B S others s bases free held) {i : Nat}
    (hi : i ∈ carved B S bases) :
    load s.2 4 (i + flagOffset) = .ok (wordAt s.2.byte 4 (i + flagOffset)) := by
  have item := h.item
  obtain ⟨pos, _, owned⟩ := h.owned hi
  unfold sizeofBlockitem flagOffset at *
  exact load_ok (by omega) (owned.inner (by omega) (by omega))

theorem Pool.isfree (h : Pool B S others s bases free held) {i : Nat}
    (hi : i ∈ carved B S bases) :
    cofallocIsfree s i = .ok (wordAt s.2.byte 4 (i + flagOffset) == freeFlag) := by
  rw [cofallocIsfree, h.flag_ok hi, ok_bind]

/-- A free of an item whose flag says it is free changes nothing. -/
theorem Pool.refuse (h : Pool B S others s bases free held) {i : Nat}
    (hi : i ∈ carved B S bases) (flag : wordAt s.2.byte 4 (i + flagOffset) = freeFlag) :
    cofallocFreeitem s i = .ok (false, s) := by
  rw [cofallocFreeitem]
  rw [h.flag_ok hi, ok_bind, if_pos flag]

/-- Any other free pushes the item on the list, whether or not it was there. -/
theorem Pool.push (h : Pool B S others s bases free held) {i : Nat}
    (hi : i ∈ carved B S bases) (flag : wordAt s.2.byte 4 (i + flagOffset) ≠ freeFlag) :
    cofallocFreeitem s i = .ok (true, ({ s.1 with freeitem := i },
      { s.2 with byte := stamp s.2.byte i s.1.freeitem freeFlag })) := by
  obtain ⟨store₁, store₂⟩ := stamp_stores_flag_first s.1.freeitem freeFlag
    (h.owned hi).1 (h.owned_fields hi)
  rw [cofallocFreeitem]
  rw [h.flag_ok hi, ok_bind, if_neg flag, store₁, ok_bind, store₂, ok_bind]

/-- What is written to one item changes no header and no link of another item. -/
theorem Pool.write_held (h : Pool B S others s bases free held) {i : Nat} (hi : i ∈ held)
    (byte : Nat → UInt8) (same : ∀ x, x < i ∨ i + S ≤ x → byte x = s.2.byte x) :
    Pool B S others (s.1, { s.2 with byte }) bases free held := by
  have hic := h.held_carved hi
  have item := h.item
  unfold sizeofBlockitem at item
  refine h.frame rfl ?_ ?_
  · intro b hb
    have apart := header_apart h.header h.apart hb hic
    unfold Apart bufferOffset at apart
    rw [pointer, pointer, wordAt_congr (fun x _ _ => same x (by omega))]
  · intro j hj
    have ne : i ≠ j := by
      intro equal
      have nodup := h.division.nodup_iff.mpr h.nodup
      exact (List.nodup_append.mp nodup).2.2 j hj i hi equal.symm
    have apart := items_apart h.header h.apart hic (h.free_carved hj) ne
    unfold Apart at apart
    rw [pointer, pointer, wordAt_congr (fun x _ _ => same x (by omega))]

theorem Pool.freeitem (h : Pool B S others s bases free held) {i : Nat} (hi : i ∈ held)
    (flag : wordAt s.2.byte 4 (i + flagOffset) ≠ freeFlag) :
    ∃ s', cofallocFreeitem s i = .ok (true, s') ∧
      Pool B S others s' bases (i :: free) (held.erase i) ∧
      s'.2 = { s.2 with byte := stamp s.2.byte i s.1.freeitem freeFlag } := by
  have hic := h.held_carved hi
  have item := h.item
  unfold sizeofBlockitem at item
  refine ⟨_, h.push hic flag, ?_, rfl⟩
  have written := h.write_held hi (stamp s.2.byte i s.1.freeitem freeFlag)
    (fun x hx => stamp_same (by unfold sizeofBlockitem; omega))
  have chain : Chain (pointer (stamp s.2.byte i s.1.freeitem freeFlag)) (ptr i) (i :: free) := by
    refine ⟨ptr_pos (h.owned hic).1, ?_⟩
    rw [stamp_next h.freeitem_small]
    exact written.freeitems
  have division : (i :: free ++ held.erase i).Perm (carved B S bases) := by
    apply List.Perm.trans _ h.division
    have middle : (free ++ i :: held.erase i).Perm (i :: (free ++ held.erase i)) :=
      List.perm_middle
    apply List.Perm.trans middle.symm
    exact (List.perm_cons_erase hi).symm.append_left free
  exact { written with freeitems := chain, division := division }

/-- The blocks on the list are released one by one, and no others. -/
theorem releaseLoop_spec (header : bufferOffset ≤ B) (fuel block : Nat) (mem : Memory)
    (chain : Chain (pointer mem.byte) (ptr block) bases)
    (blocks : mem.blocks = bases.map (fun b => (b, B)) ++ others)
    (alone : ∀ b ∈ bases, ∀ c ∈ others, c.1 ≠ b) (enough : bases.length ≤ fuel) :
    ∃ mem', releaseLoop fuel block mem = .ok mem' ∧ mem'.blocks = others := by
  induction bases generalizing fuel block mem with
  | nil =>
      have null : block = 0 := by
        by_contra pos
        have chain : ptr block = none := chain
        rw [ptr, if_neg pos] at chain
        cases chain
      cases fuel <;> exact ⟨mem, if_pos null, blocks⟩
  | cons b rest ih =>
      have head : ptr block = some b := chain.1
      have pos : block ≠ 0 := by
        intro null
        rw [ptr, if_pos null] at head
        cases head
      obtain rfl : block = b := by
        rw [ptr, if_neg pos] at head
        exact Option.some.inj head
      cases fuel with
      | zero => cases enough
      | succ fuel =>
          have mine : (block, B) ∈ mem.blocks := by rw [blocks]; simp
          have once : block ∉ rest := (List.nodup_cons.mp chain.nodup).1
          have loaded := load_ok (m := mem) (n := 8) pos ⟨(block, B), mine, Nat.le_refl _,
            Nat.add_le_add_left header block⟩
          have others_stay : others.filter (fun c => c.1 ≠ block) = others := by
            apply List.filter_eq_self.mpr
            intro c hc
            simpa using alone block (by simp) c hc
          have rest_stays : (rest.map (fun b => (b, B))).filter (fun c => c.1 ≠ block) =
              rest.map (fun b => (b, B)) := by
            apply List.filter_eq_self.mpr
            intro c hc
            obtain ⟨b', hb', rfl⟩ := List.mem_map.mp hc
            have different : b' ≠ block := fun equal => once (equal ▸ hb')
            simpa using different
          have released : release mem block =
              .ok { mem with blocks := rest.map (fun b => (b, B)) ++ others } := by
            rw [release, if_pos ⟨_, mine, rfl⟩, blocks, List.map_cons, List.cons_append,
              List.filter_cons_of_neg (by simp), List.filter_append, others_stay, rest_stays]
          obtain ⟨mem', run, left⟩ := ih fuel (wordAt mem.byte 8 block)
            { mem with blocks := rest.map (fun b => (b, B)) ++ others } chain.tail rfl
            (fun b' hb' => alone b' (List.mem_cons_of_mem _ hb')) (Nat.le_of_succ_le_succ enough)
          refine ⟨mem', ?_, left⟩
          rw [releaseLoop, if_neg pos, loaded, ok_bind, released, ok_bind]
          exact run

/-- `cofalloc_free` releases every memory block, each once. -/
theorem Pool.release (h : Pool B S others s bases free held) :
    ∃ mem, cofallocFree s = .ok mem ∧ mem.blocks = others := by
  apply releaseLoop_spec h.header _ _ _ h.memblocks h.blocks
    (fun b hb c hc => (h.alone b hb c hc).1)
  rw [h.blocks]
  simp

theorem Pool.init (blocksize itemsize : Nat)
    (fits : max sizeofBlockitem itemsize + bufferOffset ≤
      clamp blocksize minBlockSize maxBlockSize) (mem : Memory) :
    Pool (clamp blocksize minBlockSize maxBlockSize) (max sizeofBlockitem itemsize) mem.blocks
      (cofallocInit blocksize itemsize, mem) [] [] [] where
  item := Nat.le_max_left _ _
  fits := fits
  bounded := by
    unfold clamp minBlockSize maxBlockSize
    omega
  blocksize := rfl
  itemsize := rfl
  memblocks := rfl
  freeitems := rfl
  blocks := rfl
  placed := by simp
  apart := List.Pairwise.nil
  alone := by simp
  division := List.Perm.refl _

end Operations

section Unfit

/-- An item size that is negative as an `int` carves backwards, without end. -/
theorem carveLoop_backwards {buffer : Nat} {itemsize blocksize : Int} (neg : itemsize < 0)
    (pos : 0 ≤ blocksize) (fuel : Nat) {idx : Int} (low : idx ≤ 0) (s s' : State) :
    carveLoop buffer itemsize blocksize fuel idx s ≠ .ok s' := by
  induction fuel generalizing idx s with
  | zero =>
      rw [carveLoop, if_pos (by omega)]
      exact fun h => by cases h
  | succ fuel ih =>
      intro run
      rw [carveLoop, if_pos (by omega)] at run
      obtain ⟨mem₁, -, run⟩ := bind_ok run
      obtain ⟨mem₂, -, run⟩ := bind_ok run
      exact ih (by omega) _ run

/-- Where not even one item fits a block, no item is ever handed out. -/
theorem cofallocNewitem_unfit {s : State} {blocksize itemsize : UInt32}
    (hB : s.1.blocksize = clamp blocksize.toNat minBlockSize maxBlockSize)
    (hS : s.1.itemsize = max sizeofBlockitem itemsize.toNat) (null : s.1.freeitem = 0)
    (unfit : s.1.blocksize < s.1.itemsize + bufferOffset) (base : Nat) (r : Nat × State) :
    cofallocNewitem base s ≠ .ok r := by
  intro run
  rw [cofallocNewitem, if_pos null] at run
  obtain ⟨⟨alloc, mem⟩, grew, run⟩ := bind_ok run
  obtain ⟨next, loaded, -⟩ := bind_ok run
  obtain ⟨alloc₀, mem₀⟩ := s
  obtain ⟨mem₁, -, carve⟩ := bind_ok grew
  have bound := itemsize.toNat_lt
  unfold clamp minBlockSize maxBlockSize sizeofBlockitem bufferOffset at *
  simp only at hB hS null unfit carve
  by_cases small : alloc₀.itemsize < 2 ^ 31
  · rw [toInt32_of_le (Nat.le_of_lt_succ small), toInt32_of_le (by unfold intMax; omega)] at carve
    have idle : ∀ (fuel : Nat) (s : State), carveLoop (base + 8) alloc₀.itemsize
        (alloc₀.blocksize - 8 : Nat) fuel 0 s = .ok s := by
      intro fuel s
      cases fuel with
      | zero => rw [carveLoop, if_neg (by omega)]
      | succ fuel => rw [carveLoop, if_neg (by omega)]
    rw [idle] at carve
    cases carve
    have fault : ByteMemory.load mem 8 alloc₀.freeitem = .error .nullPointer := by
      rw [ByteMemory.load, access, if_pos null]
      rfl
    simp only [fault] at loaded
    cases loaded
  · have neg : toInt32 alloc₀.itemsize < 0 := by
      unfold toInt32
      simp only [Int.bmod]
      omega
    have end' : (0 : Int) ≤ toInt32 (alloc₀.blocksize - bufferOffset) := by
      rw [toInt32_of_le (by unfold intMax; omega)]
      omega
    exact carveLoop_backwards neg end' _ (Int.le_refl 0) _ _ carve

end Unfit

end Colinlib.Source.Falloc
