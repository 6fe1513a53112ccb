import Colinlib.Source.FallocPool
import Colinlib.Theory.Runs

/-!
# Items handed out never overlap

Callers take items, free them, free them once more, and write anything to the
items they hold. A free that is refused leaves the item with its holder. Memory
is any memory, and blocks are placed anywhere that is not in use.
-/
namespace Colinlib.Guarantees.AllocatorItems
open Colinlib.Theory Colinlib.Theory.CMemory Colinlib.Theory.ByteMemory Colinlib.Theory.Chains
open Colinlib.Theory.Runs Colinlib.Source.Falloc

/-- `base` is where an allocation is placed, should one be made. -/
inductive Request where
  | newitem (base : Nat)
  | freeitem (item : Nat)
  | write (item off : Nat) (bytes : List UInt8)

inductive Event where
  | grew (base : Nat)
  | took (item : Nat)
  | gave (item : Nat)
  | kept (item : Nat)
  | wrote (item off : Nat) (bytes : List UInt8)

abbrev World := State × List Event

/-- The items callers hold after a history (newest event first). -/
def held : List Event → List Nat
  | [] => []
  | .took item :: h => item :: held h
  | .gave item :: h => (held h).erase item
  | _ :: h => held h

/-- The items that were freed and not handed out again. -/
def freed : List Event → List Nat
  | [] => []
  | .took item :: h => (freed h).erase item
  | .gave item :: h => item :: freed h
  | _ :: h => freed h

/-- The memory blocks allocated, newest first. -/
def grown : List Event → List Nat
  | [] => []
  | .grew base :: h => base :: grown h
  | _ :: h => grown h

def taken (base : Nat) (w : World) (item : Nat) : List Event :=
  if w.1.1.freeitem = 0 then .took item :: .grew base :: w.2 else .took item :: w.2

def step (w : World) : Request → Except (Halt Fault) World
  | .newitem base =>
    if w.1.1.freeitem ≠ 0 ∨ Fresh w.1.2 base w.1.1.blocksize then
      match cofallocNewitem base w.1 with
      | .ok (item, s) => .ok (s, taken base w item)
      | .error f => .error (.fault f)
    else .error .contract
  | .freeitem item =>
    if item ∈ held w.2 ∨ item ∈ freed w.2 then
      match cofallocFreeitem w.1 item with
      | .ok (true, s) => .ok (s, .gave item :: w.2)
      | .ok (false, s) => .ok (s, .kept item :: w.2)
      | .error f => .error (.fault f)
    else .error .contract
  | .write item off bytes =>
    if item ∈ held w.2 ∧ off + bytes.length ≤ w.1.1.itemsize then
      match write w.1.2 (item + off) bytes with
      | .ok mem => .ok ((w.1.1, mem), .wrote item off bytes :: w.2)
      | .error f => .error (.fault f)
    else .error .contract

def start (blocksize itemsize : UInt32) (mem : Memory) : World :=
  ((cofallocInit blocksize.toNat itemsize.toNat, mem), [])

/-- The items of the free list. -/
def FreeList (s : State) (free : List Nat) : Prop :=
  Chain (pointer s.2.byte) (ptr s.1.freeitem) free

/-- What is promised of the items held, the free list and the memory blocks;
`others` are the allocations of the rest of the program. -/
structure NonOverlapping (others : List (Nat × Nat)) (w : World) : Prop where
  inside : ∀ i ∈ held w.2, ∃ b ∈ grown w.2, b + bufferOffset ≤ i ∧
    i + w.1.1.itemsize ≤ b + w.1.1.blocksize
  apart : (held w.2).Pairwise (fun i j => Apart i w.1.1.itemsize j w.1.1.itemsize)
  freelist : ∃ free, FreeList w.1 free ∧ free.Nodup ∧ ∀ i ∈ free, i ∉ held w.2
  memblocks : Chain (pointer w.1.2.byte) (ptr w.1.1.memblock) (grown w.2)
  released : ∃ mem, cofallocFree w.1 = .ok mem ∧ mem.blocks = others

section Tracking

variable {B S : Nat} {others : List (Nat × Nat)}

/-- All a step can do to memory, the free list and the history. -/
inductive Move (B S : Nat) : World → List Nat → World → List Nat → Prop where
  | reuse {s s' : State} {hist : List Event} {item : Nat} {free : List Nat}
      (same : s'.2 = s.2) : Move B S (s, hist) (item :: free) (s', .took item :: hist) free
  | carve {s s' : State} {hist : List Event} {base item : Nat} {free : List Nat}
      (items : (itemsOf S (capacity B S) base).reverse = item :: free)
      (fresh : Fresh s.2 base B) (grown : Grown B S base s.2 s'.2) :
      Move B S (s, hist) [] (s', .took item :: .grew base :: hist) free
  | give {s s' : State} {hist : List Event} {item : Nat} {free : List Nat}
      (holder : item ∈ held hist) (flag : wordAt s.2.byte 4 (item + flagOffset) ≠ freeFlag)
      (stamped : s'.2.byte = stamp s.2.byte item s.1.freeitem freeFlag) :
      Move B S (s, hist) free (s', .gave item :: hist) (item :: free)
  | keep {s : State} {hist : List Event} {item : Nat} {free : List Nat}
      (flag : wordAt s.2.byte 4 (item + flagOffset) = freeFlag) :
      Move B S (s, hist) free (s, .kept item :: hist) free
  | write {s s' : State} {hist : List Event} {item off : Nat} {bytes : List UInt8}
      {free : List Nat} (holder : item ∈ held hist) (inside : off + bytes.length ≤ S)
      (written : s'.2.byte = put s.2.byte (item + off) bytes) :
      Move B S (s, hist) free (s', .wrote item off bytes :: hist) free

/-- The allocator's memory agrees with the history. -/
structure Tracks (B S : Nat) (others : List (Nat × Nat)) (w : World) (free : List Nat) :
    Prop where
  pool : Pool B S others w.1 (grown w.2) free (held w.2)
  freed_free : ∀ i ∈ freed w.2, i ∈ free
  freed_flag : ∀ i ∈ freed w.2, wordAt w.1.2.byte 4 (i + flagOffset) = freeFlag
  freed_once : (freed w.2).Nodup

theorem Tracks.disjoint {w : World} {free : List Nat} (h : Tracks B S others w free) :
    free.Nodup ∧ (held w.2).Nodup ∧ ∀ i ∈ free, i ∉ held w.2 := by
  have nodup := h.pool.division.nodup_iff.mpr h.pool.nodup
  obtain ⟨free_once, held_once, apart⟩ := List.nodup_append.mp nodup
  exact ⟨free_once, held_once, fun i hi hi' => apart i hi i hi' rfl⟩

/-- What happens to one item leaves the bytes of the others. -/
theorem Tracks.item_frame {w : World} {free : List Nat} (h : Tracks B S others w free)
    {i j : Nat} (hi : i ∈ carved B S (grown w.2)) (hj : j ∈ carved B S (grown w.2))
    (ne : i ≠ j) (byte : Nat → UInt8) (same : ∀ x, x < i ∨ i + S ≤ x → byte x = w.1.2.byte x)
    {k : Nat} (hk : k < S) : byte (j + k) = w.1.2.byte (j + k) := by
  have apart := items_apart h.pool.header h.pool.apart hi hj ne
  unfold Apart at apart
  exact same _ (by omega)

theorem step_pool {w : World} {free : List Nat} (h : Tracks B S others w free)
    (request : Request) :
    Outcome (· = Halt.contract) (fun w' => ∃ free', Move B S w free w' free' ∧
      Pool B S others w'.1 (grown w'.2) free' (held w'.2)) (step w request) := by
  obtain ⟨s, hist⟩ := w
  have hB : s.1.blocksize = B := h.pool.blocksize
  have hS : s.1.itemsize = S := h.pool.itemsize
  cases request with
  | newitem base =>
      rw [step]
      split
      · next room =>
        simp only [hB] at room
        obtain ⟨item, s', free', run, outcome⟩ := h.pool.newitem room
        simp only at run
        simp only [run]
        rcases outcome with ⟨rfl, same, pool⟩ | ⟨rfl, items, grown, pool⟩
        · have nonempty : s.1.freeitem ≠ 0 :=
            fun null => by cases h.pool.free_nil_iff.mpr null
          have history : taken base (s, hist) item = .took item :: hist := if_neg nonempty
          rw [history]
          exact ⟨free', .reuse same, pool⟩
        · have empty : s.1.freeitem = 0 := h.pool.free_nil_iff.mp rfl
          have history : taken base (s, hist) item = .took item :: .grew base :: hist :=
            if_pos empty
          rw [history]
          have fresh := room.resolve_left (fun ne => ne empty)
          exact ⟨free', .carve items fresh grown, pool⟩
      · rfl
  | freeitem item =>
      rw [step]
      split
      · next known =>
        have inside : item ∈ carved B S (grown hist) := by
          rcases known with hheld | hfreed
          · exact h.pool.held_carved hheld
          · exact h.pool.free_carved (h.freed_free item hfreed)
        by_cases flag : wordAt s.2.byte 4 (item + flagOffset) = freeFlag
        · simp only [h.pool.refuse inside flag]
          exact ⟨free, .keep flag, h.pool⟩
        · have holder : item ∈ held hist :=
            known.resolve_right (fun hfreed => flag (h.freed_flag item hfreed))
          obtain ⟨s', run, pool, mem⟩ := h.pool.freeitem holder flag
          simp only at run
          simp only [run]
          exact ⟨item :: free, .give holder flag (by rw [mem]), pool⟩
      · rfl
  | write item off bytes =>
      rw [step]
      split
      · next allowed =>
        obtain ⟨holder, inside⟩ := allowed
        simp only [hS] at inside
        obtain ⟨pos, _, owned⟩ := h.pool.owned (h.pool.held_carved holder)
        have mine : Owned s.2 (item + off) bytes.length := owned.inner (by omega) (by omega)
        have run := write_ok (by omega) mine
        simp only [run]
        have pool := h.pool.write_held holder (put s.2.byte (item + off) bytes)
          (fun x hx => put_outside _ _ _ _ (by omega))
        exact ⟨free, .write holder inside rfl, pool⟩
      · rfl

theorem Tracks.flag_frame {w : World} {free : List Nat} (h : Tracks B S others w free)
    {i j : Nat} (hi : i ∈ carved B S (grown w.2)) (hj : j ∈ carved B S (grown w.2))
    (ne : i ≠ j) {byte : Nat → UInt8} (same : ∀ x, x < i ∨ i + S ≤ x → byte x = w.1.2.byte x) :
    wordAt byte 4 (j + flagOffset) = wordAt w.1.2.byte 4 (j + flagOffset) := by
  have item := h.pool.item
  unfold sizeofBlockitem at item
  apply wordAt_congr
  intro x lo hi'
  unfold flagOffset at *
  have frame := h.item_frame hi hj ne _ same (k := x - j) (by omega)
  rwa [Nat.add_sub_of_le (by omega)] at frame

/-- The history stays in step with memory. -/
theorem Move.tracks {w w' : World} {free free' : List Nat} (move : Move B S w free w' free')
    (h : Tracks B S others w free)
    (pool : Pool B S others w'.1 (grown w'.2) free' (held w'.2)) :
    Tracks B S others w' free' := by
  have item := h.pool.item
  cases move with
  | @reuse s s' hist item _ same =>
      refine ⟨pool, ?_, ?_, h.freed_once.erase item⟩
      · intro i hi
        obtain ⟨ne, hi⟩ := h.freed_once.mem_erase_iff.mp hi
        exact (List.mem_cons.mp (h.freed_free i hi)).resolve_left ne
      · intro i hi
        rw [same]
        exact h.freed_flag i (List.mem_of_mem_erase hi)
  | @carve s s' hist base item _ items fresh grown =>
      have none : freed hist = [] :=
        List.eq_nil_iff_forall_not_mem.mpr (fun i hi => by cases h.freed_free i hi)
      have none' : freed (.took item :: .grew base :: hist) = [] := by simp [freed, none]
      refine ⟨pool, ?_, ?_, ?_⟩ <;> simp [none']
  | @give s s' hist item _ holder flag stamped =>
      have hitem := h.pool.held_carved holder
      have notfree : item ∉ free := fun hfree => h.disjoint.2.2 item hfree holder
      refine ⟨pool, ?_, ?_, List.nodup_cons.mpr ⟨fun hi => notfree (h.freed_free item hi),
        h.freed_once⟩⟩
      · exact List.forall_mem_cons.mpr ⟨by simp, fun i hi => List.mem_cons_of_mem _
          (h.freed_free i hi)⟩
      · rw [stamped]
        refine List.forall_mem_cons.mpr ⟨stamp_flag _ _ _ (by decide), fun i hi => ?_⟩
        have hfree := h.freed_free i hi
        rw [h.flag_frame hitem (h.pool.free_carved hfree) (fun equal => notfree (equal ▸ hfree))
          (fun x hx => stamp_same (by omega))]
        exact h.freed_flag i hi
  | keep flag => exact ⟨pool, h.freed_free, h.freed_flag, h.freed_once⟩
  | @write s s' hist item off bytes _ holder inside written =>
      have hitem := h.pool.held_carved holder
      have notfree : item ∉ free := fun hfree => h.disjoint.2.2 item hfree holder
      refine ⟨pool, h.freed_free, ?_, h.freed_once⟩
      intro i hi
      have hfree := h.freed_free i hi
      rw [written, h.flag_frame hitem (h.pool.free_carved hfree)
        (fun equal => notfree (equal ▸ hfree)) (fun x hx => put_outside _ _ _ _ (by omega))]
      exact h.freed_flag i hi

theorem step_tracks {w : World} {free : List Nat} (h : Tracks B S others w free)
    (request : Request) :
    Outcome (· = Halt.contract) (fun w' => ∃ free', Move B S w free w' free' ∧
      Tracks B S others w' free') (step w request) := by
  apply (step_pool h request).mono
  intro w' moved
  obtain ⟨free', move, pool⟩ := moved
  exact ⟨free', move, move.tracks h pool⟩

end Tracking

theorem Tracks.nonOverlapping {B S : Nat} {others : List (Nat × Nat)} {w : World}
    {free : List Nat} (h : Tracks B S others w free) : NonOverlapping others w where
  inside := by
    intro i hi
    rw [h.pool.itemsize, h.pool.blocksize]
    exact carved_inside h.pool.header (h.pool.held_carved hi)
  apart := by
    rw [h.pool.itemsize]
    apply h.disjoint.2.1.imp_of_mem
    intro i j hi hj ne
    exact items_apart h.pool.header h.pool.apart (h.pool.held_carved hi) (h.pool.held_carved hj) ne
  freelist := ⟨free, h.pool.freeitems, h.disjoint.1, h.disjoint.2.2⟩
  memblocks := h.pool.memblocks
  released := h.pool.release

/-- In every run the items held are apart and inside their blocks, the free list
holds only free items, each once, and no memory block is lost. -/
theorem items_never_overlap (blocksize itemsize : UInt32) (mem : Memory)
    (requests : List Request)
    (fits : max sizeofBlockitem itemsize.toNat ≤
      clamp blocksize.toNat minBlockSize maxBlockSize - bufferOffset) :
    Outcome (· = Halt.contract) (NonOverlapping mem.blocks)
      (run step (start blocksize itemsize mem) requests) := by
  have room : max sizeofBlockitem itemsize.toNat + bufferOffset ≤
      clamp blocksize.toNat minBlockSize maxBlockSize := by
    unfold sizeofBlockitem bufferOffset at *
    omega
  have begin_tracks : Tracks _ _ mem.blocks (start blocksize itemsize mem) [] :=
    ⟨Pool.init _ _ room mem, by simp [start, freed], by simp [start, freed], List.nodup_nil⟩
  have reached := outcome_run step (· = Halt.contract) (fun w => ∃ free, Tracks _ _ mem.blocks w free)
    (fun w request tracked => by
      obtain ⟨free, h⟩ := tracked
      apply (step_tracks h request).mono
      intro w' moved
      obtain ⟨free', _, h'⟩ := moved
      exact ⟨free', h'⟩) requests _ ⟨[], begin_tracks⟩
  apply reached.mono
  intro w tracked
  obtain ⟨free, h⟩ := tracked
  exact h.nonOverlapping

theorem items_never_overlap_reused :
    Outcome (· = Halt.contract) (NonOverlapping [])
      (run step (start 4096 2000 ⟨fun _ => 0, []⟩)
        [.newitem 4096, .newitem 0, .freeitem 6104, .newitem 0]) :=
  items_never_overlap 4096 2000 ⟨fun _ => 0, []⟩ _ (by decide)

end Colinlib.Guarantees.AllocatorItems
