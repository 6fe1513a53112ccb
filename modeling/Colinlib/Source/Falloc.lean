import Colinlib.Theory.ByteMemory
import Colinlib.Theory.Chains

/-!
# The fixed-length allocator (`co_falloc.c`)

Items and block headers live in byte memory, under their C layout: a free item
holds `next` in bytes 0..7 and `flag` in bytes 8..11, a block holds `next` in
bytes 0..7 and its items after them. Where an allocation is placed is an input.
`int` locals are integers narrowed from their `uint32_t` and `size_t` values.
-/
namespace Colinlib.Source.Falloc
open Colinlib.Theory Colinlib.Theory.CMemory Colinlib.Theory.ByteMemory

def maxBlockSize : Nat := 16 * 1024
def minBlockSize : Nat := 4096
def sizeofBlockitem : Nat := 16
def freeFlag : Nat := 0xC0C0C0C0

/-- `offsetof(co_memblock_t, buffer)`, and the offset of `flag` in an item. -/
def bufferOffset : Nat := 8
def flagOffset : Nat := 8

/-- The null pointer is 0. -/
structure Cofalloc where
  memblock : Nat
  blocksize : Nat
  itemsize : Nat
  freeitem : Nat
  deriving DecidableEq, Repr

abbrev State := Cofalloc × Memory

def clamp (v low high : Nat) : Nat := max (min v high) low

def cofallocInit (blocksize itemsize : Nat) : Cofalloc where
  memblock := 0
  blocksize := clamp blocksize minBlockSize maxBlockSize
  itemsize := max sizeofBlockitem itemsize
  freeitem := 0

/-- The address `buffer + idx`. -/
def address (buffer : Nat) (idx : Int) : Nat := (buffer + idx).toNat

/-- The carving loop of `cofalloc_newitem`, with one step for every byte. -/
def carveLoop (buffer : Nat) (itemsize blocksize : Int) : Nat → Int → State → Except Fault State
  | 0, idx, s => if idx + itemsize ≤ blocksize then .error .starved else .ok s
  | fuel + 1, idx, (alloc, mem) =>
    if idx + itemsize ≤ blocksize then do
      let item := address buffer idx
      let mem ← store mem 8 item alloc.freeitem
      let mem ← store mem 4 (item + flagOffset) 0
      carveLoop buffer itemsize blocksize fuel (idx + itemsize)
        ({ alloc with freeitem := item }, mem)
    else .ok (alloc, mem)

/-- A new memory block at `base`, carved into free items. -/
def grow (base : Nat) (s : State) : Except Fault State := do
  let (alloc, mem) := s
  let mem := allocate mem base alloc.blocksize
  let mem ← store mem 8 base alloc.memblock
  let blocksize := toInt32 (alloc.blocksize - bufferOffset)
  carveLoop (base + bufferOffset) (toInt32 alloc.itemsize) blocksize alloc.blocksize 0
    ({ alloc with memblock := base }, mem)

def cofallocNewitem (base : Nat) (s : State) : Except Fault (Nat × State) := do
  let (alloc, mem) ← if s.1.freeitem = 0 then grow base s else .ok s
  let item := alloc.freeitem
  let next ← load mem 8 item
  .ok (item, ({ alloc with freeitem := next }, mem))

def cofallocIsfree (s : State) (item : Nat) : Except Fault Bool := do
  let flag ← load s.2 4 (item + flagOffset)
  .ok (flag == freeFlag)

def cofallocFreeitem (s : State) (item : Nat) : Except Fault (Bool × State) := do
  let (alloc, mem) := s
  let flag ← load mem 4 (item + flagOffset)
  if flag = freeFlag then .ok (false, s) else do
    let mem ← store mem 4 (item + flagOffset) freeFlag
    let mem ← store mem 8 item alloc.freeitem
    .ok (true, ({ alloc with freeitem := item }, mem))

def releaseLoop : Nat → Nat → Memory → Except Fault Memory
  | 0, block, mem => if block = 0 then .ok mem else .error .starved
  | fuel + 1, block, mem =>
    if block = 0 then .ok mem else do
      let temp ← load mem 8 block
      let mem ← release mem block
      releaseLoop fuel temp mem

/-- One step for every allocation there is. -/
def cofallocFree (s : State) : Except Fault Memory :=
  releaseLoop s.2.blocks.length s.1.memblock s.2

end Colinlib.Source.Falloc
