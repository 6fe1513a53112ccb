import Colinlib.Source.Falloc
import Colinlib.Source.TimingWheel

/-!
# The timer service (`co_timerservice.c`)

Timer items come from the fixed-length allocator, and their fields are read from
and written to its memory at their C offsets. The wheel node of an item is known
to the wheel by the position of the item in `items`. The service is the pair of
its wheel and the rest, as the wheel's callbacks see it.
-/
namespace Colinlib.Source.TimerService
open Colinlib.Theory Colinlib.Theory.CMemory Colinlib.Theory.ByteMemory
open Colinlib.Source.Falloc Colinlib.Source.TimingWheel

/-- `sizeof(cotitem_t)`, and the offsets of its fields; `node` is in between. -/
def sizeofTitem : Nat := 80
def svOffset : Nat := 0
def cbOffset : Nat := 8
def ud1Offset : Nat := 56
def ud2Offset : Nat := 64
def loopOffset : Nat := 72

/-- The allocator with its memory, and the items whose nodes the wheel knows. -/
structure Store where
  alloc : Falloc.State
  items : List Nat

abbrev Cots := Cotw × Store

/-- The address of the only wheel callback there is, `_on_timer`. -/
def onTimer : Nat := 1

def cotsNew (interval currtime : Nat) (mem : Memory) : Cots :=
  (cotwInit interval currtime, { alloc := (cofallocInit 4096 sizeofTitem, mem), items := [] })

/-- `&item->node`, as the wheel knows it. -/
def nodeOf (s : Store) (item : Nat) : Nat := s.items.idxOf item

/-- An item that was never a timer before gets a node of its own. -/
def register (s : Store) (item : Nat) : Store :=
  if item ∈ s.items then s else { s with items := s.items ++ [item] }

/-- The arguments of `cots_add_timer`. -/
structure Timer where
  delay : UInt32
  loop : UInt32
  cb : UInt64
  ud1 : UInt64
  ud2 : UInt64
  deriving DecidableEq, Repr

/-- The stores `cots_add_timer` makes to a new item, in their order. -/
def fill (mem : Memory) (self item : Nat) (t : Timer) : Except Fault Memory := do
  let mem ← store mem 8 (item + svOffset) self
  let mem ← store mem 4 (item + loopOffset) t.loop.toNat
  let mem ← store mem 8 (item + cbOffset) t.cb.toNat
  let mem ← store mem 8 (item + ud1Offset) t.ud1.toNat
  store mem 8 (item + ud2Offset) t.ud2.toNat

/-- `self` is the address of the service, and `base` where a new memory block of
the allocator is placed. -/
def cotsAddTimer (self base : Nat) (sv : Cots) (t : Timer) : Except Fault (Nat × Cots) := do
  let (tw, s) := sv
  let (item, alloc, mem) ← cofallocNewitem base s.alloc
  let mem ← fill mem self item t
  let s := register { s with alloc := (alloc, mem) } item
  let tw := cotwNodeInit tw (nodeOf s item) (some onTimer) item
  let tw ← cotwAdd tw (nodeOf s item) t.delay.toNat
  .ok (item, (tw, s))

/-- The handle is passed by reference: `none` is a null `handle`, `some 0` a null
`*handle`. The new value of `*handle` is returned. -/
def cotsDelTimer (sv : Cots) (handle : Option Nat) : Except Fault (Option Nat × Cots) :=
  match handle with
  | none => .ok (handle, sv)
  | some item =>
    if item = 0 then .ok (handle, sv) else do
      let (tw, s) := sv
      let isfree ← cofallocIsfree s.alloc item
      if isfree then .ok (handle, sv) else do
        let (_, tw) ← cotwDel tw (nodeOf s item)
        let (_, alloc) ← cofallocFreeitem s.alloc item
        .ok (some 0, (tw, { s with alloc }))

/-- What `_on_timer` passes to the user callback: `cb`, `th`, `ud1` and `ud2`. -/
structure Invocation where
  cb : Nat
  item : Nat
  ud1 : Nat
  ud2 : Nat
  deriving DecidableEq, Repr

/-- `_on_timer` up to the user callback; a null callback is not called. The item
must name the service it is in. -/
def onTimerEnter (self item : Nat) (sv : Cots) : Except Fault (Invocation × Cots) := do
  let (tw, s) := sv
  let owner ← load s.alloc.2 8 (item + svOffset)
  if owner ≠ self then .error .badPointer else do
    let loop ← load s.alloc.2 4 (item + loopOffset)
    let tw ← if loop ≠ 0 then cotwAdd tw (nodeOf s item) loop else .ok tw
    let cb ← load s.alloc.2 8 (item + cbOffset)
    let ud1 ← load s.alloc.2 8 (item + ud1Offset)
    let ud2 ← load s.alloc.2 8 (item + ud2Offset)
    .ok ({ cb, item, ud1, ud2 }, (tw, s))

/-- The fields of a timer item in memory. -/
structure Fields (service : Nat) (byte : Nat → UInt8) (item : Nat) (t : Timer) : Prop where
  sv : wordAt byte 8 (item + svOffset) = service
  loop : wordAt byte 4 (item + loopOffset) = t.loop.toNat
  cb : wordAt byte 8 (item + cbOffset) = t.cb.toNat
  ud1 : wordAt byte 8 (item + ud1Offset) = t.ud1.toNat
  ud2 : wordAt byte 8 (item + ud2Offset) = t.ud2.toNat

section Items

variable {self item : Nat} {t : Timer} {byte byte' : Nat → UInt8}

/-- The fields are in the item's own bytes. -/
theorem Fields.congr (h : Fields self byte item t)
    (same : ∀ x, item ≤ x → x < item + sizeofTitem → byte' x = byte x) :
    Fields self byte' item t := by
  unfold sizeofTitem at same
  refine ⟨?_, ?_, ?_, ?_, ?_⟩
  · rw [wordAt_congr (fun x lo hi => same x (by omega) (by unfold svOffset at hi; omega))]
    exact h.sv
  · rw [wordAt_congr (fun x lo hi => same x (by omega) (by unfold loopOffset at hi; omega))]
    exact h.loop
  · rw [wordAt_congr (fun x lo hi => same x (by omega) (by unfold cbOffset at hi; omega))]
    exact h.cb
  · rw [wordAt_congr (fun x lo hi => same x (by omega) (by unfold ud1Offset at hi; omega))]
    exact h.ud1
  · rw [wordAt_congr (fun x lo hi => same x (by omega) (by unfold ud2Offset at hi; omega))]
    exact h.ud2

/-- The flag shares its bytes with the low half of the callback's address. -/
theorem Fields.flag (h : Fields self byte item t) :
    wordAt byte 4 (item + flagOffset) = t.cb.toNat % 2 ^ 32 := by
  rw [wordAt_low byte 4 4, show wordAt byte (4 + 4) (item + flagOffset) = _ from h.cb]
  rfl

/-- A new item gets all its fields, and nothing outside it is written. -/
theorem fill_spec {mem : Memory} (small : self < 2 ^ 64) (pos : 0 < item)
    (owned : Owned mem item sizeofTitem) :
    ∃ byte, fill mem self item t = .ok { mem with byte } ∧ Fields self byte item t ∧
      ∀ x, x < item ∨ item + sizeofTitem ≤ x → byte x = mem.byte x := by
  have own : ∀ (off n : Nat) (b : Nat → UInt8), off + n ≤ sizeofTitem →
      Owned { mem with byte := b } (item + off) n :=
    fun off n b h => Owned.inner owned (by omega) (by omega)
  have loop := t.loop.toNat_lt
  have cb := t.cb.toNat_lt
  have ud1 := t.ud1.toNat_lt
  have ud2 := t.ud2.toNat_lt
  refine ⟨put (put (put (put (put mem.byte (item + svOffset) (encode 8 self))
    (item + loopOffset) (encode 4 t.loop.toNat)) (item + cbOffset) (encode 8 t.cb.toNat))
    (item + ud1Offset) (encode 8 t.ud1.toNat)) (item + ud2Offset) (encode 8 t.ud2.toNat),
    ?_, ⟨?_, ?_, ?_, ?_, ?_⟩, ?_⟩
  · rw [fill, store_ok (by omega) (own svOffset 8 _ (by decide)), ok_bind,
      store_ok (by omega) (own loopOffset 4 _ (by decide)), ok_bind,
      store_ok (by omega) (own cbOffset 8 _ (by decide)), ok_bind,
      store_ok (by omega) (own ud1Offset 8 _ (by decide)), ok_bind,
      store_ok (by omega) (own ud2Offset 8 _ (by decide))]
  all_goals simp only [svOffset, loopOffset, cbOffset, ud1Offset, ud2Offset]
  · rw [wordAt_put_frame _ (by simp [Apart]), wordAt_put_frame _ (by simp [Apart]),
      wordAt_put_frame _ (by simp [Apart]), wordAt_put_frame _ (by simp [Apart]),
      wordAt_put _ small]
  · rw [wordAt_put_frame _ (by simp [Apart]), wordAt_put_frame _ (by simp [Apart]),
      wordAt_put_frame _ (by simp [Apart]), wordAt_put _ loop]
  · rw [wordAt_put_frame _ (by simp [Apart]), wordAt_put_frame _ (by simp [Apart]),
      wordAt_put _ cb]
  · rw [wordAt_put_frame _ (by simp [Apart]), wordAt_put _ ud1]
  · rw [wordAt_put _ ud2]
  · intro x hx
    unfold sizeofTitem at hx
    rw [put_outside _ _ _ _ (by simp; omega), put_outside _ _ _ _ (by simp; omega),
      put_outside _ _ _ _ (by simp; omega), put_outside _ _ _ _ (by simp; omega),
      put_outside _ _ _ _ (by simp; omega)]

end Items

end Colinlib.Source.TimerService
