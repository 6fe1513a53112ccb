import Colinlib.Source.CoCtx
import Colinlib.Source.Routine

/-!
# The scheduler on the processor

`co_routine.c` over a processor: each coroutine has its context in memory and a stack of its
own, and a control transfer is a call of `coctx_swap`. Which coroutine is to run is decided by
the scheduler of `Routine`. Between its calls the running code does with the processor what it
likes. The main coroutine runs on the stack of the process, which is `co->stack` of no
coroutine; `malloc` may return any block it has not given away.
-/
namespace Colinlib.Source.RoutineSwap
open Colinlib.Theory Colinlib.Theory.CMemory Colinlib.Theory.ByteMemory Colinlib.Theory.Amd64
open Colinlib.Source.CoCtx Colinlib.Source.Routine

def minStackSize : Int := 128 * 1024
def maxStackSize : Int := 1024 * 1024

/-- `S->stsize`, from the argument of `cort_open`. -/
def stackSize (stsize : Int) : Nat := (min (max stsize minStackSize) maxStackSize).toNat

/-- What is fixed when the program is loaded and `cort_open` was called: the address `S`, the
address of `cofunc`, and the requested size of the stacks. -/
structure Image where
  sched : Word
  cofunc : Word
  stsize : Int

/-- Where a coroutine has its context and its stack. -/
structure Place where
  ctx : Nat
  stack : Nat
  size : Nat
  deriving DecidableEq, Repr

/-- The first lines of `cofunc`: the scheduler from the two halves of its address. -/
def cofuncScheduler (low32 hi32 : BitVec 32) : Word :=
  low32.setWidth 64 ||| (hi32.setWidth 64 <<< 32)

/-- `left` has, for each coroutine that called `coctx_swap`, the processor as it was when it
entered the call. It records the run and is not read by the code. -/
structure Process where
  machine : Machine
  cpu : Cpu
  place : Nat → Option Place
  left : Nat → Option Cpu

namespace Process

def bytes (p : Process) : Nat → UInt8 := p.cpu.mem.byte

def setMem (p : Process) (mem : Memory) : Process := { p with cpu := { p.cpu with mem } }

/-- `&S->co[id]->ctx`. -/
def ctxOf (p : Process) (id : Nat) : Except Fault Nat :=
  match p.place id with
  | none => .error .nullPointer
  | some place => .ok place.ctx

/-- `malloc` of the record and of the stack of a coroutine. -/
def malloc (p : Process) (id : Nat) (place : Place) : Process :=
  { p.setMem (allocate (allocate p.cpu.mem place.ctx coctxSize) place.stack place.size) with
    place := Function.update p.place id (some place) }

/-- `ss_sp` and `ss_size` are set and `coctx_make` is called. -/
def makeContext (image : Image) (p : Process) (place : Place) : Except Fault Process := do
  let mem ← store p.cpu.mem 8 (place.ctx + 136) place.stack
  let mem ← store mem 8 (place.ctx + 128) (stackSize image.stsize)
  let mem ← coctxMake mem place.ctx image.cofunc (image.sched.setWidth 32)
    ((image.sched >>> 32).setWidth 32)
  .ok (p.setMem mem)

/-- `cort_new` of a coroutine with a function. A slot that is not empty has its record and
its stack already. -/
def cortNew (image : Image) (p : Process) (func ud : Nat) (fresh : Place) :
    Except Fault Process := do
  let (cid, sch) ← Routine.cortNew p.machine.sch (some func) ud
  match cid with
  | none => .ok p
  | some id => do
    let p := if p.machine.sch.cort id = none then p.malloc id fresh else p
    match p.place id with
    | none => .error .nullPointer
    | some place => do
      let p ← p.makeContext image place
      .ok { p with
        machine := { p.machine with sch }
        left := Function.update p.left id none }

/-- The arguments of a call of `coctx_swap` that returns to `ret`, and the return address. -/
def enterSwap (s : Cpu) (octx ctx : Nat) (ret : Word) : Except Fault Cpu :=
  ((s.setReg .rdi (BitVec.ofNat 64 octx)).setReg .rsi (BitVec.ofNat 64 ctx)).push ret

/-- The call of `coctx_swap`. -/
def transfer (p : Process) (machine : Machine) (octx ctx : Nat) (ret : Word) :
    Except Fault Process := do
  let called ← enterSwap p.cpu octx ctx ret
  let cpu ← run called coctxSwap
  .ok { p with
    machine := machine
    cpu := cpu
    left := Function.update p.left p.machine.exec (some called) }

/-- `cort_resume`. -/
def cortResume (p : Process) (id : Nat) (ret : Word) : Except Fault Process := do
  let (resumed, machine) ← Routine.cortResume p.machine id
  if resumed then do
    let octx ← p.ctxOf p.machine.sch.running
    let ctx ← p.ctxOf id
    p.transfer machine octx ctx ret
  else .ok p

/-- `cort_yield`. The coroutine that resumed this one is running again when `coctx_swap` is
called. -/
def cortYield (p : Process) (ret : Word) : Except Fault Process := do
  let (yielded, machine) ← Routine.cortYield p.machine
  if yielded then do
    let octx ← p.ctxOf p.machine.sch.running
    let ctx ← p.ctxOf machine.sch.running
    p.transfer machine octx ctx ret
  else .ok p

/-- The tail of `cofunc`, with its variable `dummy` at an address on its stack. -/
def cofuncReturn (p : Process) (dummy : Nat) (ret : Word) : Except Fault Process := do
  let machine ← Routine.cofuncReturn p.machine p.machine.exec
  let ctx ← p.ctxOf machine.sch.running
  p.transfer machine dummy ctx ret

end Process

/-- `code` leads from one call of the scheduler to the next. `ret` is the address behind a
call of `coctx_swap`. -/
inductive Move where
  | code (cpu : Cpu)
  | new (func ud : Nat) (fresh : Place)
  | resume (id : Nat) (ret : Word)
  | yield (ret : Word)
  | ret (dummy : Nat) (ret : Word)

def step (image : Image) (p : Process) : Move → Except Fault Process
  | .code cpu => .ok { p with cpu }
  | .new func ud fresh => p.cortNew image func ud fresh
  | .resume id ret => p.cortResume id ret
  | .yield ret => p.cortYield ret
  | .ret dummy ret =>
    if p.machine.exec = mainCoId then .error .exited else p.cofuncReturn dummy ret

/-- The move as the scheduler sees it. -/
def Move.op : Move → Option Op
  | .code _ => none
  | .new func ud _ => some (.new func ud)
  | .resume id _ => some (.resume id)
  | .yield _ => some .yield
  | .ret .. => some .ret

/-- The bytes that the running code changes on its way to the next call. -/
def Move.Writes (p : Process) : Move → Nat → Prop
  | .code cpu, x => cpu.mem.byte x ≠ p.bytes x
  | _, _ => False

/-- The process after `cort_open`, on a processor that runs the main program, which has its
record and its stack at `main`. -/
def start (cpu : Cpu) (main : Place) : Process where
  machine := openState
  cpu := cpu
  place id := if id = mainCoId then some main else none
  left := fun _ => none

/-! ## What the code keeps to -/

/-- The running code leaves the contexts alone, and gives no context and no stack back to
`malloc`. It may write into the stacks, also of the others. -/
structure Confined (p : Process) (cpu : Cpu) : Prop where
  contexts : ∀ id place, p.place id = some place → ∀ x, place.ctx ≤ x → x < place.ctx + coctxSize →
    cpu.mem.byte x = p.bytes x
  blocks : ∀ id place, p.place id = some place →
    (place.ctx, coctxSize) ∈ cpu.mem.blocks ∧ (place.stack, place.size) ∈ cpu.mem.blocks

/-- The running code calls on its own stack. -/
def OnStack (p : Process) : Prop :=
  ∀ place, p.place p.machine.exec = some place →
    place.stack + 8 ≤ (p.cpu.reg .rsp).toNat ∧ (p.cpu.reg .rsp).toNat ≤ place.stack + place.size

/-- Two new blocks for a coroutine. The address behind a block is one, too. -/
structure FreshPlace (image : Image) (mem : Memory) (place : Place) : Prop where
  ctx : Fresh mem place.ctx coctxSize
  stack : Fresh (allocate mem place.ctx coctxSize) place.stack place.size
  size : place.size = stackSize image.stsize
  fits : place.stack + place.size < 2 ^ 64

/-- What each move assumes. A local variable lies above the stack pointer. -/
def Admits (image : Image) (p : Process) : Move → Prop
  | .code cpu => Confined p cpu
  | .new func ud fresh => ∀ id sch, Routine.cortNew p.machine.sch (some func) ud = .ok (some id, sch) →
      p.machine.sch.cort id = none → FreshPlace image p.cpu.mem fresh
  | .resume _ _ | .yield _ => OnStack p
  | .ret dummy _ => OnStack p ∧ ∀ place, p.place p.machine.exec = some place →
      (p.cpu.reg .rsp).toNat ≤ dummy ∧ dummy + coctxSize ≤ place.stack + place.size

/-- A coroutine's two blocks. -/
structure Placed (mem : Memory) (place : Place) : Prop where
  ctx : 0 < place.ctx ∧ place.ctx + coctxSize ≤ 2 ^ 64 ∧ (place.ctx, coctxSize) ∈ mem.blocks
  stack : 0 < place.stack ∧ place.stack + place.size < 2 ^ 64 ∧
    (place.stack, place.size) ∈ mem.blocks

/-- The main program has its record in another block than its stack. -/
structure Loaded (cpu : Cpu) (main : Place) : Prop where
  placed : Placed cpu.mem main
  apart : Apart main.ctx coctxSize main.stack main.size

end Colinlib.Source.RoutineSwap
