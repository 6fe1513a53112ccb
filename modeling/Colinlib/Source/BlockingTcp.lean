import Colinlib.Source.Buffer
import Colinlib.Source.EventLoop
import Colinlib.Source.Routine

/-!
# Blocking calls of a coroutine (`co_routineex.c`)

A blocking call on a connection leaves a structure on its own stack, stores its address in
`tcp->ud` and yields; the callbacks find the structure there and resume the coroutine that is
named in it. An address holds a structure as long as the call that put it there has not
returned. `cort_sleep` leaves the coroutine's number with its timer.

The machine has a stack of suspended library code for each coroutine. The code that has the
processor calls the scheduler, the service or a blocking function; one coroutine runs the
event loop. A callback of this file is run where the service makes it, and is back at once
where `cort_resume` refuses. A timer that was added runs off once, at any time the event loop
is between two batches. All processes use one environment `env`. To the scheduler the reads
of the other tables are yields, and their callbacks resumes.
-/
namespace Colinlib.Source.BlockingTcp
open Colinlib.Theory.CMemory Colinlib.Theory.Callbacks
open Colinlib.Theory.Runs (Halt lift lift_ok)
open Colinlib.Source.Buffer Colinlib.Source.Routine
open Colinlib.Source.IoWorld Colinlib.Source.EventLoop

/-- `tcpreaddata_t`, with its buffer by number, and `tcpconndata_t`. -/
inductive CallData where
  | read (error close : Bool) (co buff : Nat)
  | conn (co : Nat) (tcp : Option Ref)
  deriving DecidableEq, Repr

def CallData.co : CallData → Nat
  | .read _ _ co _ | .conn co _ => co

/-- The addresses of the callbacks. -/
def onTcpClose : Nat := 1
def onTcpError : Nat := 2
def onTcpRecv : Nat := 3
def onTcpConnected : Nat := 4
def onTcpConnectError : Nat := 5

/-- Library code that waits for a callback to return. -/
abbrev Frame := Callback × (World → Res World Callback Fault Unit)

/-- A `cort_tcp_read`: in which life of the slot it was called, where its data was, and its
number among the calls that had their data there. -/
structure Reading where
  life : Nat
  addr : Nat
  call : Nat
  deriving DecidableEq, Repr

/-- `inside` names the data of the blocking call in whose `cort_yield` a coroutine is, and
`asleep` the timer of the `cort_sleep` it is in. A timer is a number, and leads to the
coroutine in its `ud2`. `calls` counts the calls that had their data at an address, and
`reads` has the latest read of each object: they record the run and are never read by the
code. -/
structure Process where
  machine : Machine
  world : World
  frames : Nat → List Frame
  data : Nat → Option CallData
  inside : Nat → Option Nat
  buffs : Nat → Cobuffer
  timers : Nat → Option Nat
  added : Nat
  asleep : Nat → Option Nat
  calls : Nat → Nat
  reads : Ref → Option Reading

namespace Process

def setData (p : Process) (a : Nat) (d : Option CallData) : Process :=
  { p with data := Function.update p.data a d }

def push (p : Process) (co : Nat) (f : Frame) : Process :=
  { p with frames := Function.update p.frames co (f :: p.frames co) }

/-- A blocking call puts its data at `a`. -/
def storeAt (p : Process) (a : Nat) (d : CallData) : Process :=
  { p with
    data := Function.update p.data a (some d)
    calls := Function.update p.calls a (p.calls a + 1) }

/-- A coroutine that gets the processor back returns from its blocking call. -/
def settle (p : Process) : Process :=
  let co := p.machine.exec
  { p with
    data :=
      match p.inside co with
      | none => p.data
      | some a => Function.update p.data a none
    inside := Function.update p.inside co none
    asleep := Function.update p.asleep co none }

def waitAt (p : Process) (co a : Nat) : Process :=
  { p with inside := Function.update p.inside co (some a) }

/-- The `cort_yield` of a blocking call. -/
def block (p : Process) : Except (Halt Fault) Process := do
  let (_, machine) ← lift (cortYield p.machine)
  .ok ({ p with machine } : Process).settle

/-! ## The callbacks -/

/-- The `cort_resume` at the end of every callback. -/
def resume (p : Process) (co : Nat) : Except Fault (Bool × Process) := do
  let (resumed, machine) ← cortResume p.machine co
  .ok (resumed, { p with machine })

/-- `(tcpreaddata_t*)tcp->ud`: its address, coroutine and buffer. -/
def readData (p : Process) (r : Ref) : Except Fault (Nat × Nat × Nat) :=
  match (p.world.objs r).ud with
  | .null => .error .nullPointer
  | .obj _ => .error .badPointer
  | .mem a =>
    match p.data a with
    | some (.read _ _ co buff) => .ok (a, co, buff)
    | _ => .error .badPointer

/-- `(tcpconndata_t*)tcp->ud`: its address, coroutine and result. -/
def connData (p : Process) (r : Ref) : Except Fault (Nat × Nat × Option Ref) :=
  match (p.world.objs r).ud with
  | .null => .error .nullPointer
  | .obj _ => .error .badPointer
  | .mem a =>
    match p.data a with
    | some (.conn co tcp) => .ok (a, co, tcp)
    | _ => .error .badPointer

/-- `on_tcp_close`. -/
def tcpClose (r : Ref) (p : Process) : Except Fault (Bool × Process) := do
  let (a, co, buff) ← p.readData r
  (p.setData a (some (.read false true co buff))).resume co

/-- `on_tcp_error`. -/
def tcpError (r : Ref) (p : Process) : Except Fault (Bool × Process) := do
  let (a, co, buff) ← p.readData r
  (p.setData a (some (.read true false co buff))).resume co

/-- `on_tcp_recv`. -/
def tcpRecv (r : Ref) (bytes : List UInt8) (p : Process) : Except Fault (Bool × Process) := do
  let (a, co, buff) ← p.readData r
  let bf ← cobufferWrite (p.buffs buff) (some bytes) bytes.length
  let p := { p with buffs := Function.update p.buffs buff bf }
  (p.setData a (some (.read false false co buff))).resume co

/-- `on_tcp_connected`. -/
def tcpConnected (r : Ref) (p : Process) : Except Fault (Bool × Process) := do
  let (a, co, _) ← p.connData r
  (p.setData a (some (.conn co (some r)))).resume co

/-- `on_tcp_connect_error`. -/
def tcpConnectError (r : Ref) (p : Process) : Except Fault (Bool × Process) := do
  let (_, co, _) ← p.connData r
  p.resume co

/-- `_on_sleep_timer`, with the coroutine from `ud2`. -/
def sleepTimer (co : Nat) (p : Process) : Except Fault (Bool × Process) := p.resume co

end Process

/-- The body of a callback of the service in this file; any other one is the user's. -/
def body (c : Callback) : Option (Process → Except Fault (Bool × Process)) :=
  match c.notice with
  | .connect => if c.fn = onTcpConnected then some (Process.tcpConnected c.ref) else none
  | .recv bytes _ => if c.fn = onTcpRecv then some (Process.tcpRecv c.ref bytes) else none
  | .error _ =>
    if c.fn = onTcpError then some (Process.tcpError c.ref)
    else if c.fn = onTcpConnectError then some (Process.tcpConnectError c.ref)
    else none
  | .close _ => if c.fn = onTcpClose then some (Process.tcpClose c.ref) else none

/-- Library code on the coroutine that has the processor, up to its end or up to a callback
that does not return yet. The boolean says whether the code is at its end. -/
def Process.advance (p : Process) : Res World Callback Fault Unit → Except (Halt Fault) (Bool × Process)
  | .ret _ w => .ok (true, { p with world := w })
  | .stop f => .error (.fault f)
  | .call c w rest =>
    match body c with
    | none => .ok (false, Process.push { p with world := w } p.machine.exec (c, rest))
    | some run =>
      match run { p with world := w } with
      | .error f => .error (.fault f)
      | .ok (true, p') => .ok (false, (p'.push p.machine.exec (c, rest)).settle)
      | .ok (false, p') => Process.advance p' (rest p'.world)

/-! ## The blocking calls -/

/-- `cort_sleep` up to its `cort_yield`. When the timer runs off is left to the environment. -/
def Process.cortSleep (p : Process) : Except (Halt Fault) Process :=
  let co := p.machine.sch.running
  if co = mainCoId then .ok p
  else
    { p with
      timers := Function.update p.timers p.added (some co)
      added := p.added + 1
      asleep := Function.update p.asleep co (some p.added) : Process }.block

/-- `cort_tcp_bind`, in another coroutine than the main one. -/
def cortTcpBind (r : Ref) : Io Unit := do
  let _ ← IoService.cotcpOnError r (some onTcpError)
  let _ ← IoService.cotcpOnClose r (some onTcpClose)
  let _ ← IoService.cotcpOnRecv r (some onTcpRecv)

/-- `cort_tcp_read` up to its `cort_yield`, with its data at `a`. Afterwards it returns what
the data says. -/
def Process.cortTcpRead (p : Process) (a : Nat) (r : Ref) (buff : Nat) : Except (Halt Fault) Process :=
  let co := p.machine.sch.running
  if co = mainCoId then .ok p
  else do
    let (_, bf) ← lift (cobufferSeek (p.buffs buff) true 0)
    let p := { p with buffs := Function.update p.buffs buff bf }
    let p := p.storeAt a (.read false false co buff)
    let p := { p with
      world := p.world.setObj r { p.world.objs r with ud := .mem a }
      reads := Function.update p.reads r (some ⟨p.world.lives r, a, p.calls a⟩) }
    (p.waitAt co a).block

/-- The `cotcp_connect` in `cort_tcp_connect`, with the data of the call at `a`. -/
def connectCode (a : Nat) : Io Unit :=
  ignoring (IoService.cotcpConnect (.mem a) (some onTcpConnected) (some onTcpConnectError))

/-- `cort_tcp_connect` up to its `cort_yield`. A callback that `cotcp_connect` makes itself
finds the coroutine running. -/
def Process.cortTcpConnect (p : Process) (a : Nat) (answers : List Answer) :
    Except (Halt Fault) Process :=
  let co := p.machine.sch.running
  if co = mainCoId then .ok p
  else do
    let p := p.storeAt a (.conn co none)
    let (done, p) ← p.advance (connectCode a { p.world with answers := answers })
    if done then (p.waitAt co a).block
    else .error .contract

/-! ## The machine -/

inductive Move where
  | op (o : Op)
  | sleep
  | read (a : Nat) (r : Ref) (buff : Nat)
  | connect (a : Nat) (answers : List Answer)
  | bind (r : Ref)
  | call (c : Call) (answers : List Answer)
  | loop (act : Action) (answers : List Answer)
  | tick (id : Nat)
  | back (answers : List Answer)
  deriving DecidableEq, Repr

/-- The user's code runs unless the event loop works on its batch, or a callback of this
file is on top of the stack and about to return. -/
def Process.free (main : Nat) (p : Process) : Bool :=
  match p.frames p.machine.exec with
  | [] => p.machine.exec ≠ main || (p.world.batch.isEmpty && p.world.tasks.isEmpty)
  | (c, _) :: _ => (body c).isNone

/-- The coroutine `main` runs the event loop. A coroutine's function returns when all the
functions it called have. -/
def step (main : Nat) (p : Process) : Move → Except (Halt Fault) Process
  | .op o =>
    if p.free main ∧ (o = .ret → p.frames p.machine.exec = []) then do
      let machine ← lift (Routine.step p.machine o)
      .ok ({ p with machine } : Process).settle
    else .error .contract
  | .sleep => if p.free main then p.cortSleep else .error .contract
  | .read a r buff =>
    if p.free main ∧ p.data a = none ∧ r.kind = .tcp then p.cortTcpRead a r buff
    else .error .contract
  | .connect a answers =>
    if p.free main ∧ p.data a = none then p.cortTcpConnect a answers else .error .contract
  | .bind r =>
    if p.free main ∧ r.kind = .tcp then
      if p.machine.sch.running = mainCoId then .ok p
      else do
        let (_, p) ← p.advance (cortTcpBind r p.world)
        .ok p
    else .error .contract
  | .call c answers =>
    if p.free main ∧ c.wellTyped then do
      let (_, p) ← p.advance (c.run { p.world with answers := answers })
      .ok p
    else .error .contract
  | .loop act answers =>
    match act with
    | .call _ => .error .contract
    | act =>
      if p.machine.exec = main ∧ p.frames main = [] ∧ act.enabled [] p.world then do
        let (_, p) ← p.advance (act.program { p.world with answers := answers })
        .ok p
      else .error .contract
  | .tick id =>
    if p.machine.exec = main ∧ p.frames main = [] ∧ p.world.batch = [] ∧ p.world.tasks = [] then
      match p.timers id with
      | none => .error .contract
      | some co => do
        let p := { p with timers := Function.update p.timers id none }
        let (_, p) ← lift (p.sleepTimer co)
        .ok p.settle
    else .error .contract
  | .back answers =>
    match p.frames p.machine.exec with
    | [] => .error .contract
    | (_, rest) :: below => do
      let p := { p with frames := Function.update p.frames p.machine.exec below }
      let (_, p) ← p.advance (rest { p.world with answers := answers })
      .ok p

/-- The process after `cortenv_new` on a new loop, with any buffers. -/
def start (zeroBlock : Bool) (buffs : Nat → Cobuffer) : Process where
  machine := openState
  world := coiosNew zeroBlock
  frames := fun _ => []
  data := fun _ => none
  inside := fun _ => none
  buffs := buffs
  timers := fun _ => none
  added := 0
  asleep := fun _ => none
  calls := fun _ => 0
  reads := fun _ => none

/-- Buffers that hold nothing. -/
def noBuffs : Nat → Cobuffer := fun _ => ⟨[], 0, 0, .native⟩

end Colinlib.Source.BlockingTcp
