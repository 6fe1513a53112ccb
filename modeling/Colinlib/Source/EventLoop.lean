import Colinlib.Source.IoService

/-!
# Dispatch of poll events and the calls of user code

`copoll_wait` collects a batch of events under the pointers stored at that time
and hands them one by one to `_coios_process_event`, which looks at the type and
the state of the object once and then calls its handlers in order. The machine
makes each of these a move of its own: a batch arrives, an event is dispatched, a
read, write or error handler runs. User code calls the API from its callbacks, and
from outside the library while no batch is being worked on.
-/
namespace Colinlib.Source.EventLoop
open Colinlib.Theory.CMemory Colinlib.Theory.Callbacks
open Colinlib.Source.IoWorld Colinlib.Source.IoService

/-! ## `_coios_process_event` -/

/-- Read, write and error handling of one event, in this order. -/
def eventTasks (ev : Pollevent) (r : Ref) : List (Handler × Ref) :=
  (if ev.read then [(.read, r)] else []) ++ (if ev.write then [(.write, r)] else []) ++
    (if ev.error then [(.error, r)] else [])

def schedule (ev : Pollevent) (r : Ref) : Io Unit :=
  Prog.modify fun w => { w with tasks := eventTasks ev r }

/-- The switch on the type and the state of the object. The three handlers of the
default branch are scheduled. A UDP object is tested against the states of a
file-descriptor object, whose values 1 and 2 are its own open states. -/
def coiosProcessEvent (ev : Pollevent) : Io Unit :=
  match ev.ud with
  | .null => checked (.error .nullPointer)
  | .mem _ => checked (.error .badPointer)
  | .obj r => do
    let o ← look r
    match r.kind with
    | .tcp =>
      if o.state = Cotcp.listen then cotcpHandleAccept r
      else if o.state = Cotcp.connecting then cotcpHandleConnect r
      else if o.state = Cotcp.invalid then return
      else schedule ev r
    | .udp => if o.state = Cofd.bind ∨ o.state = Cofd.new then schedule ev r
    | .fd => if o.state = Cofd.bind then schedule ev r

def runHandler (h : Handler) (r : Ref) : Io Unit :=
  match h, r.kind with
  | .read, .tcp => cotcpHandleRead r
  | .read, .udp => coudpHandleRead r
  | .read, .fd => cofdHandleRead r
  | .write, .tcp => cotcpHandleWrite r
  | .write, .udp => coudpHandleWrite r
  | .write, .fd => cofdHandleWrite r
  | .error, .tcp => cotcpHandleError r
  | .error, .udp => coudpHandleError r
  | .error, .fd => cofdHandleError r

/-- What epoll reports for a descriptor: the flags of its entry. -/
structure Ready where
  fd : Nat
  read : Bool
  write : Bool
  error : Bool
  deriving DecidableEq, Repr

/-- The events of one `epoll_wait`, each under the pointer registered for its
descriptor. A writable event is reported only where it was asked for. -/
def copollCollect (w : World) : List Ready → Except Fault (List Pollevent)
  | [] => .ok []
  | e :: rest =>
    match w.poll e.fd with
    | none => .error .starved
    | some reg =>
      if e.write = true ∧ reg.write = false then .error .starved
      else do
        let events ← copollCollect w rest
        .ok (⟨reg.ud, e.read, e.write, e.error⟩ :: events)

/-! ## The machine -/

/-- The functions of the API with their arguments. -/
inductive Call where
  | cotcpListen (ud : VPtr) (fnConnect : Option Nat)
  | cotcpConnect (ud : VPtr) (fnConnect fnError : Option Nat)
  | cotcpSend (r : Ref) (data : List UInt8)
  | cotcpClose (r : Ref) (force : Bool)
  | cotcpOnError (r : Ref) (fn : Option Nat)
  | cotcpOnRecv (r : Ref) (fn : Option Nat)
  | cotcpOnClose (r : Ref) (fn : Option Nat)
  | coudpNew (ud : VPtr) (bindaddr : Bool)
  | coudpSend (r : Ref) (data : List UInt8) (addr : Addr)
  | coudpClose (r : Ref) (force : Bool)
  | coudpOnError (r : Ref) (fn : Option Nat)
  | coudpOnRecv (r : Ref) (fn : Option Nat)
  | coudpOnClose (r : Ref) (fn : Option Nat)
  | cofdBind (fd : Nat) (ud : VPtr)
  | cofdUnbind (r : Ref)
  | cofdSend (r : Ref) (data : List UInt8)
  | cofdOnError (r : Ref) (fn : Option Nat)
  | cofdOnRecv (r : Ref) (fn : Option Nat)
  | cofdOnClose (r : Ref) (fn : Option Nat)
  deriving DecidableEq, Repr

/-- A function of one table is given a pointer into that table. -/
def Call.wellTyped : Call → Bool
  | .cotcpSend r _ | .cotcpClose r _ | .cotcpOnError r _ | .cotcpOnRecv r _ | .cotcpOnClose r _ =>
    r.kind = .tcp
  | .coudpSend r _ _ | .coudpClose r _ | .coudpOnError r _ | .coudpOnRecv r _
  | .coudpOnClose r _ => r.kind = .udp
  | .cofdUnbind r | .cofdSend r _ | .cofdOnError r _ | .cofdOnRecv r _ | .cofdOnClose r _ =>
    r.kind = .fd
  | .cotcpListen .. | .cotcpConnect .. | .coudpNew .. | .cofdBind .. => true

/-- What a call returns is the caller's business. -/
def ignoring {α : Type} (m : Io α) : Io Unit := do
  let _ ← m

def Call.run : Call → Io Unit
  | .cotcpListen ud fn => ignoring (IoService.cotcpListen ud fn)
  | .cotcpConnect ud fnc fne => ignoring (IoService.cotcpConnect ud fnc fne)
  | .cotcpSend r data => ignoring (IoService.cotcpSend r data)
  | .cotcpClose r force => ignoring (IoService.cotcpClose r force)
  | .cotcpOnError r fn => ignoring (IoService.cotcpOnError r fn)
  | .cotcpOnRecv r fn => ignoring (IoService.cotcpOnRecv r fn)
  | .cotcpOnClose r fn => ignoring (IoService.cotcpOnClose r fn)
  | .coudpNew ud bindaddr => ignoring (IoService.coudpNew ud bindaddr)
  | .coudpSend r data addr => ignoring (IoService.coudpSend r data addr)
  | .coudpClose r force => ignoring (IoService.coudpClose r force)
  | .coudpOnError r fn => ignoring (IoService.coudpOnError r fn)
  | .coudpOnRecv r fn => ignoring (IoService.coudpOnRecv r fn)
  | .coudpOnClose r fn => ignoring (IoService.coudpOnClose r fn)
  | .cofdBind fd ud => ignoring (IoService.cofdBind fd ud)
  | .cofdUnbind r => do
    let begun ← lifeOf r
    ignoring (IoService.cofdUnbind r (.requested true) begun)
  | .cofdSend r data => ignoring (IoService.cofdSend r data)
  | .cofdOnError r fn => ignoring (IoService.cofdOnError r fn)
  | .cofdOnRecv r fn => ignoring (IoService.cofdOnRecv r fn)
  | .cofdOnClose r fn => ignoring (IoService.cofdOnClose r fn)

/-- Whether the call reports success. -/
def Call.report : Call → Io Bool
  | .cotcpListen ud fn => do return (← IoService.cotcpListen ud fn).isSome
  | .cotcpConnect ud fnc fne => IoService.cotcpConnect ud fnc fne
  | .cotcpSend r data => IoService.cotcpSend r data
  | .cotcpClose r force => IoService.cotcpClose r force
  | .cotcpOnError r fn => IoService.cotcpOnError r fn
  | .cotcpOnRecv r fn => IoService.cotcpOnRecv r fn
  | .cotcpOnClose r fn => IoService.cotcpOnClose r fn
  | .coudpNew ud bindaddr => do return (← IoService.coudpNew ud bindaddr).isSome
  | .coudpSend r data addr => IoService.coudpSend r data addr
  | .coudpClose r force => IoService.coudpClose r force
  | .coudpOnError r fn => IoService.coudpOnError r fn
  | .coudpOnRecv r fn => IoService.coudpOnRecv r fn
  | .coudpOnClose r fn => IoService.coudpOnClose r fn
  | .cofdBind fd ud => do return (← IoService.cofdBind fd ud).isSome
  | .cofdUnbind r => do
    let begun ← lifeOf r
    IoService.cofdUnbind r (.requested true) begun
  | .cofdSend r data => IoService.cofdSend r data
  | .cofdOnError r fn => IoService.cofdOnError r fn
  | .cofdOnRecv r fn => IoService.cofdOnRecv r fn
  | .cofdOnClose r fn => IoService.cofdOnClose r fn

theorem ignoring_map {α β : Type} (m : Io α) (f : α → β) :
    (ignoring do return f (← m)) = ignoring m := by
  have whole : ∀ x : Res World Callback Fault α,
      (x.bind fun a w => (Res.ret (f a) w : Res World Callback Fault β)).bind
        (fun _ w => .ret () w) = x.bind fun _ w => .ret () w := by
    intro x
    induction x with
    | ret a w => rfl
    | stop e => rfl
    | call c w resume ih => exact congrArg (Res.call c w) (funext ih)
  exact funext fun w => whole (m w)

/-- The machine runs the calls whose report is looked at elsewhere. -/
theorem Call.run_eq (c : Call) : c.run = ignoring c.report := by
  cases c with
  | cotcpListen | coudpNew | cofdBind => exact (ignoring_map _ _).symm
  | _ => rfl

inductive Action where
  | call (c : Call)
  | wait (events : List Ready)
  | dispatch
  | handle
  deriving DecidableEq, Repr

def Action.program : Action → Io Unit
  | .call c => c.run
  | .wait events => Prog.attempt fun w => do
    let batch ← copollCollect w events
    .ok ((), { w with batch := batch })
  | .dispatch => do
    match ← Prog.read (·.batch) with
    | [] => checked (.error .starved)
    | ev :: rest =>
      Prog.modify fun w => { w with batch := rest }
      coiosProcessEvent ev
  | .handle => do
    match ← Prog.read (·.tasks) with
    | [] => checked (.error .starved)
    | (h, r) :: rest =>
      Prog.modify fun w => { w with tasks := rest }
      runHandler h r

/-- The event loop works on its batch only while no callback is running. -/
def Action.enabled (tags : List Callback) (w : World) : Action → Bool
  | .call c => c.wellTyped && (!tags.isEmpty || (w.batch.isEmpty && w.tasks.isEmpty))
  | .wait _ => tags.isEmpty && w.batch.isEmpty && w.tasks.isEmpty
  | .dispatch => tags.isEmpty && w.tasks.isEmpty
  | .handle => tags.isEmpty

/-- The moves of the environment come with the answers of the kernel to the
system calls of the code they set going. -/
def coiosSystem : System World Callback Fault Action (List Answer) where
  load answers w := { w with answers := answers }
  enabled a tags w := a.enabled tags w
  program := Action.program
  refused := .starved

abbrev Coloop := Conf World Callback Fault

abbrev Step := Move Action (List Answer)

/-- `coios_new`, in a process where `realloc(p, 0)` behaves as `zeroBlock` says. -/
def coiosNew (zeroBlock : Bool) : World where
  objs := fun _ => blank
  cursor := fun _ => 0
  poll := fun _ => none
  errno := 0
  openFds := []
  batch := []
  tasks := []
  answers := []
  zeroBlock := zeroBlock
  lives := fun _ => 0
  log := []
  ledger := []

/-- The service before any move. -/
def start (zeroBlock : Bool) : Coloop := ⟨coiosNew zeroBlock, []⟩

end Colinlib.Source.EventLoop
