import Colinlib.Theory.CMemory
import Colinlib.Theory.Callbacks
import Colinlib.Source.RingBuffer
import Mathlib.Logic.Function.Basic

/-!
# What the I/O service of `co_ioservice.c` works on

`cotcp_t`, `coudp_t` and `cofd_t` share the prefix `coio_t` and differ in a few
fields, so one record serves the three tables: `sendbuf` belongs to TCP and
file-descriptor objects, `sendlist` to UDP objects, `fnConnect` to TCP objects.
A slot is named by its table and index; the type tag of a slot is its table.

The kernel is an environment. Every system call whose result the code looks at
takes the next answer of a tape; an answer that does not fit the call (a count
larger than the request, a descriptor that is open already) is no behaviour of
the kernel and ends the run as `starved`. The epoll interface of `co_poll.h` is
modelled by its table of registrations.
-/
namespace Colinlib.Source.IoWorld
open Colinlib.Theory.CMemory Colinlib.Theory.Callbacks Colinlib.Source.RingBuffer

/-! ## Objects -/

/-- `COIO_TCP`, `COIO_UDP`, `COIO_FD`. -/
inductive Kind where
  | tcp | udp | fd
  deriving DecidableEq, Repr

/-- A slot of `tcps`, `udps` or `fds`. -/
structure Ref where
  kind : Kind
  idx : Nat
  deriving DecidableEq, Repr

/-- A `void*` that the library stores for its caller. -/
inductive VPtr where
  | null
  | obj (r : Ref)
  | mem (addr : Nat)
  deriving DecidableEq, Repr

/-- The bytes of a `struct sockaddr`. -/
abbrev Addr := List UInt8

/-- `udpbuffer_t`: `data` is the part not sent yet, from `ptr` for `size` bytes. -/
structure Udpbuffer where
  id : Nat
  addr : Addr
  data : List UInt8
  deriving DecidableEq, Repr

/-- `udpsendlist_t`: the nodes reachable from `head`, and the node `tail` points
to, which may have been freed. `made` counts the nodes allocated for the list. -/
structure Udpsendlist where
  nodes : List Udpbuffer
  tail : Option Nat
  made : Nat
  deriving DecidableEq, Repr

structure Coio where
  fd : Nat
  state : Nat
  recvsize : Nat
  recvbuf : Option Nat
  ud : VPtr
  sendbuf : Option Coringbuf
  sendlist : Udpsendlist
  fnConnect : Option Nat
  fnRecv : Option Nat
  fnError : Option Nat
  fnClose : Option Nat
  deriving DecidableEq, Repr

/-- A slot after `memset`. -/
def blank : Coio :=
  ⟨0, 0, 0, none, .null, none, ⟨[], none, 0⟩, none, none, none, none⟩

abbrev Cotcp.invalid : Nat := 0
abbrev Cotcp.new : Nat := 1
abbrev Cotcp.listen : Nat := 2
abbrev Cotcp.connecting : Nat := 3
abbrev Cotcp.connected : Nat := 4
abbrev Cotcp.closing : Nat := 5

abbrev Coudp.invalid : Nat := 0
abbrev Coudp.new : Nat := 1
abbrev Coudp.closing : Nat := 2

abbrev Cofd.invalid : Nat := 0
abbrev Cofd.new : Nat := 1
abbrev Cofd.bind : Nat := 2

def cotcpSize : Nat := 8192
def coudpSize : Nat := 4096
def cofdSize : Nat := 1024

/-! ## Callbacks and the record of a run -/

/-- The message an error callback is given. Where `getsockopt` itself fails the
source formats an uninitialised variable. -/
inductive ErrorText where
  | strerror (errno : Nat)
  | unknown
  | indeterminate
  deriving DecidableEq, Repr

/-- Why an object is torn down. -/
inductive Cause where
  | error
  | eof
  | requested (force : Bool)
  | drained
  deriving DecidableEq, Repr

/-- What a callback is called for. The cause of a close goes to the record only. -/
inductive Notice where
  | connect
  | recv (data : List UInt8) (sender : Option Addr)
  | error (text : ErrorText)
  | close (cause : Cause)
  deriving DecidableEq, Repr

/-- A call of the user's function `fn` for the object in slot `ref`. `life` says
which use of the slot that is. -/
structure Callback where
  ref : Ref
  life : Nat
  fn : Nat
  notice : Notice
  deriving DecidableEq, Repr

/-- What the program has been seen to do. -/
inductive Event where
  | sent (r : Ref) (life : Nat) (data : List UInt8) (dest : Option Addr)
  | wrote (r : Ref) (life : Nat) (cells : List (Option UInt8)) (dest : Option Addr)
  | read (r : Ref) (life : Nat) (len : Nat)
  | called (c : Callback)
  | ended (r : Ref) (life : Nat) (cause : Cause) (begun : Nat) (registered : Bool)
  deriving DecidableEq, Repr

/-- What happened to a descriptor: `socket` or `accept` returned it, or it was
given to `close`. -/
inductive Transfer where
  | obtained (fd : Nat)
  | closed (fd : Nat)
  deriving DecidableEq, Repr

/-! ## The kernel's side -/

def eintr : Nat := 4
def eagain : Nat := 11
def enoent : Nat := 2
def eexist : Nat := 17
def enosys : Nat := 38
def einprogress : Nat := 115

/-- The result of one system call. -/
inductive Answer where
  | failed (errno : Nat)
  | done
  | descriptor (fd : Nat)
  | addresses (list : List Addr)
  | bytes (data : List UInt8)
  | datagram (data : List UInt8) (sender : Addr)
  | count (n : Nat)
  | soError (error : Nat)
  deriving DecidableEq, Repr

/-- An entry of the epoll table: the stored pointer, and whether `EPOLLOUT` is
asked for. -/
structure Registration where
  ud : VPtr
  write : Bool
  deriving DecidableEq, Repr

/-- `copollevent_t`. -/
structure Pollevent where
  ud : VPtr
  read : Bool
  write : Bool
  error : Bool
  deriving DecidableEq, Repr

/-- The handlers `_coios_process_event` calls one after another for an event. -/
inductive Handler where
  | read | write | error
  deriving DecidableEq, Repr

/-- The service, its poller and the process around them. `batch` holds the events
of the last `copoll_wait` still to be dispatched, `tasks` the handlers still to be
called for the event under dispatch. `lives`, `log` and `ledger` record the run
and are never read by the code; `zeroBlock` says whether `realloc(p, 0)` returns a block
of size 0 or, as in glibc, a null pointer. -/
structure World where
  objs : Ref → Coio
  cursor : Kind → Nat
  poll : Nat → Option Registration
  errno : Nat
  openFds : List Nat
  batch : List Pollevent
  tasks : List (Handler × Ref)
  answers : List Answer
  zeroBlock : Bool
  lives : Ref → Nat
  log : List Event
  ledger : List Transfer

abbrev Io := Prog World Callback Fault

namespace World

def setObj (w : World) (r : Ref) (o : Coio) : World :=
  { w with objs := Function.update w.objs r o }

def note (w : World) (e : Event) : World := { w with log := e :: w.log }

def setErrno (w : World) (e : Nat) : World := { w with errno := e }

/-! ## `co_poll.h` on Linux -/

/-- `copoll_add`: `EPOLL_CTL_ADD` refuses a descriptor that is registered. -/
def copollAdd (w : World) (fd : Nat) (ud : VPtr) : World :=
  match w.poll fd with
  | some _ => w.setErrno eexist
  | none => { w with poll := Function.update w.poll fd (some ⟨ud, false⟩) }

/-- `copoll_request_write`: `EPOLL_CTL_MOD` replaces the stored pointer as well,
and refuses a descriptor that is not registered. -/
def copollRequestWrite (w : World) (fd : Nat) (ud : VPtr) (enable : Bool) : World :=
  match w.poll fd with
  | some _ => { w with poll := Function.update w.poll fd (some ⟨ud, enable⟩) }
  | none => w.setErrno enoent

/-- `copoll_del`. -/
def copollDel (w : World) (fd : Nat) : World :=
  match w.poll fd with
  | some _ => { w with poll := Function.update w.poll fd none }
  | none => w.setErrno enoent

/-- `close`: the descriptor is released, and its registration goes with it. -/
def close (w : World) (fd : Nat) : World :=
  { w with
    openFds := w.openFds.erase fd
    poll := Function.update w.poll fd none
    ledger := .closed fd :: w.ledger }

end World

/-! ## System calls and access to the objects -/

def look (r : Ref) : Io Coio := Prog.read (·.objs r)

def put (r : Ref) (o : Coio) : Io Unit := Prog.modify (·.setObj r o)

def lifeOf (r : Ref) : Io Nat := Prog.read (·.lives r)

def record (e : Event) : Io Unit := Prog.modify (·.note e)

def checked {α : Type} (x : Except Fault α) : Io α :=
  Prog.attempt fun w => x.map fun a => (a, w)

/-- The result of the next system call. A failure sets `errno`. -/
def syscall : Io Answer := Prog.attempt fun w =>
  match w.answers with
  | [] => .error .starved
  | .failed e :: rest => .ok (.failed e, { w with answers := rest, errno := e })
  | a :: rest => .ok (a, { w with answers := rest })

/-- `setsockopt`, `bind`, `listen`, `connect`: the error number, if any. -/
def statusCall : Io (Option Nat) := do
  match ← syscall with
  | .failed e => return some e
  | .done => return none
  | _ => checked (.error .starved)

/-- `getaddrinfo`. -/
def getaddrinfo : Io (Option (List Addr)) := do
  match ← syscall with
  | .failed _ => return none
  | .addresses list => return some list
  | _ => checked (.error .starved)

/-- The kernel hands out a descriptor that is not open. -/
def openFd (fd : Nat) : Io Unit := Prog.attempt fun w =>
  if fd ∈ w.openFds then .error .starved
  else .ok ((), { w with openFds := fd :: w.openFds, ledger := .obtained fd :: w.ledger })

/-- `socket`. -/
def socket : Io (Option Nat) := do
  match ← syscall with
  | .failed _ => return none
  | .descriptor fd => openFd fd; return some fd
  | _ => checked (.error .starved)

def closeFd (fd : Nat) : Io Unit := Prog.modify (·.close fd)

/-- Call the user's function, if one is registered. -/
def notify (r : Ref) (fn : Option Nat) (notice : Notice) : Io Unit :=
  match fn with
  | none => pure ()
  | some fn => do
    let life ← lifeOf r
    record (.called ⟨r, life, fn, notice⟩)
    Prog.callback ⟨r, life, fn, notice⟩

end Colinlib.Source.IoWorld
