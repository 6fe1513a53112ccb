import Colinlib.Source.IoWorld

/-!
# The two pollers (`co_poll.h`)

On Linux a descriptor has one entry in the kernel, with a mask and a pointer. On the BSDs it
has an entry for each of its two filters, each with a pointer of its own. Both kernels drop
the entries of a descriptor that is closed. A change that its manual allows may still be
refused for want of memory: the refusals to come are on a tape, whose end grants everything.
-/
namespace Colinlib.Source.Poll
open Colinlib.Theory.CMemory
open Colinlib.Source.IoWorld

/-- The room for events that `copoll_new` allocates. -/
def evnum : Nat := 512

/-! ## epoll -/

def epollin : UInt32 := 0x001
def epollout : UInt32 := 0x004
def epollerr : UInt32 := 0x008
def epollhup : UInt32 := 0x010

structure EpollEvent where
  events : UInt32
  ptr : VPtr
  deriving DecidableEq, Repr

structure Epoll where
  table : Nat → Option EpollEvent
  refusals : List Bool

inductive EpollOp where
  | add | mod | del
  deriving DecidableEq, Repr

namespace Epoll

def put (ep : Epoll) (fd : Nat) (entry : Option EpollEvent) : Epoll :=
  { ep with table := Function.update ep.table fd entry }

/-- A change that may be refused. -/
def change (ep : Epoll) (fd : Nat) (entry : EpollEvent) : Int × Epoll :=
  match ep.refusals with
  | true :: rest => (-1, { ep with refusals := rest })
  | false :: rest => (0, { ep with refusals := rest }.put fd (some entry))
  | [] => (0, ep.put fd (some entry))

/-- `epoll_ctl`. -/
def ctl (ep : Epoll) (op : EpollOp) (fd : Nat) (ev : EpollEvent) : Int × Epoll :=
  match op, ep.table fd with
  | .add, none | .mod, some _ => ep.change fd ev
  | .del, some _ => (0, ep.put fd none)
  | .add, some _ | .mod, none | .del, none => (-1, ep)

def copollNew (refusals : List Bool) : Epoll := ⟨fun _ => none, refusals⟩

def copollAdd (ep : Epoll) (fd : Nat) (ud : VPtr) : Int × Epoll :=
  ep.ctl .add fd ⟨epollin, ud⟩

def copollRequestWrite (ep : Epoll) (fd : Nat) (ud : VPtr) (enable : Bool) : Int × Epoll :=
  ep.ctl .mod fd ⟨epollin ||| (if enable then epollout else 0), ud⟩

/-- The event that `epoll_ctl` is passed here is a null pointer, which it does not look at. -/
def copollDel (ep : Epoll) (fd : Nat) : Int × Epoll := ep.ctl .del fd ⟨0, .null⟩

/-- What the kernel does with the entry of a descriptor that is closed. -/
def closed (ep : Epoll) (fd : Nat) : Epoll := ep.put fd none

/-- Errors and hang-ups are reported whether they are asked for or not. -/
def allowed (ev : EpollEvent) : UInt32 := ev.events ||| epollerr ||| epollhup

/-- The `copollevent_t` for what `epoll_wait` reports of a descriptor. -/
def event (ev : EpollEvent) (events : UInt32) : Pollevent where
  ud := ev.ptr
  read := decide (events &&& (epollin ||| epollhup) ≠ 0)
  write := decide (events &&& epollout ≠ 0)
  error := decide (events &&& epollerr ≠ 0)

/-- The events `copoll_wait` calls back with. `ready` is what the kernel has found. -/
def collect (ep : Epoll) : List (Nat × UInt32) → Except Fault (List Pollevent)
  | [] => .ok []
  | (fd, events) :: rest =>
    match ep.table fd with
    | none => .error .starved
    | some ev =>
      if events &&& allowed ev = events then do
        .ok (event ev events :: (← ep.collect rest))
      else .error .starved

def copollWait (ep : Epoll) (ready : List (Nat × UInt32)) : Except Fault (List Pollevent) :=
  if ready.length ≤ evnum then ep.collect ready else .error .starved

end Epoll

/-! ## kqueue -/

inductive Filter where
  | read | write
  deriving DecidableEq, Repr

/-- `EVFILT_READ` and `EVFILT_WRITE`, which are 0 and 1 on NetBSD alone. -/
def Filter.code : Filter → Int16
  | .read => -1
  | .write => -2

def evError : UInt16 := 0x4000

/-- The flags of a change: `EV_ADD`, `EV_DELETE`, `EV_ENABLE`, `EV_DISABLE`. -/
inductive EvFlags where
  | add | delete | enable | disable
  deriving DecidableEq, Repr

structure Knote where
  enabled : Bool
  udata : VPtr
  deriving DecidableEq, Repr

/-- `retouch` says whether a change that only enables or disables an entry replaces its
pointer as well, about which the manual is silent. -/
structure Kqueue where
  notes : Nat → Filter → Option Knote
  refusals : List Bool
  retouch : Bool

namespace Kqueue

def put (kq : Kqueue) (fd : Nat) (filter : Filter) (note : Option Knote) : Kqueue :=
  { kq with notes := Function.update kq.notes fd (Function.update (kq.notes fd) filter note) }

/-- A change that may be refused. -/
def change (kq : Kqueue) (fd : Nat) (filter : Filter) (note : Knote) : Int × Kqueue :=
  match kq.refusals with
  | true :: rest => (-1, { kq with refusals := rest })
  | false :: rest => (0, { kq with refusals := rest }.put fd filter (some note))
  | [] => (0, kq.put fd filter (some note))

/-- The pointer of an entry after it was enabled or disabled. -/
def touched (kq : Kqueue) (note : Knote) (udata : VPtr) : VPtr :=
  if kq.retouch then udata else note.udata

/-- `kevent` with one change and no room for events. The kernel does not write to the change,
so the callers' test of `ke.flags` for `EV_ERROR` never holds. -/
def kevent (kq : Kqueue) (fd : Nat) (filter : Filter) (flags : EvFlags) (udata : VPtr) :
    Int × Kqueue :=
  match flags, kq.notes fd filter with
  | .add, _ => kq.change fd filter ⟨true, udata⟩
  | .delete, some _ => (0, kq.put fd filter none)
  | .enable, some note => kq.change fd filter ⟨true, kq.touched note udata⟩
  | .disable, some note => kq.change fd filter ⟨false, kq.touched note udata⟩
  | .delete, none | .enable, none | .disable, none => (-1, kq)

def copollNew (refusals : List Bool) (retouch : Bool) : Kqueue :=
  ⟨fun _ _ => none, refusals, retouch⟩

def copollDel (kq : Kqueue) (fd : Nat) : Int × Kqueue :=
  let (_, kq) := kq.kevent fd .read .delete .null
  let (_, kq) := kq.kevent fd .write .delete .null
  (0, kq)

def copollAdd (kq : Kqueue) (fd : Nat) (ud : VPtr) : Int × Kqueue :=
  let (ret, kq) := kq.kevent fd .read .add ud
  if ret = -1 then (-1, kq) else
    let (ret, kq) := kq.kevent fd .write .add ud
    if ret = -1 then
      let (_, kq) := kq.kevent fd .read .delete .null
      (-1, kq)
    else
      let (ret, kq) := kq.kevent fd .write .disable ud
      if ret = -1 then
        let (_, kq) := kq.copollDel fd
        (-1, kq)
      else (0, kq)

def copollRequestWrite (kq : Kqueue) (fd : Nat) (ud : VPtr) (enable : Bool) : Int × Kqueue :=
  let (ret, kq) := kq.kevent fd .write (if enable then .enable else .disable) ud
  if ret = -1 then (-1, kq) else (0, kq)

/-- What the kernel does with the entries of a descriptor that is closed. -/
def closed (kq : Kqueue) (fd : Nat) : Kqueue := (kq.put fd .read none).put fd .write none

/-- The `copollevent_t` for an event of a filter. -/
def event (note : Knote) (filter : Filter) (flags : UInt16) : Pollevent where
  ud := note.udata
  -- The filters are numbers, not bits: each of the two tests holds for both.
  read := decide (filter.code &&& Filter.read.code ≠ 0)
  write := decide (filter.code &&& Filter.write.code ≠ 0)
  error := decide (flags &&& evError ≠ 0)

/-- The events `copoll_wait` calls back with. `ready` is what the kernel has found: entries that
are enabled. -/
def collect (kq : Kqueue) : List (Nat × Filter × UInt16) → Except Fault (List Pollevent)
  | [] => .ok []
  | (fd, filter, flags) :: rest =>
    match kq.notes fd filter with
    | none => .error .starved
    | some note =>
      if note.enabled then do .ok (event note filter flags :: (← kq.collect rest))
      else .error .starved

def copollWait (kq : Kqueue) (ready : List (Nat × Filter × UInt16)) :
    Except Fault (List Pollevent) :=
  if ready.length ≤ evnum then kq.collect ready else .error .starved

end Kqueue

end Colinlib.Source.Poll
