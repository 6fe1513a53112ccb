import Colinlib.Source.IoWorld

/-!
# The I/O service: `co_ioservice.c`

The functions of the file, in its order, as programs over `IoWorld.World`. Where
the three object kinds repeat a function, its body is written once, with what
differs as parameters, and each function of the source is that body at its own
values. The loops around `read`, `write` and `sendto` take one answer of the
kernel a round and run no other code in between, so they are functions of the
answers. The `Cause` and the life handed to a teardown only go to the record of
the run.

`ip` and `port` are read by `getaddrinfo` alone, whose result is an answer of the
kernel. `fcntl`, `perror` and `fprintf` have no effect that the code reads.
-/
namespace Colinlib.Source.IoService
open Colinlib.Theory.CMemory Colinlib.Theory.Callbacks
open Colinlib.Source.RingBuffer Colinlib.Source.IoWorld

def initReadBuf : Nat := 512

/-- `(uint16_t)65536`. -/
def maxReadBuf : Nat := 65536 % 2 ^ 16

/-! ## Slots -/

/-- `(ss->tcpid)++` and its siblings, on `uint32_t`. -/
def bumpCursor (w : World) (kind : Kind) : World :=
  { w with cursor := Function.update w.cursor kind ((w.cursor kind + 1) % 2 ^ 32) }

/-- The state of the slot is set to `NEW`; the record counts the uses of a slot. -/
def takeSlot (w : World) (r : Ref) : World :=
  { w.setObj r { w.objs r with state := Cotcp.new } with
    lives := Function.update w.lives r (w.lives r + 1) }

/-- The scan of the allocators: `n` slots from the cursor on, modulo the table. -/
def allocScan (kind : Kind) (size : Nat) : Nat → World → Option Ref × World
  | 0, w => (none, w)
  | n + 1, w =>
    let r : Ref := ⟨kind, w.cursor kind % size⟩
    if (w.objs r).state = Cotcp.invalid then (some r, takeSlot (bumpCursor w kind) r)
    else allocScan kind size n (bumpCursor w kind)

def allocSlot (kind : Kind) (size : Nat) : Io (Option Ref) :=
  Prog.attempt fun w => .ok (allocScan kind size size w)

def cotcpAlloc : Io (Option Ref) := allocSlot .tcp cotcpSize
def cofdAlloc : Io (Option Ref) := allocSlot .fd cofdSize
def coudpAlloc : Io (Option Ref) := allocSlot .udp coudpSize

/-- The buffers are released and the slot is zeroed. -/
def freeObject (r : Ref) : Io Unit := do
  let o ← look r
  if o.state = Cotcp.invalid then return
  put r blank

def cotcpFree (r : Ref) : Io Unit := freeObject r
def cofdFree (r : Ref) : Io Unit := freeObject r
def coudpFree (r : Ref) : Io Unit := freeObject r

def recordEnd (r : Ref) (cause : Cause) (begun : Nat) : Io Unit := Prog.modify fun w =>
  w.note (.ended r (w.lives r) cause begun (w.objs r).fnClose.isSome)

def closeObject (free : Ref → Io Unit) (r : Ref) (cause : Cause) (begun : Nat) : Io Unit := do
  let o ← look r
  if o.state = Cotcp.invalid then return
  Prog.modify (·.copollDel o.fd)
  closeFd o.fd
  recordEnd r cause begun
  free r

/-- `_cotcp_close`. -/
def cotcpTeardown (r : Ref) (cause : Cause) (begun : Nat) : Io Unit :=
  closeObject cotcpFree r cause begun

/-- `_coudp_close`. -/
def coudpTeardown (r : Ref) (cause : Cause) (begun : Nat) : Io Unit :=
  closeObject coudpFree r cause begun

/-- `cofd_unbind` leaves the descriptor itself open. -/
def cofdUnbind (r : Ref) (cause : Cause) (begun : Nat) : Io Bool := do
  let o ← look r
  if o.state = Cofd.bind then
    Prog.modify (·.copollDel o.fd)
    recordEnd r cause begun
    cofdFree r
    return true
  return false

/-- The handlers ignore the result of `cofd_unbind`. -/
def cofdTeardown (r : Ref) (cause : Cause) (begun : Nat) : Io Unit := do
  let _ ← cofdUnbind r cause begun

/-! ## Errors -/

def errorText : Io ErrorText := do
  let eno ← Prog.read (·.errno)
  if eno ≠ 0 then return .strerror eno
  match ← syscall with
  | .failed _ => return .indeterminate
  | .soError _ => return .unknown
  | _ => checked (.error .starved)

def handleError (teardown : Ref → Cause → Nat → Io Unit) (r : Ref) : Io Unit := do
  let o ← look r
  if o.state = Cotcp.invalid then return
  let begun ← lifeOf r
  let text ← errorText
  notify r o.fnError (.error text)
  teardown r .error begun

def cotcpHandleError (r : Ref) : Io Unit := handleError cotcpTeardown r
def cofdHandleError (r : Ref) : Io Unit := handleError cofdTeardown r
def coudpHandleError (r : Ref) : Io Unit := handleError coudpTeardown r

/-! ## Reading -/

inductive ReadResult where
  | data (bytes : List UInt8) (sender : Option Addr)
  | later
  | failed
  deriving DecidableEq, Repr

/-- What a successful `read` of at most `len` bytes can return. -/
def readBytes (len : Nat) : Answer → Option (List UInt8 × Option Addr)
  | .bytes data => if data.length ≤ len then some (data, none) else none
  | _ => none

/-- What `recvfrom` returns: the part of the datagram that fits. -/
def recvfromBytes (len : Nat) : Answer → Option (List UInt8 × Option Addr)
  | .datagram data sender => some (data.take len, some sender)
  | _ => none

/-- The loop of the read handlers: interrupted calls are repeated. The result
comes with `errno` and the answers that are left. -/
def readLoop (receive : Nat → Answer → Option (List UInt8 × Option Addr)) (len errno : Nat) :
    List Answer → Except Fault (ReadResult × Nat × List Answer)
  | [] => .error .starved
  | .failed e :: rest =>
    if e = eintr then readLoop receive len e rest
    else if e = eagain then .ok (.later, e, rest)
    else .ok (.failed, e, rest)
  | a :: rest =>
    match receive len a with
    | some (bytes, sender) => .ok (.data bytes sender, errno, rest)
    | none => .error .starved

def readFrom (receive : Nat → Answer → Option (List UInt8 × Option Addr)) (r : Ref) (len : Nat) :
    Io ReadResult := do
  let life ← lifeOf r
  record (.read r life len)
  Prog.attempt fun w => do
    let (result, errno, rest) ← readLoop receive len w.errno w.answers
    .ok (result, { w with errno := errno, answers := rest })

/-- The first read event allocates the buffer. -/
def ensureRecvbuf (r : Ref) : Io Unit := do
  let o ← look r
  if o.recvbuf.isNone then
    put r { o with recvsize := initReadBuf, recvbuf := some initReadBuf }

/-- `CO_REALLOC`: a null pointer is possible for size 0 only. -/
def reallocRecvbuf (zeroBlock : Bool) (size : Nat) : Option Nat :=
  if size = 0 ∧ zeroBlock = false then none else some size

/-- After a delivery of `n` bytes: a read that filled the buffer doubles it. -/
def growRecvbuf (w : World) (r : Ref) (n : Nat) : World :=
  let o := w.objs r
  if o.state ≠ Cotcp.invalid ∧ n = o.recvsize then
    let size := min maxReadBuf (o.recvsize * 2) % 2 ^ 16
    w.setObj r { o with recvsize := size, recvbuf := reallocRecvbuf w.zeroBlock size }
  else w

def handleRead (receive : Nat → Answer → Option (List UInt8 × Option Addr))
    (delivers : Coio → Bool) (failed : Ref → Io Unit) (teardown : Ref → Cause → Nat → Io Unit)
    (r : Ref) : Io Unit := do
  let o ← look r
  if o.state = Cotcp.invalid then return
  ensureRecvbuf r
  let o ← look r
  match ← readFrom receive r o.recvsize with
  | .later => return
  | .failed => failed r
  | .data bytes sender =>
    if bytes = [] then
      let begun ← lifeOf r
      notify r o.fnClose (.close .eof)
      teardown r .eof begun
    else if delivers o then
      notify r o.fnRecv (.recv bytes sender)
      Prog.modify (growRecvbuf · r bytes.length)

/-- Only a connected TCP object delivers what was read. -/
def cotcpHandleRead (r : Ref) : Io Unit :=
  handleRead readBytes (fun o => o.state = Cotcp.connected) cotcpHandleError cotcpTeardown r

def cofdHandleRead (r : Ref) : Io Unit :=
  handleRead readBytes (fun _ => true) cofdHandleError cofdTeardown r

def coudpHandleRead (r : Ref) : Io Unit :=
  handleRead recvfromBytes (fun _ => true) coudpHandleError coudpTeardown r

/-! ## Writing -/

/-- How a write loop ends. -/
inductive Flush where
  | drained | later | failed
  deriving DecidableEq, Repr

structure Flushed where
  outcome : Flush
  rb : Coringbuf
  accepted : List (Option UInt8)
  errno : Nat
  rest : List Answer

/-- The loop of the stream write handlers, at most 2048 bytes a call. -/
def writeLoop (rb : Coringbuf) (accepted : List (Option UInt8)) (errno : Nat)
    (answers : List Answer) : Except Fault Flushed :=
  if coringbufReadableSize rb = 0 then .ok ⟨.drained, rb, accepted, errno, answers⟩
  else
    let size := min 2048 (coringbufReadonceSize rb)
    if size = 0 then .ok ⟨.drained, rb, accepted, errno, answers⟩
    else
      match coringbufHead rb size with
      | .error f => .error f
      | .ok buff =>
        match answers with
        | .failed e :: rest =>
          if e = eintr then writeLoop rb accepted e rest
          else if e = eagain then .ok ⟨.later, rb, accepted, e, rest⟩
          else .ok ⟨.failed, rb, accepted, e, rest⟩
        | .count n :: rest =>
          if n > size then .error .starved
          else
            match coringbufConsumeSize rb n with
            | .error f => .error f
            | .ok (_, rb) =>
              if n ≠ size then .ok ⟨.later, rb, accepted ++ buff.take n, errno, rest⟩
              else writeLoop rb (accepted ++ buff.take n) errno rest
        | _ => .error .starved

/-- The write loop on the send buffer of `r`. Without one there is nothing to send. -/
def flushSendbuf (r : Ref) : Io Flush := Prog.attempt fun w =>
  let o := w.objs r
  match o.sendbuf with
  | none => .ok (.drained, w)
  | some rb =>
    match writeLoop rb [] w.errno w.answers with
    | .error f => .error f
    | .ok flushed =>
      let w := w.setObj r { o with sendbuf := some flushed.rb }
      .ok (flushed.outcome, { w.note (.wrote r (w.lives r) flushed.accepted none) with
        errno := flushed.errno, answers := flushed.rest })

structure Sent where
  outcome : Flush
  nodes : List Udpbuffer
  accepted : List (Addr × List UInt8)
  errno : Nat
  rest : List Answer

/-- The loop of the UDP write handler: a node leaves the list once its datagram is
sent in full. -/
def sendtoLoop (nodes : List Udpbuffer) (accepted : List (Addr × List UInt8)) (errno : Nat)
    (answers : List Answer) : Except Fault Sent :=
  match nodes with
  | [] => .ok ⟨.drained, [], accepted, errno, answers⟩
  | wb :: more =>
    match answers with
    | .failed e :: rest =>
      if e = eintr then sendtoLoop (wb :: more) accepted e rest
      else if e = eagain then .ok ⟨.later, wb :: more, accepted, e, rest⟩
      else .ok ⟨.failed, wb :: more, accepted, e, rest⟩
    | .count n :: rest =>
      if n > wb.data.length then .error .starved
      else if n ≠ wb.data.length then
        .ok ⟨.later, { wb with data := wb.data.drop n } :: more,
          accepted ++ [(wb.addr, wb.data.take n)], errno, rest⟩
      else sendtoLoop more (accepted ++ [(wb.addr, wb.data)]) errno rest
    | _ => .error .starved

/-- The nodes are released one by one; `tail` is cleared with the last of them. -/
def flushSendlist (r : Ref) : Io Flush := Prog.attempt fun w =>
  let o := w.objs r
  match sendtoLoop o.sendlist.nodes [] w.errno w.answers with
  | .error f => .error f
  | .ok sent =>
    let tail := if sent.outcome = .drained then none else o.sendlist.tail
    let w := w.setObj r { o with sendlist := { o.sendlist with nodes := sent.nodes, tail := tail } }
    let events := sent.accepted.map fun p =>
      Event.wrote r (w.lives r) (p.2.map some) (some p.1)
    .ok (sent.outcome, { w with
      log := events.reverse ++ w.log, errno := sent.errno, answers := sent.rest })

def handleWrite (flush : Ref → Io Flush) (failed drained : Ref → Io Unit) (r : Ref) : Io Unit := do
  let o ← look r
  if o.state = Cotcp.invalid then return
  match ← flush r with
  | .later => return
  | .failed => failed r
  | .drained => drained r

/-- The queue is empty: an object that waits for that is closed, any other stops
asking for writable events. -/
def checkClosing (closing : Nat) (teardown : Ref → Cause → Nat → Io Unit) (r : Ref) :
    Io Unit := do
  let o ← look r
  if o.state = closing then
    let begun ← lifeOf r
    teardown r .drained begun
  else
    Prog.modify (·.copollRequestWrite o.fd (.obj r) false)

def cotcpCheckClosing (r : Ref) : Io Unit := checkClosing Cotcp.closing cotcpTeardown r
def coudpCheckClosing (r : Ref) : Io Unit := checkClosing Coudp.closing coudpTeardown r

/-- A file-descriptor object has no closing state; the registration is given the
object's user data. -/
def cofdDrained (r : Ref) : Io Unit := do
  let o ← look r
  Prog.modify (·.copollRequestWrite o.fd o.ud false)

def cotcpHandleWrite (r : Ref) : Io Unit :=
  handleWrite flushSendbuf cotcpHandleError cotcpCheckClosing r
def cofdHandleWrite (r : Ref) : Io Unit := handleWrite flushSendbuf cofdHandleError cofdDrained r
def coudpHandleWrite (r : Ref) : Io Unit :=
  handleWrite flushSendlist coudpHandleError coudpCheckClosing r

/-- `_cotcp_has_senddata`, `_cofd_has_senddata`. -/
def hasSenddata (o : Coio) : Bool :=
  match o.sendbuf with
  | none => false
  | some rb => coringbufReadableSize rb ≠ 0

/-- `_coudp_has_senddata`. -/
def coudpHasSenddata (o : Coio) : Bool := o.sendlist.nodes ≠ []

/-- Append to the send buffer, which is created with room for twice the data. -/
def queueSendbuf (r : Ref) (data : List UInt8) : Io Unit := Prog.attempt fun w =>
  let o := w.objs r
  let fresh : Except Fault Coringbuf :=
    match o.sendbuf with
    | some rb => .ok rb
    | none => (int32 (data.length * 2)).map coringbufNew
  match fresh with
  | .error f => .error f
  | .ok rb =>
    match coringbufWrite rb data with
    | .error f => .error f
    | .ok rb =>
      let w := w.setObj r { o with sendbuf := some rb }
      .ok ((), w.note (.sent r (w.lives r) data none))

/-- `_udpbuffer_add`: the new node goes behind the one `tail` points to. -/
def udpbufferAdd (list : Udpsendlist) (addr : Addr) (data : List UInt8) :
    Except Fault Udpsendlist :=
  let wb : Udpbuffer := ⟨list.made, addr, data⟩
  if list.nodes = [] then .ok ⟨[wb], some wb.id, list.made + 1⟩
  else
    match list.tail with
    | none => .error .nullPointer
    | some last =>
      if last ∈ list.nodes.map Udpbuffer.id then
        let upTo := list.nodes.takeWhile (·.id ≠ last) ++ (list.nodes.filter (·.id = last)).take 1
        .ok ⟨upTo ++ [wb], some wb.id, list.made + 1⟩
      else .error .badPointer

def queueSendlist (r : Ref) (addr : Addr) (data : List UInt8) : Io Unit := Prog.attempt fun w =>
  let o := w.objs r
  match udpbufferAdd o.sendlist addr data with
  | .error f => .error f
  | .ok list =>
    let w := w.setObj r { o with sendlist := list }
    .ok ((), w.note (.sent r (w.lives r) data (some addr)))

/-- Queue, ask for writable events, and try to send at once. -/
def sendData (ready : Nat) (queue : Io Unit) (owner : Coio → VPtr) (flush : Ref → Io Unit)
    (r : Ref) (data : List UInt8) : Io Bool := do
  let o ← look r
  if o.state ≠ ready ∨ data = [] then return false
  queue
  Prog.modify (·.copollRequestWrite o.fd (owner o) true)
  flush r
  return true

/-! ## TCP -/

/-- The address loop of `cotcp_listen` and `coudp_new`: the first address that can
be bound. A refused `setsockopt` gives up at once. -/
def openBound (bindaddr : Bool) : List Addr → Io (Option (Nat × Addr))
  | [] => return none
  | a :: rest => do
    match ← socket with
    | none => openBound bindaddr rest
    | some fd =>
      if bindaddr then
        if (← statusCall).isSome then
          closeFd fd
          return none
        if (← statusCall).isNone then return some (fd, a)
        closeFd fd
        openBound bindaddr rest
      else return some (fd, a)

def cotcpListen (ud : VPtr) (fnConnect : Option Nat) : Io (Option Ref) := do
  match ← cotcpAlloc with
  | none => return none
  | some r =>
    match ← getaddrinfo with
    | none =>
      cotcpFree r
      Prog.modify (·.setErrno enosys)
      return none
    | some addrs =>
      match ← openBound true addrs with
      | none =>
        cotcpFree r
        return none
      | some (fd, _) =>
        if (← statusCall).isSome then
          closeFd fd
          cotcpFree r
          return none
        let o ← look r
        put r { o with fd := fd, ud := ud, fnConnect := fnConnect, state := Cotcp.listen }
        Prog.modify (·.copollAdd fd (.obj r))
        return some r

/-- The address loop of `cotcp_connect`: the descriptor, and whether it is
connected already. -/
def openConnecting : List Addr → Io (Option (Nat × Bool))
  | [] => return none
  | _ :: rest => do
    match ← socket with
    | none => openConnecting rest
    | some fd =>
      match ← statusCall with
      | none => return some (fd, true)
      | some e =>
        if e = einprogress then return some (fd, false)
        closeFd fd
        openConnecting rest

def cotcpConnect (ud : VPtr) (fnConnect fnError : Option Nat) : Io Bool := do
  match ← cotcpAlloc with
  | none => return false
  | some r =>
    match ← getaddrinfo with
    | none =>
      cotcpFree r
      Prog.modify (·.setErrno enosys)
      return false
    | some addrs =>
      match ← openConnecting addrs with
      | none =>
        cotcpFree r
        return false
      | some (fd, connected) =>
        let o ← look r
        let o := { o with fd := fd, ud := ud, fnConnect := fnConnect, fnError := fnError }
        put r o
        Prog.modify (·.copollAdd fd (.obj r))
        if connected then
          put r { o with state := Cotcp.connected }
          notify r fnConnect .connect
        else
          put r { o with state := Cotcp.connecting }
          Prog.modify (·.copollRequestWrite fd (.obj r) true)
        return true

/-- The loop around `accept`: the descriptor, `errno`, the answers left. -/
def acceptLoop (errno : Nat) : List Answer → Except Fault (Option Nat × Nat × List Answer)
  | .failed e :: rest => if e = eintr then acceptLoop e rest else .ok (none, e, rest)
  | .descriptor fd :: rest => .ok (some fd, errno, rest)
  | _ => .error .starved

def acceptFd : Io (Option Nat) := do
  let fd ← Prog.attempt fun w => do
    let (fd, errno, rest) ← acceptLoop w.errno w.answers
    .ok (fd, { w with errno := errno, answers := rest })
  match fd with
  | none => return none
  | some fd => openFd fd; return some fd

def cotcpHandleAccept (r : Ref) : Io Unit := do
  match ← acceptFd with
  | none => return
  | some fd =>
    match ← cotcpAlloc with
    | none => closeFd fd
    | some c =>
      let tcp ← look r
      let ctcp ← look c
      put c { ctcp with fd := fd, ud := tcp.ud, state := Cotcp.connected }
      Prog.modify (·.copollAdd fd (.obj c))
      let tcp ← look r
      notify c tcp.fnConnect .connect

def cotcpHandleConnect (r : Ref) : Io Unit := do
  let begun ← lifeOf r
  match ← syscall with
  | .failed e =>
    let o ← look r
    notify r o.fnError (.error (.strerror e))
    cotcpTeardown r .error begun
  | .soError e =>
    let o ← look r
    if e ≠ 0 then
      notify r o.fnError (.error (.strerror e))
      cotcpTeardown r .error begun
    else
      put r { o with state := Cotcp.connected, fnError := none }
      notify r o.fnConnect .connect
  | _ => checked (.error .starved)

def cotcpSend (r : Ref) (data : List UInt8) : Io Bool :=
  sendData Cotcp.connected (queueSendbuf r data) (fun _ => .obj r) cotcpHandleWrite r data

/-- `cotcp_close` and `coudp_close`: one attempt to send what is queued, then the
object is closed, or left to its writable events. -/
def closeRequest (isOpen hasData : Coio → Bool) (closing : Nat) (flush : Ref → Io Unit)
    (teardown : Ref → Cause → Nat → Io Unit) (r : Ref) (force : Bool) : Io Bool := do
  let o ← look r
  if isOpen o then
    let begun ← lifeOf r
    if hasData o then flush r
    let o ← look r
    if force ∨ hasData o = false then
      notify r o.fnClose (.close (.requested force))
      teardown r (.requested force) begun
    else
      put r { o with state := closing }
    return true
  return false

def cotcpIsOpen (o : Coio) : Bool := o.state > Cotcp.new ∧ o.state < Cotcp.closing

def cotcpClose (r : Ref) (force : Bool) : Io Bool :=
  closeRequest cotcpIsOpen hasSenddata Cotcp.closing cotcpHandleWrite cotcpTeardown r force

/-- The `_on_` functions store a callback while the object is in a state that
takes one. -/
def register (accepts : Coio → Bool) (store : Coio → Coio) (r : Ref) : Io Bool := do
  let o ← look r
  if accepts o then
    put r (store o)
    return true
  return false

def cotcpOnError (r : Ref) (fn : Option Nat) : Io Bool :=
  register cotcpIsOpen (fun o => { o with fnError := fn }) r
def cotcpOnRecv (r : Ref) (fn : Option Nat) : Io Bool :=
  register (fun o => o.state > Cotcp.listen ∧ o.state < Cotcp.closing)
    (fun o => { o with fnRecv := fn }) r
def cotcpOnClose (r : Ref) (fn : Option Nat) : Io Bool :=
  register cotcpIsOpen (fun o => { o with fnClose := fn }) r

/-! ## File descriptors -/

def cofdIsBound (o : Coio) : Bool := o.state = Cofd.bind

def cofdBind (fd : Nat) (ud : VPtr) : Io (Option Ref) := do
  match ← cofdAlloc with
  | none => return none
  | some r =>
    let o ← look r
    put r { o with fd := fd, ud := ud, state := Cofd.bind }
    Prog.modify (·.copollAdd fd (.obj r))
    return some r

/-- The write request is made under the object's user data. -/
def cofdSend (r : Ref) (data : List UInt8) : Io Bool :=
  sendData Cofd.bind (queueSendbuf r data) (fun o => o.ud) cofdHandleWrite r data

def cofdOnError (r : Ref) (fn : Option Nat) : Io Bool :=
  register cofdIsBound (fun o => { o with fnError := fn }) r
def cofdOnRecv (r : Ref) (fn : Option Nat) : Io Bool :=
  register cofdIsBound (fun o => { o with fnRecv := fn }) r
def cofdOnClose (r : Ref) (fn : Option Nat) : Io Bool :=
  register cofdIsBound (fun o => { o with fnClose := fn }) r

/-! ## UDP -/

def coudpIsOpen (o : Coio) : Bool := o.state ≥ Coudp.new ∧ o.state < Coudp.closing

/-- The address the socket was opened for is copied to the caller. -/
def coudpNew (ud : VPtr) (bindaddr : Bool) : Io (Option (Ref × Addr)) := do
  match ← coudpAlloc with
  | none => return none
  | some r =>
    match ← getaddrinfo with
    | none =>
      Prog.modify (·.setErrno enosys)
      coudpFree r
      return none
    | some addrs =>
      match ← openBound bindaddr addrs with
      | none =>
        coudpFree r
        return none
      | some (fd, addr) =>
        let o ← look r
        put r { o with fd := fd, ud := ud, state := Coudp.new }
        Prog.modify (·.copollAdd fd (.obj r))
        return some (r, addr)

def coudpSend (r : Ref) (data : List UInt8) (addr : Addr) : Io Bool :=
  sendData Coudp.new (queueSendlist r addr data) (fun _ => .obj r) coudpHandleWrite r data

def coudpClose (r : Ref) (force : Bool) : Io Bool :=
  closeRequest coudpIsOpen coudpHasSenddata Coudp.closing coudpHandleWrite coudpTeardown r force

def coudpOnError (r : Ref) (fn : Option Nat) : Io Bool :=
  register (fun o => o.state = Coudp.new) (fun o => { o with fnError := fn }) r
def coudpOnRecv (r : Ref) (fn : Option Nat) : Io Bool :=
  register (fun o => o.state = Coudp.new) (fun o => { o with fnRecv := fn }) r
def coudpOnClose (r : Ref) (fn : Option Nat) : Io Bool :=
  register (fun o => o.state = Coudp.new) (fun o => { o with fnClose := fn }) r

end Colinlib.Source.IoService
