import Colinlib.Source.EventLoop
import Mathlib.Logic.Relation

/-!
# What the I/O service does to its state

The functions of `co_ioservice.c` change the state in few ways: a slot is reserved
and installed, an object is adjusted, data is queued or sent, the receive buffer is
filled, an object is finished, a handler is scheduled. `Change` lists them with the
conditions the code establishes, in terms of the action under way and of the world
it found. `Due` says which user function may be called, `Resumed` what the code
does when that function returns. Every property of a run is proved from these.
-/
namespace Colinlib.Source.IoChanges
open Colinlib.Theory Colinlib.Theory.CMemory Colinlib.Theory.Callbacks
open Colinlib.Source.RingBuffer Colinlib.Source.IoWorld Colinlib.Source.IoService
open Colinlib.Source.EventLoop

/-! ## One object -/

/-- A registered object before anything happened to it. -/
def Installed (o : Coio) : Prop :=
  ∃ fd ud state fnConnect fnError, o = { blank with
    fd := fd, ud := ud, state := state, fnConnect := fnConnect, fnError := fnError } ∧
    state ≠ Cotcp.invalid

/-- Neither the identity of a live object nor its receive buffer is touched. -/
structure Adjusted (o o' : Coio) : Prop where
  live : o.state ≠ Cotcp.invalid
  live' : o'.state ≠ Cotcp.invalid
  fd : o'.fd = o.fd
  ud : o'.ud = o.ud
  recvsize : o'.recvsize = o.recvsize
  recvbuf : o'.recvbuf = o.recvbuf

/-- The object as its read handler has it: the first read event allocates the buffer. -/
def ensured (o : Coio) : Coio :=
  if o.recvbuf.isNone then { o with recvsize := initReadBuf, recvbuf := some initReadBuf } else o

def withState (o : Coio) (state : Nat) : Coio := { o with state := state }

def withCallbacks (o : Coio) (fnRecv fnError fnClose : Option Nat) : Coio :=
  { o with fnRecv := fnRecv, fnError := fnError, fnClose := fnClose }

def withQueue (o : Coio) (sendbuf : Option Coringbuf) (sendlist : Udpsendlist) : Coio :=
  { o with sendbuf := sendbuf, sendlist := sendlist }

def withRecvbuf (o : Coio) (recvsize : Nat) (recvbuf : Option Nat) : Coio :=
  { o with recvsize := recvsize, recvbuf := recvbuf }

/-- A connection attempt that succeeded: the error callback was for the attempt. -/
def established (o : Coio) : Coio := { o with state := Cotcp.connected, fnError := none }

/-! ## What differs between the three kinds of objects -/

def tableSize : Kind → Nat
  | .tcp => cotcpSize
  | .udp => coudpSize
  | .fd => cofdSize

def receiveOf : Kind → Nat → Answer → Option (List UInt8 × Option Addr)
  | .udp => recvfromBytes
  | _ => readBytes

def deliversOf : Kind → Coio → Bool
  | .tcp => fun o => o.state = Cotcp.connected
  | _ => fun _ => true

def flushOf : Kind → Ref → Io Flush
  | .udp => flushSendlist
  | _ => flushSendbuf

def hasDataOf : Kind → Coio → Bool
  | .udp => coudpHasSenddata
  | _ => hasSenddata

def isOpenOf : Kind → Coio → Bool
  | .tcp => cotcpIsOpen
  | .udp => coudpIsOpen
  | .fd => cofdIsBound

/-- The state of an object that is closed once its queue is empty. -/
def closingOf : Kind → Option Nat
  | .tcp => some Cotcp.closing
  | .udp => some Coudp.closing
  | .fd => none

/-- The pointer under which an object asks for writable events. -/
def ownerOf (r : Ref) (o : Coio) : VPtr := if r.kind = .fd then o.ud else .obj r

/-! ## One world after another -/

/-- Agreement on everything but `errno` and the answers of the kernel. -/
structure SameCore (w w' : World) : Prop where
  objs : w'.objs = w.objs
  cursor : w'.cursor = w.cursor
  poll : w'.poll = w.poll
  openFds : w'.openFds = w.openFds
  batch : w'.batch = w.batch
  tasks : w'.tasks = w.tasks
  zeroBlock : w'.zeroBlock = w.zeroBlock
  lives : w'.lives = w.lives
  log : w'.log = w.log
  ledger : w'.ledger = w.ledger

def answered (w : World) (errno : Nat) (rest : List Answer) : World :=
  { w with errno := errno, answers := rest }

/-- `socket` or `accept` returned `fd`. -/
def opened (w : World) (fd : Nat) : World :=
  { w with openFds := fd :: w.openFds, ledger := .obtained fd :: w.ledger }

/-- A descriptor was obtained and given up again. -/
def churned (w : World) (fd : Nat) : World := (opened w fd).close fd

/-- A slot is taken for a new object. -/
def reserved (w : World) (r : Ref) : World :=
  { w.setObj r blank with lives := Function.update w.lives r (w.lives r + 1) }

/-- A reserved slot is filled and registered. -/
def installed (w : World) (r : Ref) (o : Coio) : World :=
  (w.setObj r o).copollAdd o.fd (.obj r)

/-- The read handler of `r` has its result. -/
def received (w : World) (r : Ref) (errno : Nat) (rest : List Answer) : World :=
  answered ((w.setObj r (ensured (w.objs r))).note
    (.read r (w.lives r) (ensured (w.objs r)).recvsize)) errno rest

/-- A live object leaves the poller, a socket is closed, and the slot is zeroed. -/
def finished (w : World) (r : Ref) (cause : Cause) (begun : Nat) : World :=
  let gone := w.copollDel (w.objs r).fd
  let shut := if r.kind = .fd then gone else gone.close (w.objs r).fd
  (shut.note (.ended r (w.lives r) cause begun (w.objs r).fnClose.isSome)).setObj r blank

/-- The event under dispatch leaves the batch and its handlers are scheduled. -/
def scheduled (w : World) (rest : List Pollevent) (tasks : List (Handler × Ref)) : World :=
  { w with batch := rest, tasks := tasks }

/-! ## The record -/

/-- The slot an event is about. -/
def eventRef : Event → Ref
  | .sent r .. | .wrote r .. | .read r .. | .ended r .. => r
  | .called c => c.ref

/-- Which use of the slot an event is about. -/
def eventLife : Event → Nat
  | .sent _ life .. | .wrote _ life .. | .read _ life .. | .ended _ life .. => life
  | .called c => c.life

/-- Nothing was recorded yet of the present use of the slot. -/
def Unused (w : World) (r : Ref) : Prop := ∀ e ∈ w.log, eventRef e = r → eventLife e ≠ w.lives r

/-- What every property of the service needs: free slots are zeroed, and the record
speaks of past and present uses of a slot only. -/
structure Sound (w : World) : Prop where
  dead : ∀ r, (w.objs r).state = Cotcp.invalid → w.objs r = blank
  past : ∀ e ∈ w.log, eventLife e ≤ w.lives (eventRef e)

/-! ## The action under way -/

/-- What set a stretch of code going: an action, and the world it found. -/
structure Origin where
  action : Action
  world : World

def nextSlot (w : World) (kind : Kind) : Option Ref :=
  (allocScan kind (tableSize kind) (tableSize kind) w).1

/-- The slot that the action takes for a new object. -/
def Origin.slot (o : Origin) : Option Ref :=
  match o.action with
  | .call (.cotcpListen ..) | .call (.cotcpConnect ..) => nextSlot o.world .tcp
  | .call (.coudpNew ..) => nextSlot o.world .udp
  | .call (.cofdBind ..) => nextSlot o.world .fd
  | .dispatch =>
    match o.world.batch with
    | ⟨.obj r, _, _, _⟩ :: _ =>
      if r.kind = .tcp ∧ (o.world.objs r).state = Cotcp.listen then nextSlot o.world .tcp else none
    | _ => none
  | _ => none

/-- The handler `h` of `r` starts to run. -/
inductive Running (o : Origin) (h : Handler) (r : Ref) : World → Prop
  | intro {rest} (handling : o.action = .handle) (next : o.world.tasks = (h, r) :: rest) :
      Running o h r { o.world with tasks := rest }

/-- The read handler of `r` has just read, with this result. -/
inductive Received (o : Origin) (r : Ref) : ReadResult → World → Prop
  | intro {w result errno rest} (running : Running o .read r w)
      (live : (w.objs r).state ≠ Cotcp.invalid)
      (read : readLoop (receiveOf r.kind) (ensured (w.objs r)).recvsize w.errno w.answers =
        .ok (result, errno, rest)) : Received o r result (received w r errno rest)

/-- An accepted send on `r`, which queues the data first. -/
inductive Sends (o : Origin) (r : Ref) : Io Unit → Prop
  | tcp {data} (asked : o.action = .call (.cotcpSend r data)) (kind : r.kind = .tcp)
      (ready : (o.world.objs r).state = Cotcp.connected) (nonempty : data ≠ []) :
      Sends o r (queueSendbuf r data)
  | udp {data addr} (asked : o.action = .call (.coudpSend r data addr)) (kind : r.kind = .udp)
      (ready : (o.world.objs r).state = Coudp.new) (nonempty : data ≠ []) :
      Sends o r (queueSendlist r addr data)
  | fd {data} (asked : o.action = .call (.cofdSend r data)) (kind : r.kind = .fd)
      (ready : (o.world.objs r).state = Cofd.bind) (nonempty : data ≠ []) :
      Sends o r (queueSendbuf r data)

/-- An accepted close of `r`. -/
structure Closes (o : Origin) (r : Ref) (force : Bool) : Prop where
  asked : o.action = .call (.cotcpClose r force) ∧ r.kind = .tcp ∨
    o.action = .call (.coudpClose r force) ∧ r.kind = .udp
  open' : isOpenOf r.kind (o.world.objs r)

/-- The slot still holds the same object in the same state. -/
structure Undisturbed (r : Ref) (w w' : World) : Prop where
  lives : w'.lives r = w.lives r
  state : (w'.objs r).state = (w.objs r).state
  fd : (w'.objs r).fd = (w.objs r).fd
  ud : (w'.objs r).ud = (w.objs r).ud
  fnClose : (w'.objs r).fnClose = (w.objs r).fnClose

/-- An accepted close of `r` is past its attempt to send. -/
structure Closing (o : Origin) (r : Ref) (force : Bool) (w : World) : Prop extends
    Closes o r force where
  same : Undisturbed r o.world w

/-- The queue of `r` is about to be sent. -/
inductive Flushes (o : Origin) (r : Ref) (w : World) : Prop
  | event (running : Running o .write r w)
  | send {queue w₁} (asked : Sends o r queue) (queued : queue o.world = .ret () w₁)
      (here : w = w₁.copollRequestWrite (o.world.objs r).fd (ownerOf r (o.world.objs r)) true)
  | close {force} (asked : Closes o r force) (here : w = o.world)

/-- Data is queued, or sent as far as the kernel takes it. -/
inductive Transmits (o : Origin) (r : Ref) : World → World → Prop
  | sent {queue w} (asked : Sends o r queue) (queued : queue o.world = .ret () w) :
      Transmits o r o.world
        (w.copollRequestWrite (o.world.objs r).fd (ownerOf r (o.world.objs r)) true)
  | waits {w w' out} (flushes : Flushes o r w) (live : (w.objs r).state ≠ Cotcp.invalid)
      (ran : flushOf r.kind r w = .ret out w')
      (more : out ≠ .drained ∨ some (w.objs r).state = closingOf r.kind) : Transmits o r w w'
  | drained {w w'} (flushes : Flushes o r w) (live : (w.objs r).state ≠ Cotcp.invalid)
      (ran : flushOf r.kind r w = .ret .drained w')
      (open' : some (w.objs r).state ≠ closingOf r.kind) :
      Transmits o r w (w'.copollRequestWrite (w.objs r).fd (ownerOf r (w.objs r)) false)

/-- A live object is changed in place. -/
inductive Adjusts (o : Origin) (r : Ref) (w : World) : Coio → Prop
  | register {fnRecv fnError fnClose} (live : (w.objs r).state ≠ Cotcp.invalid) :
      Adjusts o r w (withCallbacks (w.objs r) fnRecv fnError fnClose)
  | established (kind : r.kind = .tcp) (connecting : (w.objs r).state = Cotcp.connecting) :
      Adjusts o r w (established (w.objs r))
  | closing {state} (asked : Closing o r false w) (queued : hasDataOf r.kind (w.objs r))
      (waits : closingOf r.kind = some state) : Adjusts o r w (withState (w.objs r) state)

/-- A live object is torn down although no user function waits to hear of it. -/
inductive Finishing (o : Origin) (r : Ref) (w : World) : Cause → Prop
  | error (live : (w.objs r).state ≠ Cotcp.invalid) (unset : (w.objs r).fnError = none) :
      Finishing o r w .error
  | eof {sender} (got : Received o r (.data [] sender) w) (unset : (w.objs r).fnClose = none) :
      Finishing o r w .eof
  | requested {force} (asked : Closing o r force w)
      (now : force ∨ hasDataOf r.kind (w.objs r) = false) (unset : (w.objs r).fnClose = none) :
      Finishing o r w (.requested force)
  | unbound (asked : o.action = .call (.cofdUnbind r)) (kind : r.kind = .fd)
      (bound : (w.objs r).state = Cofd.bind) : Finishing o r w (.requested true)
  | drained {w₀} (running : Running o .write r w₀) (ran : flushOf r.kind r w₀ = .ret .drained w)
      (closing : some (w.objs r).state = closingOf r.kind) : Finishing o r w .drained

/-- One change of the state by the code that `o` set going. -/
inductive Change (o : Origin) : World → World → Prop
  | kernel {w w'} (same : SameCore w w') : Change o w w'
  | bump {w} (kind : Kind) : Change o w (bumpCursor w kind)
  | churn {w fd} (shut : fd ∉ w.openFds) : Change o w (churned w fd)
  | reserve {w r} (next : o.slot = some r) (free : (w.objs r).state = Cotcp.invalid) :
      Change o w (reserved w r)
  | install {w r obj} (next : o.slot = some r) (empty : w.objs r = blank) (unused : Unused w r)
      (shape : Installed obj) (socket : r.kind ≠ .fd) (shut : obj.fd ∉ w.openFds) :
      Change o w (installed (opened w obj.fd) r obj)
  | bind {w r obj ud} (next : o.slot = some r) (empty : w.objs r = blank) (unused : Unused w r)
      (shape : Installed obj) (kind : r.kind = .fd)
      (asked : o.action = .call (.cofdBind obj.fd ud)) : Change o w (installed w r obj)
  | await {w r} (next : o.slot = some r) (kind : r.kind = .tcp)
      (connecting : (w.objs r).state = Cotcp.connecting) :
      Change o w (w.copollRequestWrite (w.objs r).fd (.obj r) true)
  | adjust {w r obj} (adjusts : Adjusts o r w obj) : Change o w (w.setObj r obj)
  | transmit {r w w'} (transmits : Transmits o r w w') : Change o w w'
  | receive {w r result errno rest} (running : Running o .read r w)
      (live : (w.objs r).state ≠ Cotcp.invalid)
      (read : readLoop (receiveOf r.kind) (ensured (w.objs r)).recvsize w.errno w.answers =
        .ok (result, errno, rest)) : Change o w (received w r errno rest)
  | unseen {w r bytes sender} (got : Received o r (.data bytes sender) w) (nonempty : bytes ≠ [])
      (shown : deliversOf r.kind (w.objs r)) (unset : (w.objs r).fnRecv = none) :
      Change o w (growRecvbuf w r bytes.length)
  | finish {w r cause} (finishing : Finishing o r w cause) :
      Change o w (finished w r cause (w.lives r))
  | collect {events batch} (asked : o.action = .wait events)
      (found : copollCollect o.world events = .ok batch) :
      Change o o.world { o.world with batch := batch }
  | pop {ev rest} (asked : o.action = .dispatch) (next : o.world.batch = ev :: rest) :
      Change o o.world { o.world with batch := rest }
  | schedule {ev rest r} (asked : o.action = .dispatch) (next : o.world.batch = ev :: rest)
      (named : ev.ud = .obj r) (live : (o.world.objs r).state ≠ Cotcp.invalid) :
      Change o { o.world with batch := rest } (scheduled o.world rest (eventTasks ev r))
  | handle {h r rest} (asked : o.action = .handle) (next : o.world.tasks = (h, r) :: rest) :
      Change o o.world { o.world with tasks := rest }

/-- What the code reaches without calling the user back. -/
def Reaches (o : Origin) (w : World) : Prop := Relation.ReflTransGen (Change o) o.world w

/-- The user function `fn` is to be told `notice` about `r`. -/
inductive Due (o : Origin) (r : Ref) (fn : Nat) (w : World) : Notice → Prop
  | connect (kind : r.kind = .tcp) (connected : (w.objs r).state = Cotcp.connected) :
      Due o r fn w .connect
  | recv {bytes sender} (got : Received o r (.data bytes sender) w) (nonempty : bytes ≠ [])
      (shown : deliversOf r.kind (w.objs r)) (set : (w.objs r).fnRecv = some fn) :
      Due o r fn w (.recv bytes sender)
  | error {text} (live : (w.objs r).state ≠ Cotcp.invalid) (set : (w.objs r).fnError = some fn) :
      Due o r fn w (.error text)
  | eof {sender} (got : Received o r (.data [] sender) w) (set : (w.objs r).fnClose = some fn) :
      Due o r fn w (.close .eof)
  | close {force} (asked : Closing o r force w)
      (now : force ∨ hasDataOf r.kind (w.objs r) = false) (set : (w.objs r).fnClose = some fn) :
      Due o r fn w (.close (.requested force))

/-- The callback `c` is entered in `w'`. -/
inductive Enters (o : Origin) (c : Callback) : World → Prop
  | intro {w} (reached : Reaches o w) (now : c.life = w.lives c.ref)
      (due : Due o c.ref c.fn w c.notice) : Enters o c (w.note (.called c))

/-- What the code does once the callback `c` has returned. After an error or an end
the object is torn down, whatever the callback did, unless its slot is free. -/
inductive Resumed (c : Callback) (w : World) : World → Prop
  | connect (notice : c.notice = .connect) : Resumed c w w
  | recv {data sender} (notice : c.notice = .recv data sender) :
      Resumed c w (growRecvbuf w c.ref data.length)
  | error {text} (notice : c.notice = .error text) (live : (w.objs c.ref).state ≠ Cotcp.invalid) :
      Resumed c w (finished w c.ref .error c.life)
  | close {cause} (notice : c.notice = .close cause) (live : (w.objs c.ref).state ≠ Cotcp.invalid) :
      Resumed c w (finished w c.ref cause c.life)
  | gone (notice : (∃ cause, c.notice = .close cause) ∨ ∃ text, c.notice = .error text)
      (free : (w.objs c.ref).state = Cotcp.invalid ∨ c.ref.kind = .fd) : Resumed c w w

/-! ## Small facts about the changes -/

theorem Reaches.change {o : Origin} {w w' : World} (h : Reaches o w) (last : Change o w w') :
    Reaches o w' :=
  Relation.ReflTransGen.tail h last

theorem Reaches.same {o : Origin} {w w' : World} (h : Reaches o w) (core : SameCore w w') :
    Reaches o w' :=
  Reaches.change h (.kernel core)

theorem SameCore.refl (w : World) : SameCore w w :=
  ⟨rfl, rfl, rfl, rfl, rfl, rfl, rfl, rfl, rfl, rfl⟩

theorem SameCore.trans {w w' w'' : World} (h : SameCore w w') (h' : SameCore w' w'') :
    SameCore w w'' where
  objs := h'.objs.trans h.objs
  cursor := h'.cursor.trans h.cursor
  poll := h'.poll.trans h.poll
  openFds := h'.openFds.trans h.openFds
  batch := h'.batch.trans h.batch
  tasks := h'.tasks.trans h.tasks
  zeroBlock := h'.zeroBlock.trans h.zeroBlock
  lives := h'.lives.trans h.lives
  log := h'.log.trans h.log
  ledger := h'.ledger.trans h.ledger

theorem SameCore.answered (w : World) (errno : Nat) (rest : List Answer) :
    SameCore w (answered w errno rest) := ⟨rfl, rfl, rfl, rfl, rfl, rfl, rfl, rfl, rfl, rfl⟩

theorem SameCore.setObj {w w' : World} (h : SameCore w w') (r : Ref) (o : Coio) :
    SameCore (w.setObj r o) (w'.setObj r o) :=
  ⟨by simp only [World.setObj, h.objs], h.cursor, h.poll, h.openFds, h.batch, h.tasks,
    h.zeroBlock, h.lives, h.log, h.ledger⟩

theorem SameCore.close {w w' : World} (h : SameCore w w') (fd : Nat) :
    SameCore (w.close fd) (w'.close fd) :=
  ⟨h.objs, h.cursor, by simp only [World.close, h.poll], by simp only [World.close, h.openFds],
    h.batch, h.tasks, h.zeroBlock, h.lives, h.log, by simp only [World.close, h.ledger]⟩

theorem SameCore.copollAdd {w w' : World} (h : SameCore w w') (fd : Nat) (ud : VPtr) :
    SameCore (w.copollAdd fd ud) (w'.copollAdd fd ud) := by
  unfold World.copollAdd
  rw [h.poll]
  split
  · exact ⟨h.objs, h.cursor, h.poll, h.openFds, h.batch, h.tasks, h.zeroBlock, h.lives, h.log,
      h.ledger⟩
  · exact ⟨h.objs, h.cursor, rfl, h.openFds, h.batch, h.tasks, h.zeroBlock, h.lives, h.log,
      h.ledger⟩

@[simp] theorem setObj_self (w : World) (r : Ref) (o : Coio) : (w.setObj r o).objs r = o :=
  Function.update_self _ _ _

@[simp] theorem setObj_other (w : World) {r s : Ref} (o : Coio) (h : s ≠ r) :
    (w.setObj r o).objs s = w.objs s :=
  Function.update_of_ne h _ _

@[simp] theorem setObj_twice (w : World) (r : Ref) (o o' : Coio) :
    (w.setObj r o).setObj r o' = w.setObj r o' := by
  simp only [World.setObj, Function.update_idem]

@[simp] theorem setObj_eta (w : World) (r : Ref) : w.setObj r (w.objs r) = w := by
  simp only [World.setObj, Function.update_eq_self]

@[simp] theorem note_objs (w : World) (e : Event) : (w.note e).objs = w.objs := rfl

@[simp] theorem note_lives (w : World) (e : Event) : (w.note e).lives = w.lives := rfl

@[simp] theorem note_log (w : World) (e : Event) : (w.note e).log = e :: w.log := rfl

/-- `EPOLL_CTL_ADD` changes registrations and `errno` alone. -/
theorem copollAdd_eq (w : World) (fd : Nat) (ud : VPtr) : ∃ poll errno,
    w.copollAdd fd ud = { w with poll := poll, errno := errno } := by
  unfold World.copollAdd
  split <;> exact ⟨_, _, rfl⟩

/-- So does `EPOLL_CTL_MOD`. -/
theorem copollRequestWrite_eq (w : World) (fd : Nat) (ud : VPtr) (e : Bool) : ∃ poll errno,
    w.copollRequestWrite fd ud e = { w with poll := poll, errno := errno } := by
  unfold World.copollRequestWrite
  split <;> exact ⟨_, _, rfl⟩

/-- `EPOLL_CTL_DEL` leaves the descriptor unregistered, whether it was registered
or not. -/
theorem copollDel_eq (w : World) (fd : Nat) : ∃ errno,
    w.copollDel fd = { w with poll := Function.update w.poll fd none, errno := errno } := by
  unfold World.copollDel
  split
  · exact ⟨_, rfl⟩
  · next h =>
    have same : Function.update w.poll fd none = w.poll :=
      Function.update_eq_self_iff.mpr h.symm
    exact ⟨enoent, by rw [same, World.setErrno]⟩

@[simp] theorem copollAdd_objs (w : World) (fd : Nat) (ud : VPtr) :
    (w.copollAdd fd ud).objs = w.objs := by
  obtain ⟨_, _, same⟩ := copollAdd_eq w fd ud
  rw [same]

@[simp] theorem copollRequestWrite_objs (w : World) (fd : Nat) (ud : VPtr) (e : Bool) :
    (w.copollRequestWrite fd ud e).objs = w.objs := by
  obtain ⟨_, _, same⟩ := copollRequestWrite_eq w fd ud e
  rw [same]

@[simp] theorem copollDel_objs (w : World) (fd : Nat) : (w.copollDel fd).objs = w.objs := by
  obtain ⟨_, same⟩ := copollDel_eq w fd
  rw [same]

@[simp] theorem copollRequestWrite_lives (w : World) (fd : Nat) (ud : VPtr) (e : Bool) :
    (w.copollRequestWrite fd ud e).lives = w.lives := by
  obtain ⟨_, _, same⟩ := copollRequestWrite_eq w fd ud e
  rw [same]

theorem copollAdd_setObj (w : World) (r : Ref) (o : Coio) (fd : Nat) (ud : VPtr) :
    (w.copollAdd fd ud).setObj r o = (w.setObj r o).copollAdd fd ud := by
  unfold World.copollAdd
  simp only [World.setObj]
  split <;> rfl

theorem finished_eq (w : World) (r : Ref) (cause : Cause) (begun : Nat) : ∃ errno,
    finished w r cause begun = { w with
      objs := Function.update w.objs r blank
      poll := Function.update w.poll (w.objs r).fd none
      openFds := if r.kind = .fd then w.openFds else w.openFds.erase (w.objs r).fd
      ledger := if r.kind = .fd then w.ledger else .closed (w.objs r).fd :: w.ledger
      log := .ended r (w.lives r) cause begun (w.objs r).fnClose.isSome :: w.log
      errno := errno } := by
  obtain ⟨errno, gone⟩ := copollDel_eq w (w.objs r).fd
  refine ⟨errno, ?_⟩
  unfold finished
  simp only [gone]
  split
  · rfl
  · simp only [World.close, World.note, World.setObj, Function.update_idem]

section Finished
variable (w : World) (r : Ref) (cause : Cause) (begun : Nat)

@[simp] theorem finished_objs :
    (finished w r cause begun).objs = Function.update w.objs r blank := by
  obtain ⟨_, same⟩ := finished_eq w r cause begun
  rw [same]

@[simp] theorem finished_poll :
    (finished w r cause begun).poll = Function.update w.poll (w.objs r).fd none := by
  obtain ⟨_, same⟩ := finished_eq w r cause begun
  rw [same]

@[simp] theorem finished_lives : (finished w r cause begun).lives = w.lives := by
  obtain ⟨_, same⟩ := finished_eq w r cause begun
  rw [same]

@[simp] theorem finished_log : (finished w r cause begun).log =
    .ended r (w.lives r) cause begun (w.objs r).fnClose.isSome :: w.log := by
  obtain ⟨_, same⟩ := finished_eq w r cause begun
  rw [same]

end Finished

theorem ensured_state (o : Coio) : (ensured o).state = o.state := by
  unfold ensured
  split <;> rfl

theorem ensured_fd (o : Coio) : (ensured o).fd = o.fd := by
  unfold ensured
  split <;> rfl

theorem ensured_fnRecv (o : Coio) : (ensured o).fnRecv = o.fnRecv := by
  unfold ensured
  split <;> rfl

theorem received_slot (w : World) (r : Ref) (errno : Nat) (rest : List Answer) :
    (received w r errno rest).objs r = ensured (w.objs r) := setObj_self _ _ _

/-- The receive buffer is all that growing touches. -/
theorem growRecvbuf_eq (w : World) (r : Ref) (n : Nat) : growRecvbuf w r n = w ∨
    (w.objs r).state ≠ Cotcp.invalid ∧ n = (w.objs r).recvsize ∧ ∃ size recvbuf,
      growRecvbuf w r n = w.setObj r (withRecvbuf (w.objs r) size recvbuf) := by
  unfold growRecvbuf
  simp only
  split
  · next full => exact Or.inr ⟨full.1, full.2, _, _, rfl⟩
  · exact Or.inl rfl

theorem growRecvbuf_lives (w : World) (r : Ref) (n : Nat) : (growRecvbuf w r n).lives = w.lives := by
  unfold growRecvbuf
  simp only
  split <;> rfl

theorem growRecvbuf_log (w : World) (r : Ref) (n : Nat) : (growRecvbuf w r n).log = w.log := by
  unfold growRecvbuf
  simp only
  split <;> rfl

theorem growRecvbuf_work (w : World) (r : Ref) (n : Nat) :
    (growRecvbuf w r n).batch = w.batch ∧ (growRecvbuf w r n).tasks = w.tasks := by
  unfold growRecvbuf
  simp only
  split <;> exact ⟨rfl, rfl⟩

/-! ## Sending and queueing -/

/-- The events that report on the send queue. -/
def OnQueue : Event → Prop
  | .sent .. | .wrote .. => True
  | _ => False

/-- Only the send queue of `r` changed, and what the record says of it. -/
structure Queued (r : Ref) (w w' : World) : Prop where
  objs : ∃ sendbuf sendlist,
    w'.objs = Function.update w.objs r (withQueue (w.objs r) sendbuf sendlist)
  log : ∃ events, w'.log = events ++ w.log ∧
    ∀ e ∈ events, OnQueue e ∧ eventRef e = r ∧ eventLife e = w.lives r
  poll : w'.poll = w.poll
  openFds : w'.openFds = w.openFds
  batch : w'.batch = w.batch
  tasks : w'.tasks = w.tasks
  zeroBlock : w'.zeroBlock = w.zeroBlock
  lives : w'.lives = w.lives
  ledger : w'.ledger = w.ledger

section Queues
variable {o : Origin} {r : Ref} {w w' : World}

theorem Undisturbed.refl (r : Ref) (w : World) : Undisturbed r w w := ⟨rfl, rfl, rfl, rfl, rfl⟩

theorem Undisturbed.trans {w₀ w₁ w₂ : World} (h : Undisturbed r w₀ w₁)
    (h' : Undisturbed r w₁ w₂) : Undisturbed r w₀ w₂ :=
  ⟨h'.lives.trans h.lives, h'.state.trans h.state, h'.fd.trans h.fd, h'.ud.trans h.ud,
    h'.fnClose.trans h.fnClose⟩

theorem Undisturbed.request (r : Ref) (w : World) (fd : Nat) (ud : VPtr) (enable : Bool) :
    Undisturbed r w (w.copollRequestWrite fd ud enable) := by
  constructor <;> simp only [copollRequestWrite_lives, copollRequestWrite_objs]

theorem Queued.undisturbed (h : Queued r w w') : Undisturbed r w w' := by
  obtain ⟨_, _, objs⟩ := h.objs
  constructor
  · rw [h.lives]
  all_goals
    rw [objs, Function.update_self]
    rfl

theorem queueSendbuf_queued {data : List UInt8} (ran : queueSendbuf r data w = .ret () w') :
    Queued r w w' := by
  unfold queueSendbuf Prog.attempt at ran
  simp only at ran
  split at ran
  · next done =>
    cases ran
    split at done
    · cases done
    · split at done
      · cases done
      · cases done
        refine ⟨⟨_, (w.objs r).sendlist, rfl⟩, ⟨[.sent r (w.lives r) data none], rfl, ?_⟩, rfl, rfl,
          rfl, rfl, rfl, rfl, rfl⟩
        intro e he
        rw [List.mem_singleton.mp he]
        exact ⟨trivial, rfl, rfl⟩
  · cases ran

theorem queueSendlist_queued {addr : Addr} {data : List UInt8}
    (ran : queueSendlist r addr data w = .ret () w') : Queued r w w' := by
  unfold queueSendlist Prog.attempt at ran
  simp only at ran
  split at ran
  · next done =>
    cases ran
    split at done
    · cases done
    · cases done
      refine ⟨⟨(w.objs r).sendbuf, _, rfl⟩, ⟨[.sent r (w.lives r) data (some addr)], rfl, ?_⟩, rfl,
        rfl, rfl, rfl, rfl, rfl, rfl⟩
      intro e he
      rw [List.mem_singleton.mp he]
      exact ⟨trivial, rfl, rfl⟩
  · cases ran

theorem Sends.queued {queue : Io Unit} (h : Sends o r queue) (ran : queue w = .ret () w') :
    Queued r w w' := by
  cases h with
  | tcp => exact queueSendbuf_queued ran
  | udp => exact queueSendlist_queued ran
  | fd => exact queueSendbuf_queued ran

theorem flushSendbuf_queued {out : Flush} (ran : flushSendbuf r w = .ret out w') :
    Queued r w w' := by
  unfold flushSendbuf Prog.attempt at ran
  simp only at ran
  split at ran
  · next done =>
    cases ran
    split at done
    · cases done
      refine ⟨⟨(w.objs r).sendbuf, (w.objs r).sendlist, Function.update_eq_self _ _ |>.symm⟩,
        ⟨[], rfl, ?_⟩, rfl, rfl, rfl, rfl, rfl, rfl, rfl⟩
      intro e he
      cases he
    · split at done
      · cases done
      · next flushed _ =>
        cases done
        refine ⟨⟨some flushed.rb, (w.objs r).sendlist, rfl⟩,
          ⟨[.wrote r (w.lives r) flushed.accepted none], rfl, ?_⟩, rfl, rfl, rfl, rfl, rfl, rfl, rfl⟩
        intro e he
        rw [List.mem_singleton.mp he]
        exact ⟨trivial, rfl, rfl⟩
  · cases ran

theorem flushSendlist_queued {out : Flush} (ran : flushSendlist r w = .ret out w') :
    Queued r w w' := by
  unfold flushSendlist Prog.attempt at ran
  simp only at ran
  split at ran
  · next done =>
    cases ran
    split at done
    · cases done
    · cases done
      refine ⟨⟨(w.objs r).sendbuf, _, rfl⟩, ⟨_, rfl, ?_⟩, rfl, rfl, rfl, rfl, rfl, rfl, rfl⟩
      intro e he
      obtain ⟨p, -, rfl⟩ := List.mem_map.mp (List.mem_reverse.mp he)
      exact ⟨trivial, rfl, rfl⟩
  · cases ran

theorem flushOf_queued {out : Flush} (ran : flushOf r.kind r w = .ret out w') : Queued r w w' := by
  cases hk : r.kind with
  | udp =>
      rw [hk] at ran
      exact flushSendlist_queued ran
  | tcp =>
      rw [hk] at ran
      exact flushSendbuf_queued ran
  | fd =>
      rw [hk] at ran
      exact flushSendbuf_queued ran

/-- A transmission changes the queue first, and then at most what is asked of the
poller. -/
theorem Transmits.queued (h : Transmits o r w w') : ∃ w₁, Queued r w w₁ ∧
    (w' = w₁ ∨ ∃ enable, w' = w₁.copollRequestWrite (w.objs r).fd (ownerOf r (w.objs r)) enable) := by
  cases h with
  | sent asked queued => exact ⟨_, asked.queued queued, Or.inr ⟨true, rfl⟩⟩
  | waits _ _ ran _ => exact ⟨_, flushOf_queued ran, Or.inl rfl⟩
  | drained _ _ ran _ => exact ⟨_, flushOf_queued ran, Or.inr ⟨false, rfl⟩⟩

theorem Sends.live {queue : Io Unit} (h : Sends o r queue) :
    (o.world.objs r).state ≠ Cotcp.invalid := by
  cases h with
  | tcp _ _ ready _ => rw [ready]; decide
  | udp _ _ ready _ => rw [ready]; decide
  | fd _ _ ready _ => rw [ready]; decide

/-- An accepted send leaves the object as it is, but for its queue. -/
theorem Sends.undisturbed {queue : Io Unit} (h : Sends o r queue) (ran : queue w = .ret () w')
    (fd : Nat) (ud : VPtr) (enable : Bool) :
    Undisturbed r w (w'.copollRequestWrite fd ud enable) :=
  (h.queued ran).undisturbed.trans (Undisturbed.request r w' fd ud enable)

/-- A queue that is sent outside a writable event belongs to an open object. -/
theorem Flushes.event_of_closing (h : Flushes o r w)
    (closing : some (w.objs r).state = closingOf r.kind) : Running o .write r w := by
  cases h with
  | event running => exact running
  | send asked queued here =>
      rw [here, (asked.undisturbed queued _ _ _).state] at closing
      cases asked with
      | tcp _ kind ready _ =>
          rw [kind, ready] at closing
          cases closing
      | udp _ kind ready _ =>
          rw [kind, ready] at closing
          cases closing
      | fd _ kind ready _ =>
          rw [kind, ready] at closing
          cases closing
  | close asked here =>
      have isOpen := asked.open'
      rw [here] at closing
      rcases asked.asked with ⟨-, kind⟩ | ⟨-, kind⟩
      · rw [kind] at closing isOpen
        simp [isOpenOf, cotcpIsOpen, Option.some.inj closing] at isOpen
      · rw [kind] at closing isOpen
        simp [isOpenOf, coudpIsOpen, Option.some.inj closing] at isOpen

theorem Transmits.live (h : Transmits o r w w') : (w.objs r).state ≠ Cotcp.invalid := by
  cases h with
  | sent asked _ => exact asked.live
  | waits _ live _ _ => exact live
  | drained _ live _ _ => exact live

end Queues

/-! ## Free slots and the record -/

section Sound
variable {w w' : World} {o : Origin}

theorem Sound.sameObjs (h : Sound w) (objs : w'.objs = w.objs) (lives : w'.lives = w.lives)
    (log : w'.log = w.log) : Sound w' := by
  constructor
  · rw [objs]
    exact h.dead
  · rw [log, lives]
    exact h.past

theorem Sound.change (h : Sound w) (r : Ref) (obj : Coio)
    (empty : obj.state = Cotcp.invalid → obj = blank) : Sound (w.setObj r obj) := by
  constructor
  · intro s free
    by_cases same : s = r
    · rw [same, setObj_self] at free ⊢
      exact empty free
    · rw [setObj_other w obj same] at free ⊢
      exact h.dead s free
  · exact h.past

theorem Sound.note (h : Sound w) {e : Event} (now : eventLife e ≤ w.lives (eventRef e)) :
    Sound (w.note e) := by
  constructor
  · exact h.dead
  · intro e' he'
    cases he' with
    | head => exact now
    | tail _ hmem => exact h.past e' hmem

theorem Sound.reserve (h : Sound w) (r : Ref) : Sound (reserved w r) := by
  constructor
  · exact (h.change r _ fun _ => rfl).dead
  · intro e he
    have before := h.past e he
    by_cases same : eventRef e = r
    · rw [same] at before ⊢
      simp only [reserved, Function.update_self]
      omega
    · simp only [reserved, Function.update_of_ne same]
      exact before

theorem Sound.unused (h : Sound w) (r : Ref) : Unused (reserved w r) r := by
  intro e he same
  have before := h.past e he
  rw [same] at before
  simp only [reserved, Function.update_self]
  omega

theorem Sound.finish (h : Sound w) (r : Ref) (cause : Cause) (begun : Nat) :
    Sound (finished w r cause begun) := by
  obtain ⟨errno, same⟩ := finished_eq w r cause begun
  have noted : Sound (w.note (.ended r (w.lives r) cause begun (w.objs r).fnClose.isSome)) :=
    h.note (Nat.le_refl _)
  rw [same]
  exact (noted.change r _ fun _ => rfl).sameObjs rfl rfl rfl

theorem Sound.receive (h : Sound w) {r : Ref} (live : (w.objs r).state ≠ Cotcp.invalid)
    (errno : Nat) (rest : List Answer) : Sound (received w r errno rest) := by
  have held := h.change r (ensured (w.objs r))
    fun free => absurd (ensured_state _ ▸ free) live
  exact (held.note (e := .read r (w.lives r) (ensured (w.objs r)).recvsize)
    (Nat.le_refl _)).sameObjs rfl rfl rfl

theorem Sound.grow (h : Sound w) (r : Ref) (n : Nat) : Sound (growRecvbuf w r n) := by
  cases growRecvbuf_eq w r n with
  | inl same => rwa [same]
  | inr grown =>
      obtain ⟨live, -, _, _, same⟩ := grown
      rw [same]
      exact h.change r _ fun free => absurd free live

theorem Sound.install (h : Sound w) (r : Ref) {obj : Coio} (shape : Installed obj) :
    Sound (installed w r obj) := by
  obtain ⟨fd, ud, state, fnc, fne, rfl, live⟩ := shape
  obtain ⟨_, _, same⟩ := copollAdd_eq (w.setObj r _) fd (.obj r)
  unfold installed
  rw [same]
  exact (h.change r _ fun free => absurd free live).sameObjs rfl rfl rfl

theorem Queued.sound {r : Ref} (h : Queued r w w') (live : (w.objs r).state ≠ Cotcp.invalid)
    (sound : Sound w) : Sound w' := by
  obtain ⟨sendbuf, sendlist, objs⟩ := h.objs
  obtain ⟨events, log, about⟩ := h.log
  have held := sound.change r (withQueue (w.objs r) sendbuf sendlist)
    fun free => absurd free live
  constructor
  · rw [objs]
    exact held.dead
  · rw [log, h.lives]
    intro e he
    rcases List.mem_append.mp he with new | old
    · rw [(about e new).2.1]
      exact Nat.le_of_eq (about e new).2.2
    · exact sound.past e old

theorem isOpenOf_live (kind : Kind) {obj : Coio} (isOpen : isOpenOf kind obj) :
    obj.state ≠ Cotcp.invalid := by
  intro invalid
  cases kind <;> simp [isOpenOf, cotcpIsOpen, coudpIsOpen, cofdIsBound, invalid] at isOpen

theorem closingOf_live (kind : Kind) : closingOf kind ≠ some Cotcp.invalid := by
  cases kind <;> decide

theorem Closing.live {r : Ref} {force : Bool} (h : Closing o r force w) :
    (w.objs r).state ≠ Cotcp.invalid := by
  rw [h.same.state]
  exact isOpenOf_live _ h.open'

theorem Adjusts.adjusted {r : Ref} {obj : Coio} (h : Adjusts o r w obj) :
    Adjusted (w.objs r) obj := by
  cases h with
  | register live => exact ⟨live, live, rfl, rfl, rfl, rfl⟩
  | established kind connecting =>
      exact ⟨by rw [connecting]; decide, Nat.succ_ne_zero 3, rfl, rfl, rfl, rfl⟩
  | closing asked queued waits =>
      refine ⟨asked.live, ?_, rfl, rfl, rfl, rfl⟩
      rintro rfl
      exact closingOf_live _ waits

theorem Received.live {r : Ref} {result : ReadResult} (h : Received o r result w) :
    (w.objs r).state ≠ Cotcp.invalid := by
  obtain ⟨-, live, -⟩ := h
  unfold received answered
  rw [note_objs, setObj_self, ensured_state]
  exact live

theorem Finishing.live {r : Ref} {cause : Cause} (h : Finishing o r w cause) :
    (w.objs r).state ≠ Cotcp.invalid := by
  cases h with
  | error live _ => exact live
  | eof got _ => exact got.live
  | requested asked _ _ => exact asked.live
  | unbound _ _ bound => rw [bound]; decide
  | drained _ _ closing =>
      intro invalid
      rw [invalid] at closing
      exact closingOf_live _ closing.symm

/-- A change concerns one slot at most: one in use, or the one that is taken. -/
theorem Change.objs (h : Change o w w') : w'.objs = w.objs ∨ ∃ r obj,
    w'.objs = Function.update w.objs r obj ∧
      ((w.objs r).state ≠ Cotcp.invalid ∨ obj = blank ∨ o.slot = some r) := by
  cases h with
  | kernel same => exact Or.inl same.objs
  | reserve next free => exact Or.inr ⟨_, blank, rfl, Or.inr (Or.inl rfl)⟩
  | install next => exact Or.inr ⟨_, _, copollAdd_objs _ _ _, Or.inr (Or.inr next)⟩
  | bind next => exact Or.inr ⟨_, _, copollAdd_objs _ _ _, Or.inr (Or.inr next)⟩
  | await => exact Or.inl (copollRequestWrite_objs w _ _ _)
  | adjust adjusts => exact Or.inr ⟨_, _, rfl, Or.inl adjusts.adjusted.live⟩
  | @transmit r _ _ transmits =>
      obtain ⟨w₁, queued, asks⟩ := transmits.queued
      obtain ⟨sendbuf, sendlist, objs⟩ := queued.objs
      refine Or.inr ⟨r, withQueue (w.objs r) sendbuf sendlist, ?_, Or.inl transmits.live⟩
      rcases asks with rfl | ⟨enable, rfl⟩
      · exact objs
      · exact (copollRequestWrite_objs w₁ _ _ enable).trans objs
  | receive running live read => exact Or.inr ⟨_, _, rfl, Or.inl live⟩
  | unseen got =>
      rcases growRecvbuf_eq w _ _ with same | ⟨live, -, _, _, same⟩
      · exact Or.inl (congrArg World.objs same)
      · exact Or.inr ⟨_, _, congrArg World.objs same, Or.inl live⟩
  | finish finishing => exact Or.inr ⟨_, blank, finished_objs _ _ _ _, Or.inr (Or.inl rfl)⟩
  | bump | churn | collect | pop | schedule | handle => exact Or.inl rfl

theorem installed_rest (w : World) (r : Ref) (obj : Coio) :
    (installed w r obj).lives = w.lives ∧ (installed w r obj).log = w.log ∧
      (installed w r obj).batch = w.batch ∧ (installed w r obj).tasks = w.tasks := by
  obtain ⟨_, _, same⟩ := copollAdd_eq (w.setObj r obj) obj.fd (.obj r)
  rw [installed, same]
  exact ⟨rfl, rfl, rfl, rfl⟩

/-- Uses of a slot are counted where it is taken. -/
theorem Change.lives (h : Change o w w') : w'.lives = w.lives ∨
    ∃ r, o.slot = some r ∧ w'.lives = Function.update w.lives r (w.lives r + 1) := by
  cases h with
  | kernel same => exact Or.inl same.lives
  | reserve next free => exact Or.inr ⟨_, next, rfl⟩
  | install | bind => exact Or.inl (installed_rest _ _ _).1
  | await => exact Or.inl (copollRequestWrite_lives w _ _ _)
  | transmit transmits =>
      obtain ⟨w₁, queued, asks⟩ := transmits.queued
      rcases asks with rfl | ⟨enable, rfl⟩
      · exact Or.inl queued.lives
      · exact Or.inl ((copollRequestWrite_lives w₁ _ _ enable).trans queued.lives)
  | unseen => exact Or.inl (growRecvbuf_lives w _ _)
  | finish => exact Or.inl (finished_lives w _ _ _)
  | bump | churn | adjust | receive | collect | pop | schedule | handle => exact Or.inl rfl

/-- What a change adds to the record. -/
inductive Logged (o : Origin) (w : World) : Event → Prop
  | queue {r e} (about : OnQueue e) (ref : eventRef e = r) (life : eventLife e = w.lives r)
      (live : (w.objs r).state ≠ Cotcp.invalid) : Logged o w e
  | read {r} (running : Running o .read r w) (live : (w.objs r).state ≠ Cotcp.invalid) :
      Logged o w (.read r (w.lives r) (ensured (w.objs r)).recvsize)
  | ended {r cause} (finishing : Finishing o r w cause) :
      Logged o w (.ended r (w.lives r) cause (w.lives r) (w.objs r).fnClose.isSome)

theorem Change.log (h : Change o w w') : ∃ news, w'.log = news ++ w.log ∧
    ∀ e ∈ news, Logged o w e := by
  have silent : ∀ {log : List Event}, log = w.log → ∃ news, log = news ++ w.log ∧
      ∀ e ∈ news, Logged o w e := fun same => ⟨[], same, fun e he => by cases he⟩
  cases h with
  | kernel same => exact silent same.log
  | install | bind => exact silent (installed_rest _ _ _).2.1
  | @await _ r =>
      obtain ⟨_, _, same⟩ := copollRequestWrite_eq w (w.objs r).fd (.obj r) true
      rw [same]
      exact silent rfl
  | transmit transmits =>
      obtain ⟨w₁, queued, asks⟩ := transmits.queued
      obtain ⟨news, log, about⟩ := queued.log
      refine ⟨news, ?_, fun e he => ?_⟩
      · rcases asks with rfl | ⟨enable, rfl⟩
        · exact log
        · obtain ⟨_, _, same⟩ := copollRequestWrite_eq w₁ _ _ enable
          rw [same]
          exact log
      · obtain ⟨kind, ref, life⟩ := about e he
        exact .queue kind ref life transmits.live
  | receive running live read =>
      refine ⟨[_], rfl, fun e he => ?_⟩
      rw [List.mem_singleton.mp he]
      exact .read running live
  | unseen => exact silent (growRecvbuf_log w _ _)
  | finish finishing =>
      refine ⟨[_], finished_log w _ _ _, fun e he => ?_⟩
      rw [List.mem_singleton.mp he]
      exact .ended finishing
  | bump | churn | reserve | adjust | collect | pop | schedule | handle => exact silent rfl

/-- Work is taken off the batch and the handlers to be called, or an event gives way to
its handlers. -/
theorem Change.work (h : Change o w w') : (w'.batch = w.batch ∧ w'.tasks = w.tasks) ∨
    (∃ events, o.action = .wait events ∧ copollCollect o.world events = .ok w'.batch ∧
      w'.tasks = o.world.tasks) ∨
    (∃ ev, o.world.batch = ev :: w'.batch ∧ (w'.tasks = o.world.tasks ∨
      ∃ r, ev.ud = .obj r ∧ w'.tasks = eventTasks ev r)) ∨
    ∃ task, o.world.tasks = task :: w'.tasks ∧ w'.batch = o.world.batch := by
  cases h with
  | kernel same => exact Or.inl ⟨same.batch, same.tasks⟩
  | install | bind => exact Or.inl (installed_rest _ _ _).2.2
  | @await _ r =>
      obtain ⟨_, _, same⟩ := copollRequestWrite_eq w (w.objs r).fd (.obj r) true
      rw [same]
      exact Or.inl ⟨rfl, rfl⟩
  | transmit transmits =>
      obtain ⟨w₁, queued, asks⟩ := transmits.queued
      left
      rcases asks with rfl | ⟨enable, rfl⟩
      · exact ⟨queued.batch, queued.tasks⟩
      · obtain ⟨_, _, same⟩ := copollRequestWrite_eq w₁ _ _ enable
        rw [same]
        exact ⟨queued.batch, queued.tasks⟩
  | unseen => exact Or.inl (growRecvbuf_work w _ _)
  | @finish _ r cause =>
      obtain ⟨_, same⟩ := finished_eq w r cause (w.lives r)
      rw [same]
      exact Or.inl ⟨rfl, rfl⟩
  | collect asked found => exact Or.inr (Or.inl ⟨_, asked, found, rfl⟩)
  | pop asked next => exact Or.inr (Or.inr (Or.inl ⟨_, next, Or.inl rfl⟩))
  | schedule asked next named live =>
      exact Or.inr (Or.inr (Or.inl ⟨_, next, Or.inr ⟨_, named, rfl⟩⟩))
  | handle asked next => exact Or.inr (Or.inr (Or.inr ⟨_, next, rfl⟩))
  | bump | churn | reserve | adjust | receive => exact Or.inl ⟨rfl, rfl⟩

theorem Change.sound (h : Change o w w') (sound : Sound w) : Sound w' := by
  cases h with
  | kernel same => exact sound.sameObjs same.objs same.lives same.log
  | bump kind => exact sound.sameObjs rfl rfl rfl
  | churn shut => exact sound.sameObjs rfl rfl rfl
  | reserve next free => exact sound.reserve _
  | install next empty unused shape socket shut =>
      have taken : ∀ fd, Sound (opened w fd) := fun fd => sound.sameObjs rfl rfl rfl
      exact (taken _).install _ shape
  | bind next empty unused shape kind asked => exact sound.install _ shape
  | await next kind connecting =>
      obtain ⟨_, _, same⟩ := copollRequestWrite_eq w _ _ _
      rw [same]
      exact sound.sameObjs rfl rfl rfl
  | adjust adjusts => exact sound.change _ _ fun free => absurd free adjusts.adjusted.live'
  | transmit transmits =>
      obtain ⟨w₁, queued, asks⟩ := transmits.queued
      have held := queued.sound transmits.live sound
      rcases asks with rfl | ⟨enable, rfl⟩
      · exact held
      · obtain ⟨_, _, same⟩ := copollRequestWrite_eq w₁ _ _ enable
        rw [same]
        exact held.sameObjs rfl rfl rfl
  | receive running live read => exact sound.receive live _ _
  | unseen got nonempty shown unset => exact sound.grow _ _
  | finish finishing => exact sound.finish _ _ _
  | collect => exact sound.sameObjs rfl rfl rfl
  | pop => exact sound.sameObjs rfl rfl rfl
  | schedule => exact sound.sameObjs rfl rfl rfl
  | handle => exact sound.sameObjs rfl rfl rfl

theorem Reaches.sound (h : Reaches o w) (sound : Sound o.world) : Sound w := by
  induction h with
  | refl => exact sound
  | tail _ last ih => exact last.sound ih

theorem Enters.sound {c : Callback} (h : Enters o c w) (sound : Sound o.world) : Sound w := by
  obtain ⟨reached, now, due⟩ := h
  exact (reached.sound sound).note (Nat.le_of_eq now)

theorem Resumed.sound {c : Callback} (h : Resumed c w w') (sound : Sound w) : Sound w' := by
  cases h with
  | connect => exact sound
  | recv => exact sound.grow _ _
  | error => exact sound.finish _ _ _
  | close => exact sound.finish _ _ _
  | gone => exact sound

/-- What follows a callback takes no slot. -/
theorem Resumed.free {c : Callback} {s : Ref} (h : Resumed c w w')
    (free : (w.objs s).state = Cotcp.invalid) : (w'.objs s).state = Cotcp.invalid := by
  have ended : ∀ cause, ((finished w c.ref cause c.life).objs s).state = Cotcp.invalid := by
    intro cause
    rw [finished_objs]
    by_cases same : s = c.ref
    · rw [same, Function.update_self]
      rfl
    · rw [Function.update_of_ne same]
      exact free
  cases h with
  | connect => exact free
  | @recv data _ _ =>
      rcases growRecvbuf_eq w c.ref data.length with same | ⟨live, -, _, _, same⟩
      · rw [same]
        exact free
      · have other : s ≠ c.ref := by
          rintro rfl
          exact live free
        rw [same, setObj_other w _ other]
        exact free
  | error => exact ended _
  | close => exact ended _
  | gone => exact free

theorem Sound.initially (zeroBlock : Bool) : Sound (coiosNew zeroBlock) := by
  constructor
  · exact fun _ _ => rfl
  · intro e he
    cases he

end Sound

end Colinlib.Source.IoChanges
