import Colinlib.Source.EventLoop
import Colinlib.Source.Poll
import Colinlib.Theory.Runs

/-!
# Two pollers behind one interface

The registrations that the I/O service works with are held by either kernel, in one entry or
in two. A request is granted or refused as a whole, and as long as both kernels grant what
their manuals allow, they hold the same.
-/
namespace Colinlib.Guarantees.PollerBackends
open Colinlib.Theory Colinlib.Theory.CMemory Colinlib.Theory.Runs
open Colinlib.Source.IoWorld Colinlib.Source.EventLoop Colinlib.Source.Poll

/-- `closed` is what becomes of the entries of a descriptor that is closed. -/
inductive Request where
  | add (fd : Nat) (ud : VPtr)
  | requestWrite (fd : Nat) (ud : VPtr) (enable : Bool)
  | del (fd : Nat)
  | closed (fd : Nat)
  deriving DecidableEq, Repr

/-- The request in the model of the I/O service. -/
def ask (w : World) : Request → World
  | .add fd ud => w.copollAdd fd ud
  | .requestWrite fd ud enable => w.copollRequestWrite fd ud enable
  | .del fd => w.copollDel fd
  | .closed fd => w.close fd

/-- A poller, and what it has to hold for a table of registrations. A request that returns 0
was granted. -/
structure Poller (P : Type) where
  serve : P → Request → Int × P
  Shows : P → (Nat → Option Registration) → Prop
  /-- The requests that the poller takes. -/
  Proper : World → Request → Prop
  decidable : ∀ w r, Decidable (Proper w r)
  /-- There is a kernel behind it that grants what its manual allows. -/
  Granting : P → Prop
  /-- A refused request has changed nothing, and is refused for a reason the I/O service has
  as well unless the kernel is not granting. -/
  whole : ∀ {p w} r, Shows p w.poll → Proper w r →
    ((serve p r).1 = -1 ∧ Shows (serve p r).2 w.poll ∧
        (Granting p → (ask w r).poll = w.poll)) ∨
      ((serve p r).1 = 0 ∧ Shows (serve p r).2 (ask w r).poll)
  granting : ∀ {p} r, Granting p → Granting (serve p r).2

instance {P : Type} (poller : Poller P) (w : World) (r : Request) :
    Decidable (poller.Proper w r) := poller.decidable w r

section Tables

variable {w : World} {fd : Nat} {ud : VPtr} {reg : Registration}

theorem ask_add_new (free : w.poll fd = none) :
    (ask w (.add fd ud)).poll = Function.update w.poll fd (some ⟨ud, false⟩) := by
  simp [ask, World.copollAdd, free]

theorem ask_add_used (used : w.poll fd = some reg) : (ask w (.add fd ud)).poll = w.poll := by
  simp [ask, World.copollAdd, used, World.setErrno]

theorem ask_write_used (used : w.poll fd = some reg) (enable : Bool) :
    (ask w (.requestWrite fd ud enable)).poll = Function.update w.poll fd (some ⟨ud, enable⟩) := by
  simp [ask, World.copollRequestWrite, used]

theorem ask_write_free (free : w.poll fd = none) (enable : Bool) :
    (ask w (.requestWrite fd ud enable)).poll = w.poll := by
  simp [ask, World.copollRequestWrite, free, World.setErrno]

theorem ask_del (w : World) (fd : Nat) :
    (ask w (.del fd)).poll = Function.update w.poll fd none := by
  simp only [ask, World.copollDel]
  split
  · rfl
  · next free => rw [World.setErrno, ← free, Function.update_eq_self]

end Tables

section Linux

/-- The entry of a registration: reading is always asked for. -/
def entry (reg : Registration) : EpollEvent :=
  ⟨epollin ||| (if reg.write then epollout else 0), reg.ud⟩

def EpollShows (ep : Epoll) (t : Nat → Option Registration) : Prop :=
  ep.table = fun fd => (t fd).map entry

def epollServe (ep : Epoll) : Request → Int × Epoll
  | .add fd ud => ep.copollAdd fd ud
  | .requestWrite fd ud enable => ep.copollRequestWrite fd ud enable
  | .del fd => ep.copollDel fd
  | .closed fd => (0, ep.closed fd)

variable {ep : Epoll} {t : Nat → Option Registration}

theorem epoll_put (shows' : EpollShows ep t) (fd : Nat) (reg : Option Registration) :
    EpollShows (ep.put fd (reg.map entry)) (Function.update t fd reg) := by
  funext x
  by_cases same : x = fd
  · subst same
    simp [Epoll.put]
  · simp [Epoll.put, Function.update_of_ne same, congrFun shows' x]

theorem epoll_change (shows' : EpollShows ep t) (fd : Nat) (reg : Registration) :
    ((ep.change fd (entry reg)).1 = -1 ∧ EpollShows (ep.change fd (entry reg)).2 t ∧
        ep.refusals ≠ []) ∨
      ((ep.change fd (entry reg)).1 = 0 ∧
        EpollShows (ep.change fd (entry reg)).2 (Function.update t fd (some reg))) := by
  unfold Epoll.change
  split
  · next refused => exact .inl ⟨rfl, shows', by simp [refused]⟩
  · next rest _ =>
    have shown : EpollShows { ep with refusals := rest } t := shows'
    exact .inr ⟨rfl, epoll_put shown fd (some reg)⟩
  · exact .inr ⟨rfl, epoll_put shows' fd (some reg)⟩

theorem epoll_whole {w : World} (r : Request) (shows' : EpollShows ep w.poll) :
    ((epollServe ep r).1 = -1 ∧ EpollShows (epollServe ep r).2 w.poll ∧
        (ep.refusals = [] → (ask w r).poll = w.poll)) ∨
      ((epollServe ep r).1 = 0 ∧ EpollShows (epollServe ep r).2 (ask w r).poll) := by
  have found : ∀ fd, ep.table fd = (w.poll fd).map entry := congrFun shows'
  cases r with
  | add fd ud =>
      cases used : w.poll fd with
      | none =>
          have ctl : epollServe ep (.add fd ud) = ep.change fd (entry ⟨ud, false⟩) := by
            simp [epollServe, Epoll.copollAdd, Epoll.ctl, found fd, used, entry]
          rw [ctl, ask_add_new used]
          rcases epoll_change shows' fd ⟨ud, false⟩ with ⟨ret, same, refusing⟩ | granted
          · exact .inl ⟨ret, same, fun none => absurd none refusing⟩
          · exact .inr granted
      | some reg =>
          have ctl : epollServe ep (.add fd ud) = (-1, ep) := by
            simp [epollServe, Epoll.copollAdd, Epoll.ctl, found fd, used]
          rw [ctl]
          exact .inl ⟨rfl, shows', fun _ => ask_add_used used⟩
  | requestWrite fd ud enable =>
      cases used : w.poll fd with
      | none =>
          have ctl : epollServe ep (.requestWrite fd ud enable) = (-1, ep) := by
            simp [epollServe, Epoll.copollRequestWrite, Epoll.ctl, found fd, used]
          rw [ctl]
          exact .inl ⟨rfl, shows', fun _ => ask_write_free used enable⟩
      | some reg =>
          have ctl : epollServe ep (.requestWrite fd ud enable) =
              ep.change fd (entry ⟨ud, enable⟩) := by
            simp [epollServe, Epoll.copollRequestWrite, Epoll.ctl, found fd, used, entry]
          rw [ctl, ask_write_used used]
          rcases epoll_change shows' fd ⟨ud, enable⟩ with ⟨ret, same, refusing⟩ | granted
          · exact .inl ⟨ret, same, fun none => absurd none refusing⟩
          · exact .inr granted
  | del fd =>
      rw [ask_del]
      cases used : w.poll fd with
      | none =>
          have ctl : epollServe ep (.del fd) = (-1, ep) := by
            simp [epollServe, Epoll.copollDel, Epoll.ctl, found fd, used]
          rw [ctl, ← used, Function.update_eq_self]
          exact .inl ⟨rfl, shows', fun _ => rfl⟩
      | some reg =>
          have ctl : epollServe ep (.del fd) = (0, ep.put fd none) := by
            simp [epollServe, Epoll.copollDel, Epoll.ctl, found fd, used]
          rw [ctl]
          exact .inr ⟨rfl, epoll_put shows' fd none⟩
  | closed fd => exact .inr ⟨rfl, epoll_put shows' fd none⟩

theorem epoll_granting (r : Request) (granting : ep.refusals = []) :
    (epollServe ep r).2.refusals = [] := by
  have ctl : ∀ op fd ev, (ep.ctl op fd ev).2.refusals = [] := by
    intro op fd ev
    unfold Epoll.ctl Epoll.change
    rw [granting]
    split <;> exact granting
  cases r with
  | add fd ud => exact ctl _ _ _
  | requestWrite fd ud enable => exact ctl _ _ _
  | del fd => exact ctl _ _ _
  | closed fd => exact granting

/-- Epoll takes every request. -/
def epoll : Poller Epoll where
  serve := epollServe
  Shows := EpollShows
  Proper _ _ := True
  decidable _ _ := inferInstance
  Granting ep := ep.refusals = []
  whole r shows' _ := epoll_whole r shows'
  granting r := epoll_granting r

end Linux

section Bsd

/-- The entries of a registration: the one for reading is always enabled. -/
def note : Filter → Registration → Knote
  | .read, reg => ⟨true, reg.ud⟩
  | .write, reg => ⟨reg.write, reg.ud⟩

def KqueueShows (kq : Kqueue) (t : Nat → Option Registration) : Prop :=
  kq.notes = fun fd filter => (t fd).map (note filter)

def kqueueServe (kq : Kqueue) : Request → Int × Kqueue
  | .add fd ud => kq.copollAdd fd ud
  | .requestWrite fd ud enable => kq.copollRequestWrite fd ud enable
  | .del fd => kq.copollDel fd
  | .closed fd => (0, kq.closed fd)

/-- A descriptor is added once, and write interest asked for with the pointer it was added
with. -/
def KqueueProper (w : World) : Request → Prop
  | .add fd _ => w.poll fd = none
  | .requestWrite fd ud _ => ∀ reg ∈ w.poll fd, reg.ud = ud
  | .del _ | .closed _ => True

instance (w : World) : (r : Request) → Decidable (KqueueProper w r)
  | .add fd _ => inferInstanceAs (Decidable (w.poll fd = none))
  | .requestWrite fd ud _ => inferInstanceAs (Decidable (∀ reg ∈ w.poll fd, reg.ud = ud))
  | .del _ | .closed _ => inferInstanceAs (Decidable True)

variable {kq : Kqueue} {t : Nat → Option Registration}

theorem kqueue_change (kq : Kqueue) (fd : Nat) (filter : Filter) (n : Knote) :
    (∃ rest, kq.refusals ≠ [] ∧ kq.change fd filter n = (-1, { kq with refusals := rest })) ∨
      ∃ rest, (kq.refusals = [] → rest = []) ∧
        kq.change fd filter n = (0, { kq with refusals := rest }.put fd filter (some n)) := by
  unfold Kqueue.change
  split
  · next rest refused => exact .inl ⟨rest, by simp [refused], rfl⟩
  · next rest tape => exact .inr ⟨rest, by simp [tape], rfl⟩
  · next granting => exact .inr ⟨[], fun _ => rfl, by rw [← granting]⟩

/-- The entries of one descriptor are those of a registration, and no other has changed. -/
theorem kqueue_update {kq' : Kqueue} (shows' : KqueueShows kq t) {fd : Nat}
    {reg : Option Registration}
    (notes : ∀ x filter,
      kq'.notes x filter = if x = fd then reg.map (note filter) else kq.notes x filter) :
    KqueueShows kq' (Function.update t fd reg) := by
  funext x filter
  rw [notes x filter]
  by_cases same : x = fd
  · subst same
    simp
  · rw [if_neg same, Function.update_of_ne same, congrFun (congrFun shows' x) filter]

theorem put_notes (kq : Kqueue) (fd : Nat) (filter : Filter) (n : Option Knote) (x : Nat)
    (f : Filter) : (kq.put fd filter n).notes x f =
      if x = fd then (if f = filter then n else kq.notes fd f) else kq.notes x f := by
  simp only [Kqueue.put, Function.update_apply]
  split
  · exact Function.update_apply _ _ _ _
  · rfl

theorem kevent_add (kq : Kqueue) (fd : Nat) (filter : Filter) (ud : VPtr) :
    kq.kevent fd filter .add ud = kq.change fd filter ⟨true, ud⟩ := rfl

theorem kevent_delete {fd : Nat} {filter : Filter} {n : Knote} (found : kq.notes fd filter = some n)
    (ud : VPtr) : kq.kevent fd filter .delete ud = (0, kq.put fd filter none) := by
  simp only [Kqueue.kevent, found]

/-- The pointer is the one the entry has, so nothing depends on whether it is replaced. -/
theorem kevent_switch {fd : Nat} {filter : Filter} {n : Knote} (found : kq.notes fd filter = some n)
    (enable : Bool) :
    kq.kevent fd filter (if enable then .enable else .disable) n.udata =
      kq.change fd filter ⟨enable, n.udata⟩ := by
  have touched : kq.touched n n.udata = n.udata := ite_self _
  cases enable <;> simp [Kqueue.kevent, found, touched]

theorem copollDel_eq {fd : Nat} {n n' : Knote} (read : kq.notes fd .read = some n)
    (write : kq.notes fd .write = some n') :
    kq.copollDel fd = (0, (kq.put fd .read none).put fd .write none) := by
  have write' : (kq.put fd .read none).notes fd .write = some n' := by
    rw [put_notes, if_pos rfl, if_neg nofun, write]
  simp only [Kqueue.copollDel, kevent_delete read, kevent_delete write']

/-- Three changes make an entry for each filter; where one of them is refused, those before it
are undone. -/
theorem copollAdd_cases {fd : Nat} (free : ∀ filter, kq.notes fd filter = none) (ud : VPtr) :
    (∃ kq', kq.copollAdd fd ud = (-1, kq') ∧ kq'.notes = kq.notes ∧ kq.refusals ≠ []) ∨
      ∃ kq', kq.copollAdd fd ud = (0, kq') ∧ (∀ x filter, kq'.notes x filter =
        if x = fd then some (note filter ⟨ud, false⟩) else kq.notes x filter) := by
  rcases kqueue_change kq fd .read ⟨true, ud⟩ with ⟨rest, refusing, ran⟩ | ⟨rest, tape, ran⟩
  · refine .inl ⟨{ kq with refusals := rest }, ?_, rfl, refusing⟩
    simp only [Kqueue.copollAdd, kevent_add, ran, if_true]
  · -- the entry for reading is there
    generalize first : ({ kq with refusals := rest }.put fd .read (some ⟨true, ud⟩)) = kq₁ at ran
    have later₁ : kq₁.refusals ≠ [] → kq.refusals ≠ [] := by
      rw [← first]
      exact fun refusing none => refusing (tape none)
    have notes₁ : ∀ x f, kq₁.notes x f =
        if x = fd then (if f = .read then some ⟨true, ud⟩ else none) else kq.notes x f := by
      intro x f
      rw [← first, put_notes]
      simp only [free]
    rcases kqueue_change kq₁ fd .write ⟨true, ud⟩ with ⟨rest, refusing, ran₁⟩ | ⟨rest, tape, ran₁⟩
    · have read : ({ kq₁ with refusals := rest } : Kqueue).notes fd .read = some ⟨true, ud⟩ := by
        rw [notes₁, if_pos rfl, if_pos rfl]
      refine .inl ⟨{ kq₁ with refusals := rest }.put fd .read none, ?_, ?_, later₁ refusing⟩
      · simp only [Kqueue.copollAdd, kevent_add, ran, ran₁, kevent_delete read, if_true]
        rfl
      · funext x f
        by_cases same : x = fd
        · cases f <;> simp [put_notes, notes₁, same, free]
        · simp [put_notes, notes₁, same]
    · -- and the one for writing, enabled
      generalize second :
        ({ kq₁ with refusals := rest }.put fd .write (some ⟨true, ud⟩)) = kq₂ at ran₁
      have later₂ : kq₂.refusals ≠ [] → kq.refusals ≠ [] := by
        rw [← second]
        exact fun refusing => later₁ fun none => refusing (tape none)
      have notes₂ : ∀ x f, kq₂.notes x f = if x = fd then some ⟨true, ud⟩ else kq.notes x f := by
        intro x f
        rw [← second, put_notes]
        by_cases same : x = fd
        · cases f <;> simp [notes₁, same]
        · simp [notes₁, same]
      have write : kq₂.notes fd .write = some ⟨true, ud⟩ := by rw [notes₂, if_pos rfl]
      have off : kq₂.kevent fd .write .disable ud = kq₂.change fd .write ⟨false, ud⟩ :=
        kevent_switch write false
      rcases kqueue_change kq₂ fd .write ⟨false, ud⟩ with
        ⟨rest, refusing, ran₂⟩ | ⟨rest, tape, ran₂⟩
      · have entries : ∀ f, ({ kq₂ with refusals := rest } : Kqueue).notes fd f = some ⟨true, ud⟩ :=
          fun f => by rw [notes₂, if_pos rfl]
        refine .inl ⟨({ kq₂ with refusals := rest }.put fd .read none).put fd .write none, ?_, ?_,
          later₂ refusing⟩
        · rw [ran₂] at off
          simp only [Kqueue.copollAdd, kevent_add, ran, ran₁, off, copollDel_eq (entries .read)
            (entries .write)]
          rfl
        · funext x f
          by_cases same : x = fd
          · cases f <;> simp [put_notes, same, free]
          · simp [put_notes, notes₂, same]
      · refine .inr ⟨{ kq₂ with refusals := rest }.put fd .write (some ⟨false, ud⟩), ?_, ?_⟩
        · rw [ran₂] at off
          simp only [Kqueue.copollAdd, kevent_add, ran, ran₁, off]
          rfl
        · intro x f
          rw [put_notes]
          by_cases same : x = fd
          · cases f <;> simp [notes₂, same, note]
          · simp [notes₂, same]

theorem kqueue_whole {w : World} (r : Request) (shows' : KqueueShows kq w.poll)
    (proper : KqueueProper w r) :
    ((kqueueServe kq r).1 = -1 ∧ KqueueShows (kqueueServe kq r).2 w.poll ∧
        (kq.refusals = [] → (ask w r).poll = w.poll)) ∨
      ((kqueueServe kq r).1 = 0 ∧ KqueueShows (kqueueServe kq r).2 (ask w r).poll) := by
  have found : ∀ fd filter, kq.notes fd filter = (w.poll fd).map (note filter) := fun fd =>
    congrFun (congrFun shows' fd)
  cases r with
  | add fd ud =>
      have free : ∀ filter, kq.notes fd filter = none := by
        intro filter
        rw [found, show w.poll fd = none from proper]
        rfl
      rw [ask_add_new proper]
      rcases copollAdd_cases free ud with ⟨kq', ran, same, refusing⟩ | ⟨kq', ran, notes⟩
      · refine .inl ?_
        rw [kqueueServe, ran]
        exact ⟨rfl, same.trans shows', fun none => absurd none refusing⟩
      · refine .inr ?_
        rw [kqueueServe, ran]
        exact ⟨rfl, kqueue_update shows' notes⟩
  | requestWrite fd ud enable =>
      cases used : w.poll fd with
      | none =>
          have absent : kq.notes fd .write = none := by rw [found, used]; rfl
          have ran : kqueueServe kq (.requestWrite fd ud enable) = (-1, kq) := by
            cases enable <;> simp [kqueueServe, Kqueue.copollRequestWrite, Kqueue.kevent, absent]
          rw [ran]
          exact .inl ⟨rfl, shows', fun _ => ask_write_free used enable⟩
      | some reg =>
          obtain rfl : reg.ud = ud := proper reg used
          have there : kq.notes fd .write = some ⟨reg.write, reg.ud⟩ := by rw [found, used]; rfl
          have switch := kevent_switch there enable
          rw [ask_write_used used]
          rcases kqueue_change kq fd .write ⟨enable, reg.ud⟩ with
            ⟨rest, refusing, ran⟩ | ⟨rest, tape, ran⟩
          · refine .inl ?_
            simp only [kqueueServe, Kqueue.copollRequestWrite, switch, ran, if_true]
            exact ⟨trivial, shows', fun none => absurd none refusing⟩
          · refine .inr ?_
            rw [ran] at switch
            simp only [kqueueServe, Kqueue.copollRequestWrite, switch]
            refine ⟨rfl, kqueue_update shows' fun x f => ?_⟩
            rw [if_neg (by decide), put_notes]
            by_cases same : x = fd
            · cases f <;> simp [same, found, used, note]
            · simp [same]
  | del fd =>
      refine .inr ?_
      rw [ask_del]
      cases used : w.poll fd with
      | none =>
          have absent : ∀ filter, kq.notes fd filter = none := fun filter => by
            rw [found, used]
            rfl
          have ran : kqueueServe kq (.del fd) = (0, kq) := by
            simp [kqueueServe, Kqueue.copollDel, Kqueue.kevent, absent]
          rw [ran, ← used, Function.update_eq_self]
          exact ⟨rfl, shows'⟩
      | some reg =>
          have there : ∀ filter, kq.notes fd filter = some (note filter reg) := fun filter => by
            rw [found, used]
            rfl
          rw [kqueueServe, copollDel_eq (there .read) (there .write)]
          refine ⟨rfl, kqueue_update shows' fun x f => ?_⟩
          by_cases same : x = fd
          · cases f <;> simp [put_notes, same]
          · simp [put_notes, same]
  | closed fd =>
      refine .inr ⟨rfl, kqueue_update shows' fun x f => ?_⟩
      by_cases same : x = fd
      · cases f <;> simp [kqueueServe, Kqueue.closed, put_notes, same]
      · simp [kqueueServe, Kqueue.closed, put_notes, same]

theorem kqueue_granting (r : Request) (granting : kq.refusals = []) :
    (kqueueServe kq r).2.refusals = [] := by
  have change : ∀ (kq : Kqueue) fd filter n, kq.refusals = [] →
      (kq.change fd filter n).2.refusals = [] := by
    intro kq fd filter n granting
    rw [Kqueue.change, granting]
    exact granting
  have kevent : ∀ (kq : Kqueue) fd filter flags ud, kq.refusals = [] →
      (kq.kevent fd filter flags ud).2.refusals = [] := by
    intro kq fd filter flags ud granting
    unfold Kqueue.kevent
    split
    · exact change _ _ _ _ granting
    · exact granting
    · exact change _ _ _ _ granting
    · exact change _ _ _ _ granting
    all_goals exact granting
  have del : ∀ (kq : Kqueue) fd, kq.refusals = [] → (kq.copollDel fd).2.refusals = [] :=
    fun kq fd granting => kevent _ _ _ _ _ (kevent _ _ _ _ _ granting)
  cases r with
  | add fd ud =>
      have added := kevent kq fd .read .add ud granting
      simp only [kqueueServe, Kqueue.copollAdd]
      split
      · exact added
      · split
        · exact kevent _ _ _ _ _ (kevent _ _ _ _ _ added)
        · split
          · exact del _ _ (kevent _ _ _ _ _ (kevent _ _ _ _ _ added))
          · exact kevent _ _ _ _ _ (kevent _ _ _ _ _ added)
  | requestWrite fd ud enable =>
      have switched := kevent kq fd .write (if enable then .enable else .disable) ud granting
      simp only [kqueueServe, Kqueue.copollRequestWrite]
      generalize kq.kevent fd .write _ ud = out at switched ⊢
      split <;> exact switched
  | del fd => exact del _ _ granting
  | closed fd => exact granting

def kqueue : Poller Kqueue where
  serve := kqueueServe
  Shows := KqueueShows
  Proper := KqueueProper
  decidable _ _ := inferInstance
  Granting kq := kq.refusals = []
  whole r shows' proper := kqueue_whole r shows' proper
  granting r := kqueue_granting r

end Bsd

section Runs

variable {P : Type}

/-- A request to the poller; in the model of the I/O service only what was granted is done. The
run ends with a request that the poller does not take. -/
def step (poller : Poller P) (s : P × World) (r : Request) : Except Unit (P × World) :=
  if poller.Proper s.2 r then
    .ok ((poller.serve s.1 r).2, if (poller.serve s.1 r).1 = 0 then ask s.2 r else s.2)
  else .error ()

theorem step_shows (poller : Poller P) (s : P × World) (r : Request)
    (shows' : poller.Shows s.1 s.2.poll) :
    Outcome (fun _ => True) (fun s' => poller.Shows s'.1 s'.2.poll) (step poller s r) := by
  unfold step
  split
  · next proper =>
    rcases poller.whole r shows' proper with ⟨ret, same, -⟩ | ⟨ret, served⟩
    · rw [ret, if_neg (by decide)]
      exact same
    · rw [ret, if_pos rfl]
      exact served
  · trivial

theorem copollNew_shows (refusals : List Bool) (retouch zeroBlock : Bool) :
    EpollShows (Epoll.copollNew refusals) (coiosNew zeroBlock).poll ∧
      KqueueShows (Kqueue.copollNew refusals retouch) (coiosNew zeroBlock).poll := ⟨rfl, rfl⟩

/-- **Requests are granted or refused as a whole.** Whatever the kernels refuse, each of them
holds the registrations of the requests that returned 0: on Linux for any requests, on the BSDs
as long as a descriptor is added once and write interest asked for with its pointer. -/
theorem registrations_whole (refusals : List Bool) (retouch zeroBlock : Bool)
    (requests : List Request) :
    Outcome (fun _ => True) (fun s => EpollShows s.1 s.2.poll)
        (run (step epoll) (Epoll.copollNew refusals, coiosNew zeroBlock) requests) ∧
      Outcome (fun _ => True) (fun s => KqueueShows s.1 s.2.poll)
        (run (step kqueue) (Kqueue.copollNew refusals retouch, coiosNew zeroBlock) requests) := by
  obtain ⟨first, second⟩ := copollNew_shows refusals retouch zeroBlock
  exact ⟨outcome_run _ _ _ (step_shows epoll) requests _ first,
    outcome_run _ _ _ (step_shows kqueue) requests _ second⟩

end Runs

section Agreement

/-- Both pollers and the model of the I/O service. -/
structure Both where
  ep : Epoll
  kq : Kqueue
  world : World

def stepBoth (s : Both) (r : Request) : Except Unit Both :=
  if KqueueProper s.world r then
    .ok ⟨(epollServe s.ep r).2, (kqueueServe s.kq r).2, ask s.world r⟩
  else .error ()

/-- What is ready for the model when `epoll_wait` reports a mask. -/
def found (report : Nat × UInt32) : Ready where
  fd := report.1
  read := decide (report.2 &&& (epollin ||| epollhup) ≠ 0)
  write := decide (report.2 &&& epollout ≠ 0)
  error := decide (report.2 &&& epollerr ≠ 0)

/-- The pollers hold the registrations of the model. What the one calls back with is what the
model does; the other sets both flags of every event, whichever of its filters it is for. -/
structure Agree (s : Both) : Prop where
  epoll : EpollShows s.ep s.world.poll
  kqueue : KqueueShows s.kq s.world.poll
  linux : ∀ ready events, s.ep.copollWait ready = .ok events →
    copollCollect s.world (ready.map found) = .ok events
  bsd : ∀ ready events, s.kq.copollWait ready = .ok events → ∀ ev ∈ events,
    ∃ fd reg, s.world.poll fd = some reg ∧ ev.ud = reg.ud ∧ ev.read = true ∧ ev.write = true

/-- A poller that grants what it may serves as the model does. -/
theorem Poller.granted {P : Type} (poller : Poller P) {p : P} {w : World} (r : Request)
    (shows' : poller.Shows p w.poll) (proper : poller.Proper w r) (granting : poller.Granting p) :
    poller.Shows (poller.serve p r).2 (ask w r).poll := by
  rcases poller.whole r shows' proper with ⟨-, same, refused⟩ | ⟨-, served⟩
  · rwa [refused granting]
  · exact served

/-- Write readiness is reported only where it is asked for. -/
theorem write_asked {reg : Registration} {events : UInt32}
    (allowed : events &&& Epoll.allowed (entry reg) = events) (write : reg.write = false) :
    events &&& epollout = 0 := by
  have never : Epoll.allowed (entry reg) &&& epollout = 0 := by
    rw [Epoll.allowed, entry, write]
    exact show (epollin ||| 0 ||| epollerr ||| epollhup) &&& epollout = 0 by decide
  rw [← allowed, UInt32.and_assoc, never, UInt32.and_zero]

theorem collect_model {ep : Epoll} {w : World} (shows' : EpollShows ep w.poll)
    (ready : List (Nat × UInt32)) {events : List Pollevent} (ran : ep.collect ready = .ok events) :
    copollCollect w (ready.map found) = .ok events := by
  induction ready generalizing events with
  | nil => exact ran
  | cons report rest ih =>
      obtain ⟨fd, mask⟩ := report
      rw [Epoll.collect, congrFun shows' fd] at ran
      rw [List.map_cons, copollCollect, show (found (fd, mask)).fd = fd from rfl]
      cases used : w.poll fd with
      | none => simp [used] at ran
      | some reg =>
          simp only [used, Option.map_some] at ran ⊢
          split at ran
          · next allowed =>
            cases later : ep.collect rest with
            | error f =>
                rw [later] at ran
                cases ran
            | ok more =>
                rw [later] at ran
                cases ran
                have asked : ¬ ((found (fd, mask)).write = true ∧ reg.write = false) := by
                  rintro ⟨write, off⟩
                  exact of_decide_eq_true write (write_asked allowed off)
                rw [if_neg asked, ih later]
                rfl
          · cases ran

theorem collect_flags {kq : Kqueue} {w : World} (shows' : KqueueShows kq w.poll)
    (ready : List (Nat × Filter × UInt16)) {events : List Pollevent}
    (ran : kq.collect ready = .ok events) : ∀ ev ∈ events,
    ∃ fd reg, w.poll fd = some reg ∧ ev.ud = reg.ud ∧ ev.read = true ∧ ev.write = true := by
  induction ready generalizing events with
  | nil =>
      cases ran
      exact fun ev inside => absurd inside List.not_mem_nil
  | cons report rest ih =>
      obtain ⟨fd, filter, flags⟩ := report
      rw [Kqueue.collect, congrFun (congrFun shows' fd) filter] at ran
      cases used : w.poll fd with
      | none => simp [used] at ran
      | some reg =>
          simp only [used, Option.map_some] at ran
          split at ran
          · cases later : kq.collect rest with
            | error f =>
                rw [later] at ran
                cases ran
            | ok more =>
                rw [later] at ran
                cases ran
                intro ev inside
                rcases List.mem_cons.mp inside with rfl | inside
                · refine ⟨fd, reg, used, ?_, ?_, ?_⟩ <;> cases filter <;> rfl
                · exact ih later ev inside
          · cases ran

/-- **One interface.** As long as the kernels grant what their manuals allow, both pollers hold
the registrations that the I/O service is modelled with. -/
theorem pollers_agree (retouch zeroBlock : Bool) (requests : List Request) :
    Outcome (fun _ => True) Agree
      (run stepBoth ⟨Epoll.copollNew [], Kqueue.copollNew [] retouch, coiosNew zeroBlock⟩
        requests) := by
  obtain ⟨first, second⟩ := copollNew_shows [] retouch zeroBlock
  refine (outcome_run stepBoth (fun _ => True)
    (fun s => (EpollShows s.ep s.world.poll ∧ s.ep.refusals = []) ∧
      KqueueShows s.kq s.world.poll ∧ s.kq.refusals = []) ?_ requests _ ?_).mono ?_
  · rintro s r ⟨⟨ep, granting⟩, kq, granting'⟩
    rw [stepBoth]
    split
    · next proper =>
      exact ⟨⟨epoll.granted r ep trivial granting, epoll_granting r granting⟩,
        kqueue.granted r kq proper granting', kqueue_granting r granting'⟩
    · trivial
  · exact ⟨⟨first, rfl⟩, second, rfl⟩
  · rintro s ⟨⟨ep, -⟩, kq, -⟩
    refine ⟨ep, kq, fun ready events ran => ?_, fun ready events ran => ?_⟩
    · rw [Epoll.copollWait] at ran
      split at ran
      · exact collect_model ep ready ran
      · cases ran
    · rw [Kqueue.copollWait] at ran
      split at ran
      · exact collect_flags kq ready ran
      · cases ran

end Agreement

end Colinlib.Guarantees.PollerBackends
