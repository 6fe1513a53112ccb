import Colinlib.Source.IoTrace

/-!
# Poller registrations name their owner

Every registration of the poller should carry the address of the object that owns
the descriptor. TCP and UDP objects pass their own address at every update;
`cofd_send` and `_cofd_handle_write` pass the user data of the object instead, so
the property holds along the runs in which those two only meet objects whose user
data is their own address, and fails on others.
-/
namespace Colinlib.Guarantees.PollerRegistrations
open Colinlib.Theory Colinlib.Theory.CMemory Colinlib.Theory.Callbacks
open Colinlib.Source.IoWorld Colinlib.Source.IoService Colinlib.Source.EventLoop
open Colinlib.Source.IoChanges Colinlib.Source.IoTrace

/-- The pointer stored for each registered descriptor is a live object with that
descriptor. -/
def NamesOwners (w : World) : Prop :=
  ∀ fd reg, w.poll fd = some reg →
    ∃ r, reg.ud = .obj r ∧ (w.objs r).fd = fd ∧ (w.objs r).state ≠ Cotcp.invalid

/-- Each object handed to `cofd_send`, or to the writable event of a descriptor, has
its own address as user data. Refused calls and dead objects do not matter. -/
def selfOwned (w : World) : Step → Bool
  | .start (.call (.cofdSend r data)) _ =>
    (w.objs r).state ≠ Cofd.bind ∨ data = [] ∨ (w.objs r).ud = .obj r
  | .start .handle _ =>
    match w.tasks with
    | (.write, r) :: _ =>
      r.kind ≠ .fd ∨ (w.objs r).state = Cofd.invalid ∨ (w.objs r).ud = .obj r
    | _ => true
  | _ => true

/-- The answers of the kernel do not matter to it. -/
theorem selfOwned_start (w : World) (a : Action) (answers : List Answer) :
    selfOwned w (.start a answers) = selfOwned (loaded answers w) (.start a []) := by
  cases a with
  | call c => cases c <;> rfl
  | _ => rfl

/-- The invariant: registrations name their owners, in a sound state. -/
structure Inv (w : World) : Prop where
  named : NamesOwners w
  sound : Sound w

theorem Inv.same {w w' : World} (h : Inv w) (objs : w'.objs = w.objs) (poll : w'.poll = w.poll)
    (lives : w'.lives = w.lives) (log : w'.log = w.log) : Inv w' := by
  constructor
  · rw [NamesOwners, objs, poll]
    exact h.named
  · exact h.sound.sameObjs objs lives log

/-- Events are recorded without touching objects and registrations. -/
theorem Inv.note {w : World} (h : Inv w) {e : Event} (now : eventLife e ≤ w.lives (eventRef e)) :
    Inv (w.note e) :=
  ⟨h.named, h.sound.note now⟩

theorem Inv.unregister {w w' : World} (h : Inv w) {fd : Nat} (objs : w'.objs = w.objs)
    (poll : w'.poll = Function.update w.poll fd none) (lives : w'.lives = w.lives)
    (log : w'.log = w.log) : Inv w' := by
  constructor
  · intro fd' reg registered
    rw [poll] at registered
    rw [objs]
    by_cases same : fd' = fd
    · rw [same] at registered
      simp at registered
    · rw [Function.update_of_ne same] at registered
      exact h.named fd' reg registered
  · exact h.sound.sameObjs objs lives log

/-- Changing a live object that keeps its descriptor. -/
theorem Inv.change {w : World} {r : Ref} {o : Coio} (h : Inv w)
    (live : o.state ≠ Cotcp.invalid) (fd : (w.objs r).state ≠ Cotcp.invalid → o.fd = (w.objs r).fd) :
    Inv (w.setObj r o) := by
  constructor
  · intro fd' reg registered
    obtain ⟨s, ud, hfd, hlive⟩ := h.named fd' reg registered
    refine ⟨s, ud, ?_⟩
    by_cases same : s = r
    · rw [same] at hlive hfd ⊢
      rw [setObj_self]
      exact ⟨(fd hlive).trans hfd, live⟩
    · rw [setObj_other w o same]
      exact ⟨hfd, hlive⟩
  · exact h.sound.change r _ fun free => absurd free live

/-- Storing the address of a live object for its own descriptor. -/
theorem Inv.point {w : World} {r : Ref} (h : Inv w) (live : (w.objs r).state ≠ Cotcp.invalid)
    (write : Bool) :
    Inv { w with poll := Function.update w.poll (w.objs r).fd (some ⟨.obj r, write⟩) } := by
  constructor
  · intro fd reg registered
    by_cases same : fd = (w.objs r).fd
    · rw [same] at registered ⊢
      simp only [Function.update_self, Option.some.injEq] at registered
      subst registered
      exact ⟨r, rfl, rfl, live⟩
    · simp only [Function.update_of_ne same] at registered
      exact h.named fd reg registered
  · exact h.sound.sameObjs rfl rfl rfl

theorem Inv.request {w : World} {r : Ref} (h : Inv w) (live : (w.objs r).state ≠ Cotcp.invalid)
    (enable : Bool) : Inv (w.copollRequestWrite (w.objs r).fd (.obj r) enable) := by
  unfold World.copollRequestWrite
  split
  · exact h.point live enable
  · exact h.same rfl rfl rfl rfl

theorem Inv.install {w : World} {r : Ref} {o : Coio} (h : Inv w) (free : w.objs r = blank)
    (shape : Installed o) : Inv (installed w r o) := by
  obtain ⟨fd, ud, state, fnc, fne, rfl, live⟩ := shape
  have held : Inv (w.setObj r { blank with
      fd := fd, ud := ud, state := state, fnConnect := fnc, fnError := fne }) := by
    apply h.change live
    intro alive
    rw [free] at alive
    exact absurd rfl alive
  unfold installed World.copollAdd
  split
  · exact held.same rfl rfl rfl rfl
  · have pointed := held.point (r := r) (by rw [setObj_self]; exact live) false
    rw [setObj_self] at pointed
    exact pointed

/-- A slot is zeroed once its descriptor is unregistered. -/
theorem Inv.finish {w : World} (h : Inv w) (r : Ref) (cause : Cause) (begun : Nat) :
    Inv (finished w r cause begun) := by
  constructor
  · intro fd reg registered
    rw [finished_poll] at registered
    rw [finished_objs]
    by_cases same : fd = (w.objs r).fd
    · rw [same] at registered
      simp at registered
    · rw [Function.update_of_ne same] at registered
      obtain ⟨s, ud, hfd, hlive⟩ := h.named fd reg registered
      have other : s ≠ r := by
        intro equal
        rw [equal] at hfd
        exact same hfd.symm
      exact ⟨s, ud, by rw [Function.update_of_ne other]; exact hfd,
        by rw [Function.update_of_ne other]; exact hlive⟩
  · exact h.sound.finish r cause begun

theorem Inv.reserve {w : World} (h : Inv w) (r : Ref) (free : (w.objs r).state = Cotcp.invalid) :
    Inv (reserved w r) := by
  have same : w.setObj r blank = w := by
    rw [← h.sound.dead r free, setObj_eta]
  constructor
  · intro fd reg registered
    obtain ⟨s, held⟩ := h.named fd reg registered
    refine ⟨s, ?_⟩
    simp only [reserved, same]
    exact held
  · exact h.sound.reserve r

theorem Inv.grow {w : World} (h : Inv w) (r : Ref) (n : Nat) : Inv (growRecvbuf w r n) := by
  rcases growRecvbuf_eq w r n with same | ⟨live, -, size, recvbuf, same⟩
  · rwa [same]
  · rw [same]
    exact h.change live (fun _ => rfl)

/-- Queues change without the identity of their object. -/
theorem Inv.queued {w w' : World} {r : Ref} (h : Inv w) (queued : Queued r w w')
    (live : (w.objs r).state ≠ Cotcp.invalid) : Inv w' := by
  obtain ⟨sendbuf, sendlist, objs⟩ := queued.objs
  have held : Inv (w.setObj r (withQueue (w.objs r) sendbuf sendlist)) :=
    h.change live (fun _ => rfl)
  constructor
  · rw [NamesOwners, objs, queued.poll]
    exact held.named
  · exact queued.sound live h.sound

/-- Only `cofd_send` and the writable event of a descriptor store user data, and
they meet objects whose user data is their own address. -/
theorem owner_self {o : Origin} {r : Ref} {w w' : World} (transmits : Transmits o r w w')
    (owned : selfOwned o.world (.start o.action []) = true) :
    ownerOf r (w.objs r) = .obj r := by
  unfold ownerOf
  split
  · next kind =>
    have event : ∀ w, Running o .write r w → (w.objs r).state ≠ Cotcp.invalid →
        (w.objs r).ud = .obj r := by
      rintro _ ⟨handling, next⟩ live
      simp only [handling, selfOwned, next, decide_eq_true_eq] at owned
      exact (owned.resolve_left (not_not.mpr kind)).resolve_left live
    have send : ∀ queue, Sends o r queue → (o.world.objs r).ud = .obj r := by
      intro queue sends
      cases sends with
      | tcp _ other => rw [kind] at other; cases other
      | udp _ other => rw [kind] at other; cases other
      | fd asked _ ready nonempty =>
          simp only [asked, selfOwned, decide_eq_true_eq] at owned
          exact (owned.resolve_left (not_not.mpr ready)).resolve_left nonempty
    have flush : Flushes o r w → (w.objs r).state ≠ Cotcp.invalid → (w.objs r).ud = .obj r := by
      intro flushes live
      cases flushes with
      | event running => exact event w running live
      | send sends queued here =>
          rw [here, (sends.undisturbed queued _ _ _).ud]
          exact send _ sends
      | close closes =>
          rcases closes.asked with ⟨-, other⟩ | ⟨-, other⟩
          · rw [kind] at other
            cases other
          · rw [kind] at other
            cases other
    cases transmits with
    | sent sends _ => exact send _ sends
    | waits flushes live _ _ => exact flush flushes live
    | drained flushes live _ _ => exact flush flushes live
  · rfl

theorem Inv.transmit {o : Origin} {r : Ref} {w w' : World} (h : Inv w)
    (transmits : Transmits o r w w') (owned : selfOwned o.world (.start o.action []) = true) :
    Inv w' := by
  obtain ⟨w₁, queued, asks⟩ := transmits.queued
  have held := h.queued queued transmits.live
  rcases asks with rfl | ⟨enable, rfl⟩
  · exact held
  · have same := queued.undisturbed
    have live : (w₁.objs r).state ≠ Cotcp.invalid := by
      rw [same.state]
      exact transmits.live
    rw [owner_self transmits owned, ← same.fd]
    exact held.request live enable

theorem Inv.changed {o : Origin} {w w' : World} (h : Inv w) (change : Change o w w')
    (owned : selfOwned o.world (.start o.action []) = true) : Inv w' := by
  cases change with
  | kernel same => exact h.same same.objs same.poll same.lives same.log
  | bump kind => exact h.same rfl rfl rfl rfl
  | churn shut => exact h.unregister rfl rfl rfl rfl
  | reserve next free => exact h.reserve _ free
  | install next empty unused shape socket shut =>
      have taken : ∀ fd, Inv (opened w fd) := fun fd => h.same rfl rfl rfl rfl
      exact (taken _).install empty shape
  | bind next empty unused shape kind asked => exact h.install empty shape
  | await next kind connecting => exact h.request (by rw [connecting]; decide) true
  | adjust adjusts => exact h.change adjusts.adjusted.live' (fun _ => adjusts.adjusted.fd)
  | transmit transmits => exact h.transmit transmits owned
  | receive running live read =>
      have held := h.change (by rw [ensured_state]; exact live) (fun _ => ensured_fd _)
      exact (held.note (e := .read _ (w.lives _) _) (Nat.le_refl _)).same rfl rfl rfl rfl
  | unseen got nonempty shown unset => exact h.grow _ _
  | finish finishing => exact h.finish _ _ _
  | collect => exact h.same rfl rfl rfl rfl
  | pop => exact h.same rfl rfl rfl rfl
  | schedule => exact h.same rfl rfl rfl rfl
  | handle => exact h.same rfl rfl rfl rfl

theorem kept : Kept (fun _ => Inv) fun _ o => selfOwned o.world (.start o.action []) = true where
  sound h := h.sound
  load _ h := h.same rfl rfl rfl rfl
  change underway _ h change := h.changed change underway.admitted
  enter _ _ h now _ := h.note (Nat.le_of_eq now)
  resume h resumed := by
    cases resumed with
    | connect => exact h
    | recv => exact h.grow _ _
    | error => exact h.finish _ _ _
    | close => exact h.finish _ _ _
    | gone => exact h

theorem initially (zeroBlock : Bool) : Inv (coiosNew zeroBlock) := by
  constructor
  · intro _ _ registered
    cases registered
  · exact Sound.initially zeroBlock

/-- What `copoll_wait` collects in such a state points to live objects. -/
theorem NamesOwners.collected {w : World} (h : NamesOwners w) {ready : List Ready}
    {events : List Pollevent} (collected : copollCollect w ready = .ok events) :
    ∀ ev ∈ events, ∃ r, ev.ud = .obj r ∧ (w.objs r).state ≠ Cotcp.invalid := by
  induction ready generalizing events with
  | nil =>
      cases collected
      intro ev hev
      cases hev
  | cons e rest ih =>
      unfold copollCollect at collected
      cases hreg : w.poll e.fd with
      | none =>
          rw [hreg] at collected
          cases collected
      | some reg =>
          simp only [hreg] at collected
          split at collected
          · cases collected
          · cases hrest : copollCollect w rest with
            | error f =>
                rw [hrest] at collected
                cases collected
            | ok more =>
                rw [hrest] at collected
                cases collected
                obtain ⟨r, ud, -, live⟩ := h e.fd reg hreg
                intro ev hev
                cases hev with
                | head => exact ⟨r, ud, live⟩
                | tail _ hmem => exact ih hrest ev hmem

/-- A descriptor is bound under foreign user data and sent to while the kernel
cannot take the bytes. -/
def foreignUd : List Step :=
  [.start (.call (.cofdBind 7 (.mem 64))) [],
    .start (.call (.cofdSend ⟨.fd, 0⟩ [1])) [.failed eagain]]

/-- The registration then carries the user data, which is no object. -/
theorem cofd_send_misnames : ∃ s, Runs.run (step coiosSystem) (start true) foreignUd = .ok s ∧
    s.world.poll 7 = some ⟨.mem 64, true⟩ ∧ ¬ NamesOwners s.world := by
  have seen : (Runs.run (step coiosSystem) (start true) foreignUd).map (fun s => s.world.poll 7) =
      .ok (some ⟨.mem 64, true⟩) := by decide +kernel
  obtain ⟨s, reached, registered⟩ := Runs.reached_of_map seen
  refine ⟨s, reached, registered, ?_⟩
  intro named
  obtain ⟨r, ud, -⟩ := named 7 _ registered
  cases ud

/-- In every run that hands `cofd_send` and the writable events of descriptors only
objects with their own address as user data, every registration of every reached
state names the live object that owns its descriptor, and so do the events
collected there. -/
theorem registrations_name_owners (zeroBlock : Bool) (moves : List Step) (s : Coloop)
    (admitted : Runs.Along (step coiosSystem) (fun s m => selfOwned s.world m = true)
      (start zeroBlock) moves)
    (reached : Runs.run (step coiosSystem) (start zeroBlock) moves = .ok s) :
    NamesOwners s.world ∧ ∀ ready events, copollCollect s.world ready = .ok events →
      ∀ ev ∈ events, ∃ r, ev.ud = .obj r ∧ (s.world.objs r).state ≠ Cotcp.invalid := by
  have along : Runs.Along (step coiosSystem) (fun s m => Admits
      (fun _ o => selfOwned o.world (.start o.action []) = true) s.tags s.world m)
      (start zeroBlock) moves := by
    apply admitted.mono
    intro s m owned
    cases m with
    | back answers => trivial
    | start a answers => exact (selfOwned_start s.world a answers).symm.trans owned
  have held : Inv s.world := (kept.fromStart (initially zeroBlock) along reached).1
  exact ⟨held.named, fun _ _ collected => held.named.collected collected⟩

/-- The same steps with the object's own address, and the event that drains the queue. -/
def ownUd : List Step :=
  [.start (.call (.cofdBind 7 (.obj ⟨.fd, 0⟩))) [],
    .start (.call (.cofdSend ⟨.fd, 0⟩ [1])) [.failed eagain],
    .start (.wait [⟨7, false, true, false⟩]) [], .start .dispatch [], .start .handle [.count 1]]

theorem registrations_name_owners_ownUd :
    ∃ s, Runs.run (step coiosSystem) (start true) ownUd = .ok s ∧
      s.world.poll 7 = some ⟨.obj ⟨.fd, 0⟩, false⟩ ∧ NamesOwners s.world := by
  have seen : (Runs.run (step coiosSystem) (start true) ownUd).map (fun s => s.world.poll 7) =
      .ok (some ⟨.obj ⟨.fd, 0⟩, false⟩) := by decide +kernel
  obtain ⟨s, reached, registered⟩ := Runs.reached_of_map seen
  have admitted : Runs.Along (step coiosSystem) (fun s m => selfOwned s.world m = true)
      (start true) ownUd := by decide +kernel
  exact ⟨s, reached, registered, (registrations_name_owners true ownUd s admitted reached).1⟩

end Colinlib.Guarantees.PollerRegistrations
