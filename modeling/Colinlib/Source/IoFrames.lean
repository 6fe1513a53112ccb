import Colinlib.Source.IoTrace

/-!
# What the code of the I/O service leaves alone

The code that works on one object changes no other one, however often it calls the user
back and whatever the user does meanwhile, and it calls the user back about its own object
only. A slot that is in use is never taken for a new object.
-/
namespace Colinlib.Source.IoFrames
open Colinlib.Theory Colinlib.Theory.CMemory Colinlib.Theory.Callbacks
open Colinlib.Source.IoWorld Colinlib.Source.IoService
open Colinlib.Source.EventLoop Colinlib.Source.IoChanges Colinlib.Source.IoTrace

/-- The callbacks of a connection end, after which the library destroys the object. -/
def parting : Notice → Bool
  | .error _ | .close _ => true
  | .connect | .recv .. => false

/-- What an attempt to connect goes by. -/
structure Alike (o o' : Coio) : Prop where
  state : o'.state = o.state
  ud : o'.ud = o.ud
  fnConnect : o'.fnConnect = o.fnConnect
  fnError : o'.fnError = o.fnError

/-- No attempt to connect notices the difference. -/
structure Gentle (w w' : World) : Prop where
  objs : ∀ r, Alike (w.objs r) (w'.objs r)
  tasks : w'.tasks = w.tasks

/-- Only the object in `s` may differ; the event loop has the same work to do. -/
structure Local (s : Ref) (w w' : World) : Prop where
  objs : ∀ r, r ≠ s → w'.objs r = w.objs r
  tasks : w'.tasks = w.tasks

/-- Each stretch of the code, from `w₀` or from the return of a callback on, changes nothing
but the object in `s`, and the callbacks are about it. Where `mild` allows one that is not
the end of the object, hardly anything is done afterwards. -/
def Keeps {α : Type} (mild : Prop) (s : Ref) : Res World Callback Fault α → World → Prop
  | .ret _ w, w₀ => Local s w₀ w
  | .stop _, _ => True
  | .call c w rest, w₀ => c.ref = s ∧ Local s w₀ w ∧
      (parting c.notice = false → mild ∧ ∀ w', Ends (fun _ => Gentle w') (rest w')) ∧
      ∀ w', Keeps mild s (rest w') w'

/-- A function that works on the object in `s`. -/
def Minds {α : Type} (mild : Prop) (s : Ref) (m : Io α) : Prop :=
  ∀ w₀ w, Local s w₀ w → Keeps mild s (m w) w₀

variable {α β : Type} {mild : Prop} {s : Ref} {w w' w₀ : World}

theorem Alike.refl (o : Coio) : Alike o o := ⟨rfl, rfl, rfl, rfl⟩

theorem Gentle.refl (w : World) : Gentle w w := ⟨fun _ => Alike.refl _, rfl⟩

theorem Local.refl (s : Ref) (w : World) : Local s w w := ⟨fun _ _ => rfl, rfl⟩

theorem Local.trans (h : Local s w₀ w) (h' : Local s w w') : Local s w₀ w' :=
  ⟨fun r other => (h'.objs r other).trans (h.objs r other), h'.tasks.trans h.tasks⟩

theorem Local.put (s : Ref) (w : World) (o : Coio) : Local s w (w.setObj s o) :=
  ⟨fun _ other => setObj_other w o other, rfl⟩

theorem Local.core (s : Ref) (same : SameCore w w') : Local s w w' :=
  ⟨fun _ _ => by rw [same.objs], same.tasks⟩

theorem growRecvbuf_gentle (w : World) (r : Ref) (n : Nat) : Gentle w (growRecvbuf w r n) := by
  refine ⟨fun x => ?_, (growRecvbuf_work w r n).2⟩
  rcases growRecvbuf_eq w r n with same | ⟨-, -, size, recvbuf, grown⟩
  · rw [same]
    exact Alike.refl _
  · rw [grown]
    by_cases here : x = r
    · subst here
      rw [setObj_self]
      exact ⟨rfl, rfl, rfl, rfl⟩
    · rw [setObj_other w _ here]
      exact Alike.refl _

theorem Keeps.mono {m : Res World Callback Fault α} (h : Keeps mild s m w₀) :
    Keeps True s m w₀ := by
  induction m generalizing w₀ with
  | ret a w => exact h
  | stop e => trivial
  | call c w rest ih =>
      obtain ⟨about, here, mildly, after⟩ := h
      exact ⟨about, here, fun soft => ⟨trivial, (mildly soft).2⟩, fun w' => ih w' (after w')⟩

theorem Minds.at (s : Ref) {m : Io α} (h : Minds mild s m) (w : World) : Keeps mild s (m w) w :=
  h w w (Local.refl s w)

namespace Minds

theorem pure (s : Ref) (a : α) : Minds mild s (Pure.pure a) := fun _ _ here => here

theorem bind {m : Io α} {next : α → Io β} (first : Minds False s m) (rest : ∀ a, Minds mild s (next a)) :
    Minds mild s (m >>= next) := by
  intro w₀ w here
  have whole : ∀ (res : Res World Callback Fault α) w₀, Keeps False s res w₀ →
      Keeps mild s (res.bind next) w₀ := by
    intro res
    induction res with
    | ret a w => exact fun w₀ kept => rest a w₀ w kept
    | stop e => exact fun _ _ => trivial
    | call c w k ih =>
        exact fun w₀ kept => ⟨kept.1, kept.2.1, fun soft => (kept.2.2.1 soft).1.elim,
          fun w' => ih w' w' (kept.2.2.2 w')⟩
  exact whole _ _ (first w₀ w here)

theorem ite {c : Prop} [Decidable c] {m n : Io α} (yes : Minds mild s m) (no : Minds mild s n) :
    Minds mild s (if c then m else n) := by
  split
  · exact yes
  · exact no

theorem read (s : Ref) (view : World → α) : Minds mild s (Prog.read view) := fun _ _ here => here

theorem modify {update : World → World} (changes : ∀ w, Local s w (update w)) :
    Minds mild s (Prog.modify update) := fun _ w here => here.trans (changes w)

theorem attempt {f : World → Except Fault (α × World)}
    (changes : ∀ w a w', f w = .ok (a, w') → Local s w w') : Minds mild s (Prog.attempt f) := by
  intro w₀ w here
  unfold Prog.attempt
  cases ran : f w with
  | error e => trivial
  | ok p => exact here.trans (changes w p.1 p.2 ran)

theorem look (s r : Ref) : Minds mild s (look r) := read s _

theorem lifeOf (s r : Ref) : Minds mild s (lifeOf r) := read s _

theorem put (s : Ref) (o : Coio) : Minds mild s (put s o) := modify fun w => Local.put s w o

theorem record (s : Ref) (e : Event) : Minds mild s (record e) := modify fun _ => ⟨fun _ _ => rfl, rfl⟩

/-- The code goes on in a mild way after a callback. -/
theorem notify_then {next : Unit → Io α} (fn : Option Nat) (notice : Notice)
    (without : Minds True s (next ()))
    (mildly : ∀ w, Ends (fun _ => Gentle w) (next () w)) :
    Minds True s (notify s fn notice >>= next) := by
  cases fn with
  | none => exact without
  | some f =>
      intro w₀ w here
      exact ⟨rfl, here.trans ⟨fun _ _ => rfl, rfl⟩, fun _ => ⟨trivial, mildly⟩,
        fun w' => without.at s w'⟩

theorem notify (s : Ref) (fn : Option Nat) {notice : Notice} (last : parting notice = true) :
    Minds mild s (notify s fn notice) := by
  cases fn with
  | none => exact pure s ()
  | some f =>
      refine (lifeOf s s).bind fun life => (record s _).bind fun _ => ?_
      exact fun w₀ w here => ⟨rfl, here, fun soft => absurd (last.symm.trans soft) nofun,
        fun w' => Local.refl s w'⟩

theorem notify_last (s : Ref) (fn : Option Nat) (notice : Notice) :
    Minds True s (IoWorld.notify s fn notice) := by
  cases fn with
  | none => exact pure s ()
  | some f =>
      intro w₀ w here
      exact ⟨rfl, here.trans ⟨fun _ _ => rfl, rfl⟩, fun _ => ⟨trivial, Gentle.refl⟩,
        fun w' => Local.refl s w'⟩

theorem closeFd (s : Ref) (fd : Nat) : Minds mild s (closeFd fd) := modify fun _ => ⟨fun _ _ => rfl, rfl⟩

theorem checked (s : Ref) (x : Except Fault α) : Minds mild s (checked x) := by
  refine attempt fun w a w' ran => ?_
  cases x with
  | error f => cases ran
  | ok b =>
      cases ran
      exact Local.refl s w

theorem copollDel (s : Ref) (fd : Nat) : Minds mild s (Prog.modify (·.copollDel fd)) := by
  refine modify fun w => ?_
  obtain ⟨errno, same⟩ := copollDel_eq w fd
  rw [same]
  exact ⟨fun _ _ => rfl, rfl⟩

theorem copollAdd (s : Ref) (fd : Nat) (ud : VPtr) : Minds mild s (Prog.modify (·.copollAdd fd ud)) := by
  refine modify fun w => ?_
  obtain ⟨_, _, same⟩ := copollAdd_eq w fd ud
  rw [same]
  exact ⟨fun _ _ => rfl, rfl⟩

theorem copollRequestWrite (s : Ref) (fd : Nat) (ud : VPtr) (enable : Bool) :
    Minds mild s (Prog.modify (·.copollRequestWrite fd ud enable)) := by
  refine modify fun w => ?_
  obtain ⟨_, _, same⟩ := copollRequestWrite_eq w fd ud enable
  rw [same]
  exact ⟨fun _ _ => rfl, rfl⟩

theorem setErrno (s : Ref) (e : Nat) : Minds mild s (Prog.modify (·.setErrno e)) :=
  modify fun _ => ⟨fun _ _ => rfl, rfl⟩

/-- Code that ends without a callback wherever it is started. -/
theorem of_ends {m : Io α} (h : ∀ w, Ends (fun _ w' => Local s w w') (m w)) : Minds mild s m := by
  intro w₀ w here
  have ends := h w
  generalize m w = res at ends
  cases res with
  | ret a w' => exact here.trans ends
  | stop e => trivial
  | call c w' k => exact ends.elim

end Minds

/-! ## System calls -/

/-- Descriptors that come and go change no object. -/
theorem local_quiet (s : Ref) (w₀ : World) : Quiet (Local s w₀) where
  same _ _ h core := h.trans (Local.core s core)
  churn _ _ h _ := ⟨h.objs, h.tasks⟩

theorem held_local {fd : Nat} (h : Held (Local s w₀) fd w) : Local s w₀ w := by
  obtain ⟨held, -, same⟩ := h
  exact ⟨fun r other => by rw [same.objs]; exact held.objs r other, same.tasks.trans held.tasks⟩

theorem obtained_local {fd : Option Nat} (h : Obtained (Local s w₀) fd w) : Local s w₀ w := by
  cases fd with
  | none => exact h
  | some fd => exact held_local h

/-- The objects are as they were, and the call has taken its answer. -/
structure Asked (w : World) (rest : List Answer) (w' : World) : Prop where
  objs : w'.objs = w.objs
  answers : w'.answers = rest

theorem syscall_asked {answer : Answer} {rest : List Answer} (now : w.answers = answer :: rest) :
    ∃ w', syscall w = .ret answer w' ∧ Asked w rest w' := by
  unfold syscall Prog.attempt
  simp only [now]
  cases answer <;> exact ⟨_, rfl, rfl, rfl⟩

theorem syscall_minds (s : Ref) : Minds mild s syscall :=
  .of_ends fun w => syscall_ends (local_quiet s w).same (Local.refl s w)

theorem statusCall_minds (s : Ref) : Minds mild s statusCall :=
  .of_ends fun w => statusCall_ends (local_quiet s w).same (Local.refl s w)

theorem getaddrinfo_minds (s : Ref) : Minds mild s getaddrinfo :=
  .of_ends fun w => getaddrinfo_ends (local_quiet s w).same (Local.refl s w)

theorem errorText_minds (s : Ref) : Minds mild s errorText :=
  .of_ends fun w => errorText_ends (local_quiet s w).same (Local.refl s w)

theorem openBound_minds (s : Ref) (bindaddr : Bool) (addrs : List Addr) :
    Minds mild s (openBound bindaddr addrs) :=
  .of_ends fun w => (openBound_ends (local_quiet s w) bindaddr addrs (Local.refl s w)).mono
    fun _ _ got => obtained_local got

theorem openConnecting_minds (s : Ref) (addrs : List Addr) : Minds mild s (openConnecting addrs) :=
  .of_ends fun w => (openConnecting_ends (local_quiet s w) addrs (Local.refl s w)).mono
    fun _ _ got => obtained_local got

/-! ## The end of an object -/

theorem freeObject_minds (s : Ref) : Minds mild s (freeObject s) :=
  (Minds.look s s).bind fun _ => .ite (.pure s ()) (.put s blank)

theorem recordEnd_minds (s : Ref) (cause : Cause) (begun : Nat) :
    Minds mild s (recordEnd s cause begun) := .modify fun _ => ⟨fun _ _ => rfl, rfl⟩

/-- A teardown of one of the three kinds. -/
def Destroys (teardown : Ref → Cause → Nat → Io Unit) : Prop :=
  ∀ (mild : Prop) s cause begun, Minds mild s (teardown s cause begun)

theorem closeObject_destroys : Destroys (closeObject freeObject) := fun _ s cause begun =>
  (Minds.look s s).bind fun o => .ite (.pure s ()) <| (Minds.copollDel s o.fd).bind fun _ =>
    (Minds.closeFd s o.fd).bind fun _ => (recordEnd_minds s cause begun).bind fun _ =>
      freeObject_minds s

theorem cofdUnbind_minds (s : Ref) (cause : Cause) (begun : Nat) :
    Minds mild s (cofdUnbind s cause begun) :=
  (Minds.look s s).bind fun o => .ite
    ((Minds.copollDel s o.fd).bind fun _ => (recordEnd_minds s cause begun).bind fun _ =>
      (freeObject_minds s).bind fun _ => .pure s true)
    (.pure s false)

theorem cofdTeardown_destroys : Destroys cofdTeardown := fun _ s cause begun =>
  (cofdUnbind_minds s cause begun).bind fun _ => .pure s ()

section Handlers
variable {teardown : Ref → Cause → Nat → Io Unit} (destroys : Destroys teardown)
include destroys

theorem handleError_minds (s : Ref) : Minds mild s (handleError teardown s) :=
  (Minds.look s s).bind fun o => .ite (.pure s ()) <| (Minds.lifeOf s s).bind fun begun =>
    (errorText_minds s).bind fun _ => (Minds.notify s o.fnError rfl).bind fun _ =>
      destroys _ s .error begun

/-! ## Reading and writing -/

theorem handleRead_minds (receive : Nat → Answer → Option (List UInt8 × Option Addr))
    (delivers : Coio → Bool) (s : Ref) :
    Minds True s (handleRead receive delivers (handleError teardown) teardown s) := by
  have ensure : Minds False s (ensureRecvbuf s) :=
    (Minds.look s s).bind fun _ => .ite (.put s _) (.pure s ())
  have read (len : Nat) : Minds False s (readFrom receive s len) := by
    refine (Minds.lifeOf s s).bind fun _ => (Minds.record s _).bind fun _ => .attempt ?_
    intro w a w' ran
    obtain ⟨⟨result, errno, rest⟩, -, ran⟩ := bind_ok ran
    cases ran
    exact ⟨fun _ _ => rfl, rfl⟩
  refine (Minds.look s s).bind fun o => .ite (.pure s ()) <| ensure.bind fun _ =>
    (Minds.look s s).bind fun o => (read o.recvsize).bind fun result => ?_
  cases result with
  | later => exact .pure s ()
  | failed => exact handleError_minds destroys s
  | data bytes sender =>
      refine .ite ((Minds.lifeOf s s).bind fun begun => (Minds.notify s o.fnClose rfl).bind fun _ =>
        destroys _ s .eof begun) (.ite (.notify_then o.fnRecv _ (.modify ?_) ?_) (.pure s ()))
      · intro w
        refine ⟨fun r other => ?_, (growRecvbuf_work w s bytes.length).2⟩
        rcases growRecvbuf_eq w s bytes.length with same | ⟨-, -, size, recvbuf, grown⟩
        · rw [same]
        · rw [grown, setObj_other w _ other]
      · exact fun w => growRecvbuf_gentle w s bytes.length

theorem handleWrite_minds {flush : Ref → Io Flush} {drained : Ref → Io Unit} (s : Ref)
    (flushed : Minds False s (flush s)) (empty : Minds mild s (drained s)) :
    Minds mild s (handleWrite flush (handleError teardown) drained s) := by
  refine (Minds.look s s).bind fun o => .ite (.pure s ()) <| flushed.bind fun outcome => ?_
  cases outcome with
  | later => exact .pure s ()
  | failed => exact handleError_minds destroys s
  | drained => exact empty

theorem checkClosing_minds (closing : Nat) (s : Ref) : Minds mild s (checkClosing closing teardown s) :=
  (Minds.look s s).bind fun o => .ite
    ((Minds.lifeOf s s).bind fun begun => destroys _ s .drained begun)
    (.copollRequestWrite s o.fd _ false)

end Handlers

theorem queued_local (h : Queued s w w') : Local s w w' := by
  obtain ⟨sendbuf, sendlist, objs⟩ := h.objs
  exact ⟨fun r other => by rw [objs, Function.update_of_ne other], h.tasks⟩

theorem flushOf_minds (s : Ref) : Minds mild s (flushOf s.kind s) :=
  .of_ends fun _ => flushOf_ends.mono fun _ _ ran => queued_local (flushOf_queued ran)

theorem cotcpHandleWrite_minds (kind : s.kind = .tcp) : Minds mild s (cotcpHandleWrite s) := by
  have flushed : Minds False s (flushOf s.kind s) := flushOf_minds s
  rw [kind] at flushed
  exact handleWrite_minds closeObject_destroys s flushed (checkClosing_minds closeObject_destroys _ s)

theorem coudpHandleWrite_minds (kind : s.kind = .udp) : Minds mild s (coudpHandleWrite s) := by
  have flushed : Minds False s (flushOf s.kind s) := flushOf_minds s
  rw [kind] at flushed
  exact handleWrite_minds closeObject_destroys s flushed (checkClosing_minds closeObject_destroys _ s)

theorem cofdHandleWrite_minds (kind : s.kind = .fd) : Minds mild s (cofdHandleWrite s) := by
  have flushed : Minds False s (flushOf s.kind s) := flushOf_minds s
  rw [kind] at flushed
  exact handleWrite_minds cofdTeardown_destroys s flushed
    ((Minds.look s s).bind fun _ => .copollRequestWrite s _ _ false)

/-! ## The calls about an object -/

theorem queueSendbuf_minds (s : Ref) (data : List UInt8) : Minds mild s (queueSendbuf s data) :=
  .of_ends fun w => (Ends.atomic (m := queueSendbuf s data) rfl w).mono fun _ _ ran =>
    queued_local (queueSendbuf_queued ran)

theorem queueSendlist_minds (s : Ref) (addr : Addr) (data : List UInt8) :
    Minds mild s (queueSendlist s addr data) :=
  .of_ends fun w => (Ends.atomic (m := queueSendlist s addr data) rfl w).mono fun _ _ ran =>
    queued_local (queueSendlist_queued ran)

theorem sendData_minds {ready : Nat} {queue : Io Unit} {owner : Coio → VPtr}
    {flush : Ref → Io Unit} {data : List UInt8} (s : Ref) (queued : Minds False s queue)
    (flushed : Minds False s (flush s)) : Minds mild s (sendData ready queue owner flush s data) :=
  (Minds.look s s).bind fun o => .ite (.pure s false) <| queued.bind fun _ =>
    (Minds.copollRequestWrite s o.fd _ true).bind fun _ => flushed.bind fun _ => .pure s true

theorem closeRequest_minds {isOpen hasData : Coio → Bool} {closing : Nat} {flush : Ref → Io Unit}
    {teardown : Ref → Cause → Nat → Io Unit} (destroys : Destroys teardown) (s : Ref)
    (force : Bool) (flushed : Minds False s (flush s)) :
    Minds mild s (closeRequest isOpen hasData closing flush teardown s force) := by
  have rest (begun : Nat) : Minds mild s (do
      let o ← look s
      if force ∨ hasData o = false then
        notify s o.fnClose (.close (.requested force))
        teardown s (.requested force) begun
      else
        put s { o with state := closing }
      return true) :=
    (Minds.look s s).bind fun o => .ite ((Minds.notify s o.fnClose rfl).bind fun _ =>
      (destroys _ s _ begun).bind fun _ => .pure s true) ((Minds.put s _).bind fun _ => .pure s true)
  refine (Minds.look s s).bind fun o => .ite ?_ (.pure s false)
  exact (Minds.lifeOf s s).bind fun begun => .ite (flushed.bind fun _ => rest begun) (rest begun)

theorem register_minds (accepts : Coio → Bool) (store : Coio → Coio) (s : Ref) :
    Minds mild s (register accepts store s) :=
  (Minds.look s s).bind fun _ => .ite ((Minds.put s _).bind fun _ => .pure s true) (.pure s false)

/-! ## New objects -/

/-- Code that waits for the callback `c` to return. -/
structure Frames (c : Callback) (rest : World → Res World Callback Fault α) : Prop where
  keeps : ∀ w, Keeps True c.ref (rest w) w
  mildly : parting c.notice = false → ∀ w, Ends (fun _ => Gentle w) (rest w)

/-- The objects in `A` and the work of the event loop are as they were. -/
structure Spared (A : Set Ref) (w w' : World) : Prop where
  objs : ∀ r ∈ A, w'.objs r = w.objs r
  tasks : w'.tasks = w.tasks

/-- Up to its end or to its first callback the code spares the objects in `A`, and the
callback is about another one. -/
def Spares (A : Set Ref) : Res World Callback Fault α → World → Prop
  | .ret _ w, w₀ => Spared A w₀ w
  | .stop _, _ => True
  | .call c w rest, w₀ => c.ref ∉ A ∧ Spared A w₀ w ∧ Frames c rest

variable {A : Set Ref}

theorem Spared.refl (A : Set Ref) (w : World) : Spared A w w := ⟨fun _ _ => rfl, rfl⟩

theorem Spared.trans (h : Spared A w₀ w) (h' : Spared A w w') : Spared A w₀ w' :=
  ⟨fun r hr => (h'.objs r hr).trans (h.objs r hr), h'.tasks.trans h.tasks⟩

theorem Local.spared (h : Local s w w') (other : s ∉ A) : Spared A w w' :=
  ⟨fun r hr => h.objs r fun same => other (same ▸ hr), h.tasks⟩

theorem spared_quiet (A : Set Ref) (w₀ : World) : Quiet (Spared A w₀) where
  same _ _ h core := h.trans ⟨fun _ _ => by rw [core.objs], core.tasks⟩
  churn _ _ h _ := ⟨h.objs, h.tasks⟩

theorem Keeps.spares {m : Res World Callback Fault α} (h : Keeps mild s m w) (other : s ∉ A)
    (before : Spared A w₀ w) : Spares A m w₀ := by
  cases m with
  | ret a w' => exact before.trans (h.spared other)
  | stop e => trivial
  | call c w' rest =>
      obtain ⟨rfl, here, mildly, after⟩ := h
      exact ⟨other, before.trans (here.spared other),
        ⟨fun w => (after w).mono, fun soft => (mildly soft).2⟩⟩

theorem Minds.spares {m : Io α} (h : Minds mild s m) (other : s ∉ A)
    (before : Spared A w₀ w) : Spares A (m w) w₀ := (h.at s w).spares other before

theorem Spares.seq {m : Io α} {next : α → Io β} {Q : α → World → Prop}
    (first : Ends Q (m w)) (rest : ∀ a w', Q a w' → Spares A (next a w') w₀) :
    Spares A ((m >>= next) w) w₀ := by
  change Spares A ((m w).bind next) w₀
  cases ran : m w with
  | ret a w' =>
      rw [ran] at first
      exact rest a w' first
  | stop e => trivial
  | call c w' k =>
      rw [ran] at first
      exact first.elim

theorem Keeps.ignoring {m : Res World Callback Fault α} (h : Keeps mild s m w₀) :
    Keeps mild s (m.bind fun _ w => .ret () w) w₀ := by
  induction m generalizing w₀ with
  | ret a w => exact h
  | stop e => trivial
  | call c w k ih =>
      obtain ⟨about, here, mildly, after⟩ := h
      exact ⟨about, here, fun soft => ⟨(mildly soft).1, fun w' =>
        ((mildly soft).2 w').bind fun _ _ same => same⟩, fun w' => ih w' (after w')⟩

/-- A result that is thrown away. -/
theorem Spares.ignoring {m : Io α} (h : Spares A (m w) w₀) : Spares A (ignoring m w) w₀ := by
  change Spares A ((m w).bind _) w₀
  cases ran : m w with
  | ret a w' =>
      rw [ran] at h
      exact h
  | stop e => trivial
  | call c w' k =>
      rw [ran] at h
      obtain ⟨other, here, frames⟩ := h
      exact ⟨other, here, ⟨fun w => (frames.keeps w).ignoring, fun soft w =>
        (frames.mildly soft w).bind fun _ _ same => same⟩⟩

/-- What an allocation finds is another slot than those in use. -/
theorem allocSlot_ends_spared (live : ∀ r ∈ A, (w₀.objs r).state ≠ Cotcp.invalid) (kind : Kind)
    (size : Nat) (before : Spared A w₀ w) :
    Ends (fun slot w' => Spared A w₀ w' ∧ ∀ s, slot = some s → s ∉ A) (allocSlot kind size w) := by
  have scan : ∀ n w, Spared A w₀ w → Spared A w₀ (allocScan kind size n w).2 ∧
      ∀ s, (allocScan kind size n w).1 = some s → s ∉ A := by
    intro n
    induction n with
    | zero => exact fun w before => ⟨before, nofun⟩
    | succ n ih =>
        intro w before
        have bumped : Spared A w₀ (bumpCursor w kind) := before.trans ⟨fun _ _ => rfl, rfl⟩
        unfold allocScan
        simp only
        split
        · next free =>
          have other : (⟨kind, w.cursor kind % size⟩ : Ref) ∉ A := by
            intro used
            rw [before.objs _ used] at free
            exact live _ used free
          refine ⟨bumped.trans ⟨fun r hr => ?_, rfl⟩, fun s found => ?_⟩
          · refine Function.update_of_ne ?_ _ _
            rintro rfl
            exact other hr
          · cases found
            exact other
        · exact ih _ bumped
  apply Ends.attempt
  intro slot w' taken
  have found := scan size w before
  rw [Except.ok.inj taken] at found
  exact found

/-- A function that allocates a slot first, and works on that. -/
theorem alloc_spares {kind : Kind} {size : Nat} {next : Option Ref → Io α}
    (live : ∀ r ∈ A, (w₀.objs r).state ≠ Cotcp.invalid) (before : Spared A w₀ w)
    (without : ∀ w', Spared A w₀ w' → Spares A (next none w') w₀)
    (with' : ∀ s, Minds True s (next (some s))) :
    Spares A ((allocSlot kind size >>= next) w) w₀ := by
  refine Spares.seq (allocSlot_ends_spared live kind size before) fun slot w' found => ?_
  cases slot with
  | none => exact without w' found.1
  | some s => exact (with' s).spares (found.2 s rfl) found.1

section Constructors
variable (live : ∀ r ∈ A, (w₀.objs r).state ≠ Cotcp.invalid) (before : Spared A w₀ w)
include live before

theorem cotcpListen_spares (ud : VPtr) (fnConnect : Option Nat) :
    Spares A (cotcpListen ud fnConnect w) w₀ := by
  refine alloc_spares live before (fun _ spared => spared) fun s => ?_
  refine (getaddrinfo_minds s).bind fun addrs => ?_
  cases addrs with
  | none =>
      exact (freeObject_minds s).bind fun _ => (Minds.setErrno s _).bind fun _ => .pure s none
  | some addrs =>
      refine (openBound_minds s true addrs).bind fun found => ?_
      cases found with
      | none => exact (freeObject_minds s).bind fun _ => .pure s none
      | some found =>
          refine (statusCall_minds s).bind fun status => .ite ?_ ?_
          · exact (Minds.closeFd s _).bind fun _ => (freeObject_minds s).bind fun _ => .pure s none
          · exact (Minds.look s s).bind fun o => (Minds.put s _).bind fun _ =>
              (Minds.copollAdd s _ _).bind fun _ => .pure s (some s)

theorem cotcpConnect_spares (ud : VPtr) (fnConnect fnError : Option Nat) :
    Spares A (cotcpConnect ud fnConnect fnError w) w₀ := by
  refine alloc_spares live before (fun _ spared => spared) fun s => ?_
  refine (getaddrinfo_minds s).bind fun addrs => ?_
  cases addrs with
  | none =>
      exact (freeObject_minds s).bind fun _ => (Minds.setErrno s _).bind fun _ => .pure s false
  | some addrs =>
      refine (openConnecting_minds s addrs).bind fun found => ?_
      cases found with
      | none => exact (freeObject_minds s).bind fun _ => .pure s false
      | some found =>
          obtain ⟨fd, connected⟩ := found
          refine (Minds.look s s).bind fun o => (Minds.put s _).bind fun _ =>
            (Minds.copollAdd s fd _).bind fun _ => .ite ?_ ?_
          · exact (Minds.put s _).bind fun _ => Minds.notify_then fnConnect _ (.pure s true)
              Gentle.refl
          · exact (Minds.put s _).bind fun _ => (Minds.copollRequestWrite s fd _ true).bind
              fun _ => .pure s true

theorem coudpNew_spares (ud : VPtr) (bindaddr : Bool) : Spares A (coudpNew ud bindaddr w) w₀ := by
  refine alloc_spares live before (fun _ spared => spared) fun s => ?_
  refine (getaddrinfo_minds s).bind fun addrs => ?_
  cases addrs with
  | none =>
      exact (Minds.setErrno s _).bind fun _ => (freeObject_minds s).bind fun _ => .pure s none
  | some addrs =>
      refine (openBound_minds s bindaddr addrs).bind fun found => ?_
      cases found with
      | none => exact (freeObject_minds s).bind fun _ => .pure s none
      | some found =>
          exact (Minds.look s s).bind fun o => (Minds.put s _).bind fun _ =>
            (Minds.copollAdd s _ _).bind fun _ => .pure s _

theorem cofdBind_spares (fd : Nat) (ud : VPtr) : Spares A (cofdBind fd ud w) w₀ :=
  alloc_spares live before (fun _ spared => spared) fun s => (Minds.look s s).bind fun _ =>
    (Minds.put s _).bind fun _ => (Minds.copollAdd s fd _).bind fun _ => .pure s (some s)

theorem cotcpHandleAccept_spares (s : Ref) : Spares A (cotcpHandleAccept s w) w₀ := by
  have accepted : Ends (fun _ w' => Spared A w₀ w') (acceptFd w) :=
    (acceptFd_ends (spared_quiet A w₀).same before).mono fun fd w' got => by
      cases fd with
      | none => exact got
      | some fd =>
          obtain ⟨held, -, same⟩ := got
          exact (Spared.trans ⟨held.objs, held.tasks⟩ ⟨fun _ _ => rfl, rfl⟩ :
            Spared A w₀ (opened _ fd)).trans ⟨fun _ _ => by rw [same.objs], same.tasks⟩
  refine Spares.seq accepted fun fd w' before' => ?_
  cases fd with
  | none => exact before'
  | some fd =>
      refine alloc_spares live before' (fun _ spared => ⟨spared.objs, spared.tasks⟩) fun c => ?_
      exact (Minds.look c s).bind fun _ => (Minds.look c c).bind fun _ =>
        (Minds.put c _).bind fun _ => (Minds.copollAdd c fd _).bind fun _ =>
          (Minds.look c s).bind fun tcp => .notify_last c tcp.fnConnect _

end Constructors

/-! ## What the user calls -/

/-- The object that a call is about. -/
def target : Call → Option Ref
  | .cotcpSend r _ | .cotcpClose r _ | .cotcpOnError r _ | .cotcpOnRecv r _ | .cotcpOnClose r _
  | .coudpSend r _ _ | .coudpClose r _ | .coudpOnError r _ | .coudpOnRecv r _
  | .coudpOnClose r _ | .cofdUnbind r | .cofdSend r _ | .cofdOnError r _ | .cofdOnRecv r _
  | .cofdOnClose r _ => some r
  | .cotcpListen .. | .cotcpConnect .. | .coudpNew .. | .cofdBind .. => none

/-- A call about an object minds it. -/
theorem call_minds {c : Call} (typed : c.wellTyped = true) (about : target c = some s) :
    Minds mild s c.run := by
  have dropped {α : Type} {m : Io α} (h : Minds False s m) : Minds mild s (ignoring m) := h.bind fun _ => .pure s ()
  cases c with
  | cotcpListen | cotcpConnect | coudpNew | cofdBind => cases about
  | cotcpSend r data =>
      cases about
      have kind : s.kind = .tcp := of_decide_eq_true typed
      exact dropped (sendData_minds s (queueSendbuf_minds s data) (cotcpHandleWrite_minds kind))
  | cotcpClose r force =>
      cases about
      have kind : s.kind = .tcp := of_decide_eq_true typed
      exact dropped (closeRequest_minds closeObject_destroys s force (cotcpHandleWrite_minds kind))
  | coudpSend r data addr =>
      cases about
      have kind : s.kind = .udp := of_decide_eq_true typed
      exact dropped (sendData_minds s (queueSendlist_minds s addr data)
        (coudpHandleWrite_minds kind))
  | coudpClose r force =>
      cases about
      have kind : s.kind = .udp := of_decide_eq_true typed
      exact dropped (closeRequest_minds closeObject_destroys s force (coudpHandleWrite_minds kind))
  | cofdSend r data =>
      cases about
      have kind : s.kind = .fd := of_decide_eq_true typed
      exact dropped (sendData_minds s (queueSendbuf_minds s data) (cofdHandleWrite_minds kind))
  | cofdUnbind r =>
      cases about
      exact (Minds.lifeOf s s).bind fun begun => dropped (cofdUnbind_minds s _ begun)
  | cotcpOnError r fn | cotcpOnRecv r fn | cotcpOnClose r fn | coudpOnError r fn
  | coudpOnRecv r fn | coudpOnClose r fn | cofdOnError r fn | cofdOnRecv r fn
  | cofdOnClose r fn =>
      cases about
      exact dropped (register_minds _ _ s)

/-- A call spares the objects in use that it is not about. -/
theorem call_spares {c : Call} (typed : c.wellTyped = true)
    (live : ∀ r ∈ A, (w.objs r).state ≠ Cotcp.invalid) (other : ∀ r ∈ A, target c ≠ some r) :
    Spares A (c.run w) w := by
  have here := Spared.refl A w
  cases about : target c with
  | some s =>
      have apart : s ∉ A := fun among => other s among about
      have minds : Minds False s c.run := call_minds typed about
      exact minds.spares apart here
  | none =>
      cases c with
      | cotcpListen ud fn => exact (cotcpListen_spares live here ud fn).ignoring
      | cotcpConnect ud fnc fne => exact (cotcpConnect_spares live here ud fnc fne).ignoring
      | coudpNew ud bindaddr => exact (coudpNew_spares live here ud bindaddr).ignoring
      | cofdBind fd ud => exact (cofdBind_spares live here fd ud).ignoring
      | _ => cases about

/-! ## What the event loop runs -/

theorem cotcpHandleConnect_minds (s : Ref) : Minds True s (cotcpHandleConnect s) := by
  have failed (begun : Nat) (text : ErrorText) : Minds True s (do
      let o ← look s
      notify s o.fnError (.error text)
      cotcpTeardown s .error begun) :=
    (Minds.look s s).bind fun o => (Minds.notify s o.fnError rfl).bind fun _ =>
      closeObject_destroys _ s .error begun
  refine (Minds.lifeOf s s).bind fun begun => (syscall_minds s).bind fun answer => ?_
  cases answer with
  | failed e => exact failed begun _
  | soError e =>
      refine (Minds.look s s).bind fun o => .ite ?_ ?_
      · exact (Minds.notify s o.fnError rfl).bind fun _ => closeObject_destroys _ s .error begun
      · exact (Minds.put s _).bind fun _ => Minds.notify_last s o.fnConnect _
  | _ => exact Minds.checked s _

theorem runHandler_minds (h : Handler) (s : Ref) : Minds True s (runHandler h s) := by
  unfold runHandler
  cases h <;> cases kind : s.kind
  · exact handleRead_minds closeObject_destroys _ _ s
  · exact handleRead_minds closeObject_destroys _ _ s
  · exact handleRead_minds cofdTeardown_destroys _ _ s
  · exact cotcpHandleWrite_minds kind
  · exact coudpHandleWrite_minds kind
  · exact cofdHandleWrite_minds kind
  · exact handleError_minds closeObject_destroys s
  · exact handleError_minds closeObject_destroys s
  · exact handleError_minds cofdTeardown_destroys s

/-- The branches of `_coios_process_event`. -/
theorem coiosProcessEvent_cases (ev : Pollevent) (w : World) :
    (∃ f, coiosProcessEvent ev w = .stop f) ∨ coiosProcessEvent ev w = .ret () w ∨
    ∃ s, ev.ud = .obj s ∧
      ((s.kind = .tcp ∧ (w.objs s).state = Cotcp.listen ∧
          coiosProcessEvent ev w = cotcpHandleAccept s w) ∨
        (s.kind = .tcp ∧ (w.objs s).state = Cotcp.connecting ∧
          coiosProcessEvent ev w = cotcpHandleConnect s w) ∨
        ((s.kind = .tcp → (w.objs s).state ≠ Cotcp.connecting) ∧
          coiosProcessEvent ev w = .ret () { w with tasks := eventTasks ev s })) := by
  unfold coiosProcessEvent
  cases named : ev.ud with
  | null => exact .inl ⟨_, rfl⟩
  | mem a => exact .inl ⟨_, rfl⟩
  | obj s =>
      simp only [bind_apply, look_apply, ret_bind]
      cases kind : s.kind with
      | tcp =>
          simp only
          split
          · next listening => exact .inr (.inr ⟨s, rfl, .inl ⟨kind, listening, rfl⟩⟩)
          · split
            · next connecting => exact .inr (.inr ⟨s, rfl, .inr (.inl ⟨kind, connecting, rfl⟩)⟩)
            · next other =>
              split
              · exact .inr (.inl rfl)
              · exact .inr (.inr ⟨s, rfl, .inr (.inr ⟨fun _ => other, rfl⟩)⟩)
      | udp =>
          simp only
          split
          · exact .inr (.inr ⟨s, rfl, .inr (.inr ⟨(nomatch kind.symm.trans ·), rfl⟩)⟩)
          · exact .inr (.inl rfl)
      | fd =>
          simp only
          split
          · exact .inr (.inr ⟨s, rfl, .inr (.inr ⟨(nomatch kind.symm.trans ·), rfl⟩)⟩)
          · exact .inr (.inl rfl)

/-! ## A connection attempt hears of its outcome -/

/-- An object whose connection attempt is not decided, and what was left with it. -/
structure Connecting (fnc fne : Nat) (ud : VPtr) (o : Coio) : Prop where
  state : o.state = Cotcp.connecting
  ud : o.ud = ud
  fnConnect : o.fnConnect = some fnc
  fnError : o.fnError = some fne

/-- The callback that tells about `r`, which still has its user data. -/
def Tells (r : Ref) (fnc fne : Nat) (ud : VPtr) (c : Callback) (w : World) : Prop :=
  c.ref = r ∧ (w.objs r).ud = ud ∧
    (c.notice = .connect ∧ c.fn = fnc ∨ ∃ text, c.notice = .error text ∧ c.fn = fne)

/-- The attempt on `r` stays undecided, or the code tells its outcome. -/
def Hears (r : Ref) (fnc fne : Nat) (ud : VPtr) : Res World Callback Fault Unit → Prop
  | .ret _ w => Connecting fnc fne ud (w.objs r)
  | .stop _ => True
  | .call c w _ => Tells r fnc fne ud c w

section Outcome
variable {fnc fne : Nat} {ud : VPtr}

theorem Connecting.live {o : Coio} (h : Connecting fnc fne ud o) : o.state ≠ Cotcp.invalid := by
  rw [h.state]
  decide

theorem handleError_hears {teardown : Ref → Cause → Nat → Io Unit}
    (h : Connecting fnc fne ud (w.objs r)) :
    Hears r fnc fne ud (handleError teardown r w) := by
  unfold handleError
  simp only [bind_apply, look_apply, ret_bind, if_neg h.live, lifeOf_apply]
  have text : Ends (fun _ w' => w'.objs = w.objs) (errorText w) :=
    errorText_ends (fun _ _ same core => core.objs.trans same) rfl
  cases ran : errorText w with
  | stop e => trivial
  | call c w' k =>
      rw [ran] at text
      exact text.elim
  | ret text' w' =>
      rw [ran] at text
      have objs : w'.objs = w.objs := text
      simp only [ret_bind, h.fnError, notify, bind_apply, lifeOf_apply, record_apply]
      exact ⟨rfl, by rw [note_objs, objs, h.ud], .inr ⟨text', rfl, rfl⟩⟩

theorem cotcpHandleConnect_hears (h : Connecting fnc fne ud (w.objs r)) :
    Hears r fnc fne ud (cotcpHandleConnect r w) := by
  unfold cotcpHandleConnect
  simp only [bind_apply, lifeOf_apply, ret_bind]
  have asked : Ends (fun _ w' => w'.objs = w.objs) (syscall w) :=
    syscall_ends (fun _ _ same core => core.objs.trans same) rfl
  cases ran : syscall w with
  | stop e => trivial
  | call c w' k =>
      rw [ran] at asked
      exact asked.elim
  | ret answer w' =>
      rw [ran] at asked
      have objs : w'.objs = w.objs := asked
      cases answer with
      | failed e =>
          simp only [bind_apply, look_apply, ret_bind, objs, h.fnError, notify, lifeOf_apply,
            record_apply]
          exact ⟨rfl, by rw [note_objs, objs, h.ud], .inr ⟨_, rfl, rfl⟩⟩
      | soError e =>
          simp only [bind_apply, look_apply, ret_bind, objs]
          split
          · simp only [bind_apply, h.fnError, notify, lifeOf_apply, record_apply, ret_bind]
            exact ⟨rfl, by rw [note_objs, objs, h.ud], .inr ⟨_, rfl, rfl⟩⟩
          · simp only [bind_apply, put_apply, ret_bind, h.fnConnect, notify, lifeOf_apply,
              record_apply]
            exact ⟨rfl, by rw [note_objs, setObj_self, h.ud], .inl ⟨rfl, rfl⟩⟩
      | _ => trivial

/-- The outcome of an attempt is always told. -/
theorem cotcpHandleConnect_calls (h : Connecting fnc fne ud (w.objs r)) {outcome : Answer}
    {more : List Answer} (answers : w.answers = outcome :: more)
    (known : (∃ e, outcome = .failed e) ∨ ∃ e, outcome = .soError e) :
    ∃ c w' rest, cotcpHandleConnect r w = .call c w' rest := by
  obtain ⟨w₁, asked, ⟨objs, -⟩⟩ := syscall_asked answers
  unfold cotcpHandleConnect
  obtain ⟨e, rfl⟩ | ⟨e, rfl⟩ := known
  · simp only [bind_apply, lifeOf_apply, ret_bind, asked, look_apply, objs, h.fnError, notify,
      record_apply]
    exact ⟨_, _, _, rfl⟩
  · simp only [bind_apply, lifeOf_apply, ret_bind, asked, look_apply, objs]
    split
    · simp only [bind_apply, h.fnError, notify, lifeOf_apply, record_apply, ret_bind]
      exact ⟨_, _, _, rfl⟩
    · simp only [bind_apply, put_apply, ret_bind, h.fnConnect, notify, lifeOf_apply, record_apply]
      exact ⟨_, _, _, rfl⟩

theorem Connecting.queued {w' : World} (h : Connecting fnc fne ud (w.objs r))
    (queued : Queued r w w') : Connecting fnc fne ud (w'.objs r) := by
  obtain ⟨sendbuf, sendlist, objs⟩ := queued.objs
  rw [objs, Function.update_self]
  exact ⟨h.state, h.ud, h.fnConnect, h.fnError⟩

/-- A write handler finds nothing to close. -/
theorem cotcpHandleWrite_hears (kind : r.kind = .tcp) (h : Connecting fnc fne ud (w.objs r)) :
    Hears r fnc fne ud (cotcpHandleWrite r w) := by
  unfold cotcpHandleWrite handleWrite
  simp only [bind_apply, look_apply, ret_bind, if_neg h.live]
  have flushed := flushOf_ends (r := r) (w := w)
  have flush : flushOf r.kind = flushSendbuf := by rw [kind]; rfl
  rw [flush] at flushed
  cases ran : flushSendbuf r w with
  | stop e => trivial
  | call c w' k =>
      rw [ran] at flushed
      exact flushed.elim
  | ret out w' =>
      have sent : flushOf r.kind r w = .ret out w' := by rw [flush, ran]
      have h' := h.queued (flushOf_queued sent)
      cases out with
      | later => exact h'
      | failed => exact handleError_hears h'
      | drained =>
          have open' : ¬ (w'.objs r).state = Cotcp.closing := by rw [h'.state]; decide
          simp only [ret_bind, cotcpCheckClosing, checkClosing, bind_apply, look_apply,
            if_neg open', modify_apply]
          change Connecting fnc fne ud ((World.copollRequestWrite w' _ _ _).objs r)
          rw [copollRequestWrite_objs]
          exact h'

theorem runHandler_hears (kind : r.kind = .tcp) (h : Connecting fnc fne ud (w.objs r))
    {handler : Handler} (later : handler ≠ .read) :
    Hears r fnc fne ud (runHandler handler r w) := by
  unfold runHandler
  cases handler with
  | read => exact absurd rfl later
  | write =>
      simp only [kind]
      exact cotcpHandleWrite_hears kind h
  | error =>
      simp only [kind]
      exact handleError_hears h

/-- Of the calls about the object only a close and a new error callback touch the attempt. -/
theorem call_hears {c : Call} (typed : c.wellTyped = true) (kind : r.kind = .tcp)
    (about : target c = some r) (kept : ∀ force, c ≠ .cotcpClose r force)
    (told : ∀ fn, c ≠ .cotcpOnError r fn) (h : Connecting fnc fne ud (w.objs r)) :
    Hears r fnc fne ud (c.run w) := by
  have taken {fn : Coio → Coio} {accepts : Coio → Bool}
      (same : Connecting fnc fne ud (fn (w.objs r))) :
      Hears r fnc fne ud (ignoring (register accepts fn r) w) := by
    unfold ignoring register
    simp only [bind_apply, look_apply, ret_bind]
    split
    · simp only [bind_apply, put_apply, ret_bind, pure_apply]
      change Connecting fnc fne ud ((w.setObj r _).objs r)
      rw [setObj_self]
      exact same
    · exact h
  cases c with
  | cotcpSend s data =>
      cases about
      have open' : (w.objs r).state ≠ Cotcp.connected := by rw [h.state]; decide
      simp only [Call.run, ignoring, cotcpSend, sendData, bind_apply, look_apply, ret_bind,
        if_pos (Or.inl open' : _ ∨ data = []), pure_apply]
      exact h
  | cotcpClose s force =>
      cases about
      exact absurd rfl (kept force)
  | cotcpOnError s fn =>
      cases about
      exact absurd rfl (told fn)
  | cotcpOnRecv s fn | cotcpOnClose s fn =>
      cases about
      exact taken ⟨h.state, h.ud, h.fnConnect, h.fnError⟩
  | cotcpListen | cotcpConnect | coudpNew | cofdBind => cases about
  | coudpSend | coudpClose | coudpOnError | coudpOnRecv | coudpOnClose | cofdUnbind | cofdSend
  | cofdOnError | cofdOnRecv | cofdOnClose =>
      cases about
      rw [Call.wellTyped, decide_eq_true_eq, kind] at typed
      cases typed

end Outcome

end Colinlib.Source.IoFrames
