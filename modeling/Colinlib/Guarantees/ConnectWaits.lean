import Colinlib.Guarantees.BlockedCalls
import Colinlib.Source.IoFrames

/-!
# Wake-ups of `cort_tcp_connect`

`cort_tcp_connect` does not look at what `cotcp_connect` returns. The coroutine is woken
only where the attempt is still undecided when it yields, and where nothing but its outcome
touches the object until then. The invariant names the object of each call that is blocked,
and says what the suspended library code can still do to it.
-/
namespace Colinlib.Guarantees.ConnectWaits
open Colinlib.Theory Colinlib.Theory.CMemory Colinlib.Theory.Callbacks
open Colinlib.Theory.Runs (lift lift_ok)
open Colinlib.Source.Routine Colinlib.Source.IoWorld Colinlib.Source.IoService
open Colinlib.Source.EventLoop Colinlib.Source.IoChanges Colinlib.Source.IoFrames
open Colinlib.Source.BlockingTcp
open Colinlib.Source.IoTrace (look_apply put_apply allocScan_kind nextSlot_congr)
open Colinlib.Guarantees.SchedulerDiscipline (Inv resume_inv)
open Colinlib.Guarantees.BlockedCalls

/-! ## Blocked connects -/

/-- `co` is in the `cort_yield` of `cort_tcp_connect`, with its data at `a`. -/
def Connects (p : Process) (co a : Nat) : Prop :=
  p.inside co = some a ∧ ∃ tcp, p.data a = some (.conn co tcp)

/-- The attempt in `r` will be reported to the call with its data at `a`. -/
structure Awaits (w : World) (a : Nat) (r : Ref) : Prop where
  kind : r.kind = .tcp
  attempt : Connecting onTcpConnected onTcpConnectError (.mem a) (w.objs r)

/-- No code is under way that destroys the object in `r` when its callback returns. -/
def Unharmed (p : Process) (r : Ref) : Prop :=
  ∀ c, ∀ f ∈ p.frames c, parting f.1.notice = true → f.1.ref ≠ r

/-- `att` names the object of each blocked connect. -/
structure Core (p : Process) (att : Nat → Ref) : Prop extends Blocked p where
  waits : ∀ co a, Connects p co a → Awaits p.world a (att a)
  alone : ∀ co a, Connects p co a → Unharmed p (att a)
  framed : ∀ c, ∀ f ∈ p.frames c, Frames f.1 f.2

/-- The objects of all blocked connects. -/
def awaited (p : Process) (att : Nat → Ref) : Set Ref := {r | ∃ co a, Connects p co a ∧ att a = r}

variable {p : Process} {att : Nat → Ref} {w : World}

theorem Core.live (h : Core p att) : ∀ r ∈ awaited p att, (p.world.objs r).state ≠ Cotcp.invalid := by
  rintro r ⟨co, a, connects, rfl⟩
  exact (h.waits co a connects).attempt.live

theorem Core.world (h : Core p att) (same : ∀ r ∈ awaited p att, w.objs r = p.world.objs r) :
    Core { p with world := w } att :=
  { h with
    waits := fun co a connects => by
      obtain ⟨kind, attempt⟩ := h.waits co a connects
      have here : w.objs (att a) = p.world.objs (att a) := same _ ⟨co, a, connects, rfl⟩
      exact ⟨kind, here ▸ attempt⟩ }

theorem Core.gentle (h : Core p att) (gentle : Gentle p.world w) : Core { p with world := w } att :=
  { h with
    waits := fun co a connects => by
      obtain ⟨kind, attempt⟩ := h.waits co a connects
      have alike : Alike _ (w.objs (att a)) := gentle.objs (att a)
      exact ⟨kind, alike.state.trans attempt.state, alike.ud.trans attempt.ud,
        alike.fnConnect.trans attempt.fnConnect, alike.fnError.trans attempt.fnError⟩ }

theorem Core.push (h : Core p att) (co : Nat) (f : Frame) (frames : Frames f.1 f.2)
    (other : f.1.ref ∉ awaited p att) : Core (p.push co f) att :=
  { h with
    alone := fun c a connects d g among last => by
      rcases mem_push among with rfl | among
      · exact fun same => other ⟨c, a, connects, same.symm⟩
      · exact h.alone c a connects d g among last
    framed := fun c g among => by
      rcases mem_push among with rfl | among
      · exact frames
      · exact h.framed c g among }

theorem Core.pop (h : Core p att) {co : Nat} {f : Frame} {below : List Frame}
    (top : p.frames co = f :: below) :
    Core { p with frames := Function.update p.frames co below } att :=
  { h with
    alone := fun c a connects d g among => h.alone c a connects d g (mem_pop top among)
    framed := fun c g among => h.framed c g (mem_pop top among) }

/-! ## The data of a call -/

theorem connects_fill {a co b : Nat} {d d' : CallData} (held : p.data a = some d)
    (fills : Fills d d') (now : Connects (p.setData a (some d')) co b) : Connects p co b := by
  obtain ⟨inside, tcp, data⟩ := now
  refine ⟨inside, ?_⟩
  by_cases here : b = a
  · subst here
    simp only [Process.setData, Function.update_self] at data
    cases data
    cases fills with
    | conn co tcp tcp' => exact ⟨_, held⟩
  · simp only [Process.setData, Function.update_of_ne here] at data
    exact ⟨tcp, data⟩

theorem Core.fill (h : Core p att) {a : Nat} {d d' : CallData} (held : p.data a = some d)
    (fills : Fills d d') : Core (p.setData a (some d')) att where
  toBlocked := h.toBlocked.fill held fills
  waits co b now := h.waits co b (connects_fill held fills now)
  alone co b now := h.alone co b (connects_fill held fills now)
  framed := h.framed

theorem awaited_fill {a : Nat} {d d' : CallData} (held : p.data a = some d) (fills : Fills d d')
    {r : Ref} (other : r ∉ awaited p att) : r ∉ awaited (p.setData a (some d')) att := by
  rintro ⟨co, b, now, rfl⟩
  exact other ⟨co, b, connects_fill held fills now, rfl⟩

theorem Core.connects_store (h : Core p att) {a : Nat} (unused : p.data a = none) {d : CallData}
    {co b : Nat} (now : Connects (p.storeAt a d) co b) : Connects p co b := by
  obtain ⟨inside, tcp, data⟩ := now
  simp only [Process.storeAt, Function.update_of_ne (h.toBlocked.unused unused inside)] at data
  exact ⟨inside, tcp, data⟩

theorem Core.store (h : Core p att) {a : Nat} (unused : p.data a = none) (d : CallData) :
    Core (p.storeAt a d) att where
  toBlocked := h.toBlocked.store unused d
  waits co b now := h.waits co b (h.connects_store unused now)
  alone co b now := h.alone co b (h.connects_store unused now)
  framed := h.framed

/-! ## Control transfers -/

/-- The same process with `co` out of its blocking call. -/
def outOf (p : Process) (co : Nat) : Process :=
  { p with inside := Function.update p.inside co none }

theorem outOf_inside {co c a : Nat} (inside : (outOf p co).inside c = some a) :
    c ≠ co ∧ p.inside c = some a := by
  by_cases here : c = co
  · subst here
    simp only [outOf, Function.update_self] at inside
    cases inside
  · simp only [outOf, Function.update_of_ne here] at inside
    exact ⟨here, inside⟩

theorem Core.released (h : Core p att) (co : Nat) : Core (outOf p co) att where
  sched := h.sched
  suspended c a inside := h.suspended c a (outOf_inside inside).2
  owned c a inside := h.owned c a (outOf_inside inside).2
  waits c a connects := h.waits c a ⟨(outOf_inside connects.1).2, connects.2⟩
  alone c a connects := h.alone c a ⟨(outOf_inside connects.1).2, connects.2⟩
  framed := h.framed

theorem connects_settle {m : Machine} (blocked : Blocked p) {c a : Nat}
    (now : Connects ({ p with machine := m } : Process).settle c a) :
    Connects (outOf p m.exec) c a := by
  obtain ⟨inside, tcp, held⟩ := now
  obtain ⟨other, inside⟩ := settle_inside inside
  obtain ⟨d, data, own⟩ := blocked.owned c a inside
  have kept := settle_kept (blocked.owned m.exec) data (own ▸ other)
  rw [held] at kept
  exact ⟨(Function.update_of_ne other _ _).trans inside, tcp, data.trans kept.symm⟩

/-- What the coroutine that gets the processor waited for does not matter any more. -/
theorem Core.moved {m : Machine} (blocked : Blocked p) (h : Core (outOf p m.exec) att)
    (sched : ∃ below, Inv m below)
    (kept : ∀ co, co ≠ m.exec → Suspended p.machine co → Suspended m co) :
    Core ({ p with machine := m } : Process).settle att where
  toBlocked := blocked.moved sched kept
  waits c a now := h.waits c a (connects_settle blocked now)
  alone c a now := h.alone c a (connects_settle blocked now)
  framed := h.framed

/-- The `cort_yield` at the end of a blocking function. -/
theorem Core.block {p' : Process} (h : Core p att) {a : Nat} {d : CallData}
    (away : p.machine.sch.running ≠ mainCoId) (held : p.data a = some d)
    (own : d.co = p.machine.sch.running)
    (new : ∀ tcp, d = .conn p.machine.sch.running tcp →
      Awaits p.world a (att a) ∧ Unharmed p (att a))
    (ran : (p.waitAt p.machine.sch.running a).block = .ok p') :
    Core p' att ∧ p'.world = p.world := by
  obtain ⟨blocked, m, -, rfl⟩ := h.toBlocked.enter away held own ran
  have waits {c b : Nat} (now : Connects { p with
      machine := m
      inside := Function.update p.inside p.machine.sch.running (some a)
      asleep := Function.update p.asleep m.exec none } c b) :
      Awaits p.world b (att b) ∧ Unharmed p (att b) := by
    obtain ⟨inside, tcp, stored⟩ := now
    by_cases here : c = p.machine.sch.running
    · subst here
      simp only [Function.update_self, Option.some.injEq] at inside
      subst inside
      exact new tcp (Option.some.inj (held.symm.trans stored))
    · simp only [Function.update_of_ne here] at inside
      have connects : Connects p c b := ⟨inside, tcp, stored⟩
      exact ⟨h.waits c b connects, h.alone c b connects⟩
  exact ⟨{ blocked with
    waits := fun c b now => (waits now).1
    alone := fun c b now => (waits now).2
    framed := h.framed }, rfl⟩

/-! ## Library code -/

/-- A callback about a blocked connect, where its coroutine can be resumed. -/
theorem tells_runs {c : Callback} {r : Ref} {a co : Nat} {tcp : Option Ref} {m : Machine}
    (tells : Tells r onTcpConnected onTcpConnectError (.mem a) c p.world)
    (data : p.data a = some (.conn co tcp)) (resumes : cortResume p.machine co = .ok (true, m)) :
    ∃ run d', body c = some run ∧ Fills (.conn co tcp) d' ∧
      run p = .ok (true, { p.setData a (some d') with machine := m }) := by
  obtain ⟨rfl, named, ⟨notice, fn⟩ | ⟨text, notice, fn⟩⟩ := tells
  · refine ⟨Process.tcpConnected c.ref, _, ?_, .conn co tcp (some c.ref), ?_⟩
    · simp only [body, notice, fn, if_pos]
    · simp only [Process.tcpConnected, connData_of named data, ok_bind, Process.resume,
        Process.setData, resumes]
  · refine ⟨Process.tcpConnectError c.ref, _, ?_, .conn co tcp tcp, ?_⟩
    · have other : ¬ onTcpConnectError = onTcpError := by decide
      simp only [body, notice, fn, if_neg other, if_pos]
    · simp only [Process.tcpConnectError, connData_of named data, ok_bind, Process.resume, resumes,
        setData_same data]

/-- Whoever is resumed returns from a blocking call it may be in. -/
theorem Core.resumed {co : Nat} {m : Machine} (h : Core (outOf p m.exec) att) (blocked : Blocked p)
    (ran : cortResume p.machine co = .ok (true, m)) :
    Core ({ p with machine := m } : Process).settle att := by
  obtain ⟨below, sched⟩ := blocked.sched
  have taken : Source.Routine.step p.machine (.resume co) = .ok m := by
    simp only [Source.Routine.step, ran, ok_bind]
  exact Core.moved blocked h (SchedulerDiscipline.step_inv sched taken)
    fun c other asleep => step_kept sched taken asleep other

/-- Library code that works on other objects than those of the blocked connects. -/
theorem Core.advance (m : Res World Callback Fault Unit) : ∀ {p p' : Process} {done : Bool},
    Core p att → Spares (awaited p att) m p.world → p.advance m = .ok (done, p') →
    Core p' att ∧ p'.world.tasks = p.world.tasks := by
  induction m with
  | ret u w =>
      intro p p' done h spares ran
      cases ran
      exact ⟨h.world spares.objs, spares.tasks⟩
  | stop e =>
      intro p p' done h spares ran
      cases ran
  | call c w rest ih =>
      intro p p' done h spares ran
      obtain ⟨other, spared, frames⟩ := spares
      have now := h.world spared.objs
      simp only [Process.advance] at ran
      split at ran
      · cases ran
        exact ⟨now.push _ (c, rest) frames other, spared.tasks⟩
      · next run is =>
        split at ran
        · cases ran
        · next q done' =>
          obtain ⟨a, d, d', done⟩ := body_ran is done'
          obtain ⟨m, buffs, resumed, rfl⟩ := done.resumed
          cases ran
          have pushed := (now.push p.machine.exec (c, rest) frames other).fill done.held done.fills
          have here : Core { (({ p with world := w } : Process).push p.machine.exec
              (c, rest)).setData a (some d') with buffs := buffs } att := { pushed with }
          exact ⟨(here.released m.exec).resumed here.toBlocked resumed, spared.tasks⟩
        · next q done' =>
          obtain ⟨a, d, d', done⟩ := body_ran is done'
          obtain ⟨m, buffs, resumed, rfl⟩ := done.resumed
          obtain ⟨below, sched⟩ := h.sched
          obtain rfl := resume_refused sched resumed
          have filled := now.fill done.held done.fills
          have here : Core { ({ p with world := w } : Process).setData a (some d') with
              buffs := buffs } att := { filled with }
          have apart : c.ref ∉ awaited _ att := awaited_fill done.held done.fills other
          obtain ⟨core, tasks⟩ := ih w here ((frames.keeps w).spares apart (Spared.refl _ _)) ran
          exact ⟨core, tasks.trans spared.tasks⟩

/-- A callback that tells about a blocked connect resumes it. -/
theorem Core.wakes (h : Core p att) {c : Callback} (rest : World → Res World Callback Fault Unit)
    {co a : Nat} (connects : Connects p co a)
    (tells : Tells (att a) onTcpConnected onTcpConnectError (.mem a) c w) :
    ∃ p', p.advance (.call c w rest) = .ok (false, p') ∧ p'.machine.exec = co ∧
      p'.inside co = none ∧ p'.world = w ∧
      (Local (att a) p.world w → Frames c rest → Core p' att) := by
  obtain ⟨below, sched⟩ := h.sched
  obtain ⟨inside, tcp, data⟩ := connects
  obtain ⟨cort, held, status⟩ := h.suspended co a inside
  obtain ⟨m, resumed, exec, -⟩ := resume_inv sched held status
  obtain ⟨run, d', is, fills, ran⟩ :=
    tells_runs (p := { p with world := w }) tells data resumed
  refine ⟨(Process.push { ({ p with world := w } : Process).setData a (some d') with machine := m }
    p.machine.exec (c, rest)).settle, ?_, ?_, ?_, ?_, fun here frames => ?_⟩
  · simp only [Process.advance, is, ran]
  · exact exec
  · cases left : (Process.settle _).inside co with
    | none => rfl
    | some b => exact absurd exec.symm (settle_inside left).1
  · rfl
  · -- the call is over for the invariant before the object changes
    have ended := h.released co
    have apart : att a ∉ awaited (outOf p co) att := by
      rintro ⟨c', b, now, same⟩
      obtain ⟨other, inside'⟩ := outOf_inside now.1
      obtain ⟨e, data', own⟩ := h.owned c' b inside'
      have mine := (h.waits co a ⟨inside, tcp, data⟩).attempt.ud
      have yours := (h.waits c' b ⟨inside', now.2⟩).attempt.ud
      rw [same, mine] at yours
      cases yours
      rw [data] at data'
      cases data'
      exact other own.symm
    have about : c.ref = att a := tells.1
    have pushed := (ended.world (here.spared apart).objs).push p.machine.exec (c, rest) frames
      (by rw [about]; exact apart)
    have filled := pushed.fill (a := a) data fills
    have blocked : Blocked ((({ p with world := w } : Process).push p.machine.exec
        (c, rest)).setData a (some d')) := { h.toBlocked.fill data fills with }
    subst exec
    exact Core.resumed (p := (({ p with world := w } : Process).push p.machine.exec
      (c, rest)).setData a (some d')) filled blocked resumed

/-- Library code that works on the object of a blocked connect. -/
theorem Core.heard {p' : Process} {done : Bool} (h : Core p att) {co a : Nat}
    (connects : Connects p co a) {m : Res World Callback Fault Unit}
    (keeps : Keeps True (att a) m p.world)
    (hears : Hears (att a) onTcpConnected onTcpConnectError (.mem a) m)
    (ran : p.advance m = .ok (done, p')) : Core p' att ∧ p'.world.tasks = p.world.tasks := by
  cases m with
  | ret u w =>
      cases ran
      have here : Local (att a) p.world w := keeps
      refine ⟨{ h with waits := fun c b now => ?_ }, here.tasks⟩
      have before := h.waits c b now
      by_cases same : att b = att a
      · have attempt : Connecting onTcpConnected onTcpConnectError (.mem a) (w.objs (att a)) := hears
        have mine := (h.waits co a connects).attempt.ud
        rw [← same, before.attempt.ud] at mine
        cases mine
        exact ⟨before.kind, attempt⟩
      · exact ⟨before.kind, by rw [here.objs _ same]; exact before.attempt⟩
  | stop e => cases ran
  | call c w rest =>
      obtain ⟨about, here, mildly, after⟩ := keeps
      obtain ⟨p₁, advanced, -, -, world, core⟩ := h.wakes rest connects hears
      rw [advanced] at ran
      cases ran
      have frames : Frames c rest := ⟨by rw [about]; exact after, fun soft => (mildly soft).2⟩
      exact ⟨core here frames, by rw [world]; exact here.tasks⟩

/-! ## An attempt that stays undecided -/

/-- The first address whose `socket` and `connect` do not fail is answered with
`EINPROGRESS`. -/
inductive Pends : List Addr → List Answer → Prop
  | pending (a : Addr) (addrs : List Addr) (fd : Nat) (rest : List Answer) :
      Pends (a :: addrs) (.descriptor fd :: .failed einprogress :: rest)
  | noSocket (a : Addr) {addrs : List Addr} (e : Nat) {rest : List Answer} :
      Pends addrs rest → Pends (a :: addrs) (.failed e :: rest)
  | refused (a : Addr) {addrs : List Addr} (fd : Nat) {e : Nat} {rest : List Answer} :
      e ≠ einprogress → Pends addrs rest → Pends (a :: addrs) (.descriptor fd :: .failed e :: rest)

theorem socket_failed {e : Nat} {rest : List Answer} (now : w.answers = .failed e :: rest) :
    Ends (fun fd w' => fd = none ∧ Asked w rest w') (socket w) := by
  obtain ⟨w', ran, asked⟩ := syscall_asked now
  unfold socket
  rw [bind_apply, ran]
  exact ⟨rfl, asked⟩

theorem socket_opened {fd : Nat} {rest : List Answer} (now : w.answers = .descriptor fd :: rest) :
    Ends (fun found w' => found = some fd ∧ Asked w rest w') (socket w) := by
  obtain ⟨w', ran, asked⟩ := syscall_asked now
  unfold socket
  rw [bind_apply, ran, ret_bind]
  have opened : Ends (fun _ w'' => Asked w rest w'') (openFd fd w') := by
    refine Ends.attempt fun u w'' ran => ?_
    split at ran
    · cases ran
    · cases ran
      exact ⟨asked.objs, asked.answers⟩
  exact Ends.seq opened fun _ _ asked => ⟨rfl, asked⟩

theorem statusCall_failed {e : Nat} {rest : List Answer} (now : w.answers = .failed e :: rest) :
    Ends (fun status w' => status = some e ∧ Asked w rest w') (statusCall w) := by
  obtain ⟨w', ran, asked⟩ := syscall_asked now
  unfold statusCall
  rw [bind_apply, ran]
  exact ⟨rfl, asked⟩

theorem openConnecting_pends {addrs : List Addr} {answers : List Answer}
    (pends : Pends addrs answers) (now : w.answers = answers) :
    Ends (fun found w' => (∃ fd, found = some (fd, false)) ∧ w'.objs = w.objs)
      (openConnecting addrs w) := by
  induction pends generalizing w with
  | pending a addrs fd rest =>
      refine Ends.seq (socket_opened now) fun found w₁ opened => ?_
      obtain ⟨rfl, opened⟩ := opened
      refine Ends.seq (statusCall_failed opened.answers) fun status w₂ asked => ?_
      obtain ⟨rfl, asked⟩ := asked
      exact ⟨⟨fd, rfl⟩, asked.objs.trans opened.objs⟩
  | noSocket a e pends ih =>
      refine Ends.seq (socket_failed now) fun found w₁ asked => ?_
      obtain ⟨rfl, asked⟩ := asked
      exact (ih asked.answers).mono fun _ _ rest => ⟨rest.1, rest.2.trans asked.objs⟩
  | @refused a addrs fd e rest other pends ih =>
      refine Ends.seq (socket_opened now) fun found w₁ opened => ?_
      obtain ⟨rfl, opened⟩ := opened
      refine Ends.seq (statusCall_failed opened.answers) fun status w₂ asked => ?_
      obtain ⟨rfl, asked⟩ := asked
      simp only [if_neg other]
      refine (ih (w := w₂.close fd) asked.answers).mono fun _ _ rest => ⟨rest.1, ?_⟩
      exact rest.2.trans (asked.objs.trans opened.objs)

theorem getaddrinfo_found {addrs : List Addr} {rest : List Answer}
    (now : w.answers = .addresses addrs :: rest) :
    Ends (fun found w' => found = some addrs ∧ Asked w rest w') (getaddrinfo w) := by
  obtain ⟨w', ran, asked⟩ := syscall_asked now
  unfold getaddrinfo
  rw [bind_apply, ran]
  exact ⟨rfl, asked⟩

theorem allocScan_answers (kind : Kind) (size n : Nat) (w : World) :
    (allocScan kind size n w).2.answers = w.answers := by
  induction n generalizing w with
  | zero => rfl
  | succ n ih =>
      unfold allocScan
      simp only
      split
      · rfl
      · exact ih _

/-- An attempt that pends leaves an object that goes by the data of the call. -/
theorem cotcpConnect_pends (a : Nat) {slot : Ref} {addrs : List Addr} {rest : List Answer}
    (free : nextSlot w .tcp = some slot) (answers : w.answers = .addresses addrs :: rest)
    (pends : Pends addrs rest) :
    Ends (fun _ w' => Connecting onTcpConnected onTcpConnectError (.mem a) (w'.objs slot))
      (cotcpConnect (.mem a) (some onTcpConnected) (some onTcpConnectError) w) := by
  have took : Ends (fun found w' => found = some slot ∧ w'.answers = w.answers)
      (allocSlot .tcp cotcpSize w) := by
    refine Ends.attempt fun found w' ran => ?_
    have ran := Except.ok.inj ran
    have answers := allocScan_answers .tcp cotcpSize cotcpSize w
    rw [ran] at answers
    exact ⟨(congrArg Prod.fst ran).symm.trans free, answers⟩
  refine Ends.seq took fun found w₁ taken => ?_
  obtain ⟨rfl, kept⟩ := taken
  refine Ends.seq (getaddrinfo_found (kept.trans answers)) fun found w₂ asked => ?_
  obtain ⟨rfl, asked⟩ := asked
  refine Ends.seq (openConnecting_pends pends asked.answers) fun found w₃ opened => ?_
  obtain ⟨⟨fd, rfl⟩, -⟩ := opened
  simp only [bind_apply, look_apply, ret_bind, put_apply, modify_apply, Bool.false_eq_true, if_false,
    pure_apply]
  change Connecting onTcpConnected onTcpConnectError (.mem a)
    ((World.copollRequestWrite _ _ _ _).objs slot)
  rw [copollRequestWrite_objs, setObj_self]
  exact ⟨rfl, rfl, rfl, rfl⟩

/-! ## The condition on a step -/

/-- A blocked connect goes by the object in `r`. -/
def Claimed (p : Process) (r : Ref) : Prop :=
  (p.world.objs r).state = Cotcp.connecting ∧
    ∃ co a, Connects p co a ∧ (p.world.objs r).ud = .mem a

/-- A connect finds a slot that nothing is about to destroy and comes to an attempt that
pends; no call closes the object of a blocked connect or takes its data or its error
callback. -/
def Meets (p : Process) : Move → Prop
  | .connect _ answers => p.machine.sch.running = mainCoId ∨ ∃ slot addrs rest,
      nextSlot p.world .tcp = some slot ∧ Unharmed p slot ∧
        answers = .addresses addrs :: rest ∧ Pends addrs rest
  | .read _ r _ | .bind r => p.machine.sch.running = mainCoId ∨ ¬ Claimed p r
  | .call (.cotcpClose r _) _ | .call (.cotcpOnError r _) _ => ¬ Claimed p r
  | _ => True

theorem Core.claimed (h : Core p att) {r : Ref} (among : r ∈ awaited p att) : Claimed p r := by
  obtain ⟨co, a, connects, rfl⟩ := among
  have attempt := (h.waits co a connects).attempt
  exact ⟨attempt.state, co, a, connects, attempt.ud⟩

/-! ## The work of the event loop -/

def Unread (tasks : List (Handler × Ref)) : Prop := ∀ t ∈ tasks, t.1 ≠ .read

/-- A read handler is the first for its event, and its object was not `CONNECTING`. -/
def Orderly (main : Nat) (p : Process) : Prop :=
  Unread p.world.tasks ∨ ∃ s rest, p.world.tasks = (.read, s) :: rest ∧ Unread rest ∧
    p.machine.exec = main ∧ p.frames main = [] ∧
      (s.kind = .tcp → (p.world.objs s).state ≠ Cotcp.connecting)

variable {main : Nat}

theorem Orderly.unread (h : Orderly main p) (free : p.free main = true) : Unread p.world.tasks := by
  rcases h with unread | ⟨s, rest, tasks, -, exec, frames, -⟩
  · exact unread
  · unfold Process.free at free
    rw [exec, frames, tasks] at free
    simp at free

theorem Orderly.unread_frame (h : Orderly main p) {f : Frame} {below : List Frame}
    (top : p.frames p.machine.exec = f :: below) : Unread p.world.tasks := by
  rcases h with unread | ⟨s, rest, -, -, exec, frames, -⟩
  · exact unread
  · rw [exec, frames] at top
    cases top

theorem eventTasks_ready (ev : Pollevent) (s : Ref) : Unread (eventTasks ev s) ∨
    ∃ rest, eventTasks ev s = (.read, s) :: rest ∧ Unread rest := by
  have later : Unread ((if ev.write then [(.write, s)] else []) ++
      (if ev.error then [(.error, s)] else [])) := by
    intro t among
    rcases List.mem_append.mp among with here | here <;> split at here
    · rw [List.mem_singleton.mp here]
      exact nofun
    · cases here
    · rw [List.mem_singleton.mp here]
      exact nofun
    · cases here
  unfold eventTasks
  rw [List.append_assoc]
  split
  · exact .inr ⟨_, rfl, later⟩
  · exact .inl later

theorem Unread.tail {t : Handler × Ref} {rest : List (Handler × Ref)} (h : Unread (t :: rest)) :
    Unread rest := fun u hu => h u (List.mem_cons_of_mem _ hu)

/-! ## What a step keeps -/

/-- Code that works on the slot `s` only. -/
theorem Core.minds {p' : Process} {done : Bool} (h : Core p att) {s : Ref}
    {m : Res World Callback Fault Unit} (keeps : Keeps True s m p.world)
    (hears : s ∈ awaited p att → s.kind = .tcp → ∀ a, Connecting onTcpConnected onTcpConnectError
      (.mem a) (p.world.objs s) → Hears s onTcpConnected onTcpConnectError (.mem a) m)
    (ran : p.advance m = .ok (done, p')) : Core p' att ∧ p'.world.tasks = p.world.tasks := by
  by_cases among : s ∈ awaited p att
  · obtain ⟨co, a, connects, rfl⟩ := among
    obtain ⟨kind, attempt⟩ := h.waits co a connects
    exact h.heard connects keeps (hears ⟨co, a, connects, rfl⟩ kind a attempt) ran
  · exact h.advance m (keeps.spares among (Spared.refl _ _)) ran

/-- The next answers of the kernel. -/
theorem Core.load (h : Core p att) (answers : List Answer) :
    Core { p with world := { p.world with answers := answers } } att :=
  h.world fun _ _ => rfl

theorem Core.call {p' : Process} {done : Bool} (h : Core p att) {c : Call}
    (typed : c.wellTyped = true) {answers : List Answer} (meets : Meets p (.call c answers))
    (ran : p.advance (c.run { p.world with answers := answers }) = .ok (done, p')) :
    Core p' att ∧ p'.world.tasks = p.world.tasks := by
  have loaded := h.load answers
  rw [← advance_world p { p.world with answers := answers }] at ran
  cases about : target c with
  | none =>
      exact loaded.advance _ (call_spares typed loaded.live fun r _ => by rw [about]; nofun) ran
  | some s =>
      have minds : Minds True s c.run := call_minds typed about
      refine loaded.minds (minds.at s _) (fun among kind a attempt => ?_) ran
      have claimed : Claimed p s := h.claimed among
      refine call_hears typed kind about ?_ ?_ attempt
      · rintro force rfl
        cases about
        exact meets claimed
      · rintro fn rfl
        cases about
        exact meets claimed

/-- The scheduler's operations leave the service alone. -/
theorem Core.op {m : Machine} {o : Op} (h : Core p att)
    (taken : Source.Routine.step p.machine o = .ok m) :
    Core ({ p with machine := m } : Process).settle att := by
  obtain ⟨below, sched⟩ := h.sched
  exact Core.moved h.toBlocked (h.released m.exec) (SchedulerDiscipline.step_inv sched taken)
    fun c other asleep => step_kept sched taken asleep other

theorem Core.sleep {p' : Process} (h : Core p att) (ran : p.cortSleep = .ok p') :
    Core p' att ∧ p'.world.tasks = p.world.tasks := by
  unfold Process.cortSleep at ran
  simp only at ran
  split at ran
  · cases ran
    exact ⟨h, rfl⟩
  · next away =>
    have added : Core { p with
        timers := Function.update p.timers p.added (some p.machine.sch.running)
        added := p.added + 1
        asleep := Function.update p.asleep p.machine.sch.running (some p.added) } att := { h with }
    obtain ⟨below, sched⟩ := added.sched
    obtain ⟨m, yields, rfl⟩ := block_yields sched away ran
    exact ⟨Core.moved added.toBlocked (added.released m.exec) yields.sched yields.kept, rfl⟩

/-- A timer of `cort_sleep` runs off. -/
theorem Core.tick {p' : Process} {id : Nat} (h : Core p att)
    (ran : (match p.timers id with
      | none => .error .contract
      | some co => do
        let p := { p with timers := Function.update p.timers id none }
        let (_, p) ← lift (p.sleepTimer co)
        .ok p.settle) = Except.ok p') :
    Core p' att ∧ p'.world.tasks = p.world.tasks := by
  split at ran
  · cases ran
  · next co pending =>
    obtain ⟨⟨b, q⟩, woken, last⟩ := bind_ok ran
    obtain ⟨m, resumed, rfl⟩ := resume_ok (lift_ok woken)
    cases last
    have fired : Core { p with timers := Function.update p.timers id none } att := { h with }
    have taken : Source.Routine.step p.machine (.resume co) = .ok m := by
      have run : cortResume p.machine co = .ok (b, m) := resumed
      simp only [Source.Routine.step, run, ok_bind]
    exact ⟨fired.op taken, rfl⟩

/-- The code that called back goes on. -/
theorem Core.back {p' : Process} {done : Bool} (h : Core p att) {f : Frame} {below : List Frame}
    (top : p.frames p.machine.exec = f :: below) {answers : List Answer}
    (ran : ({ p with frames := Function.update p.frames p.machine.exec below } : Process).advance
      (f.2 { p.world with answers := answers }) = .ok (done, p')) :
    Core p' att ∧ p'.world.tasks = p.world.tasks := by
  have loaded := (h.pop top).load answers
  rw [← advance_world _ { p.world with answers := answers }] at ran
  have among : f ∈ p.frames p.machine.exec := top ▸ List.mem_cons_self
  have framed := h.framed _ f among
  by_cases last : parting f.1.notice = true
  · -- the object of a blocked connect is not the one that is destroyed now
    have apart : f.1.ref ∉ awaited { p with
        frames := Function.update p.frames p.machine.exec below
        world := { p.world with answers := answers } } att := by
      rintro ⟨co, a, connects, same⟩
      exact h.alone co a connects _ f among last same.symm
    exact loaded.advance _ ((framed.keeps _).spares apart (Spared.refl _ _)) ran
  · have gentle := framed.mildly (Bool.not_eq_true _ ▸ last) { p.world with answers := answers }
    cases rest : f.2 { p.world with answers := answers } with
    | ret u w =>
        rw [rest] at ran gentle
        cases ran
        exact ⟨loaded.gentle gentle, gentle.tasks⟩
    | stop e =>
        rw [rest] at ran
        cases ran
    | call c w k =>
        rw [rest] at gentle
        exact gentle.elim

/-! ## The blocking functions -/

theorem Core.read {p' : Process} (h : Core p att) {a buff : Nat} {r : Ref}
    (unused : p.data a = none) (meets : Meets p (.read a r buff))
    (ran : p.cortTcpRead a r buff = .ok p') : Core p' att ∧ p'.world.tasks = p.world.tasks := by
  unfold Process.cortTcpRead at ran
  simp only at ran
  split at ran
  · cases ran
    exact ⟨h, rfl⟩
  · next away =>
    obtain ⟨⟨b, bf⟩, -, ran⟩ := bind_ok ran
    have buffered : Core { p with buffs := Function.update p.buffs buff bf } att := { h with }
    have stored := buffered.store unused (.read false false p.machine.sch.running buff)
    have apart : r ∉ awaited p att := fun among =>
      (meets.resolve_left away) (h.claimed among)
    have pointed := stored.world
      (w := p.world.setObj r { p.world.objs r with ud := .mem a }) fun s among => by
        refine setObj_other p.world _ ?_
        rintro rfl
        obtain ⟨co, b, now, same⟩ := among
        exact apart ⟨co, b, buffered.connects_store unused now, same⟩
    have recorded : Core { (Process.storeAt { p with buffs := Function.update p.buffs buff bf } a
        (.read false false p.machine.sch.running buff)) with
          world := p.world.setObj r { p.world.objs r with ud := .mem a }
          reads := Function.update p.reads r
            (some ⟨p.world.lives r, a, Function.update p.calls a (p.calls a + 1) a⟩) } att :=
      { pointed with }
    obtain ⟨core, world⟩ := recorded.block (a := a) away (Function.update_self _ _ _) rfl
      (fun tcp same => by cases same) ran
    exact ⟨core, by rw [world]; rfl⟩

theorem cortTcpBind_minds (r : Ref) : Minds True r (cortTcpBind r) :=
  (register_minds _ _ r).bind fun _ => (register_minds _ _ r).bind fun _ =>
    (register_minds _ _ r).bind fun _ => .pure r ()

theorem Core.bind {p' : Process} {done : Bool} (h : Core p att) {r : Ref}
    (away : p.machine.sch.running ≠ mainCoId) (meets : Meets p (.bind r))
    (ran : p.advance (cortTcpBind r p.world) = .ok (done, p')) :
    Core p' att ∧ p'.world.tasks = p.world.tasks :=
  h.minds ((cortTcpBind_minds r).at r _)
    (fun among => absurd (h.claimed among) (meets.resolve_left away)) ran

/-- The objects of calls that are not there yet can be named anew. -/
theorem Core.rename (h : Core p att) (att' : Nat → Ref)
    (same : ∀ co a, Connects p co a → att' a = att a) : Core p att' :=
  { h with
    waits := fun co a now => by rw [same co a now]; exact h.waits co a now
    alone := fun co a now => by rw [same co a now]; exact h.alone co a now }

/-- The connect of a blocking call, where the attempt pends. -/
theorem Core.pend {p' : Process} {done : Bool} (h : Core p att) {a : Nat} {slot : Ref}
    (left : Ends (fun _ w' => Connecting onTcpConnected onTcpConnectError (.mem a) (w'.objs slot))
      (cotcpConnect (.mem a) (some onTcpConnected) (some onTcpConnectError) w))
    (objs : w.objs = p.world.objs) (tasks : w.tasks = p.world.tasks)
    (ran : p.advance (ignoring (cotcpConnect (.mem a) (some onTcpConnected)
      (some onTcpConnectError)) w) = .ok (done, p')) :
    ∃ w', p' = { p with world := w' } ∧ Core p' att ∧ w'.tasks = p.world.tasks ∧
      Connecting onTcpConnected onTcpConnectError (.mem a) (w'.objs slot) := by
  have spares := cotcpConnect_spares h.live
    (⟨fun _ _ => by rw [objs], tasks⟩ : Spared (awaited p att) p.world w) (.mem a)
    (some onTcpConnected) (some onTcpConnectError)
  unfold ignoring at ran
  simp only [bind_apply] at ran
  cases attempted : cotcpConnect (.mem a) (some onTcpConnected) (some onTcpConnectError) w with
  | stop e =>
      rw [attempted] at ran
      cases ran
  | call c w' k =>
      rw [attempted] at left
      exact left.elim
  | ret ok w' =>
      rw [attempted] at left spares ran
      cases ran
      have spared : Spared (awaited p att) p.world w' := spares
      exact ⟨w', rfl, h.world spared.objs, spared.tasks, left⟩

theorem Core.connect {p' : Process} (h : Core p att) {a : Nat} {answers : List Answer}
    (unused : p.data a = none) (meets : Meets p (.connect a answers))
    (ran : p.cortTcpConnect a answers = .ok p') :
    (∃ att', Core p' att') ∧ p'.world.tasks = p.world.tasks := by
  unfold Process.cortTcpConnect at ran
  simp only at ran
  split at ran
  · cases ran
    exact ⟨⟨att, h⟩, rfl⟩
  · next away =>
    obtain ⟨slot, addrs, rest, free, unharmed, answered, pends⟩ := meets.resolve_left away
    have stored := h.store unused (.conn p.machine.sch.running none)
    have same : nextSlot { p.world with answers := answers } .tcp = nextSlot p.world .tcp :=
      nextSlot_congr .tcp rfl rfl
    have left := cotcpConnect_pends (w := { p.world with answers := answers }) a
      (same.trans free) answered pends
    obtain ⟨⟨done, q⟩, advanced, ran⟩ := bind_ok ran
    obtain ⟨w, rfl, made, tasks, connecting⟩ := stored.pend left rfl rfl advanced
    split at ran
    · have named := made.rename (Function.update att a slot) fun co b now =>
        Function.update_of_ne (h.toBlocked.unused unused now.1) _ _
      have kind : slot.kind = .tcp := allocScan_kind .tcp _ _ _ free
      obtain ⟨core, world⟩ := named.block (a := a) away (Function.update_self _ _ _) rfl
        (fun tcp _ => by
          rw [Function.update_self]
          exact ⟨⟨kind, connecting⟩, unharmed⟩) ran
      exact ⟨⟨_, core⟩, by rw [world]; exact tasks⟩
    · cases ran

/-! ## A step of the event loop -/

theorem Core.dispatch {p' : Process} {done : Bool} (h : Core p att) {answers : List Answer}
    (exec : p.machine.exec = main) (frames : p.frames main = [])
    (enabled : Action.enabled [] p.world .dispatch = true)
    (ran : p.advance (Action.program .dispatch { p.world with answers := answers }) =
      .ok (done, p')) : Core p' att ∧ Orderly main p' := by
  have idle : p.world.tasks = [] := by
    simpa [Action.enabled] using enabled
  simp only [Action.program, bind_apply, read_apply, ret_bind] at ran
  cases batch : p.world.batch with
  | nil =>
      rw [batch] at ran
      cases ran
  | cons ev rest =>
      simp only [batch, bind_apply, modify_apply, ret_bind] at ran
      have taken : Core { p with world := { p.world with answers := answers, batch := rest } } att :=
        h.world fun _ _ => rfl
      rw [← advance_world p { p.world with answers := answers, batch := rest }] at ran
      have quiet {q : Process} (same : q.world.tasks = p.world.tasks) : Orderly main q :=
        .inl fun t among => by
          rw [same, idle] at among
          cases among
      obtain ⟨f, stops⟩ | ends | ⟨s, -, ⟨kind, listening, runs⟩ | ⟨kind, connecting, runs⟩ |
          ⟨settled, runs⟩⟩ := coiosProcessEvent_cases ev
            { p.world with answers := answers, batch := rest }
      · rw [stops] at ran
        cases ran
      · rw [ends] at ran
        cases ran
        exact ⟨taken, quiet rfl⟩
      · rw [runs] at ran
        obtain ⟨core, tasks⟩ := taken.advance _
          (cotcpHandleAccept_spares taken.live (Spared.refl _ _) s) ran
        exact ⟨core, quiet tasks⟩
      · rw [runs] at ran
        obtain ⟨core, tasks⟩ := taken.minds ((cotcpHandleConnect_minds s).at s _)
          (fun _ _ a attempt => cotcpHandleConnect_hears attempt) ran
        exact ⟨core, quiet tasks⟩
      · rw [runs] at ran
        cases ran
        refine ⟨taken.world fun _ _ => rfl, ?_⟩
        rcases eventTasks_ready ev s with unread | ⟨later, tasks, unread⟩
        · exact .inl unread
        · exact .inr ⟨s, later, tasks, unread, exec, frames, settled⟩

theorem Core.handle {p' : Process} {done : Bool} (h : Core p att) {answers : List Answer}
    (ready : Orderly main p)
    (ran : p.advance (Action.program .handle { p.world with answers := answers }) =
      .ok (done, p')) : Core p' att ∧ Orderly main p' := by
  simp only [Action.program, bind_apply, read_apply, ret_bind] at ran
  cases tasks : p.world.tasks with
  | nil =>
      rw [tasks] at ran
      cases ran
  | cons t rest =>
      obtain ⟨handler, s⟩ := t
      simp only [tasks, bind_apply, modify_apply, ret_bind] at ran
      have taken : Core { p with world := { p.world with answers := answers, tasks := rest } } att :=
        h.world fun _ _ => rfl
      rw [← advance_world p { p.world with answers := answers, tasks := rest }] at ran
      have later : Unread rest := by
        rcases ready with unread | ⟨s', rest', same, unread, -⟩
        · exact (tasks ▸ unread : Unread ((handler, s) :: rest)).tail
        · rw [tasks] at same
          cases same
          exact unread
      obtain ⟨core, same⟩ := taken.minds ((runHandler_minds handler s).at s _)
        (fun among kind a attempt => runHandler_hears kind attempt (by
          rintro rfl
          rcases ready with unread | ⟨s', rest', same, -, -, -, settled⟩
          · exact unread _ (tasks ▸ List.mem_cons_self) rfl
          · rw [tasks] at same
            cases same
            exact settled kind attempt.state)) ran
      exact ⟨core, .inl (by rw [same]; exact later)⟩

theorem Core.wait {p' : Process} {done : Bool} (h : Core p att) {events : List Source.EventLoop.Ready}
    {answers : List Answer} (enabled : Action.enabled [] p.world (.wait events) = true)
    (ran : p.advance (Action.program (.wait events) { p.world with answers := answers }) =
      .ok (done, p')) : Core p' att ∧ Orderly main p' := by
  have idle : p.world.tasks = [] := by
    simp only [Action.enabled, List.isEmpty_nil, Bool.true_and, Bool.and_eq_true,
      List.isEmpty_iff] at enabled
    exact enabled.2
  have taken {batch : List Pollevent} :
      Core { p with world := { p.world with answers := answers, batch := batch } } att :=
    h.world fun _ _ => rfl
  have quiet : Unread p.world.tasks := fun t among => by
    rw [idle] at among
    cases among
  simp only [Action.program, Prog.attempt] at ran
  cases collected : copollCollect { p.world with answers := answers } events with
  | error f =>
      rw [collected] at ran
      cases ran
  | ok batch =>
      rw [collected] at ran
      cases ran
      exact ⟨taken, .inl quiet⟩

/-! ## Runs -/

/-- What every state of an admitted run satisfies. -/
def Kept (main : Nat) (p : Process) : Prop := (∃ att, Core p att) ∧ Orderly main p

theorem start_kept (main : Nat) (zeroBlock : Bool) (buffs : Nat → Source.Buffer.Cobuffer) :
    Kept main (start zeroBlock buffs) := by
  have nobody {co a : Nat} (inside : (start zeroBlock buffs).inside co = some a) : False := by
    cases inside
  refine ⟨⟨fun _ => ⟨.tcp, 0⟩, ?_⟩, .inl nofun⟩
  exact {
    sched := ⟨[], SchedulerDiscipline.openState_inv⟩
    suspended := fun _ _ inside => (nobody inside).elim
    owned := fun _ _ inside => (nobody inside).elim
    waits := fun _ _ now => (nobody now.1).elim
    alone := fun _ _ now => (nobody now.1).elim
    framed := fun _ _ among => nomatch among }

theorem Kept.step {p' : Process} {move : Move} (h : Kept main p) (meets : Meets p move)
    (taken : Source.BlockingTcp.step main p move = .ok p') : Kept main p' := by
  obtain ⟨⟨att, core⟩, orderly⟩ := h
  have still (unread : Unread p.world.tasks)
      (kept : Core p' att ∧ p'.world.tasks = p.world.tasks) : Kept main p' :=
    ⟨⟨att, kept.1⟩, .inl (by rw [kept.2]; exact unread)⟩
  have next (kept : Core p' att ∧ Orderly main p') : Kept main p' := ⟨⟨att, kept.1⟩, kept.2⟩
  cases move with
  | op o =>
      obtain ⟨⟨free, -⟩, taken⟩ := guarded taken
      obtain ⟨m, ran, last⟩ := bind_ok taken
      cases last
      exact still (orderly.unread free) ⟨core.op (lift_ok ran), rfl⟩
  | sleep =>
      obtain ⟨free, taken⟩ := guarded taken
      exact still (orderly.unread free) (core.sleep taken)
  | read a r buff =>
      obtain ⟨⟨free, unused, -⟩, taken⟩ := guarded taken
      exact still (orderly.unread free) (core.read unused meets taken)
  | connect a answers =>
      obtain ⟨⟨free, unused⟩, taken⟩ := guarded taken
      obtain ⟨core', tasks⟩ := core.connect unused meets taken
      exact ⟨core', .inl (by rw [tasks]; exact orderly.unread free)⟩
  | bind r =>
      obtain ⟨⟨free, -⟩, taken⟩ := guarded taken
      have unread := orderly.unread free
      split at taken
      · cases taken
        exact ⟨⟨att, core⟩, .inl unread⟩
      · next away =>
        obtain ⟨done, ran⟩ := advanced taken
        exact still unread (core.bind away meets ran)
  | call c answers =>
      obtain ⟨⟨free, typed⟩, taken⟩ := guarded taken
      obtain ⟨done, ran⟩ := advanced taken
      exact still (orderly.unread free) (core.call typed meets ran)
  | loop act answers =>
      cases act with
      | call c => cases taken
      | wait events =>
          obtain ⟨⟨-, -, enabled⟩, taken⟩ := guarded taken
          obtain ⟨done, ran⟩ := advanced taken
          exact next (core.wait enabled ran)
      | dispatch =>
          obtain ⟨⟨exec, frames, enabled⟩, taken⟩ := guarded taken
          obtain ⟨done, ran⟩ := advanced taken
          exact next (core.dispatch exec frames enabled ran)
      | handle =>
          obtain ⟨-, taken⟩ := guarded taken
          obtain ⟨done, ran⟩ := advanced taken
          exact next (core.handle orderly ran)
  | tick id =>
      obtain ⟨⟨exec, frames, batch, tasks⟩, taken⟩ := guarded taken
      exact still (by rw [tasks]; exact nofun) (core.tick taken)
  | back answers =>
      simp only [Source.BlockingTcp.step] at taken
      cases top : p.frames p.machine.exec with
      | nil =>
          rw [top] at taken
          cases taken
      | cons f below =>
          rw [top] at taken
          obtain ⟨done, ran⟩ := advanced taken
          exact still (orderly.unread_frame top) (core.back top ran)

/-- Whenever the event loop comes to an event of the object in `r`, whatever the kernel says
has become of the attempt, the coroutine gets the processor back from its call. -/
def Wakes (main : Nat) (p : Process) (co : Nat) (r : Ref) : Prop :=
  ∀ ev later outcome more, p.machine.exec = main → p.frames main = [] → p.world.tasks = [] →
    p.world.batch = ev :: later → ev.ud = .obj r →
    ((∃ e, outcome = .failed e) ∨ ∃ e, outcome = .soError e) →
    ∃ p', Source.BlockingTcp.step main p (.loop .dispatch (outcome :: more)) = .ok p' ∧
      p'.machine.exec = co ∧ p'.inside co = none

theorem Core.wakeUp (h : Core p att) {co a : Nat} (connects : Connects p co a) :
    Wakes main p co (att a) := by
  rintro ev later outcome more exec frames tasks batch named known
  obtain ⟨kind, attempt⟩ := h.waits co a connects
  have now : Core { p with world := { p.world with answers := outcome :: more, batch := later } }
      att := h.world fun _ _ => rfl
  have attempt' : Connecting onTcpConnected onTcpConnectError (.mem a)
      (({ p.world with answers := outcome :: more, batch := later } : World).objs (att a)) := attempt
  obtain ⟨c, w, rest, calls⟩ := cotcpHandleConnect_calls attempt' rfl known
  have tells := cotcpHandleConnect_hears attempt'
  rw [calls] at tells
  obtain ⟨p', ran, resumed, returned, -, -⟩ := now.wakes rest connects tells
  rw [advance_world] at ran
  refine ⟨p', ?_, resumed, returned⟩
  have enabled : Action.enabled [] p.world .dispatch = true := by
    simp [Action.enabled, tasks]
  have listening : ¬ (p.world.objs (att a)).state = Cotcp.listen := by
    rw [attempt.state]
    decide
  have runs : Action.program .dispatch { p.world with answers := outcome :: more } =
      .call c w rest := by
    simp only [Action.program, bind_apply, read_apply, ret_bind, batch, modify_apply,
      coiosProcessEvent, named, look_apply, kind, if_neg listening, if_pos attempt.state]
    exact calls
  simp only [Source.BlockingTcp.step, exec, frames, enabled, and_self, if_true, runs, ran]
  rfl

/-- **No lost wake-up.** In every run that meets the condition at each step, a coroutine that is
blocked in `cort_tcp_connect` has a live object in state `CONNECTING` with the data of the call
and its two callbacks, and the outcome resumes it. -/
theorem connect_waits (main : Nat) (zeroBlock : Bool) (buffs : Nat → Source.Buffer.Cobuffer)
    (moves : List Move) (p : Process)
    (admitted : Runs.Along (Source.BlockingTcp.step main) Meets (start zeroBlock buffs) moves)
    (reached : Runs.run (Source.BlockingTcp.step main) (start zeroBlock buffs) moves = .ok p) :
    ∀ co a, Connects p co a → Suspended p.machine co ∧ ∃ r, Awaits p.world a r ∧ Wakes main p co r := by
  have preserved : ∀ s move s', Kept main s → Meets s move →
      Source.BlockingTcp.step main s move = .ok s' → Kept main s' :=
    fun s move s' kept meets taken => kept.step meets taken
  obtain ⟨⟨att, core⟩, -⟩ :=
    Runs.invariant_along preserved moves _ p (start_kept main zeroBlock buffs) admitted reached
  exact fun co a connects => ⟨core.suspended co a connects.1, att a, core.waits co a connects,
    core.wakeUp connects⟩

/-- A coroutine calls `cort_tcp_connect`, and the kernel answers. -/
def connectMoves (answers : List Answer) : List Move :=
  [.op (.new 1 0), .op (.resume 1), .connect 0 answers]

set_option maxRecDepth 8000 in
theorem connect_waits_pending : ∃ p,
    Runs.run (Source.BlockingTcp.step 0) (start false noBuffs)
      (connectMoves [.addresses [[]], .descriptor 5, .failed einprogress]) = .ok p ∧
    Connects p 1 0 ∧ Suspended p.machine 1 ∧ ∃ r, Awaits p.world 0 r ∧ Wakes 0 p 1 r := by
  obtain ⟨p, reached, connects⟩ : ∃ p, Runs.run (Source.BlockingTcp.step 0) (start false noBuffs)
      (connectMoves [.addresses [[]], .descriptor 5, .failed einprogress]) = .ok p ∧
      Connects p 1 0 := ⟨_, rfl, rfl, none, rfl⟩
  refine ⟨p, reached, connects, connect_waits 0 false noBuffs _ p ?_ reached 1 0 connects⟩
  refine ⟨trivial, fun s created => ⟨trivial, fun t entered => ⟨.inr ?_, fun _ _ => trivial⟩⟩⟩
  cases created
  cases entered
  refine ⟨⟨.tcp, 0⟩, [[]], _, rfl, ?_, rfl, .pending [] [] 5 []⟩
  intro c f among
  cases among

set_option maxRecDepth 8000 in
/-- `getaddrinfo` fails: the coroutine waits, and nothing is left that could wake it. -/
theorem connect_waits_unresolved : ¬ ∀ main zeroBlock buffs moves p,
    Runs.run (Source.BlockingTcp.step main) (start zeroBlock buffs) moves = .ok p →
    ∀ co a, Connects p co a → ∃ r, Awaits p.world a r := by
  intro always
  obtain ⟨p, reached, connects, objs⟩ : ∃ p, Runs.run (Source.BlockingTcp.step 0)
      (start false noBuffs) (connectMoves [.failed enoent]) = .ok p ∧ Connects p 1 0 ∧
      p.world.objs = Function.update (Function.update (fun _ => blank) ⟨.tcp, 0⟩
        { blank with state := Cotcp.new }) ⟨.tcp, 0⟩ blank := ⟨_, rfl, ⟨rfl, none, rfl⟩, rfl⟩
  obtain ⟨r, awaits⟩ := always 0 false noBuffs _ p reached 1 0 connects
  have state := awaits.attempt.state
  rw [objs, Function.update_idem, Function.update_eq_self_iff.mpr rfl] at state
  cases state

end Colinlib.Guarantees.ConnectWaits
