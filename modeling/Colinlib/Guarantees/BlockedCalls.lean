import Colinlib.Guarantees.CoroutineIdentity
import Colinlib.Source.BlockingTcp

/-!
# Coroutines in blocking calls

What every step of the machine keeps, whatever the callers do: a coroutine that is in the
`cort_yield` of a blocking call is suspended, and the data of the call is where it was put
and names the coroutine. A callback fills in such data and resumes the coroutine named there.
-/
namespace Colinlib.Guarantees.BlockedCalls
open Colinlib.Theory Colinlib.Theory.CMemory Colinlib.Theory.Callbacks
open Colinlib.Theory.Runs (Halt lift_ok)
open Colinlib.Source.Routine Colinlib.Source.IoWorld Colinlib.Source.BlockingTcp
open Colinlib.Guarantees.SchedulerDiscipline (Inv new_inv resume_inv resume_cases yield_inv
  yield_cases ret_inv)
open Colinlib.Guarantees.CoroutineIdentity (occupant occupant_none_iff occupant_same
  cortNew_takesVacant resume_occupant yield_occupant ret_occupant)

/-! ## Suspended coroutines -/

def Suspended (m : Machine) (co : Nat) : Prop := ∃ c, m.sch.cort co = some c ∧ c.status = .suspend

theorem Suspended.alive {m : Machine} {co : Nat} (h : Suspended m co) :
    live (m.sch.cort co) = true := by
  obtain ⟨c, held, status⟩ := h
  rw [held, live, status]
  rfl

/-- Only the coroutine that gets the processor stops being suspended. -/
theorem Suspended.kept {m m' : Machine} {below below' : List Nat} {co : Nat} (h : Inv m below)
    (h' : Inv m' below') (stack : ∀ j ∈ below', j ∈ m.sch.running :: below)
    (same : occupant m'.sch co = occupant m.sch co) (asleep : Suspended m co)
    (other : co ≠ m'.exec) : Suspended m' co := by
  obtain ⟨c, held, status⟩ := asleep
  have away := (h.resumable held status).1
  have parked : co ∉ m'.sch.running :: below' := by
    intro on
    rcases List.mem_cons.mp on with rfl | on
    · exact other h'.on_cpu.symm
    · exact away (stack co on)
  have alive : live (m'.sch.cort co) = true := by
    by_contra dead
    have gone := (occupant_none_iff m'.sch co).mpr (Bool.eq_false_iff.mpr dead)
    rw [same, occupant_none_iff] at gone
    rw [Suspended.alive ⟨c, held, status⟩] at gone
    cases gone
  cases held' : m'.sch.cort co with
  | none =>
      rw [held'] at alive
      cases alive
  | some c' =>
      rcases h'.parked co parked c' held' with dead | ⟨waits, -⟩
      · rw [held', live, dead] at alive
        cases alive
      · exact ⟨c', held', waits⟩

theorem new_kept {m m' : Machine} {below : List Nat} {func ud co : Nat} (h : Inv m below)
    (taken : Source.Routine.step m (.new func ud) = .ok m') (asleep : Suspended m co) :
    Suspended m' co := by
  obtain ⟨cur, here, -⟩ := h.current
  obtain ⟨cid, S', made, takes⟩ := cortNew_takesVacant (some func) ud h.cap_pos h.counted ⟨cur, here⟩
  simp only [Source.Routine.step, made, ok_bind, Except.ok.injEq] at taken
  subst taken
  have other : co ≠ cid := by
    rintro rfl
    exact absurd (asleep.alive.symm.trans takes.was) (by decide)
  obtain ⟨c, held, status⟩ := asleep
  exact ⟨c, by rw [takes.others co other, held], status⟩

/-- The coroutine that has the processor is not suspended. -/
theorem exec_awake {m : Machine} {below : List Nat} (h : Inv m below) : ¬ Suspended m m.exec := by
  rintro ⟨c, held, status⟩
  exact (h.resumable held status).1 (by rw [h.on_cpu]; exact List.mem_cons_self)

/-- One operation of the scheduler. -/
theorem step_kept {m m' : Machine} {below : List Nat} {o : Op} {co : Nat} (h : Inv m below)
    (taken : Source.Routine.step m o = .ok m') (asleep : Suspended m co) (other : co ≠ m'.exec) :
    Suspended m' co := by
  cases o with
  | new func ud => exact new_kept h taken asleep
  | resume id =>
      obtain ⟨⟨b, m₁⟩, ran, last⟩ := bind_ok taken
      cases last
      have same := resume_occupant h ran co
      by_cases inside : id < m.sch.cap
      · rcases resume_cases h inside with refused | ⟨m₁, resumed, -, h'⟩
        · rw [refused] at ran
          cases ran
          exact asleep
        · rw [resumed] at ran
          cases ran
          exact asleep.kept h h' (fun j hj => hj) same other
      · simp [cortResume, inside] at ran
  | yield =>
      obtain ⟨⟨b, m₁⟩, ran, last⟩ := bind_ok taken
      cases last
      have same := yield_occupant h ran co
      rcases yield_cases h with refused | ⟨next, rest, m₁, rfl, yielded, -, h'⟩
      · rw [refused] at ran
        cases ran
        exact asleep
      · rw [yielded] at ran
        cases ran
        exact asleep.kept h h' (fun j hj => List.mem_cons_of_mem _ (List.mem_cons_of_mem _ hj))
          same other
  | ret =>
      simp only [Source.Routine.step] at taken
      split at taken
      · cases taken
      · next not_main =>
        have away : co ≠ m.exec := by
          rintro rfl
          exact exec_awake h asleep
        have same := (ret_occupant h not_main taken).2 co away
        obtain ⟨next, rest, rfl⟩ := h.below_of_not_main (by rw [← h.on_cpu]; exact not_main)
        obtain ⟨m₁, returned, -, h'⟩ := ret_inv h
        rw [returned] at taken
        cases taken
        exact asleep.kept h h' (fun j hj => List.mem_cons_of_mem _ (List.mem_cons_of_mem _ hj))
          same other

theorem resume_refused {m m' : Machine} {below : List Nat} {co : Nat} (h : Inv m below)
    (ran : cortResume m co = .ok (false, m')) : m' = m := by
  by_cases inside : co < m.sch.cap
  · rcases resume_cases h inside with refused | ⟨m₁, resumed, -⟩
    · rw [refused] at ran
      cases ran
      rfl
    · rw [resumed] at ran
      cases ran
  · simp [cortResume, inside] at ran

/-- A resume that succeeds gives the processor to its target. -/
theorem resume_exec {m m' : Machine} {below : List Nat} {co : Nat} (h : Inv m below)
    (ran : cortResume m co = .ok (true, m')) : m'.exec = co := by
  by_cases inside : co < m.sch.cap
  · rcases resume_cases h inside with refused | ⟨m₁, resumed, exec, -⟩
    · rw [refused] at ran
      cases ran
    · rw [resumed] at ran
      cases ran
      exact exec
  · simp [cortResume, inside] at ran

/-- A coroutine that yields is suspended, and its resumer was not. -/
theorem yield_suspends {m m' : Machine} {below : List Nat} {b : Bool} (h : Inv m below)
    (away : m.sch.running ≠ mainCoId) (ran : cortYield m = .ok (b, m')) :
    Suspended m' m.sch.running ∧ ¬ Suspended m m'.exec := by
  obtain ⟨next, rest, rfl⟩ := h.below_of_not_main away
  obtain ⟨m₁, yielded, exec, h'⟩ := yield_inv h
  have same := yield_occupant h yielded m.sch.running
  rw [yielded] at ran
  cases ran
  have on : next ∈ m.sch.running :: next :: rest := List.mem_cons_of_mem _ List.mem_cons_self
  constructor
  · have parked : m.sch.running ∉ m'.sch.running :: rest := by
      rw [← h'.on_cpu, exec]
      exact (List.nodup_cons.mp h.distinct).1
    obtain ⟨cur, here, runs⟩ := h.current
    cases held : m'.sch.cort m.sch.running with
    | none =>
        have gone : occupant m'.sch m.sch.running = none := by rw [occupant, held]; rfl
        rw [same, occupant_none_iff, here, live, runs] at gone
        cases gone
    | some c =>
        rcases h'.parked _ parked c held with dead | ⟨waits, -⟩
        · have gone : occupant m'.sch m.sch.running = none := by
            rw [occupant_none_iff, held, live, dead]
            rfl
          rw [same, occupant_none_iff, here, live, runs] at gone
          cases gone
        · exact ⟨c, held, waits⟩
  · rintro ⟨c, held, status⟩
    rw [exec] at held
    exact (h.resumable held status).1 on

/-! ## Blocked calls -/

/-- `co` is in a blocking call while it is not on the processor. -/
structure Blocked (p : Process) : Prop where
  sched : ∃ below, Inv p.machine below
  suspended : ∀ co a, p.inside co = some a → Suspended p.machine co
  owned : ∀ co a, p.inside co = some a → ∃ d, p.data a = some d ∧ d.co = co

variable {p : Process}

theorem Blocked.awake (h : Blocked p) : p.inside p.machine.exec = none := by
  obtain ⟨below, sched⟩ := h.sched
  cases inside : p.inside p.machine.exec with
  | none => rfl
  | some a => exact absurd (h.suspended _ a inside) (exec_awake sched)

/-- Two coroutines are not in one call. -/
theorem Blocked.apart (h : Blocked p) {co co' a : Nat} (inside : p.inside co = some a)
    (inside' : p.inside co' = some a) : co = co' := by
  obtain ⟨d, held, own⟩ := h.owned co a inside
  obtain ⟨e, held', own'⟩ := h.owned co' a inside'
  obtain rfl : d = e := Option.some.inj (held.symm.trans held')
  exact own.symm.trans own'

theorem Blocked.unused (h : Blocked p) {a : Nat} (unused : p.data a = none) {co b : Nat}
    (inside : p.inside co = some b) : b ≠ a := by
  rintro rfl
  obtain ⟨e, data, -⟩ := h.owned co b inside
  rw [unused] at data
  cases data

theorem Blocked.store (h : Blocked p) {a : Nat} (unused : p.data a = none) (d : CallData) :
    Blocked (p.storeAt a d) :=
  { h with
    owned := fun co b inside => by
      obtain ⟨e, data, own⟩ := h.owned co b inside
      exact ⟨e, (Function.update_of_ne (h.unused unused inside) _ _).trans data, own⟩ }

/-- What a callback stores. -/
inductive Fills : CallData → CallData → Prop
  | read (e c e' c' : Bool) (co buff : Nat) : Fills (.read e c co buff) (.read e' c' co buff)
  | conn (co : Nat) (tcp tcp' : Option Ref) : Fills (.conn co tcp) (.conn co tcp')

theorem Fills.co {d d' : CallData} (h : Fills d d') : d'.co = d.co := by cases h <;> rfl

theorem Blocked.fill (h : Blocked p) {a : Nat} {d d' : CallData} (held : p.data a = some d)
    (fills : Fills d d') : Blocked (p.setData a (some d')) :=
  { h with
    owned := fun co b inside => by
      obtain ⟨e, data, own⟩ := h.owned co b inside
      by_cases here : b = a
      · subst here
        obtain rfl : d = e := Option.some.inj (held.symm.trans data)
        exact ⟨d', Function.update_self _ _ _, fills.co.trans own⟩
      · exact ⟨e, (Function.update_of_ne here _ _).trans data, own⟩ }

/-! ## Control transfers -/

theorem settle_inside {c a : Nat} (inside : p.settle.inside c = some a) :
    c ≠ p.machine.exec ∧ p.inside c = some a := by
  by_cases here : c = p.machine.exec
  · subst here
    simp only [Process.settle, Function.update_self] at inside
    cases inside
  · exact ⟨here, (Function.update_of_ne here _ _).symm.trans inside⟩

theorem settle_asleep {c id : Nat} (asleep : p.settle.asleep c = some id) :
    c ≠ p.machine.exec ∧ p.asleep c = some id := by
  by_cases here : c = p.machine.exec
  · subst here
    simp only [Process.settle, Function.update_self] at asleep
    cases asleep
  · exact ⟨here, (Function.update_of_ne here _ _).symm.trans asleep⟩

theorem settle_data {a : Nat} (other : p.inside p.machine.exec ≠ some a) :
    p.settle.data a = p.data a := by
  cases held : p.inside p.machine.exec with
  | none => simp only [Process.settle, held]
  | some b =>
      simp only [Process.settle, held]
      refine Function.update_of_ne ?_ _ _
      rintro rfl
      exact other held

/-- The call that returned has no data any more. -/
theorem settle_gone {a : Nat} (inside : p.inside p.machine.exec = some a) :
    p.settle.data a = none := by
  simp only [Process.settle, inside, Function.update_self]

theorem settle_idle (idle : p.inside p.machine.exec = none) :
    p.settle = { p with asleep := Function.update p.asleep p.machine.exec none } := by
  have same : Function.update p.inside p.machine.exec none = p.inside :=
    Function.update_eq_self_iff.mpr idle.symm
  simp only [Process.settle, idle, same]

/-- Data that the processor's new owner leaves behind is its own. -/
theorem settle_kept {m : Machine} (own : ∀ a, p.inside m.exec = some a →
      ∃ d, p.data a = some d ∧ d.co = m.exec) {a : Nat} {d : CallData} (held : p.data a = some d)
    (other : d.co ≠ m.exec) : ({ p with machine := m } : Process).settle.data a = some d := by
  rw [← held]
  refine settle_data fun inside => ?_
  obtain ⟨e, held', mine⟩ := own a inside
  obtain rfl : d = e := Option.some.inj (held.symm.trans held')
  exact other mine

/-- The processor goes to another coroutine, which returns from its blocking call if it is in
one. -/
theorem Blocked.moved {m : Machine} (h : Blocked p) (sched : ∃ below, Inv m below)
    (kept : ∀ co, co ≠ m.exec → Suspended p.machine co → Suspended m co) :
    Blocked ({ p with machine := m } : Process).settle where
  sched := sched
  suspended c a inside := by
    obtain ⟨other, inside⟩ := settle_inside inside
    exact kept c other (h.suspended c a inside)
  owned c a inside := by
    obtain ⟨other, inside⟩ := settle_inside inside
    obtain ⟨d, held, own⟩ := h.owned c a inside
    exact ⟨d, settle_kept (h.owned m.exec) held (own ▸ other), own⟩

/-- A yield from `m` to `m'`. -/
structure Yields (m m' : Machine) : Prop where
  sched : ∃ below, Inv m' below
  kept : ∀ co, co ≠ m'.exec → Suspended m co → Suspended m' co
  suspended : Suspended m' m.sch.running
  next : ¬ Suspended m m'.exec
  other : m'.exec ≠ m.sch.running

theorem block_yields {p' : Process} {below : List Nat} (h : Inv p.machine below)
    (away : p.machine.sch.running ≠ mainCoId) (ran : p.block = .ok p') :
    ∃ m, Yields p.machine m ∧ p' = ({ p with machine := m } : Process).settle := by
  obtain ⟨⟨b, m⟩, yielded, last⟩ := bind_ok ran
  have yielded := lift_ok yielded
  obtain ⟨suspended, next⟩ := yield_suspends h away yielded
  have taken : Source.Routine.step p.machine .yield = .ok m := by
    simp only [Source.Routine.step, yielded, ok_bind]
  obtain ⟨below', h'⟩ := SchedulerDiscipline.step_inv h taken
  exact ⟨m, ⟨⟨below', h'⟩, fun co other asleep => step_kept h taken asleep other, suspended, next,
    fun same => exec_awake h' (same ▸ suspended)⟩, (Except.ok.inj last).symm⟩

theorem Blocked.idle {m : Machine} (h : Blocked p) (yields : Yields p.machine m) :
    p.inside m.exec = none := by
  cases inside : p.inside m.exec with
  | none => rfl
  | some b => exact absurd (h.suspended _ b inside) yields.next

/-- The running coroutine yields in a blocking call with its data at `a`. -/
theorem Blocked.enter {p' : Process} (h : Blocked p) {a : Nat} {d : CallData}
    (away : p.machine.sch.running ≠ mainCoId) (held : p.data a = some d)
    (own : d.co = p.machine.sch.running)
    (ran : (p.waitAt p.machine.sch.running a).block = .ok p') :
    Blocked p' ∧ ∃ m, Yields p.machine m ∧ p' = { p with
      machine := m
      inside := Function.update p.inside p.machine.sch.running (some a)
      asleep := Function.update p.asleep m.exec none } := by
  obtain ⟨below, sched⟩ := h.sched
  obtain ⟨m, yields, settled⟩ := block_yields (p := p.waitAt p.machine.sch.running a) sched away ran
  have yields : Yields p.machine m := yields
  have idle : (p.waitAt p.machine.sch.running a).inside m.exec = none :=
    (Function.update_of_ne yields.other _ _).trans (h.idle yields)
  rw [settle_idle (by exact idle)] at settled
  subst settled
  have before {c b : Nat}
      (inside : Function.update p.inside p.machine.sch.running (some a) c = some b) :
      c = p.machine.sch.running ∧ b = a ∨ p.inside c = some b := by
    by_cases here : c = p.machine.sch.running
    · subst here
      rw [Function.update_self] at inside
      exact .inl ⟨rfl, (Option.some.inj inside).symm⟩
    · rw [Function.update_of_ne here] at inside
      exact .inr inside
  refine ⟨?_, m, yields, rfl⟩
  exact {
    sched := yields.sched
    suspended := fun c b inside => by
      rcases before inside with ⟨rfl, -⟩ | inside
      · exact yields.suspended
      · refine yields.kept c ?_ (h.suspended c b inside)
        rintro rfl
        rw [h.idle yields] at inside
        cases inside
    owned := fun c b inside => by
      rcases before inside with ⟨rfl, rfl⟩ | inside
      · exact ⟨d, held, own⟩
      · exact h.owned c b inside }

/-! ## The callbacks -/

theorem resume_ok {p' : Process} {co : Nat} {b : Bool} (ran : p.resume co = .ok (b, p')) :
    ∃ m, cortResume p.machine co = .ok (b, m) ∧ p' = { p with machine := m } := by
  obtain ⟨⟨b', m⟩, resumed, last⟩ := bind_ok ran
  cases last
  exact ⟨m, resumed, rfl⟩

theorem readData_ok {r : Ref} {a co buff : Nat} (found : p.readData r = .ok (a, co, buff)) :
    (p.world.objs r).ud = .mem a ∧ ∃ e c, p.data a = some (.read e c co buff) := by
  unfold Process.readData at found
  split at found
  · cases found
  · cases found
  · next b named =>
    split at found
    · next e c co' buff' data =>
      cases found
      exact ⟨named, e, c, data⟩
    · cases found

theorem connData_ok {r : Ref} {a co : Nat} {tcp : Option Ref}
    (found : p.connData r = .ok (a, co, tcp)) :
    (p.world.objs r).ud = .mem a ∧ p.data a = some (.conn co tcp) := by
  unfold Process.connData at found
  split at found
  · cases found
  · cases found
  · next b named =>
    split at found
    · next co' tcp' data =>
      cases found
      exact ⟨named, data⟩
    · cases found

theorem connData_of {r : Ref} {a co : Nat} {tcp : Option Ref}
    (named : (p.world.objs r).ud = .mem a) (data : p.data a = some (.conn co tcp)) :
    p.connData r = .ok (a, co, tcp) := by
  unfold Process.connData
  rw [named]
  simp only [data]

theorem setData_same {a : Nat} {d : CallData} (data : p.data a = some d) :
    p.setData a (some d) = p := by
  unfold Process.setData
  rw [Function.update_eq_self_iff.mpr data.symm]

/-- What a callback did when it is done: it filled in the data that the object points to, and
resumed the coroutine named there. -/
structure Ran (q q' : Process) (r : Ref) (b : Bool) (a : Nat) (d d' : CallData) : Prop where
  named : (q.world.objs r).ud = .mem a
  held : q.data a = some d
  fills : Fills d d'
  resumed : ∃ m buffs, cortResume q.machine d.co = .ok (b, m) ∧
    q' = { q.setData a (some d') with machine := m, buffs := buffs }

theorem body_ran {c : Callback} {run : Process → Except Fault (Bool × Process)}
    (is : body c = some run) {q q' : Process} {b : Bool} (ran : run q = .ok (b, q')) :
    ∃ a d d', Ran q q' c.ref b a d d' := by
  unfold body at is
  split at is
  · split at is
    · cases is
      obtain ⟨⟨a, co, tcp⟩, found, ran⟩ := bind_ok ran
      obtain ⟨named, held⟩ := connData_ok found
      obtain ⟨m, resumed, rfl⟩ := resume_ok ran
      exact ⟨a, _, _, named, held, .conn co tcp (some c.ref), m, _, resumed, rfl⟩
    · cases is
  · split at is
    · cases is
      obtain ⟨⟨a, co, buff⟩, found, ran⟩ := bind_ok ran
      obtain ⟨named, e, cl, held⟩ := readData_ok found
      obtain ⟨bf, written, ran⟩ := bind_ok ran
      obtain ⟨m, resumed, rfl⟩ := resume_ok ran
      exact ⟨a, _, _, named, held, .read e cl false false co buff, m, _, resumed, rfl⟩
    · cases is
  · split at is
    · cases is
      obtain ⟨⟨a, co, buff⟩, found, ran⟩ := bind_ok ran
      obtain ⟨named, e, cl, held⟩ := readData_ok found
      obtain ⟨m, resumed, rfl⟩ := resume_ok ran
      exact ⟨a, _, _, named, held, .read e cl true false co buff, m, _, resumed, rfl⟩
    · split at is
      · cases is
        obtain ⟨⟨a, co, tcp⟩, found, ran⟩ := bind_ok ran
        obtain ⟨named, held⟩ := connData_ok found
        obtain ⟨m, resumed, rfl⟩ := resume_ok ran
        exact ⟨a, _, _, named, held, .conn co tcp tcp, m, _, resumed, by rw [setData_same held]⟩
      · cases is
  · split at is
    · cases is
      obtain ⟨⟨a, co, buff⟩, found, ran⟩ := bind_ok ran
      obtain ⟨named, e, cl, held⟩ := readData_ok found
      obtain ⟨m, resumed, rfl⟩ := resume_ok ran
      exact ⟨a, _, _, named, held, .read e cl false true co buff, m, _, resumed, rfl⟩
    · cases is

/-! ## Library code -/

/-- Library code does not look at the world it has not been given. -/
theorem advance_world (p : Process) (w : World) (m : Res World Callback Fault Unit) :
    Process.advance { p with world := w } m = p.advance m := by
  cases m with
  | ret u w' => rfl
  | stop e => rfl
  | call c w' rest => simp only [Process.advance, Process.push]

theorem mem_push {co c : Nat} {f g : Frame} (among : g ∈ (p.push co f).frames c) :
    g = f ∨ g ∈ p.frames c := by
  unfold Process.push at among
  by_cases here : c = co
  · subst here
    simp only [Function.update_self] at among
    exact List.mem_cons.mp among
  · simp only [Function.update_of_ne here] at among
    exact .inr among

theorem mem_pop {co c : Nat} {f g : Frame} {below : List Frame} (top : p.frames co = f :: below)
    (among : g ∈ Function.update p.frames co below c) : g ∈ p.frames c := by
  by_cases here : c = co
  · subst here
    rw [Function.update_self] at among
    exact top ▸ List.mem_cons_of_mem _ among
  · rwa [Function.update_of_ne here] at among

theorem guarded {β : Type} {c : Prop} [Decidable c] {x : Except (Halt Fault) β} {b : β}
    (taken : (if c then x else .error .contract) = .ok b) : c ∧ x = .ok b := by
  split at taken
  · next holds => exact ⟨holds, taken⟩
  · cases taken

/-- The code that ran in a step. -/
theorem advanced {p' : Process} {x : Except (Halt Fault) (Bool × Process)}
    (taken : (do let (_, q) ← x; .ok q) = .ok p') : ∃ done, x = .ok (done, p') := by
  obtain ⟨⟨done, q⟩, ran, last⟩ := bind_ok taken
  cases last
  exact ⟨done, ran⟩

end Colinlib.Guarantees.BlockedCalls
