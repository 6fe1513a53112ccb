import Colinlib.Guarantees.BlockedCalls

/-!
# Who wakes a blocked coroutine

As long as the callers resume no coroutine that is in a blocking call, the data that lies
about belongs to the calls that are blocked, and the timers to the coroutines that sleep. A
sleeper gets the processor back from its own timer alone, and a call from a callback about an
object that points to the data of this call.
-/
namespace Colinlib.Guarantees.WakeUps
open Colinlib.Theory Colinlib.Theory.CMemory Colinlib.Theory.Callbacks
open Colinlib.Theory.Runs (lift lift_ok)
open Colinlib.Source.Routine Colinlib.Source.IoWorld Colinlib.Source.EventLoop
open Colinlib.Source.BlockingTcp
open Colinlib.Guarantees.SchedulerDiscipline (Inv resume_inv resume_cases yield_cases ret_inv)
open Colinlib.Guarantees.BlockedCalls

/-- The user's code resumes nobody who waits in a blocking call. -/
def Voluntary (p : Process) : Move → Prop
  | .op (.resume id) => p.inside id = none ∧ p.asleep id = none
  | _ => True

/-- Each blocked call has its data and each sleeper its timer, and there are no others. -/
structure Matched (p : Process) : Prop extends Blocked p where
  exact : ∀ a d, p.data a = some d → p.inside d.co = some a
  slept : ∀ co id, p.asleep co = some id → Suspended p.machine co ∧ p.timers id = some co
  timed : ∀ id co, p.timers id = some co → p.asleep co = some id
  apart : ∀ co id, p.asleep co = some id → p.inside co = none
  numbered : ∀ id, p.added ≤ id → p.timers id = none

variable {p q : Process}

/-- Whoever is not suspended is in no blocking call. -/
theorem Matched.outside (h : Matched p) {co : Nat} (runs : ¬ Suspended p.machine co) :
    p.inside co = none ∧ p.asleep co = none := by
  constructor
  · cases inside : p.inside co with
    | none => rfl
    | some a => exact absurd (h.suspended co a inside) runs
  · cases asleep : p.asleep co with
    | none => rfl
    | some id => exact absurd (h.slept co id asleep).1 runs

/-- The coroutine that has the processor is in no blocking call. -/
theorem Matched.running (h : Matched p) :
    p.inside p.machine.exec = none ∧ p.asleep p.machine.exec = none := by
  obtain ⟨below, sched⟩ := h.sched
  exact h.outside (exec_awake sched)

/-! ## Code that hands over nothing -/

/-- `q` differs from `p` in the world, the buffers and in what the data says about the outcome
of each call. -/
structure Steady (p q : Process) : Prop where
  machine : q.machine = p.machine
  frames : q.frames = p.frames
  inside : q.inside = p.inside
  timers : q.timers = p.timers
  added : q.added = p.added
  asleep : q.asleep = p.asleep
  owners : ∀ a, (q.data a).map CallData.co = (p.data a).map CallData.co

theorem Steady.refl (p : Process) : Steady p p := ⟨rfl, rfl, rfl, rfl, rfl, rfl, fun _ => rfl⟩

theorem Steady.trans {r : Process} (h : Steady p q) (h' : Steady q r) : Steady p r where
  machine := h'.machine.trans h.machine
  frames := h'.frames.trans h.frames
  inside := h'.inside.trans h.inside
  timers := h'.timers.trans h.timers
  added := h'.added.trans h.added
  asleep := h'.asleep.trans h.asleep
  owners a := (h'.owners a).trans (h.owners a)

theorem Steady.world (h : Steady p q) (w : World) : Steady p { q with world := w } := { h with }

theorem Steady.buffs (h : Steady p q) (buffs : Nat → Source.Buffer.Cobuffer) :
    Steady p { q with buffs := buffs } := { h with }

theorem Steady.fill (h : Steady p q) {a : Nat} {d d' : CallData} (held : q.data a = some d)
    (fills : Fills d d') : Steady p (q.setData a (some d')) :=
  { h with
    owners := fun b => by
      rw [← h.owners b]
      by_cases here : b = a
      · subst here
        simp only [Process.setData, Function.update_self, held, Option.map_some, fills.co]
      · simp only [Process.setData, Function.update_of_ne here] }

theorem Steady.owner (h : Steady p q) {a : Nat} {d : CallData} (held : p.data a = some d) :
    ∃ e, q.data a = some e ∧ e.co = d.co := by
  have same := h.owners a
  rw [held] at same
  exact Option.map_eq_some_iff.mp same

theorem Steady.symm (h : Steady p q) : Steady q p :=
  ⟨h.machine.symm, h.frames.symm, h.inside.symm, h.timers.symm, h.added.symm, h.asleep.symm,
    fun a => (h.owners a).symm⟩

theorem Matched.steady (h : Matched p) (same : Steady p q) : Matched q where
  sched := by rw [same.machine]; exact h.sched
  suspended co a inside := by
    rw [same.machine]
    exact h.suspended co a (same.inside ▸ inside)
  owned co a inside := by
    obtain ⟨d, held, own⟩ := h.owned co a (same.inside ▸ inside)
    obtain ⟨e, held', own'⟩ := same.owner held
    exact ⟨e, held', own'.trans own⟩
  exact a d held := by
    obtain ⟨e, held', own⟩ := same.symm.owner held
    rw [same.inside, ← own]
    exact h.exact a e held'
  slept co id asleep := by
    rw [same.machine, same.timers]
    exact h.slept co id (same.asleep ▸ asleep)
  timed id co timer := by
    rw [same.asleep]
    exact h.timed id co (same.timers ▸ timer)
  apart co id asleep := by
    rw [same.inside]
    exact h.apart co id (same.asleep ▸ asleep)
  numbered id unused := by
    rw [same.timers]
    exact h.numbered id (same.added ▸ unused)

/-- How library code stops: at its end, in a callback of the user, or where a callback of this
file has handed the processor to the coroutine that it found in the data. -/
inductive Advanced (p : Process) : Bool → Process → Prop
  | ended {q : Process} (same : Steady p q) : Advanced p true q
  | calls {q : Process} (c : Callback) (rest : World → Res World Callback Fault Unit)
      (same : Steady p q) : Advanced p false (q.push p.machine.exec (c, rest))
  | woke {q : Process} (c : Callback) (rest : World → Res World Callback Fault Unit)
      {a : Nat} {d : CallData} {m : Machine} (same : Steady p q) (ours : (body c).isSome)
      (named : (q.world.objs c.ref).ud = .mem a) (held : q.data a = some d)
      (resumed : cortResume p.machine d.co = .ok (true, m)) :
      Advanced p false (({ q with machine := m } : Process).push p.machine.exec (c, rest)).settle

theorem advance_cases (m : Res World Callback Fault Unit) : ∀ {p p' : Process} {done : Bool},
    (∃ below, Inv p.machine below) → p.advance m = .ok (done, p') → Advanced p done p' := by
  induction m with
  | ret u w =>
      intro p p' done _ ran
      cases ran
      exact .ended ((Steady.refl p).world w)
  | stop e =>
      intro p p' done _ ran
      cases ran
  | call c w rest ih =>
      intro p p' done sched ran
      simp only [Process.advance] at ran
      split at ran
      · cases ran
        exact .calls c rest ((Steady.refl p).world w)
      · next run is =>
        split at ran
        · cases ran
        · next q here =>
          obtain ⟨a, d, d', done⟩ := body_ran is here
          obtain ⟨m, buffs, resumed, rfl⟩ := done.resumed
          cases ran
          have same := (((Steady.refl p).world w).fill done.held done.fills).buffs buffs
          have named : (w.objs c.ref).ud = .mem a := done.named
          rw [← done.fills.co] at resumed
          exact .woke c rest same (by rw [is]; rfl) named (Function.update_self _ _ _) resumed
        · next q here =>
          -- `cort_resume` refused, and the code goes on
          obtain ⟨a, d, d', done⟩ := body_ran is here
          obtain ⟨m, buffs, resumed, rfl⟩ := done.resumed
          obtain ⟨below, inv⟩ := sched
          obtain rfl := resume_refused inv resumed
          have same : Steady p { ({ p with world := w } : Process).setData a (some d') with
              buffs := buffs } :=
            (((Steady.refl p).world w).fill done.held done.fills).buffs buffs
          have went := ih w (p := { ({ p with world := w } : Process).setData a (some d') with
            buffs := buffs }) ⟨below, inv⟩ ran
          cases went with
          | ended same' => exact .ended (same.trans same')
          | calls c' rest' same' => exact .calls c' rest' (same.trans same')
          | woke c' rest' same' ours named held resumed' =>
              exact .woke c' rest' (same.trans same') ours named held resumed'

/-! ## Control transfers -/

/-- The processor goes to another coroutine, with whose timer it may be. -/
theorem Matched.moved {m : Machine} {timers : Nat → Option Nat} (h : Matched p)
    (sched : ∃ below, Inv m below)
    (kept : ∀ co, co ≠ m.exec → Suspended p.machine co → Suspended m co)
    (left : ∀ id co, timers id = some co ↔ p.timers id = some co ∧ co ≠ m.exec) :
    Matched ({ p with machine := m, timers := timers } : Process).settle where
  toBlocked := Blocked.moved (p := { p with timers := timers }) { h.toBlocked with } sched kept
  exact a d held := by
    have other : p.inside m.exec ≠ some a := by
      intro inside
      rw [settle_gone (by exact inside)] at held
      cases held
    rw [settle_data other] at held
    have inside : p.inside d.co = some a := h.exact a d held
    have away : d.co ≠ m.exec := by
      intro same
      exact other (same ▸ inside)
    exact (Function.update_of_ne away _ _).trans inside
  slept co id asleep := by
    obtain ⟨other, asleep⟩ := settle_asleep asleep
    obtain ⟨suspended, timer⟩ := h.slept co id asleep
    exact ⟨kept co other suspended, (left id co).mpr ⟨timer, other⟩⟩
  timed id co timer := by
    obtain ⟨timer, other⟩ := (left id co).mp timer
    exact (Function.update_of_ne other _ _).trans (h.timed id co timer)
  apart co id asleep := by
    obtain ⟨other, asleep⟩ := settle_asleep asleep
    exact (Function.update_of_ne other _ _).trans (h.apart co id asleep)
  numbered id unused := by
    cases timer : timers id with
    | none => exact timer
    | some co =>
        have pending := ((left id co).mp timer).1
        rw [h.numbered id unused] at pending
        cases pending

/-- No timer is left where the coroutine that gets the processor was not asleep. -/
theorem Matched.transfer {m : Machine} (h : Matched p) (sched : ∃ below, Inv m below)
    (kept : ∀ co, co ≠ m.exec → Suspended p.machine co → Suspended m co)
    (awake : p.asleep m.exec = none) : Matched ({ p with machine := m } : Process).settle := by
  have left : ∀ id co, p.timers id = some co ↔ p.timers id = some co ∧ co ≠ m.exec := by
    refine fun id co => ⟨fun timer => ⟨timer, ?_⟩, And.left⟩
    rintro rfl
    rw [h.timed id _ timer] at awake
    cases awake
  exact h.moved sched kept left

/-- The coroutine that runs yields in a blocking call, after code that handed over nothing. -/
theorem Matched.enter {p' : Process} (h : Matched p) {a : Nat} {d : CallData}
    (away : p.machine.sch.running ≠ mainCoId) (unused : p.data a = none)
    (own : d.co = p.machine.sch.running) (same : Steady (p.storeAt a d) q)
    (ran : (q.waitAt p.machine.sch.running a).block = .ok p') :
    Matched p' ∧ ¬ Suspended p.machine p'.machine.exec := by
  have machine : q.machine = p.machine := same.machine
  obtain ⟨e, held, own'⟩ := same.owner (a := a) (Function.update_self _ _ _)
  have others : ∀ b f, q.data b = some f → b ≠ a → p.inside f.co = some b := by
    intro b f data other
    obtain ⟨g, data', own⟩ := same.symm.owner data
    simp only [Process.storeAt, Function.update_of_ne other] at data'
    rw [← own]
    exact h.exact b g data'
  have blocked : Blocked q := {
    sched := by rw [machine]; exact h.sched
    suspended := fun co b inside => by
      rw [machine]
      exact h.suspended co b (same.inside ▸ inside)
    owned := fun co b inside => by
      obtain ⟨f, data, mine⟩ := (h.toBlocked.store unused d).owned co b (same.inside ▸ inside)
      obtain ⟨g, data', mine'⟩ := same.owner data
      exact ⟨g, data', mine'.trans mine⟩ }
  rw [← machine] at ran away own ⊢
  obtain ⟨blocked', m, yields, rfl⟩ := blocked.enter away held (own'.trans own) ran
  have runsNext : ¬ Suspended p.machine m.exec := by
    rw [← machine]
    exact yields.next
  obtain ⟨-, awake⟩ := h.outside runsNext
  have runs : q.machine.sch.running = p.machine.exec := by
    obtain ⟨below, sched⟩ := h.sched
    rw [machine, sched.on_cpu]
  obtain ⟨runsInside, runsAsleep⟩ := h.running
  have asleepOf {co id : Nat} (asleep : Function.update q.asleep m.exec none co = some id) :
      co ≠ m.exec ∧ p.asleep co = some id := by
    by_cases here : co = m.exec
    · subst here
      rw [Function.update_self] at asleep
      cases asleep
    · rw [Function.update_of_ne here, same.asleep] at asleep
      exact ⟨here, asleep⟩
  refine ⟨{ blocked' with
    exact := fun b f data => ?_
    slept := fun co id asleep => ?_
    timed := fun id co timer => ?_
    apart := fun co id asleep => ?_
    numbered := fun id free => ?_ }, yields.next⟩
  · by_cases here : b = a
    · subst here
      obtain rfl : e = f := Option.some.inj (held.symm.trans data)
      rw [own'.trans own]
      exact Function.update_self _ _ _
    · have inside := others b f data here
      have parked : f.co ≠ q.machine.sch.running := by
        intro here
        rw [here, runs, runsInside] at inside
        cases inside
      exact (Function.update_of_ne parked _ _).trans (same.inside ▸ inside)
  · obtain ⟨other, asleep⟩ := asleepOf asleep
    obtain ⟨suspended, timer⟩ := h.slept co id asleep
    exact ⟨yields.kept co other (machine ▸ suspended), same.timers ▸ timer⟩
  · have asleep := h.timed id co (same.timers ▸ timer)
    have other : co ≠ m.exec := by
      rintro rfl
      rw [awake] at asleep
      cases asleep
    exact (Function.update_of_ne other _ _).trans (same.asleep ▸ asleep)
  · obtain ⟨-, asleep⟩ := asleepOf asleep
    have parked : co ≠ q.machine.sch.running := by
      rintro rfl
      rw [runs, runsAsleep] at asleep
      cases asleep
    exact (Function.update_of_ne parked _ _).trans (same.inside ▸ h.apart co id asleep)
  · exact same.timers ▸ h.numbered id (same.added ▸ free)

theorem Matched.sleep {p' : Process} (h : Matched p) (ran : p.cortSleep = .ok p') :
    Matched p' ∧ ¬ Suspended p.machine p'.machine.exec := by
  obtain ⟨below, sched⟩ := h.sched
  obtain ⟨runsInside, runsAsleep⟩ := h.running
  unfold Process.cortSleep at ran
  simp only at ran
  split at ran
  · cases ran
    exact ⟨h, exec_awake sched⟩
  · next away =>
    obtain ⟨m, yields, rfl⟩ := block_yields (p := { p with
      timers := Function.update p.timers p.added (some p.machine.sch.running)
      added := p.added + 1
      asleep := Function.update p.asleep p.machine.sch.running (some p.added) }) sched away ran
    have yields : Yields p.machine m := yields
    obtain ⟨nextInside, nextAsleep⟩ := h.outside yields.next
    rw [sched.on_cpu] at runsInside runsAsleep
    have fresh {co : Nat} (asleep : p.asleep co = some p.added) : False := by
      have pending := (h.slept co _ asleep).2
      rw [h.numbered _ (Nat.le_refl _)] at pending
      cases pending
    rw [settle_idle (by exact nextInside)]
    have asleepOf {co id : Nat} (asleep : Function.update (Function.update p.asleep
        p.machine.sch.running (some p.added)) m.exec none co = some id) :
        co = p.machine.sch.running ∧ id = p.added ∨ co ≠ m.exec ∧
          co ≠ p.machine.sch.running ∧ p.asleep co = some id := by
      by_cases next : co = m.exec
      · subst next
        rw [Function.update_self] at asleep
        cases asleep
      · rw [Function.update_of_ne next] at asleep
        by_cases here : co = p.machine.sch.running
        · subst here
          rw [Function.update_self] at asleep
          exact .inl ⟨rfl, (Option.some.inj asleep).symm⟩
        · rw [Function.update_of_ne here] at asleep
          exact .inr ⟨next, here, asleep⟩
    refine ⟨{
      sched := yields.sched
      suspended := fun co a inside => ?_
      owned := h.owned
      exact := h.exact
      slept := fun co id asleep => ?_
      timed := fun id co timer => ?_
      apart := fun co id asleep => ?_
      numbered := fun id unused => ?_ }, yields.next⟩
    · refine yields.kept co ?_ (h.suspended co a inside)
      rintro rfl
      rw [show p.inside m.exec = some a from inside] at nextInside
      cases nextInside
    · rcases asleepOf asleep with ⟨rfl, rfl⟩ | ⟨next, here, asleep⟩
      · exact ⟨yields.suspended, Function.update_self _ _ _⟩
      · obtain ⟨suspended, timer⟩ := h.slept co id asleep
        refine ⟨yields.kept co next suspended, (Function.update_of_ne ?_ _ _).trans timer⟩
        rintro rfl
        exact fresh asleep
    · by_cases here : id = p.added
      · subst here
        simp only [Function.update_self, Option.some.injEq] at timer
        subst timer
        exact (Function.update_of_ne (Ne.symm yields.other) _ _).trans (Function.update_self _ _ _)
      · simp only [Function.update_of_ne here] at timer
        have asleep := h.timed id co timer
        have next : co ≠ m.exec := by
          rintro rfl
          rw [nextAsleep] at asleep
          cases asleep
        have other : co ≠ p.machine.sch.running := by
          rintro rfl
          rw [runsAsleep] at asleep
          cases asleep
        exact (Function.update_of_ne next _ _).trans
          ((Function.update_of_ne other _ _).trans asleep)
    · rcases asleepOf asleep with ⟨rfl, rfl⟩ | ⟨next, here, asleep⟩
      · exact runsInside
      · exact h.apart co id asleep
    · have later : id ≠ p.added := by
        rintro rfl
        exact absurd unused (Nat.not_succ_le_self _)
      exact (Function.update_of_ne later _ _).trans
        (h.numbered id (Nat.le_of_succ_le unused))

/-! ## Steps -/

/-- A callback of this file, about an object that points to the data at `a`, has handed over
the processor; the data is gone. -/
def Answered (p p' : Process) (a : Nat) : Prop :=
  (∃ c rest below, p'.frames p.machine.exec = (c, rest) :: below ∧ (body c).isSome ∧
    (p'.world.objs c.ref).ud = .mem a) ∧ p'.data a = none

/-- What the coroutine that has the processor after a step was waiting for has happened in
this step. -/
structure Justified (p : Process) (move : Move) (p' : Process) : Prop where
  timer : ∀ id, p.asleep p'.machine.exec = some id → move = .tick id
  answer : ∀ a, p.inside p'.machine.exec = some a → Answered p p' a

theorem Matched.justified {p' : Process} (h : Matched p) (move : Move)
    (runs : ¬ Suspended p.machine p'.machine.exec) : Justified p move p' := by
  obtain ⟨inside, asleep⟩ := h.outside runs
  constructor
  · intro id held
    rw [asleep] at held
    cases held
  · intro a held
    rw [inside] at held
    cases held

/-- The operations of the scheduler: only a resume gets a suspended coroutine going. -/
theorem step_awake {m m' : Machine} {below : List Nat} {o : Op} (h : Inv m below)
    (taken : Source.Routine.step m o = .ok m') (asleep : Suspended m m'.exec) :
    o = .resume m'.exec := by
  obtain ⟨c, held, status⟩ := asleep
  have off := (h.resumable held status).1
  have same (exec : m'.exec = m.exec) : False :=
    off (by rw [exec, h.on_cpu]; exact List.mem_cons_self)
  cases o with
  | new func ud =>
      obtain ⟨⟨b, S⟩, made, last⟩ := bind_ok taken
      cases last
      exact (same rfl).elim
  | resume id =>
      obtain ⟨⟨b, m₁⟩, ran, last⟩ := bind_ok taken
      cases last
      cases b with
      | false => exact (same (by rw [resume_refused h ran])).elim
      | true => rw [resume_exec h ran]
  | yield =>
      obtain ⟨⟨b, m₁⟩, ran, last⟩ := bind_ok taken
      cases last
      rcases yield_cases h with refused | ⟨next, rest, m₁, rfl, yielded, exec, -⟩
      · rw [refused] at ran
        cases ran
        exact (same rfl).elim
      · rw [yielded] at ran
        cases ran
        exact (off (by rw [exec]; exact List.mem_cons_of_mem _ List.mem_cons_self)).elim
  | ret =>
      simp only [Source.Routine.step] at taken
      split at taken
      · cases taken
      · next not_main =>
        obtain ⟨next, rest, rfl⟩ := h.below_of_not_main (by rw [← h.on_cpu]; exact not_main)
        obtain ⟨m₁, returned, exec, -⟩ := ret_inv h
        rw [returned] at taken
        cases taken
        exact (off (by rw [exec]; exact List.mem_cons_of_mem _ List.mem_cons_self)).elim

theorem Matched.op {m : Machine} {o : Op} (h : Matched p) (voluntary : Voluntary p (.op o))
    (taken : Source.Routine.step p.machine o = .ok m) :
    Matched ({ p with machine := m } : Process).settle ∧
      Justified p (.op o) ({ p with machine := m } : Process).settle := by
  obtain ⟨below, sched⟩ := h.sched
  have waits : p.inside m.exec = none ∧ p.asleep m.exec = none := by
    by_cases asleep : Suspended p.machine m.exec
    · obtain rfl := step_awake sched taken asleep
      exact voluntary
    · exact h.outside asleep
  refine ⟨h.transfer (SchedulerDiscipline.step_inv sched taken)
    (fun co other asleep => step_kept sched taken asleep other) waits.2, ?_, ?_⟩
  · intro id held
    rw [show p.asleep m.exec = some id from held] at waits
    cases waits.2
  · intro a held
    rw [show p.inside m.exec = some a from held] at waits
    cases waits.1

/-- Library code wakes whom the data names, and that coroutine waits in this very call. -/
theorem Matched.advanced {p' : Process} {done : Bool} (h : Matched p) (move : Move)
    (ran : Advanced p done p') : Matched p' ∧ Justified p move p' := by
  obtain ⟨below, sched⟩ := h.sched
  cases ran with
  | ended same =>
      refine ⟨h.steady same, h.justified move ?_⟩
      rw [same.machine]
      exact exec_awake sched
  | @calls q c rest same =>
      refine ⟨{ h.steady same with }, h.justified move ?_⟩
      change ¬ Suspended p.machine q.machine.exec
      rw [same.machine]
      exact exec_awake sched
  | @woke q c rest a d m same ours named held resumed =>
      have before := h.steady same
      have inside : q.inside d.co = some a := before.exact a d held
      have exec := resume_exec sched resumed
      have awake : q.asleep m.exec = none := by
        cases asleep : q.asleep m.exec with
        | none => rfl
        | some id =>
            have out := before.apart _ id asleep
            rw [exec, inside] at out
            cases out
      have taken : Source.Routine.step p.machine (.resume d.co) = .ok m := by
        simp only [Source.Routine.step, resumed, ok_bind]
      have pushed : Matched (q.push p.machine.exec (c, rest)) := { before with }
      refine ⟨pushed.transfer (SchedulerDiscipline.step_inv sched taken)
        (fun co other asleep => step_kept sched taken
          (by rw [← same.machine]; exact asleep) other) awake, ?_, ?_⟩
      · intro id asleep
        rw [same.asleep] at awake
        exact absurd (asleep.symm.trans awake) (by simp)
      · intro b held'
        have here : b = a := by
          have mine : p.inside m.exec = some b := held'
          rw [exec, ← same.inside, inside] at mine
          exact (Option.some.inj mine).symm
        subst here
        refine ⟨⟨c, rest, q.frames p.machine.exec, Function.update_self _ _ _, ours, named⟩, ?_⟩
        exact settle_gone (by rw [← exec] at inside; exact inside)

theorem Matched.read {p' : Process} (h : Matched p) {a buff : Nat} {r : Ref}
    (unused : p.data a = none) (ran : p.cortTcpRead a r buff = .ok p') :
    Matched p' ∧ ¬ Suspended p.machine p'.machine.exec := by
  unfold Process.cortTcpRead at ran
  simp only at ran
  split at ran
  · cases ran
    exact ⟨h, exec_awake h.sched.choose_spec⟩
  · next away =>
    obtain ⟨⟨b, bf⟩, -, ran⟩ := bind_ok ran
    have same : Steady (p.storeAt a (.read false false p.machine.sch.running buff))
        { p.storeAt a (.read false false p.machine.sch.running buff) with
          buffs := Function.update p.buffs buff bf
          world := p.world.setObj r { p.world.objs r with ud := .mem a }
          reads := Function.update p.reads r
            (some ⟨p.world.lives r, a, Function.update p.calls a (p.calls a + 1) a⟩) } :=
      { Steady.refl _ with }
    exact h.enter away unused rfl same ran

theorem Matched.connect {p' : Process} (h : Matched p) {a : Nat} {answers : List Answer}
    (unused : p.data a = none) (ran : p.cortTcpConnect a answers = .ok p') :
    Matched p' ∧ ¬ Suspended p.machine p'.machine.exec := by
  unfold Process.cortTcpConnect at ran
  simp only at ran
  split at ran
  · cases ran
    exact ⟨h, exec_awake h.sched.choose_spec⟩
  · next away =>
    obtain ⟨⟨done, q⟩, advanced, ran⟩ := bind_ok ran
    split at ran
    · -- a callback that `cotcp_connect` makes itself finds the coroutine running
      next ended =>
      have went := advance_cases _ (p := p.storeAt a (.conn p.machine.sch.running none))
        h.sched advanced
      simp only at ended
      subst ended
      cases went with
      | ended same => exact h.enter away unused rfl same ran
    · cases ran

/-- The coroutine that has the timer gets the processor. -/
theorem Matched.tick {p' : Process} {id : Nat} (h : Matched p)
    (ran : (match p.timers id with
      | none => .error .contract
      | some co => do
        let p := { p with timers := Function.update p.timers id none }
        let (_, p) ← lift (p.sleepTimer co)
        .ok p.settle) = Except.ok p') :
    Matched p' ∧ Justified p (.tick id) p' ∧ p.asleep p'.machine.exec = some id := by
  split at ran
  · cases ran
  · next co pending =>
    obtain ⟨⟨b, q⟩, woken, last⟩ := bind_ok ran
    obtain ⟨m, resumed, rfl⟩ := resume_ok (lift_ok woken)
    cases last
    obtain ⟨below, sched⟩ := h.sched
    have asleep := h.timed id co pending
    obtain ⟨cort, held, status⟩ := (h.slept co id asleep).1
    have run : cortResume p.machine co = .ok (b, m) := resumed
    obtain ⟨m', resumed', exec, -⟩ := resume_inv sched held status
    rw [resumed'] at run
    cases run
    have taken : Source.Routine.step p.machine (.resume co) = .ok m := by
      simp only [Source.Routine.step, resumed', ok_bind]
    have left (id' co' : Nat) : Function.update p.timers id none id' = some co' ↔
        p.timers id' = some co' ∧ co' ≠ m.exec := by
      by_cases here : id' = id
      · subst here
        rw [Function.update_self, pending, exec]
        constructor
        · intro none
          cases none
        · rintro ⟨same, other⟩
          exact absurd (Option.some.inj same).symm other
      · rw [Function.update_of_ne here, exec]
        refine ⟨fun timer => ⟨timer, ?_⟩, And.left⟩
        rintro rfl
        have both := (h.timed id' _ timer).symm.trans asleep
        exact here (Option.some.inj both)
    refine ⟨h.moved (SchedulerDiscipline.step_inv sched taken)
      (fun c other suspended => step_kept sched taken suspended other) left, ⟨?_, ?_⟩, ?_⟩
    · intro id' held'
      have mine : p.asleep m.exec = some id' := held'
      rw [exec, asleep] at mine
      rw [Option.some.inj mine]
    · intro a held'
      have inside : p.inside m.exec = some a := held'
      rw [exec, h.apart co id asleep] at inside
      cases inside
    · change p.asleep m.exec = some id
      rw [exec]
      exact asleep

variable {main : Nat}

theorem Matched.step {p' : Process} {move : Move} (h : Matched p) (voluntary : Voluntary p move)
    (taken : Source.BlockingTcp.step main p move = .ok p') :
    Matched p' ∧ Justified p move p' := by
  have entered (done : Matched p' ∧ ¬ Suspended p.machine p'.machine.exec) :
      Matched p' ∧ Justified p move p' := ⟨done.1, h.justified move done.2⟩
  cases move with
  | op o =>
      obtain ⟨-, taken⟩ := guarded taken
      obtain ⟨m, ran, last⟩ := bind_ok taken
      cases last
      exact h.op voluntary (lift_ok ran)
  | sleep => exact entered (h.sleep (guarded taken).2)
  | read a r buff =>
      obtain ⟨⟨-, unused, -⟩, taken⟩ := guarded taken
      exact entered (h.read unused taken)
  | connect a answers =>
      obtain ⟨⟨-, unused⟩, taken⟩ := guarded taken
      exact entered (h.connect unused taken)
  | bind r =>
      obtain ⟨-, taken⟩ := guarded taken
      split at taken
      · cases taken
        exact entered ⟨h, exec_awake h.sched.choose_spec⟩
      · obtain ⟨done, ran⟩ := BlockedCalls.advanced taken
        exact h.advanced _ (advance_cases _ h.sched ran)
  | call c answers =>
      obtain ⟨-, taken⟩ := guarded taken
      obtain ⟨done, ran⟩ := BlockedCalls.advanced taken
      exact h.advanced _ (advance_cases _ h.sched ran)
  | loop act answers =>
      have goes {q : Process} {x : Res World Callback Fault Unit}
          (taken : (do let (_, q) ← p.advance x; .ok q) = Except.ok q) :
          Matched q ∧ Justified p (.loop act answers) q := by
        obtain ⟨done, ran⟩ := BlockedCalls.advanced taken
        exact h.advanced _ (advance_cases _ h.sched ran)
      cases act with
      | call c => cases taken
      | wait events => exact goes (guarded taken).2
      | dispatch => exact goes (guarded taken).2
      | handle => exact goes (guarded taken).2
  | tick id =>
      obtain ⟨-, taken⟩ := guarded taken
      obtain ⟨matched, justified, -⟩ := h.tick taken
      exact ⟨matched, justified⟩
  | back answers =>
      simp only [Source.BlockingTcp.step] at taken
      split at taken
      · cases taken
      · next f rest below top =>
        obtain ⟨done, ran⟩ := BlockedCalls.advanced taken
        have popped : Matched { p with
            frames := Function.update p.frames p.machine.exec below } := { h with }
        obtain ⟨matched, justified⟩ :=
          popped.advanced (.back answers) (advance_cases _ h.sched ran)
        exact ⟨matched, ⟨justified.timer, justified.answer⟩⟩

/-! ## Events -/

/-- The event loop is between two batches. -/
structure Between (main : Nat) (p : Process) : Prop where
  exec : p.machine.exec = main
  frames : p.frames main = []
  batch : p.world.batch = []
  tasks : p.world.tasks = []

theorem Matched.rings (h : Matched p) (between : Between main p) {co id : Nat}
    (asleep : p.asleep co = some id) : ∃ p', Source.BlockingTcp.step main p (.tick id) = .ok p' ∧
      p'.machine.exec = co ∧ p'.asleep co = none := by
  obtain ⟨below, sched⟩ := h.sched
  obtain ⟨⟨cort, held, status⟩, timer⟩ := h.slept co id asleep
  obtain ⟨m, resumed, exec, -⟩ := resume_inv sched held status
  refine ⟨({ p with
      timers := Function.update p.timers id none
      machine := m } : Process).settle, ?_, exec, ?_⟩
  · obtain ⟨loops, frames, batch, tasks⟩ := between
    simp only [Source.BlockingTcp.step, loops, frames, batch, tasks, and_self, if_true, timer,
      Process.sleepTimer, Process.resume, resumed, ok_bind, lift, Except.mapError]
    rfl
  · cases left : (Process.settle _).asleep co with
    | none => rfl
    | some id' => exact absurd exec.symm (settle_asleep left).1

/-- A callback that finds the data of a blocked call does not return before the call has. -/
theorem Matched.answers {p' : Process} {done : Bool} (h : Matched p) {co a : Nat}
    (inside : p.inside co = some a) {c : Callback} {w : World}
    {rest : World → Res World Callback Fault Unit} (ours : (body c).isSome)
    (named : (w.objs c.ref).ud = .mem a) (ran : p.advance (.call c w rest) = .ok (done, p')) :
    p'.machine.exec = co ∧ p'.inside co = none ∧ p'.data a = none := by
  obtain ⟨below, sched⟩ := h.sched
  obtain ⟨run, is⟩ := Option.isSome_iff_exists.mp ours
  have mine {q : Process} {b : Bool} {a' : Nat} {d d' : CallData}
      (went : Ran ({ p with world := w } : Process) q c.ref b a' d d') : a' = a ∧ d.co = co := by
    have named' : (w.objs c.ref).ud = .mem a' := went.named
    rw [named] at named'
    cases named'
    obtain ⟨e, held, own⟩ := h.owned co a inside
    obtain rfl : d = e := Option.some.inj (went.held.symm.trans held)
    exact ⟨rfl, own⟩
  simp only [Process.advance, is] at ran
  split at ran
  · cases ran
  · next q went =>
    obtain ⟨a', d, d', went⟩ := body_ran is went
    obtain ⟨rfl, rfl⟩ := mine went
    obtain ⟨m, buffs, resumed, rfl⟩ := went.resumed
    cases ran
    have exec := resume_exec sched resumed
    refine ⟨exec, ?_, settle_gone (by rw [← exec] at inside; exact inside)⟩
    cases left : (Process.settle _).inside d.co with
    | none => rfl
    | some b => exact absurd exec.symm (settle_inside left).1
  · next q went =>
    obtain ⟨a', d, d', went⟩ := body_ran is went
    obtain ⟨rfl, rfl⟩ := mine went
    obtain ⟨m, buffs, refused, rfl⟩ := went.resumed
    obtain ⟨cort, held, status⟩ := h.suspended _ _ inside
    obtain ⟨m', resumed, -⟩ := resume_inv sched held status
    have both : cortResume p.machine d.co = .ok (false, m) := refused
    rw [resumed] at both
    cases both

/-! ## Runs -/

theorem start_matched (zeroBlock : Bool) (buffs : Nat → Source.Buffer.Cobuffer) :
    Matched (start zeroBlock buffs) where
  sched := ⟨[], SchedulerDiscipline.openState_inv⟩
  suspended _ _ inside := by cases inside
  owned _ _ inside := by cases inside
  exact _ _ held := by cases held
  slept _ _ asleep := by cases asleep
  timed _ _ timer := by cases timer
  apart _ _ _ := rfl
  numbered _ _ := rfl

theorem run_matched (main : Nat) (zeroBlock : Bool) (buffs : Nat → Source.Buffer.Cobuffer)
    (moves : List Move) (p : Process)
    (admitted : Runs.Along (Source.BlockingTcp.step main) Voluntary (start zeroBlock buffs) moves)
    (reached : Runs.run (Source.BlockingTcp.step main) (start zeroBlock buffs) moves = .ok p) :
    Matched p :=
  Runs.invariant_along (fun _ _ _ matched voluntary taken => (matched.step voluntary taken).1)
    moves _ p (start_matched zeroBlock buffs) admitted reached

/-- Two coroutines go to sleep. -/
def sleepMoves : List Move :=
  [.op (.new 1 0), .op (.new 2 0), .op (.resume 1), .sleep, .op (.resume 2), .sleep]

set_option maxRecDepth 8000 in
theorem sleepMoves_voluntary :
    Runs.Along (Source.BlockingTcp.step 0) Voluntary (start false noBuffs) sleepMoves := by
  refine ⟨trivial, fun _ h₁ => ⟨trivial, fun _ h₂ => ⟨?_, fun _ h₃ => ⟨trivial, fun _ h₄ =>
    ⟨?_, fun _ _ => ⟨trivial, fun _ _ => trivial⟩⟩⟩⟩⟩⟩
  · cases h₁
    cases h₂
    exact ⟨rfl, rfl⟩
  · cases h₁
    cases h₂
    cases h₃
    cases h₄
    exact ⟨rfl, rfl⟩

/-- **No spurious wake-up.** In every run in which nobody resumes a coroutine that is in a
blocking call, a sleeper gets the processor back only when its own timer runs off, and a
blocking read or connect only from a callback about an object that points to its data. -/
theorem woken_by_own_event (main : Nat) (zeroBlock : Bool)
    (buffs : Nat → Source.Buffer.Cobuffer) (moves : List Move) (p : Process)
    (admitted : Runs.Along (Source.BlockingTcp.step main) Voluntary (start zeroBlock buffs) moves)
    (reached : Runs.run (Source.BlockingTcp.step main) (start zeroBlock buffs) moves = .ok p)
    (move : Move) (p' : Process) (voluntary : Voluntary p move)
    (taken : Source.BlockingTcp.step main p move = .ok p') : Justified p move p' :=
  ((run_matched main zeroBlock buffs moves p admitted reached).step voluntary taken).2

set_option maxRecDepth 8000 in
theorem woken_by_own_event_sleepers : ∃ p p',
    Runs.run (Source.BlockingTcp.step 0) (start false noBuffs) sleepMoves = .ok p ∧
    Source.BlockingTcp.step 0 p (.tick 1) = .ok p' ∧ p.asleep p'.machine.exec = some 1 ∧
    Justified p (.tick 1) p' := by
  obtain ⟨p, reached, p', taken, asleep⟩ : ∃ p,
      Runs.run (Source.BlockingTcp.step 0) (start false noBuffs) sleepMoves = .ok p ∧
      ∃ p', Source.BlockingTcp.step 0 p (.tick 1) = .ok p' ∧
        p.asleep p'.machine.exec = some 1 := ⟨_, rfl, _, rfl, rfl⟩
  exact ⟨p, p', reached, taken, asleep, woken_by_own_event 0 false noBuffs sleepMoves p
    sleepMoves_voluntary reached (.tick 1) p' trivial taken⟩

/-- **No lost wake-up.** In such a run the timers that are pending are those of the sleepers,
each of them gives the processor to its sleeper when it runs off, and every callback that finds
the data of a blocked call ends this call. -/
theorem event_wakes (main : Nat) (zeroBlock : Bool) (buffs : Nat → Source.Buffer.Cobuffer)
    (moves : List Move) (p : Process)
    (admitted : Runs.Along (Source.BlockingTcp.step main) Voluntary (start zeroBlock buffs) moves)
    (reached : Runs.run (Source.BlockingTcp.step main) (start zeroBlock buffs) moves = .ok p) :
    (∀ co id, p.timers id = some co ↔ p.asleep co = some id) ∧
    (∀ co id, p.asleep co = some id → Between main p →
      ∃ p', Source.BlockingTcp.step main p (.tick id) = .ok p' ∧ p'.machine.exec = co ∧
        p'.asleep co = none) ∧
    ∀ co a, p.inside co = some a → ∀ c w rest done p', (body c).isSome →
      (w.objs c.ref).ud = .mem a → p.advance (.call c w rest) = .ok (done, p') →
      p'.machine.exec = co ∧ p'.inside co = none ∧ p'.data a = none := by
  have matched := run_matched main zeroBlock buffs moves p admitted reached
  refine ⟨fun co id => ⟨matched.timed id co, fun asleep => (matched.slept co id asleep).2⟩,
    fun co id asleep between => matched.rings between asleep, ?_⟩
  intro co a inside c w rest done p' ours named ran
  exact matched.answers inside ours named ran

set_option maxRecDepth 8000 in
theorem event_wakes_sleepers : ∃ p,
    Runs.run (Source.BlockingTcp.step 0) (start false noBuffs) sleepMoves = .ok p ∧
    p.asleep 1 = some 0 ∧ p.asleep 2 = some 1 ∧ Between 0 p ∧
    ∃ p', Source.BlockingTcp.step 0 p (.tick 1) = .ok p' ∧ p'.machine.exec = 2 ∧
      p'.asleep 2 = none := by
  obtain ⟨p, reached, first, second, between⟩ : ∃ p,
      Runs.run (Source.BlockingTcp.step 0) (start false noBuffs) sleepMoves = .ok p ∧
      p.asleep 1 = some 0 ∧ p.asleep 2 = some 1 ∧ Between 0 p :=
    ⟨_, rfl, rfl, rfl, rfl, rfl, rfl, rfl⟩
  exact ⟨p, reached, first, second, between,
    (event_wakes 0 false noBuffs sleepMoves p sleepMoves_voluntary reached).2.1 2 1 second between⟩

end Colinlib.Guarantees.WakeUps
