import Colinlib.Source.RoutineEx
import Colinlib.Guarantees.TimerContract

/-!
# Coroutines that sleep

The processor is with one coroutine at a time, which calls the scheduler or `cort_sleep`, or
runs the event loop. A tick of the loop is entered once and then takes one timer after
another off its list; each of them resumes a coroutine, which runs until it gives the
processor back. `asleep` are the coroutines in the `cort_yield` of `cort_sleep`, and `woken`
those that came back from it.
-/
namespace Colinlib.Guarantees.SleepTimers
open Colinlib.Theory Colinlib.Theory.CMemory Colinlib.Theory.ByteMemory Colinlib.Theory.Runs
open Colinlib.Theory.Histories (ticks)
open Colinlib.Source.Clink Colinlib.Source.Falloc Colinlib.Source.Routine
open Colinlib.Source.TimingWheel Colinlib.Source.TimerService Colinlib.Source.RoutineEx
open Colinlib.Guarantees.TimerExactness (Quiet Shrinks quiet_shrinks)
open Colinlib.Guarantees.TimerContract

structure Process where
  machine : Machine
  world : World
  ticking : Bool
  asleep : List Nat
  woken : List Nat

namespace Process

def wheel (p : Process) : Cotw := p.world.1
def store (p : Process) : Store := p.world.2.1
def hist (p : Process) : List Event := p.world.2.2

/-- A coroutine that has the processor is not in `cort_sleep`. -/
def settle (p : Process) : Process :=
  if p.machine.exec ∈ p.asleep then
    { p with asleep := p.asleep.erase p.machine.exec, woken := p.machine.exec :: p.woken }
  else p

end Process

inductive Action where
  | op (o : Op)
  | sleep (ms : UInt32) (base : Nat)
  | tick
  | turn
  deriving DecidableEq

/-- One round of the drain loop, on a list that is not empty. -/
def takeTurn (self : UInt64) (p : Process) : Except (Halt Fault) Process := do
  let (n, tw) ← lift (popFront p.wheel .tickHead)
  let node ← lift (getNode tw n)
  if node.callback ≠ some onTimer then .error (.fault .badPointer) else do
    let (call, tw, s) ← lift (onTimerEnter self.toNat node.userdata (tw, p.store))
    let world := (tw, s, .fired call :: p.hist)
    if call.cb = onSleepTimer.toNat then do
      let machine ← lift (onSleepTimerRun call p.machine)
      .ok { p with world, machine }.settle
    else .error (.fault .badPointer)

/-- A new memory block, where one is needed, is placed where the program has nothing. Which
coroutine runs the event loop is left open; a tick ends before the next one begins. -/
def step (env self : UInt64) (p : Process) : Action → Except (Halt Fault) Process
  | .op o => do
    let machine ← lift (Source.Routine.step p.machine o)
    .ok { p with machine }.settle
  | .sleep ms base =>
    if p.store.alloc.1.freeitem ≠ 0 ∨ Fresh p.store.alloc.2 base p.store.alloc.1.blocksize then do
      let (item, machine, tw, s) ←
        lift (cortSleep self.toNat base env ms p.machine (p.wheel, p.store))
      match item with
      | none => .ok p
      | some item =>
        let world := (tw, s, .added item (sleepTimer env ms p.machine.sch.running) :: p.hist)
        .ok { p with world, machine, asleep := p.machine.exec :: p.asleep }.settle
    else .error .contract
  | .tick =>
    if p.ticking then .error .contract else do
      let tw ← lift (advance p.wheel)
      .ok { p with world := (tw, p.store, .tick :: p.hist), ticking := true }
  | .turn =>
    if !p.ticking then .error .contract
    else if coclinkIsEmpty p.wheel.links .tickHead then .ok { p with ticking := false }
    else takeTurn self p

/-- The process after `cortenv_new` on a new loop, with the wheel's tick count at any value. -/
def start (interval currtime : Nat) (currtick : UInt32) (mem : Memory) : Process :=
  { machine := openState, world := TimerContract.start interval currtime currtick mem,
    ticking := false, asleep := [], woken := [] }

/-! ## The invariant of a run -/

/-- What the list of the tick may be. -/
def Listed (ticking : Bool) (l : Option (List Ptr)) : Prop :=
  if ticking then l ≠ none else Quiet l

/-- Each timer item belongs to a coroutine that sleeps or to one that has been woken. -/
structure Inv (service : UInt64) (others : List (Nat × Nat)) (p : Process) : Prop where
  tracks : Tracks service others (Listed p.ticking) p.world
  distinct : p.asleep.Nodup
  awake : p.machine.exec ∉ p.asleep
  counted : (live p.hist).length = p.asleep.length + p.woken.length
  kept : ∀ i, .deleted i ∉ p.hist

section Preservation
variable {env self : UInt64} {others : List (Nat × Nat)} {p p' : Process}

/-- Control has gone anywhere, and the history is as long as before. -/
theorem settle_inv (tracks : Tracks self others (Listed p.ticking) p.world)
    (distinct : p.asleep.Nodup)
    (counted : (live p.hist).length = p.asleep.length + p.woken.length)
    (kept : ∀ i, .deleted i ∉ p.hist) : Inv self others p.settle := by
  unfold Process.settle
  split
  · next there =>
    refine ⟨tracks, distinct.erase _, distinct.not_mem_erase, ?_, kept⟩
    have := List.length_pos_of_mem there
    have := List.length_erase_of_mem there
    simp only [List.length_cons]
    change (live p.hist).length = _
    omega
  · next away => exact ⟨tracks, distinct, away, counted, kept⟩

theorem settle_hist (p : Process) : p.settle.hist = p.hist := by
  unfold Process.settle
  split <;> rfl

theorem op_inv (h : Inv self others p) (o : Op) (taken : step env self p (.op o) = .ok p') :
    Inv self others p' ∧ p'.hist = p.hist := by
  obtain ⟨machine, -, taken⟩ := bind_ok taken
  cases taken
  exact ⟨settle_inv h.tracks h.distinct h.counted h.kept, settle_hist _⟩

theorem cortSleep_ok {base : Nat} {ms : UInt32} {m m' : Machine} {sv sv' : Cots}
    {item : Option Nat}
    (run : cortSleep self.toNat base env ms m sv = .ok (item, m', sv')) :
    (m.sch.running = mainCoId ∧ item = none ∧ m' = m ∧ sv' = sv) ∨
      m.sch.running ≠ mainCoId ∧ ∃ i, item = some i ∧
        cotsAddTimer self.toNat base sv (sleepTimer env ms m.sch.running) = .ok (i, sv') := by
  unfold cortSleep at run
  simp only at run
  split at run
  · next main =>
    cases run
    exact .inl ⟨main, rfl, rfl, rfl⟩
  · next co =>
    obtain ⟨⟨i, sv₁⟩, added, run⟩ := bind_ok run
    obtain ⟨⟨yielded, m₁⟩, -, run⟩ := bind_ok run
    cases run
    exact .inr ⟨co, i, rfl, added⟩

theorem sleep_inv (h : Inv self others p) {ms : UInt32} {base : Nat}
    (taken : step env self p (.sleep ms base) = .ok p') : Inv self others p' ∧
      ((p.machine.sch.running = mainCoId ∧ p' = p) ∨ ∃ i,
        p'.hist = .added i (sleepTimer env ms p.machine.sch.running) :: p.hist) := by
  simp only [step] at taken
  split at taken
  · next room =>
    obtain ⟨⟨item, machine, tw, s⟩, run, taken⟩ := bind_ok taken
    rcases cortSleep_ok (lift_ok run) with ⟨main, rfl, -, -⟩ | ⟨co, i, rfl, added⟩
    · cases taken
      exact ⟨h, .inl ⟨main, rfl⟩⟩
    · cases taken
      have flag : onSleepTimer.toNat % 2 ^ 32 ≠ freeFlag := by decide
      obtain ⟨item, tw', s', ran, tracks⟩ :=
        add_tracks h.tracks (sleepTimer env ms p.machine.sch.running) room flag
      obtain ⟨rfl, rfl, rfl⟩ : i = item ∧ tw = tw' ∧ s = s' := by
        have same := added.symm.trans ran
        simp only [Except.ok.injEq, Prod.mk.injEq] at same
        exact same
      refine ⟨settle_inv tracks (List.nodup_cons.mpr ⟨h.awake, h.distinct⟩) ?_ ?_, .inr ⟨i, ?_⟩⟩
      · have := h.counted
        change (live p.hist).length + 1 = (p.asleep.length + 1) + p.woken.length
        omega
      · intro j there
        rcases List.mem_cons.mp there with same | there
        · cases same
        · exact h.kept j there
      · exact settle_hist _
  · cases taken

theorem tick_inv (h : Inv self others p) (taken : step env self p .tick = .ok p') :
    Inv self others p' ∧ p'.hist = .tick :: p.hist := by
  simp only [step] at taken
  split at taken
  · cases taken
  · next idle =>
    obtain ⟨tw, run, taken⟩ := bind_ok taken
    cases taken
    have quiet : Tracks self others Quiet p.world := by
      have tracks := h.tracks
      rw [Bool.not_eq_true] at idle
      rw [idle] at tracks
      exact tracks
    obtain ⟨shape, stored, vacant, empty⟩ := quiet.stored
    obtain ⟨links', shape', xs, advanced, stored', hxs, vacant'⟩ :=
      advance_spec stored vacant empty
    cases advanced.symm.trans (lift_ok run)
    have linked := advance_linked advanced
    refine ⟨⟨⟨⟨shape', ?_, vacant', ?_⟩, ⟨quiet.not_due, quiet.lawful⟩, quiet.pool, quiet.items,
      quiet.nodes, quiet.owners, quiet.known, fun i hi => linked _ (quiet.linked i hi),
      quiet.fields⟩, h.distinct, h.awake, h.counted, ?_⟩, rfl⟩
    · rw [left_tick]
      exact stored'
    · rw [hxs]
      nofun
    · intro i there
      rcases List.mem_cons.mp there with same | there
      · cases same
      · exact h.kept i there

/-- The timer taken off the list has its turn, whatever its callback then does. -/
theorem takeTurn_tracks (h : Tracks self others (Listed true) p.world)
    (more : coclinkIsEmpty p.wheel.links .tickHead = false)
    (taken : takeTurn self p = .ok p') : ∃ call tw s machine,
      Tracks self others (Listed true) (tw, s, .fired call :: p.hist) ∧
      p' = { p with world := (tw, s, .fired call :: p.hist), machine }.settle := by
  obtain ⟨⟨n, tw⟩, popped, taken⟩ := bind_ok taken
  obtain ⟨node, got, taken⟩ := bind_ok taken
  simp only at taken
  split at taken
  · cases taken
  · next callback =>
    obtain ⟨⟨call, tw', s'⟩, entered, taken⟩ := bind_ok taken
    simp only at taken
    split at taken
    · obtain ⟨machine, -, taken⟩ := bind_ok taken
      cases taken
      refine ⟨call, tw', s', machine, ?_, rfl⟩
      have room : ∃ k, Tracks self others (TimerExactness.Room k) p.world := by
        obtain ⟨shape, stored, vacant, listed⟩ := h.stored
        obtain ⟨xs, hxs⟩ := Option.ne_none_iff_exists'.mp listed
        exact ⟨xs.length, { h with stored := ⟨shape, stored, vacant, xs, hxs, Nat.le_refl _⟩ }⟩
      obtain ⟨k, room⟩ := room
      rcases drain_round (fun _ => []) k p.world room with ⟨empty, -⟩ | ⟨-, round⟩
      · cases empty.symm.trans more
      · obtain ⟨j, n₁, tw₁, node₁, -, popped₁, got₁, outcome⟩ := round
        cases popped₁.symm.trans (lift_ok popped)
        cases got₁.symm.trans (lift_ok got)
        have delivered : deliver (environment self fun _ => []) n node (tw, p.world.2) =
            .ok (tw', s', .fired call :: p.hist) := by
          rw [deliver, not_not.mp callback]
          simp only [environment, if_true]
          rw [show onTimerEnter self.toNat node.userdata (tw, p.world.2.1) = _ from
            lift_ok entered]
          simp only
          split <;> rfl
        rw [delivered] at outcome
        obtain ⟨shape, stored, vacant, xs, hxs, -⟩ := outcome.stored
        refine { outcome with stored := ⟨shape, stored, vacant, ?_⟩ }
        rw [hxs]
        exact Option.some_ne_none xs
    · cases taken

theorem turn_inv (h : Inv self others p) (taken : step env self p .turn = .ok p') :
    Inv self others p' ∧ (p'.hist = p.hist ∨ ∃ call, p'.hist = .fired call :: p.hist) := by
  simp only [step] at taken
  split at taken
  · cases taken
  · next busy =>
    have busy : p.ticking = true := by simpa using busy
    have tracks := h.tracks
    rw [busy] at tracks
    split at taken
    · next empty =>
      cases taken
      refine ⟨⟨?_, h.distinct, h.awake, h.counted, h.kept⟩, .inl rfl⟩
      obtain ⟨shape, stored, vacant, listed⟩ := tracks.stored
      refine { tracks with stored := ⟨shape, stored, vacant, fun xs hxs => ?_⟩ }
      exact (coclinkIsEmpty_iff stored.rings hxs).mp empty
    · next more =>
      obtain ⟨call, tw, s, machine, after, rfl⟩ :=
        takeTurn_tracks tracks (Bool.eq_false_iff.mpr more) taken
      rw [← busy] at after
      refine ⟨settle_inv after h.distinct h.counted ?_, .inr ⟨call, settle_hist _⟩⟩
      intro i there
      rcases List.mem_cons.mp there with same | there
      · cases same
      · exact h.kept i there

theorem step_inv (h : Inv self others p) (a : Action) (taken : step env self p a = .ok p') :
    Inv self others p' ∧ ∃ post, p'.hist = post ++ p.hist := by
  cases a with
  | op o =>
      obtain ⟨inv, same⟩ := op_inv h o taken
      exact ⟨inv, [], same⟩
  | sleep ms base =>
      obtain ⟨inv, ⟨-, rfl⟩ | ⟨i, more⟩⟩ := sleep_inv h taken
      · exact ⟨inv, [], rfl⟩
      · exact ⟨inv, [_], more⟩
  | tick =>
      obtain ⟨inv, more⟩ := tick_inv h taken
      exact ⟨inv, [_], more⟩
  | turn =>
      obtain ⟨inv, same | ⟨call, more⟩⟩ := turn_inv h taken
      · exact ⟨inv, [], same⟩
      · exact ⟨inv, [_], more⟩

theorem run_inv (h : Inv self others p) (actions : List Action)
    (reached : run (step env self) p actions = .ok p') :
    Inv self others p' ∧ ∃ post, p'.hist = post ++ p.hist := by
  have preserved : ∀ q a q', (Inv self others q ∧ ∃ post, q.hist = post ++ p.hist) →
      step env self q a = .ok q' → Inv self others q' ∧ ∃ post, q'.hist = post ++ p.hist := by
    rintro q a q' ⟨hq, post, more⟩ taken
    obtain ⟨inv, post', later⟩ := step_inv hq a taken
    exact ⟨inv, post' ++ post, by rw [later, more, List.append_assoc]⟩
  exact invariant preserved actions p p' ⟨h, [], rfl⟩ reached

theorem start_inv (interval currtime : Nat) (currtick : UInt32) (mem : Memory) :
    Inv self mem.blocks (start interval currtime currtick mem) := by
  refine ⟨start_tracks interval currtime currtick mem, List.nodup_nil, ?_, rfl, ?_⟩
  · nofun
  · intro i there
    cases there

end Preservation

/-! ## How long a sleep lasts -/

/-- A one-shot timer that is not deleted, over the history after it was added: it has its
turn, once, in tick `n`. -/
structure Expires (post : List Event) (i : Nat) (t : Timer) (n : Nat) : Prop where
  on_tick : ∀ later call mid, post = later ++ .fired call :: mid → call.item = i →
    call = callOf t i ∧ ticks .tick mid = n
  passed : n < ticks .tick post → .fired (callOf t i) ∈ post
  once : fires i post ≤ 1

theorem expires {post pre : List Event} {i : Nat} {t : Timer}
    (lawful : Lawful (post ++ .added i t :: pre))
    (kept : ∀ j, .deleted j ∉ post) (noloop : t.loop.toNat = 0) :
    Expires post i t (first t) := by
  have apart : ∀ e ∈ post, ¬ e.Bounds i := by
    rcases lifetime_end lawful with apart | ⟨later, mid, rfl, -⟩
    · exact apart
    · exact absurd (by simp) (kept i)
  refine ⟨?_, fun passed => ?_, ?_⟩
  · rintro later call mid rfl rfl
    have before : Lawful (.fired call :: (mid ++ .added call.item t :: pre)) := by
      rw [List.append_assoc] at lawful
      exact lawful.of_append
    obtain ⟨entered, -, waiting⟩ := lifetime before.2
      (fun e he => apart e (List.mem_append_right _ (List.mem_cons_of_mem _ he)))
    obtain ⟨now, -, t', entered', called⟩ := before.1
    obtain rfl := Option.some.inj (entered.symm.trans entered')
    refine ⟨called, ?_⟩
    rcases waiting with ⟨r, hr, total, never⟩ | ⟨none, -⟩
    · obtain rfl := Option.some.inj (hr.symm.trans now)
      rw [never noloop] at total
      omega
    · cases none.symm.trans now
  · have fired := fires_of_elapsed (k := 0) lawful apart (fun _ => rfl) (.inl (by omega))
    obtain ⟨later, mid, rfl, -⟩ := turn_of_fires lawful apart fired
    simp
  · obtain ⟨-, -, waiting⟩ := lifetime lawful apart
    rcases waiting with ⟨-, -, -, never⟩ | ⟨-, -, fired⟩
    · rw [never noloop]
      exact Nat.zero_le 1
    · exact Nat.le_of_eq fired

/-- `n` ticks of `interval` milliseconds are the first that last `ms` milliseconds. -/
def InTime (interval ms n : Nat) : Prop :=
  1 ≤ n ∧ ms ≤ n * interval ∧ n * interval < ms + 2 * interval

instance (interval ms n : Nat) : Decidable (InTime interval ms n) :=
  inferInstanceAs (Decidable (_ ∧ _ ∧ _))

theorem inTime_iff {interval ms : Nat} (pos : 0 < interval) :
    InTime interval ms (max ms 1) ↔ interval = 1 ∨ ms ≤ 2 ∨ interval = 2 ∧ ms = 3 := by
  unfold InTime
  rcases Nat.lt_or_ge ms 3 with small | large
  · have cases : ms = 0 ∨ ms = 1 ∨ ms = 2 := by omega
    rcases cases with rfl | rfl | rfl <;> simp <;> omega
  · obtain ⟨a, rfl⟩ := Nat.exists_eq_add_of_le' large
    obtain ⟨b, rfl⟩ := Nat.exists_eq_add_of_le' (show 1 ≤ interval from pos)
    have product : (a + 3) * (b + 1) = a * b + a + 3 * b + 3 := by
      rw [Nat.add_mul, Nat.mul_add, Nat.mul_add]
      omega
    rw [Nat.max_eq_left (by omega), product]
    rcases Nat.eq_zero_or_pos b with rfl | two
    · simp
    · have grows := Nat.mul_le_mul_left a two
      constructor
      · rintro ⟨-, -, bound⟩
        omega
      · rintro (one | few | ⟨even, three⟩)
        · omega
        · omega
        · obtain rfl : a = 0 := by omega
          omega

section Durations
variable {env self : UInt64} {others : List (Nat × Nat)} {p p' : Process}

/-- The timer of a sleep of `ms` milliseconds expires after `max ms 1` ticks, whatever the
run does. -/
theorem sleep_expires (h : Inv self others p) {ms : UInt32} {base : Nat}
    (slept : step env self p (.sleep ms base) = .ok p')
    (co : p.machine.sch.running ≠ mainCoId) :
    ∃ i, p'.hist = .added i (sleepTimer env ms p.machine.sch.running) :: p.hist ∧
      ∀ later p'', run (step env self) p' later = .ok p'' → ∃ post,
        p''.hist = post ++ p'.hist ∧
          Expires post i (sleepTimer env ms p.machine.sch.running) (max ms.toNat 1) := by
  obtain ⟨inv', ⟨main, -⟩ | ⟨i, more⟩⟩ := sleep_inv h slept
  · exact absurd main co
  · refine ⟨i, more, fun later p'' run => ?_⟩
    obtain ⟨inv'', post, whole⟩ := run_inv inv' later run
    refine ⟨post, whole, ?_⟩
    have lawful : Lawful p''.hist := inv''.tracks.lawful
    rw [more] at whole
    rw [whole] at lawful
    refine expires lawful (fun j there => ?_) rfl
    exact inv''.kept j (by simp [whole, there])

end Durations

/-- A sleep of `ms` milliseconds is over after `n` ticks in every continuation. These ticks
last the time asked for just when a tick is a millisecond, or the sleep is too short for the
difference to show. -/
theorem cort_sleep_duration (env self : UInt64) (interval currtime : Nat) (currtick : UInt32)
    (mem : Memory) (pos : 0 < interval) (actions : List Action) (p : Process)
    (reached : run (step env self) (start interval currtime currtick mem) actions = .ok p)
    (ms : UInt32) (base : Nat) (p' : Process)
    (slept : step env self p (.sleep ms base) = .ok p')
    (co : p.machine.sch.running ≠ mainCoId) :
    ∃ i n, due p'.hist i = some n ∧
      (∀ later p'', run (step env self) p' later = .ok p'' → ∃ post,
        p''.hist = post ++ p'.hist ∧
          Expires post i (sleepTimer env ms p.machine.sch.running) n) ∧
      (InTime interval ms.toNat n ↔
        interval = 1 ∨ ms.toNat ≤ 2 ∨ interval = 2 ∧ ms.toNat = 3) := by
  have inv := (run_inv (start_inv interval currtime currtick mem) actions reached).1
  obtain ⟨i, more, expires⟩ := sleep_expires inv slept co
  refine ⟨i, max ms.toNat 1, ?_, expires, inTime_iff pos⟩
  rw [more, due, if_pos rfl]
  rfl

/-- A process with nothing in memory, on a loop of `interval` milliseconds. -/
def fresh (interval : Nat) : Process := start interval 0 0 ⟨fun _ => 0, []⟩

/-- A first coroutine, which is given the processor. -/
def spawn : List Action := [.op (.new 1 0), .op (.resume 1)]

theorem spawn_sleep {interval : Nat} {ms : UInt32} {i : Nat}
    (runs : (do let p ← run (step 5 64) (fresh interval) spawn
                let p' ← step 5 64 p (.sleep ms 4096)
                .ok (p.machine.sch.running, p'.hist)) = .ok (1, [.added i (sleepTimer 5 ms 1)])) :
    ∃ p p', run (step 5 64) (fresh interval) spawn = .ok p ∧
      step 5 64 p (.sleep ms 4096) = .ok p' ∧ p.machine.sch.running ≠ mainCoId ∧
      p'.hist = [.added i (sleepTimer 5 ms 1)] := by
  obtain ⟨p, reached, runs⟩ := bind_ok runs
  obtain ⟨p', slept, runs⟩ := bind_ok runs
  simp only [Except.ok.injEq, Prod.mk.injEq] at runs
  exact ⟨p, p', reached, slept, by simp [runs.1, mainCoId], runs.2⟩

/-- A second on a loop of one millisecond. -/
theorem cort_sleep_duration_second : ∃ p p' i n, run (step 5 64) (fresh 1) spawn = .ok p ∧
    step 5 64 p (.sleep 1000 4096) = .ok p' ∧ due p'.hist i = some n ∧ InTime 1 1000 n := by
  obtain ⟨p, p', reached, slept, co, -⟩ :=
    @spawn_sleep 1 1000 8104 (by decide +kernel)
  obtain ⟨i, n, left, -, right⟩ := cort_sleep_duration 5 64 1 0 0 _ (by decide) spawn p reached
    1000 4096 p' slept co
  exact ⟨p, p', i, n, reached, slept, left, right.mpr (.inl rfl)⟩

/-- A second on a loop of ten milliseconds takes a thousand ticks. -/
theorem cort_sleep_ten_seconds : ∃ p p' i, run (step 5 64) (fresh 10) spawn = .ok p ∧
    step 5 64 p (.sleep 1000 4096) = .ok p' ∧ due p'.hist i = some 1000 ∧
    (∀ later p'', run (step 5 64) p' later = .ok p'' → ∃ post t,
      p''.hist = post ++ p'.hist ∧ Expires post i t 1000) ∧ ¬ InTime 10 1000 1000 := by
  obtain ⟨p, p', reached, slept, co, -⟩ :=
    @spawn_sleep 10 1000 8104 (by decide +kernel)
  have inv := (run_inv (start_inv 10 0 0 _) spawn reached).1
  obtain ⟨i, more, expires⟩ := sleep_expires inv slept co
  refine ⟨p, p', i, reached, slept, ?_, fun later p'' run => ?_, by decide⟩
  · rw [more, due, if_pos rfl]
    rfl
  · obtain ⟨post, whole, ends⟩ := expires later p'' run
    exact ⟨post, _, whole, ends⟩

/-! ## What a sleep leaves behind -/

/-- The timer items that have been taken from the allocator and not given back. -/
def Taken (p : Process) (items : List Nat) : Prop :=
  ∃ others bases free, Pool 4096 sizeofTitem others p.store.alloc bases free items

def LeakFree (p : Process) : Prop := ∀ items, Taken p items → items.length ≤ p.asleep.length

theorem Inv.taken {service : UInt64} {others : List (Nat × Nat)} {p : Process}
    (h : Inv service others p) : Taken p (live p.hist) := by
  obtain ⟨bases, free, pool⟩ := h.tracks.pool
  exact ⟨others, bases, free, pool⟩

theorem Inv.taken_length {service : UInt64} {others : List (Nat × Nat)} {p : Process}
    (h : Inv service others p) {items : List Nat} (taken : Taken p items) :
    items.length = p.asleep.length + p.woken.length := by
  obtain ⟨others', bases, free, pool⟩ := taken
  obtain ⟨bases', free', pool'⟩ := h.tracks.pool
  rw [← h.counted]
  exact (pool.held_perm pool').length_eq

/-- The items of all sleeps are still taken. They are at most as many as the coroutines that
sleep just as long as no coroutine has been woken. -/
theorem sleep_timers_leak (env self : UInt64) (interval currtime : Nat) (currtick : UInt32)
    (mem : Memory) (actions : List Action) (p : Process)
    (reached : run (step env self) (start interval currtime currtick mem) actions = .ok p) :
    (∃ items, Taken p items) ∧ (LeakFree p ↔ p.woken = []) := by
  have inv := (run_inv (start_inv interval currtime currtick mem) actions reached).1
  refine ⟨⟨_, inv.taken⟩, fun few => ?_, fun none items taken => ?_⟩
  · have := few _ inv.taken
    have := inv.taken_length inv.taken
    exact List.length_eq_zero_iff.mp (by omega)
  · rw [inv.taken_length taken, none]
    exact Nat.le_refl _

/-- A coroutine that sleeps. -/
theorem sleep_timers_leak_asleep : ∃ p,
    run (step 5 64) (fresh 1) (spawn ++ [.sleep 1000 4096]) = .ok p ∧ p.asleep = [1] ∧
      LeakFree p := by
  obtain ⟨p, reached, seen⟩ := reached_of_map (show
    (run (step 5 64) (fresh 1) (spawn ++ [.sleep 1000 4096])).map
      (fun p => (p.asleep, p.woken)) = .ok ([1], []) by decide +kernel)
  obtain ⟨asleep, woken⟩ := Prod.mk.inj seen
  exact ⟨p, reached, asleep, (sleep_timers_leak 5 64 1 0 0 _ _ p reached).2.mpr woken⟩

/-- The same coroutine after the tick that wakes it. -/
theorem sleep_timers_leak_woken : ∃ p,
    run (step 5 64) (fresh 1) (spawn ++ [.sleep 1 4096, .tick, .turn]) = .ok p ∧
      p.asleep = [] ∧ ¬ LeakFree p := by
  obtain ⟨p, reached, seen⟩ := reached_of_map (show
    (run (step 5 64) (fresh 1) (spawn ++ [.sleep 1 4096, .tick, .turn])).map
      (fun p => (p.asleep, p.woken)) = .ok ([], [1]) by decide +kernel)
  obtain ⟨asleep, woken⟩ := Prod.mk.inj seen
  have inv := (run_inv (start_inv 1 0 0 _) _ reached).1
  refine ⟨p, reached, asleep, fun few => ?_⟩
  have := few _ inv.taken
  rw [inv.taken_length inv.taken, asleep, woken] at this
  cases this

end Colinlib.Guarantees.SleepTimers
