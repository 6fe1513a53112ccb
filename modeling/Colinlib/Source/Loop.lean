import Colinlib.Source.TimingWheel

/-!
# The event loop (`co_loop.c`)

A turn of the loop waits for events, reads the clock and brings the timers up to date; an idle
function comes after it. What runs inside of these steps is the client: the callbacks of the
poller, of the timers and of the loop. The loop and its wheel agree on the time, and what the
wheel has not turned into ticks yet it keeps in `remainder`.
-/
namespace Colinlib.Source.Loop
open Colinlib.Theory Colinlib.Theory.CMemory Colinlib.Theory.Runs
open Colinlib.Source.TimingWheel

variable {σ ε α : Type}

/-- What the loop calls. `poll` is `copoll_wait` with the callbacks it makes, `env` the
callbacks of timers, and `idle` the idle function, if there is one; `enter` tells an observer
that a tick begins. `stopped` reads `loop->stop`, which callbacks set. -/
structure Client (σ ε α : Type) where
  poll : α → Cotw × σ → Except ε (Cotw × σ)
  env : Env σ ε
  enter : σ → σ
  idle : Option (α → Cotw × σ → Except ε (Cotw × σ))
  stopped : σ → Bool

structure State (σ : Type) where
  timeout : Nat
  currtime : Nat
  world : Cotw × σ

/-- `coloop_new` at the time `now`. -/
def coloopNew (interval : UInt16) (now : UInt64) (rest : σ) : State σ where
  timeout := interval.toNat
  currtime := now.toNat
  world := (cotwInit interval.toNat now.toNat, rest)

/-- What is different in each turn: the events, the time that `co_gettime` returns, and what
the idle function does. -/
structure Turn (α : Type) where
  events : α
  now : UInt64
  spare : α

/-- `cots_update`. -/
def cotsUpdate (c : Client σ ε α) (w : Cotw × σ) (currtime : Nat) : Except ε (Cotw × σ) :=
  cotwUpdate c.env c.enter w.1 currtime w.2

def coloopRunonce (c : Client σ ε α) (loop : State σ) (events : α) (now : UInt64) :
    Except ε (State σ) := do
  let world ← c.poll events loop.world
  let loop := { loop with world, currtime := now.toNat }
  let world ← cotsUpdate c loop.world loop.currtime
  .ok { loop with world }

/-- `coloop_run`, over the turns that the environment has for it. -/
def coloopRun (c : Client σ ε α) (loop : State σ) : List (Turn α) → Except ε (State σ)
  | [] => .ok loop
  | turn :: rest =>
    if c.stopped loop.world.2 then .ok loop
    else do
      let loop ← coloopRunonce c loop turn.events turn.now
      match c.idle with
      | none => coloopRun c loop rest
      | some idle => do
        let world ← idle turn.spare loop.world
        coloopRun c { loop with world } rest

/-! ## The clock of the wheel -/

/-- Nothing but `cotw_update` turns the clock of the wheel. -/
structure SameTime (tw tw' : Cotw) : Prop where
  lasttime : tw'.lasttime = tw.lasttime
  interval : tw'.interval = tw.interval
  remainder : tw'.remainder = tw.remainder

theorem SameTime.refl (tw : Cotw) : SameTime tw tw := ⟨rfl, rfl, rfl⟩

theorem SameTime.trans {tw tw' tw'' : Cotw} (h : SameTime tw tw') (h' : SameTime tw' tw'') :
    SameTime tw tw'' :=
  ⟨h'.lasttime.trans h.lasttime, h'.interval.trans h.interval, h'.remainder.trans h.remainder⟩

theorem SameTime.add {tw tw' : Cotw} {n ticks : Nat} (added : cotwAdd tw n ticks = .ok tw') :
    SameTime tw tw' := by
  obtain ⟨links, nodes, rfl⟩ := cotwAdd_kept added
  exact ⟨rfl, rfl, rfl⟩

theorem SameTime.del {tw tw' : Cotw} {n r : Nat} (deleted : cotwDel tw n = .ok (r, tw')) :
    SameTime tw tw' := by
  obtain ⟨links, rfl⟩ := cotwDel_kept deleted
  exact ⟨rfl, rfl, rfl⟩

theorem SameTime.popFront {tw tw' : Cotw} {head : Ptr} {n : Nat}
    (popped : TimingWheel.popFront tw head = .ok (n, tw')) : SameTime tw tw' := by
  obtain ⟨links, rfl⟩ := popFront_kept popped
  exact ⟨rfl, rfl, rfl⟩

/-- What a client has to keep: `I` in all that it does, with the clock of the wheel alone, and
one more tick counted in each tick. -/
structure Keeps (c : Client σ ε α) (stop : ε → Prop) (I : Cotw × σ → Prop) (count : σ → Nat) :
    Prop where
  poll : ∀ events w, I w → Outcome stop
    (fun w' => I w' ∧ SameTime w.1 w'.1 ∧ count w'.2 = count w.2) (c.poll events w)
  idle : ∀ idle, c.idle = some idle → ∀ spare w, I w → Outcome stop
    (fun w' => I w' ∧ SameTime w.1 w'.1 ∧ count w'.2 = count w.2) (idle spare w)
  tick : ∀ w, I w → Outcome stop
    (fun w' => I w' ∧ SameTime w.1 w'.1 ∧ count w'.2 = count w.2 + 1)
    (_cotwTick c.env w.1 (c.enter w.2))
  retime : ∀ tw s lasttime remainder, I (tw, s) → I ({ tw with lasttime, remainder }, s)

section Clock
variable {c : Client σ ε α} {stop : ε → Prop} {I : Cotw × σ → Prop} {count : σ → Nat}

/-- The loop of `cotw_update` pays for each tick with `interval` milliseconds. -/
theorem Keeps.updateLoop (h : Keeps c stop I count) {interval : Nat} (pos : 0 < interval)
    (fuel : Nat) (diff : Nat) (w : Cotw × σ) (enough : diff ≤ fuel) (holds : I w) :
    Outcome stop (fun r : Int × Cotw × σ => I r.2 ∧ SameTime w.1 r.2.1 ∧
      ∃ left : Nat, r.1 = left ∧ left < interval ∧
        count r.2.2 * interval + left = count w.2 * interval + diff)
      (TimingWheel.updateLoop c.env c.enter interval fuel diff w) := by
  induction fuel generalizing diff w with
  | zero =>
      rw [TimingWheel.updateLoop, if_neg (by omega)]
      exact ⟨holds, .refl _, diff, rfl, by omega, rfl⟩
  | succ fuel ih =>
      obtain ⟨tw, s⟩ := w
      rw [TimingWheel.updateLoop]
      split
      · next more =>
        apply (h.tick (tw, s) holds).bind
        rintro w₁ ⟨holds₁, same, counted⟩
        have smaller : (diff : Int) - interval = (diff - interval : Nat) := by omega
        rw [smaller]
        apply (ih (diff - interval) w₁ (by omega) holds₁).mono
        rintro r ⟨holds', same', left, is, less, paid⟩
        refine ⟨holds', same.trans same', left, is, less, ?_⟩
        have one : count w₁.2 = count s + 1 := counted
        rw [paid, one, Nat.add_mul]
        change _ = count s * interval + diff
        omega
      · next enough =>
        exact ⟨holds, .refl _, diff, rfl, by omega, rfl⟩

/-- All the time up to `last` is in the ticks counted and the remainder. -/
structure Timed (I : Cotw × σ → Prop) (count : σ → Nat) (interval starttime last : Nat)
    (w : Cotw × σ) : Prop where
  holds : I w
  width : w.1.interval = interval
  lasttime : w.1.lasttime = last
  begun : starttime ≤ last
  carried : w.1.remainder < interval
  paid : count w.2 * interval + w.1.remainder = last - starttime

theorem Timed.ticks {interval starttime last : Nat} {w : Cotw × σ} (pos : 0 < interval)
    (h : Timed I count interval starttime last w) :
    count w.2 = (last - starttime) / interval ∧ w.1.remainder = (last - starttime) % interval := by
  rw [← h.paid]
  constructor
  · rw [Nat.add_comm, Nat.add_mul_div_right _ _ pos, Nat.div_eq_of_lt h.carried, Nat.zero_add]
  · rw [Nat.add_comm, Nat.add_mul_mod_self_right, Nat.mod_eq_of_lt h.carried]

theorem Timed.same {interval starttime last : Nat} {w w' : Cotw × σ}
    (h : Timed I count interval starttime last w) (holds : I w') (same : SameTime w.1 w'.1)
    (counted : count w'.2 = count w.2) : Timed I count interval starttime last w' where
  holds := holds
  width := same.interval.trans h.width
  lasttime := same.lasttime.trans h.lasttime
  begun := h.begun
  carried := by rw [same.remainder]; exact h.carried
  paid := by rw [counted, same.remainder]; exact h.paid

/-- One `cots_update`, where the elapsed time fits an `int`. -/
theorem Keeps.update (h : Keeps c stop I count) {interval starttime last : Nat}
    (pos : 0 < interval) (small : interval < 2 ^ 16) {w : Cotw × σ}
    (timed : Timed I count interval starttime last w) {now : Nat} (forward : last ≤ now)
    (fits : now - last + (last - starttime) % interval ≤ intMax) :
    Outcome stop (Timed I count interval starttime now) (cotsUpdate c w now) := by
  obtain ⟨tw, s⟩ := w
  have hlast : tw.lasttime = last := timed.lasttime
  obtain rfl : tw.interval = interval := timed.width
  have carried : tw.remainder = (last - starttime) % tw.interval := (timed.ticks pos).2
  have paid : count s * tw.interval + tw.remainder = last - starttime := timed.paid
  have begun := timed.begun
  unfold cotsUpdate cotwUpdate
  simp only
  split
  · next later =>
    have elapsed := narrow_fits (n := now - tw.lasttime + tw.remainder) (by omega)
    rw [elapsed, Int.toNat_natCast]
    have turned := h.retime tw s now tw.remainder timed.holds
    apply (h.updateLoop pos _ _ _ (Nat.le_refl _) turned).bind
    rintro ⟨diff, tw', s'⟩ ⟨holds, same, left, rfl, less, traded⟩
    have uint : uint16 (left : Int) = left := by
      unfold uint16
      omega
    rw [uint]
    have traded : count s' * tw.interval + left =
        count s * tw.interval + (now - tw.lasttime + tw.remainder) := traded
    exact {
      holds := h.retime tw' s' tw'.lasttime left holds
      width := same.interval
      lasttime := same.lasttime
      begun := Nat.le_trans begun forward
      carried := less
      paid := by
        change count s' * tw.interval + left = now - starttime
        omega }
  · next stays =>
    obtain rfl : now = last := by omega
    exact timed

/-- The clock of the loop does not go back, and it does not jump too far. -/
def Steady (interval starttime : Nat) (previous : UInt64) (turns : List (Turn α)) : Prop :=
  (previous :: turns.map Turn.now).IsChain (· ≤ ·) ∧
    Representable interval starttime previous (turns.map Turn.now)

/-- **The loop loses no time.** In every state in which the loop can be left, all the time that
has passed since it was made is in the ticks of its timers and in the remainder. -/
theorem Keeps.run (h : Keeps c stop I count) {interval starttime : Nat} (pos : 0 < interval)
    (small : interval < 2 ^ 16) (turns : List (Turn α)) {previous : UInt64} {loop : State σ}
    (now : loop.currtime = previous.toNat)
    (timed : Timed I count interval starttime loop.currtime loop.world)
    (steady : Steady interval starttime previous turns) :
    Outcome stop (fun loop' => Timed I count interval starttime loop'.currtime loop'.world)
      (coloopRun c loop turns) := by
  induction turns generalizing previous loop with
  | nil => exact timed
  | cons turn rest ih =>
      obtain ⟨ordered, representable⟩ := steady
      obtain ⟨forward, ordered⟩ := List.isChain_cons_cons.mp ordered
      obtain ⟨fits, representable⟩ := representable
      have forward : previous.toNat ≤ turn.now.toNat := forward
      rw [coloopRun]
      split
      · exact timed
      · have once : Outcome stop (fun loop' => loop'.currtime = turn.now.toNat ∧
            Timed I count interval starttime loop'.currtime loop'.world)
            (coloopRunonce c loop turn.events turn.now) := by
          unfold coloopRunonce
          apply (h.poll turn.events loop.world timed.holds).bind
          rintro w ⟨holds, same, counted⟩
          have waited := timed.same holds same counted
          rw [now] at waited
          apply (h.update pos small waited forward fits).bind
          intro w' updated
          exact ⟨rfl, updated⟩
        apply once.bind
        rintro loop' ⟨now', timed'⟩
        cases idle : c.idle with
        | none => exact ih now' timed' ⟨ordered, representable⟩
        | some f =>
            apply (h.idle f idle turn.spare loop'.world timed'.holds).bind
            rintro w ⟨holds, same, counted⟩
            have timed'' : Timed I count interval starttime loop'.currtime
                { loop' with world := w }.world := timed'.same holds same counted
            exact ih now' timed'' ⟨ordered, representable⟩

end Clock

end Colinlib.Source.Loop
