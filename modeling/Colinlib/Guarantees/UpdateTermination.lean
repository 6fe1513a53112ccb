import Colinlib.Guarantees.WheelStates

/-!
# `cotw_update` comes to an end

Each round of the loop takes the interval off the elapsed time, so an interval of zero takes
nothing: the loop is never left once it is entered. With any other interval it ends. The
loops inside a tick always do: a callback can only put nodes into slots, since a node is
added for one tick at least, and the list that is worked off only gets shorter.
-/
namespace Colinlib.Guarantees.UpdateTermination
open Colinlib.Theory Colinlib.Theory.CMemory Colinlib.Theory.Runs
open Colinlib.Source.TimingWheel
open Colinlib.Guarantees.TimerExactness Colinlib.Guarantees.TickConversion
open Colinlib.Guarantees.WheelStates

section
variable {σ ε : Type}

/-- The `diff` of `cotw_update`. -/
def elapsed (tw : Cotw) (currtime : Nat) : Int :=
  narrow (currtime - tw.lasttime + tw.remainder)

/-- `cotw_update`, given up after so many rounds. -/
def updateWithin (env : Env σ ε) (enter : σ → σ) (rounds : Nat) (tw : Cotw) (currtime : Nat)
    (s : σ) : Except ε (Cotw × σ) :=
  if tw.lasttime < currtime then do
    let (diff, tw, s) ← updateLoop env enter tw.interval rounds (elapsed tw currtime)
      ({ tw with lasttime := currtime }, s)
    .ok ({ tw with remainder := uint16 diff }, s)
  else .ok (tw, s)

/-- The function gives itself a round for each millisecond. -/
theorem cotwUpdate_eq (env : Env σ ε) (enter : σ → σ) (tw : Cotw) (currtime : Nat) (s : σ) :
    cotwUpdate env enter tw currtime s =
      updateWithin env enter (elapsed tw currtime).toNat tw currtime s := rfl

end

section
variable (interval starttime : Nat) (currtick : UInt32)

/-- Callbacks that make calls of the wheel which return, in whatever state they are invoked. -/
def Legit (behave : List Event → List UserOp) : Prop :=
  ∀ tw n cb ud hist,
    Reached interval starttime currtick .draining (tw, .expire n (some cb) ud :: hist) →
    ∃ w, userRun (tw, .expire n (some cb) ud :: hist) (behave (.expire n (some cb) ud :: hist)) =
      .ok w

end

/-- The call returns: some number of rounds is enough. -/
def Returns (behave : List Event → List UserOp) (w : World) (currtime : UInt64) : Prop :=
  ∃ rounds w', updateWithin (environment behave) (fun hist => .tick :: hist) rounds w.1
    currtime.toNat w.2 = .ok w'

section Ticks
variable {interval starttime : Nat} {currtick : UInt32} {behave : List Event → List UserOp}

/-- The stops of the wheel's own code. -/
def Stop.Own (stop : Stop) : Prop := ∃ f, stop = .tick f

theorem lift_own {β : Type} (x : Except Fault β) :
    Outcome Stop.Own (fun b => x = .ok b) ((environment behave).lift x) := by
  cases x with
  | error f => exact ⟨f, rfl⟩
  | ok b => rfl

theorem drainLoop_own (legit : Legit interval starttime currtick behave) (fuel : Nat) (w : World)
    (reached : Reached interval starttime currtick .draining w) :
    Outcome Stop.Own (fun _ => True) (drainLoop (environment behave) fuel w) := by
  induction fuel generalizing w with
  | zero =>
      rw [drainLoop]
      split
      · trivial
      · exact ⟨_, rfl⟩
  | succ fuel ih =>
      obtain ⟨tw, hist⟩ := w
      rw [drainLoop]
      split
      · trivial
      · refine (lift_own _).bind fun out popped => ?_
        obtain ⟨n, tw₁⟩ := out
        refine (lift_own _).bind fun node got => ?_
        have expired := reached.expire popped got
        cases registered : node.callback with
        | none =>
            rw [registered] at expired
            exact ih _ expired
        | some cb =>
            rw [registered] at expired
            obtain ⟨w', called⟩ := legit tw₁ n cb node.userdata hist expired
            change Outcome _ _ (userRun _ _ >>= _)
            rw [called]
            exact ih _ (userRun_reached expired called)

/-- A tick returns. -/
theorem cotwTick_returns (legit : Legit interval starttime currtick behave) {w : World}
    (reached : Reached interval starttime currtick .between w) :
    ∃ w', _cotwTick (environment behave) w.1 (.tick :: w.2) = .ok w' ∧
      Reached interval starttime currtick .between w' := by
  have safe := cotwTick_tracks behave w.1 w.2 reached.orderly.tracks
  have own : Outcome Stop.Own (fun _ => True)
      (_cotwTick (environment behave) w.1 (.tick :: w.2)) :=
    (lift_own _).bind fun tw advanced => drainLoop_own legit _ _ (reached.tick advanced)
  cases ticked : _cotwTick (environment behave) w.1 (.tick :: w.2) with
  | error stop =>
      rw [ticked] at safe own
      obtain ⟨f, rfl⟩ := own
      exact safe.elim
  | ok w' => exact ⟨w', rfl, cotwTick_reached reached ticked⟩

/-- Where a round takes at least one millisecond, as many rounds as there are are enough. -/
theorem updateLoop_returns (legit : Legit interval starttime currtick behave) {intv : Int}
    (pos : 0 < intv) (rounds : Nat) (diff : Int) (enough : diff ≤ rounds) (w : World)
    (reached : Reached interval starttime currtick .between w) :
    ∃ r, updateLoop (environment behave) (fun hist => .tick :: hist) intv rounds diff w = .ok r := by
  induction rounds generalizing diff w with
  | zero =>
      rw [updateLoop, if_neg (by omega)]
      exact ⟨_, rfl⟩
  | succ rounds ih =>
      obtain ⟨tw, hist⟩ := w
      rw [updateLoop]
      split
      · obtain ⟨w', ticked, reached'⟩ := cotwTick_returns legit reached
        rw [ticked]
        exact ih (diff - intv) (by omega) w' reached'
      · exact ⟨_, rfl⟩

/-- Where it takes none, no number of rounds is enough. -/
theorem updateLoop_endless {diff : Int} (entered : 0 ≤ diff) (rounds : Nat) (w : World)
    (r : Int × World) :
    updateLoop (environment behave) (fun hist => .tick :: hist) 0 rounds diff w ≠ .ok r := by
  induction rounds generalizing diff w with
  | zero =>
      rw [updateLoop, if_pos entered]
      intro stopped
      cases stopped
  | succ rounds ih =>
      obtain ⟨tw, hist⟩ := w
      rw [updateLoop, if_pos entered]
      intro returned
      obtain ⟨w', -, onward⟩ := bind_ok returned
      exact ih (by omega) w' onward

end Ticks

section Interval
variable {interval starttime : Nat} {currtick : UInt32}

/-- The interval is the one given to `cotw_init`. -/
theorem interval_kept {phase : Phase} {w : World}
    (h : Reached interval starttime currtick phase w) : w.1.interval = interval := by
  induction h with
  | start => rfl
  | user _ called ih => exact (userStep_sameClock _ _ called).2.1.trans ih
  | clock _ lasttime remainder ih => exact ih
  | tick before advanced ih =>
      obtain ⟨shape, stored, vacant, quiet⟩ := before.orderly.tracks.stored
      obtain ⟨links, -, -, ran, -⟩ := advance_spec stored vacant quiet
      rw [ran] at advanced
      cases advanced
      exact ih
  | expire _ popped _ ih =>
      obtain ⟨links, rfl⟩ := popFront_kept popped
      exact ih
  | finish _ _ ih => exact ih

end Interval

/-- Where the interval is not zero, the rounds the function gives itself are enough. -/
theorem cotwUpdate_returns {interval : UInt16} {starttime : Nat} {currtick : UInt32}
    {behave : List Event → List UserOp} (legit : Legit interval.toNat starttime currtick behave)
    (nonzero : interval ≠ 0) {w : World}
    (reached : Reached interval.toNat starttime currtick .between w) (currtime : Nat) :
    ∃ w', cotwUpdate (environment behave) (fun hist => .tick :: hist) w.1 currtime w.2 = .ok w' := by
  have pos : 0 < interval.toNat := Nat.pos_of_ne_zero fun none => nonzero (UInt16.toNat_inj.mp none)
  have step : (0 : Int) < w.1.interval := by
    rw [interval_kept reached]
    omega
  have turned := reached.clock currtime w.1.remainder
  obtain ⟨r, looped⟩ := updateLoop_returns legit step (elapsed w.1 currtime).toNat _
    (Int.self_le_toNat _) _ turned
  rw [cotwUpdate_eq, updateWithin]
  split
  · exact ⟨({ r.2.1 with remainder := uint16 r.1 }, r.2.2), by rw [looped]; rfl⟩
  · exact ⟨w, rfl⟩

theorem legit_silent (interval starttime : Nat) (currtick : UInt32) :
    Legit interval starttime currtick (fun _ => []) :=
  fun _ _ _ _ _ _ => ⟨_, rfl⟩

/-- With the interval zero and the loop entered, the call does not return. -/
theorem update_endless {behave : List Event → List UserOp} {w : World} {currtime : UInt64}
    (zero : w.1.interval = 0) (later : w.1.lasttime < currtime.toNat)
    (entered : 0 ≤ elapsed w.1 currtime.toNat) : ¬ Returns behave w currtime := by
  rintro ⟨rounds, w', returned⟩
  unfold updateWithin at returned
  rw [if_pos later, zero] at returned
  obtain ⟨r, looped, -⟩ := bind_ok returned
  exact updateLoop_endless entered rounds _ r looped

/-- In every state between two updates, for every time and all callbacks that only make
calls of the wheel: `cotw_update` returns if and only if the interval is not zero or its
loop is not entered. -/
theorem update_returns_iff (interval : UInt16) (starttime : Nat) (currtick : UInt32) (w : World)
    (reached : Reached interval.toNat starttime currtick .between w) (currtime : UInt64) :
    (∀ behave, Legit interval.toNat starttime currtick behave → Returns behave w currtime) ↔
      interval ≠ 0 ∨ currtime.toNat ≤ w.1.lasttime ∨ elapsed w.1 currtime.toNat < 0 := by
  have kept := interval_kept reached
  constructor
  · intro returns
    by_contra none
    push Not at none
    obtain ⟨zero, later, entered⟩ := none
    exact update_endless (by rw [kept, zero]; rfl) later entered
      (returns _ (legit_silent _ _ _))
  · intro ends behave legit
    by_cases zero : interval = 0
    · refine ⟨0, ?_⟩
      rw [updateWithin]
      split
      · next later =>
        have below : elapsed w.1 currtime.toNat < 0 :=
          (ends.resolve_left (not_not.mpr zero)).resolve_left (by omega)
        rw [updateLoop, if_neg (by omega)]
        exact ⟨_, rfl⟩
      · exact ⟨w, rfl⟩
    · obtain ⟨w', returned⟩ := cotwUpdate_returns legit zero reached currtime.toNat
      exact ⟨_, w', returned⟩

/-- A callback that adds its own node again, for no ticks. -/
def readds : List Event → List UserOp
  | .expire n _ _ :: _ => [.add n 0]
  | _ => []

theorem legit_readds (interval starttime : Nat) (currtick : UInt32) :
    Legit interval starttime currtick readds := by
  intro tw n cb ud hist reached
  obtain ⟨tracks, -, -, -, -, known⟩ := reached.orderly
  obtain ⟨⟨pending, -⟩, -⟩ := tracks.lawful
  have before : added hist n = true := added_of_countdown pending
  have inside : n < tw.nodes.length := known n before
  have idle : countdown (.expire n (some cb) ud :: hist) n = none := if_pos rfl
  obtain ⟨tw', ran, -⟩ := add_tracks _ tracks 0 inside idle
  refine ⟨(tw', .add n 0 :: .expire n (some cb) ud :: hist), ?_⟩
  simp only [readds, userRun, Runs.run, userStep, if_pos (And.intro inside idle), ran]

/-- A timer is pending that will add itself in every tick. -/
theorem update_returns_iff_readded : ∃ w : World, countdown w.2 0 = some 2 ∧
    Reached (10 : UInt16).toNat 0 0 .between w ∧ Legit (10 : UInt16).toNat 0 0 readds ∧
    Returns readds w 100 := by
  have made : (userRun (start 10 0 0) [.init 0 (some 7) 0, .add 0 2]).map Prod.snd =
      .ok [.add 0 2, .init 0 (some 7) 0] := by decide +kernel
  obtain ⟨w, ran, hist⟩ := Runs.reached_of_map made
  have reached : Reached (10 : UInt16).toNat 0 0 .between w := userRun_reached .start ran
  have legit := legit_readds (10 : UInt16).toNat 0 0
  refine ⟨w, by rw [hist]; rfl, reached, legit, ?_⟩
  exact (update_returns_iff 10 0 0 w reached 100).mpr (.inl (by decide)) readds legit

/-- An update of a wheel with the interval zero, one millisecond after its start, does not
return though it has no callback to run. -/
theorem zero_interval_hangs : Reached (0 : UInt16).toNat 0 0 .between (start 0 0 0) ∧
    Legit (0 : UInt16).toNat 0 0 (fun _ => []) ∧ ¬ Returns (fun _ => []) (start 0 0 0) 1 := by
  refine ⟨.start, legit_silent _ _ _, update_endless rfl (by decide) ?_⟩
  show 0 ≤ narrow 1
  decide

end Colinlib.Guarantees.UpdateTermination
