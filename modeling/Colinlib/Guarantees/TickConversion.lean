import Colinlib.Guarantees.TimerExactness

/-!
# Elapsed time becomes ticks

`cotw_update` is called with wall times between which nodes are added and
deleted, and whose ticks run callbacks. Converted so far are the ticks of the
history and the `remainder` field. The elapsed time is narrowed to `int`, so the
conversion is complete exactly when no call spans `2 ^ 31` milliseconds or more.
-/
namespace Colinlib.Guarantees.TickConversion
open Colinlib.Theory Colinlib.Theory.CMemory Colinlib.Theory.Runs
open Colinlib.Theory.Histories (ticks ticks_tick ticks_other)
open Colinlib.Source.TimingWheel Colinlib.Guarantees.TimerExactness

inductive Request where
  | user (op : UserOp)
  | update (currtime : UInt64)
  deriving DecidableEq

def serve (behave : List Event → List UserOp) (w : World) : Request → Except Stop World
  | .user op => userStep w op
  | .update currtime =>
    cotwUpdate (environment behave) (fun hist => .tick :: hist) w.1 currtime.toNat w.2

/-- The times passed to `cotw_update`. -/
def passed : List Request → List UInt64
  | [] => []
  | .user _ :: rest => passed rest
  | .update currtime :: rest => currtime :: passed rest

/-- All of the elapsed time is in the ticks executed and the remainder. -/
def Converted (interval starttime last : Nat) (w : World) : Prop :=
  ticks .tick w.2 = (last - starttime) / interval ∧ w.1.remainder = (last - starttime) % interval

/-- The clock fields and the number of ticks executed are as they were. -/
def SameClock (w w' : World) : Prop :=
  w'.1.lasttime = w.1.lasttime ∧ w'.1.interval = w.1.interval ∧
    w'.1.remainder = w.1.remainder ∧ ticks .tick w'.2 = ticks .tick w.2

theorem SameClock.refl (w : World) : SameClock w w := ⟨rfl, rfl, rfl, rfl⟩

theorem SameClock.trans {w w' w'' : World} (h : SameClock w w') (h' : SameClock w' w'') :
    SameClock w w'' :=
  ⟨h'.1.trans h.1, h'.2.1.trans h.2.1, h'.2.2.1.trans h.2.2.1, h'.2.2.2.trans h.2.2.2⟩

section Ticks

theorem userStep_sameClock (w : World) (op : UserOp) {w' : World}
    (h : userStep w op = .ok w') : SameClock w w' := by
  obtain ⟨n, cb, ud, -, -, -, rfl⟩ | ⟨n, t, tw, -, -, -, added, rfl⟩ |
    ⟨n, r, tw, -, -, deleted, rfl⟩ := userStep_cases h
  · exact ⟨rfl, rfl, rfl, ticks_other (by simp) w.2⟩
  · obtain ⟨links, nodes, rfl⟩ := cotwAdd_kept added
    exact ⟨rfl, rfl, rfl, ticks_other (by simp) w.2⟩
  · obtain ⟨links, rfl⟩ := cotwDel_kept deleted
    exact ⟨rfl, rfl, rfl, ticks_other (by simp) w.2⟩

theorem userRun_sameClock (ops : List UserOp) (w w' : World) (h : userRun w ops = .ok w') :
    SameClock w w' := by
  have step : ∀ v op v', SameClock w v → userStep v op = .ok v' → SameClock w v' := by
    intro v op v' hv hstep
    exact hv.trans (userStep_sameClock v op hstep)
  exact Runs.invariant step ops w w' (SameClock.refl w) h

/-- Callbacks cannot turn the clock, and no tick runs inside a tick. -/
theorem drainLoop_sameClock (behave : List Event → List UserOp) (fuel : Nat) (w w' : World)
    (h : drainLoop (environment behave) fuel w = .ok w') : SameClock w w' := by
  induction fuel generalizing w with
  | zero =>
      rw [drainLoop] at h
      split at h
      · cases h
        exact SameClock.refl w
      · cases h
  | succ fuel ih =>
      obtain ⟨tw, hist⟩ := w
      rw [drainLoop] at h
      split at h
      · cases h
        exact SameClock.refl _
      · obtain ⟨⟨n, tw₁⟩, hpop, h⟩ := bind_ok h
        obtain ⟨node, -, h⟩ := bind_ok h
        obtain ⟨links, rfl⟩ := popFront_kept (Env.lift_ok hpop)
        cases hcb : node.callback with
        | none =>
            simp only [hcb] at h
            have rest := ih _ h
            have quiet : ticks .tick (.expire n none node.userdata :: hist) = ticks .tick hist :=
              ticks_other (by simp) hist
            exact ⟨rest.1, rest.2.1, rest.2.2.1, rest.2.2.2.trans quiet⟩
        | some cb =>
            simp only [hcb] at h
            obtain ⟨next, hcall, h⟩ := bind_ok h
            have called := userRun_sameClock _ _ _ hcall
            have rest := called.trans (ih _ h)
            have fired : ticks .tick (.expire n (some cb) node.userdata :: hist) = ticks .tick hist :=
              ticks_other (by simp) hist
            exact ⟨rest.1, rest.2.1, rest.2.2.1, rest.2.2.2.trans fired⟩

/-- One tick counts once and touches no clock field. -/
theorem cotwTick_counts (behave : List Event → List UserOp) (w : World)
    (h : Tracks Quiet w.1 w.2) :
    Outcome Stop.ByCaller (fun w' => Tracks Quiet w'.1 w'.2 ∧
      SameClock (w.1, .tick :: w.2) w') (_cotwTick (environment behave) w.1 (.tick :: w.2)) := by
  obtain ⟨tw, hist⟩ := w
  have safe := cotwTick_tracks behave tw hist h
  obtain ⟨shape, hstored, hvac, hquiet⟩ := h.stored
  obtain ⟨links', -, -, hadvance, -⟩ := advance_spec hstored hvac hquiet
  cases htick : _cotwTick (environment behave) tw (.tick :: hist) with
  | error stop =>
      rw [htick] at safe
      exact safe
  | ok w' =>
      rw [htick] at safe
      rw [_cotwTick, hadvance] at htick
      have same := drainLoop_sameClock behave _ _ w' htick
      exact ⟨safe, same⟩

/-- The loop trades `intv` milliseconds for each tick, until fewer are left. -/
theorem updateLoop_trades (behave : List Event → List UserOp) (intv : Nat) (pos : 0 < intv)
    (fuel : Nat) (diff : Int) (w : World) (enough : diff ≤ fuel)
    (h : Tracks Quiet w.1 w.2) :
    Outcome Stop.ByCaller
      (fun r : Int × World => Tracks Quiet r.2.1 r.2.2 ∧ r.2.1.lasttime = w.1.lasttime ∧
        r.2.1.interval = w.1.interval ∧ r.1 < intv ∧ (0 ≤ diff → 0 ≤ r.1) ∧
        (diff < 0 → r.1 = diff) ∧
        (ticks .tick r.2.2 : Int) * intv + r.1 = ticks .tick w.2 * intv + diff)
      (updateLoop (environment behave) (fun hist => .tick :: hist) intv fuel diff w) := by
  induction fuel generalizing diff w with
  | zero =>
      rw [updateLoop, if_neg (by omega)]
      exact ⟨h, rfl, rfl, by omega, fun h0 => h0, fun _ => rfl, rfl⟩
  | succ fuel ih =>
      obtain ⟨tw, hist⟩ := w
      rw [updateLoop]
      split
      · next more =>
        apply Outcome.bind (cotwTick_counts behave (tw, hist) h)
        intro w₁ ticked
        have same := ticked.2
        apply Outcome.mono (ih (diff - intv) w₁ (by omega) ticked.1)
        intro r rest
        have one : ticks .tick w₁.2 = ticks .tick hist + 1 := same.2.2.2.trans (ticks_tick hist)
        refine ⟨rest.1, rest.2.1.trans same.1, rest.2.2.1.trans same.2.1, rest.2.2.2.1,
          fun _ => rest.2.2.2.2.1 (by omega), fun neg => absurd neg (by omega), ?_⟩
        have trade := rest.2.2.2.2.2.2
        rw [one] at trade
        push_cast at trade
        rw [add_mul] at trade
        change _ = (ticks .tick hist : Int) * intv + diff
        omega
      · next enough => exact ⟨h, rfl, rfl, by omega, fun h0 => h0, fun _ => rfl, rfl⟩

end Ticks

theorem setTime_tracks {D : Option (List Ptr) → Prop} {tw : Cotw} {hist : List Event}
    (h : Tracks D tw hist) (lasttime remainder : Nat) :
    Tracks D { tw with lasttime, remainder } hist := by
  obtain ⟨shape, hstored, hvac, hD⟩ := h.stored
  exact ⟨⟨shape, hstored.setTime lasttime remainder, hvac, hD⟩, h.lawful, h.fields⟩

section Milliseconds

/-- The milliseconds converted so far. -/
def accounted (w : World) : Nat := ticks .tick w.2 * w.1.interval + w.1.remainder

theorem uint16_small {n : Int} (h0 : 0 ≤ n) (h : n < 2 ^ 16) : uint16 n = n := by
  unfold uint16
  omega

theorem uint16_lt (n : Int) : uint16 n < 2 ^ 16 := by
  unfold uint16
  omega

theorem narrow_loses {n : Nat} (h : intMax < n) : narrow n + 2 ^ 32 ≤ n := by
  unfold narrow intMax at *
  have low : n % 2 ^ 64 ≤ n := Nat.mod_le _ _
  simp only [Int.bmod]
  by_cases small : n % 2 ^ 64 ≤ 2 ^ 31 - 1
  · have drop : n % 2 ^ 64 + 2 ^ 32 ≤ n := by omega
    split <;> omega
  · split <;> omega

theorem converted_iff {interval starttime last : Nat} {w : World} (pos : 0 < interval)
    (hi : w.1.interval = interval) :
    Converted interval starttime last w ↔
      accounted w = last - starttime ∧ w.1.remainder < interval := by
  unfold Converted accounted
  rw [hi]
  constructor
  · intro h
    rw [h.1, h.2]
    exact ⟨Nat.div_add_mod' _ _, Nat.mod_lt _ pos⟩
  · intro h
    rw [← h.1]
    constructor
    · rw [Nat.add_comm, Nat.add_mul_div_right _ _ pos, Nat.div_eq_of_lt h.2, Nat.zero_add]
    · rw [Nat.add_comm, Nat.add_mul_mod_self_right, Nat.mod_eq_of_lt h.2]

/-- Between requests: the wheel is at rest, and its clock shows `last`. -/
structure Clocked (interval last : Nat) (w : World) : Prop where
  tracks : Tracks Quiet w.1 w.2
  lasttime : w.1.lasttime = last
  interval : w.1.interval = interval
  carried : w.1.remainder < 2 ^ 16

/-- One call accounts for all the time that elapsed, or loses some for good. -/
theorem cotwUpdate_accounts (behave : List Event → List UserOp) {interval last : Nat}
    (pos : 0 < interval) (small : interval < 2 ^ 16) (time : UInt64) (w : World)
    (h : Clocked interval last w) (forward : last ≤ time.toNat) :
    Outcome Stop.ByCaller
      (fun w' => Clocked interval time.toNat w' ∧
        (w.1.remainder < interval → time.toNat - last + w.1.remainder ≤ intMax →
          w'.1.remainder < interval) ∧
        (time.toNat - last + w.1.remainder ≤ intMax →
          accounted w' = accounted w + (time.toNat - last)) ∧
        (intMax < time.toNat - last + w.1.remainder →
          accounted w' < accounted w + (time.toNat - last)))
      (serve behave w (.update time)) := by
  obtain ⟨tw, hist⟩ := w
  rw [serve]
  generalize time.toNat = currtime at *
  have hlast : tw.lasttime = last := h.lasttime
  have hinterval : tw.interval = interval := h.interval
  have carried : tw.remainder < 2 ^ 16 := h.carried
  rw [cotwUpdate]
  by_cases later : tw.lasttime < currtime
  · rw [if_pos later]
    have turned : Tracks Quiet { tw with lasttime := currtime } hist :=
      setTime_tracks h.tracks currtime tw.remainder
    generalize hdiff : narrow (currtime - tw.lasttime + tw.remainder) = elapsed
    have trades := updateLoop_trades behave tw.interval (by omega) elapsed.toNat elapsed
      ({ tw with lasttime := currtime }, hist) (Int.self_le_toNat elapsed) turned
    apply trades.bind
    intro r traded
    obtain ⟨diff, tw', hist'⟩ := r
    obtain ⟨tracks, same_time, same_interval, below, nonneg, untouched, conserved⟩ := traded
    have clocked : Clocked interval currtime
        ({ tw' with remainder := uint16 diff }, hist') :=
      ⟨setTime_tracks tracks tw'.lasttime _, same_time, same_interval.trans hinterval,
        uint16_lt diff⟩
    have conserved' : ((ticks .tick hist' * tw'.interval : Nat) : Int) + diff =
        (ticks .tick hist * tw.interval : Nat) + elapsed := by
      rw [same_interval]
      push_cast
      exact conserved
    simp only at below nonneg untouched
    rw [hlast] at hdiff
    change Clocked _ _ _ ∧ (tw.remainder < interval →
        currtime - last + tw.remainder ≤ intMax → uint16 diff < interval) ∧
      (currtime - last + tw.remainder ≤ intMax → ticks .tick hist' * tw'.interval + uint16 diff =
        ticks .tick hist * tw.interval + tw.remainder + (currtime - last)) ∧
      (intMax < currtime - last + tw.remainder → ticks .tick hist' * tw'.interval + uint16 diff <
        ticks .tick hist * tw.interval + tw.remainder + (currtime - last))
    refine ⟨clocked, ?_, ?_, ?_⟩
    · intro _ fits
      have exactly := narrow_fits fits
      have same := uint16_small (nonneg (by omega)) (by omega)
      omega
    · intro fits
      have exactly := narrow_fits fits
      have same := uint16_small (nonneg (by omega)) (by omega)
      omega
    · intro loses
      have short := narrow_loses loses
      have reduced := uint16_lt diff
      unfold intMax at loses
      by_cases neg : 0 ≤ elapsed
      · have same := uint16_small (nonneg neg) (by omega)
        omega
      · have := untouched (by omega)
        omega
  · rw [if_neg later]
    have stay : currtime - last = 0 := by omega
    have same : Clocked interval currtime (tw, hist) :=
      ⟨h.tracks, by change tw.lasttime = currtime; omega, h.interval, h.carried⟩
    change Clocked _ _ _ ∧ _
    rw [stay]
    refine ⟨same, fun inside _ => inside, fun _ => rfl, fun loses => ?_⟩
    unfold intMax at loses
    simp only at loses
    omega

end Milliseconds

section Requests

variable {interval starttime : Nat}

theorem userStep_clocked (behave : List Event → List UserOp) {last : Nat} {w : World}
    (op : UserOp) (h : Clocked interval last w) :
    Outcome Stop.ByCaller (fun w' => Clocked interval last w' ∧ SameClock w w')
      (serve behave w (.user op)) := by
  change Outcome _ _ (userStep w op)
  have safe := userStep_tracks quiet_shrinks w op h.tracks
  cases hstep : userStep w op with
  | error stop =>
      rw [hstep] at safe
      exact safe
  | ok w' =>
      rw [hstep] at safe
      have same := userStep_sameClock w op hstep
      have carried := h.carried
      rw [← same.2.2.1] at carried
      exact ⟨⟨safe, same.1.trans h.lasttime, same.2.1.trans h.interval, carried⟩, same⟩

theorem SameClock.accounted {w w' : World} (h : SameClock w w') :
    accounted w' = accounted w := by
  unfold TickConversion.accounted
  rw [h.2.1, h.2.2.1, h.2.2.2]

/-- Time that was lost stays lost. -/
theorem behind_run (behave : List Event → List UserOp) (pos : 0 < interval)
    (small : interval < 2 ^ 16) (requests : List Request) (previous : UInt64) (w : World)
    (h : Clocked interval previous.toNat w) (begun : starttime ≤ previous.toNat)
    (ordered : (previous :: passed requests).IsChain (· ≤ ·))
    (behind : accounted w < previous.toNat - starttime) :
    Outcome Stop.ByCaller (fun w' => ¬ Converted interval starttime
        ((passed requests).getLastD previous).toNat w')
      (run (serve behave) w requests) := by
  induction requests generalizing previous w with
  | nil =>
      intro converted
      have exactly := ((converted_iff pos h.interval).mp converted).1
      simp only [passed, List.getLastD_nil] at exactly
      omega
  | cons request rest ih =>
      cases request with
      | user op =>
          apply Outcome.cons (userStep_clocked behave op h)
          intro w₁ kept
          apply ih previous w₁ kept.1 begun ordered
          rw [kept.2.accounted]
          exact behind
      | update currtime =>
          obtain ⟨forward, ordered'⟩ := List.isChain_cons_cons.mp ordered
          have forward' : previous.toNat ≤ currtime.toNat := forward
          apply Outcome.cons (cotwUpdate_accounts behave pos small currtime w h forward')
          intro w₁ updated
          simp only [passed, List.getLastD_cons]
          apply ih currtime w₁ updated.1 (Nat.le_trans begun forward') ordered'
          rcases Nat.lt_or_ge intMax (currtime.toNat - previous.toNat + w.1.remainder) with
            loses | fits
          · have := updated.2.2.2 loses
            omega
          · have := updated.2.2.1 fits
            omega

/-- Time is accounted for in full until a call spans too much of it. -/
theorem converted_run (behave : List Event → List UserOp) (pos : 0 < interval)
    (small : interval < 2 ^ 16) (requests : List Request) (previous : UInt64) (w : World)
    (h : Clocked interval previous.toNat w) (begun : starttime ≤ previous.toNat)
    (ordered : (previous :: passed requests).IsChain (· ≤ ·))
    (converted : Converted interval starttime previous.toNat w) :
    Outcome Stop.ByCaller
      (fun w' => Converted interval starttime ((passed requests).getLastD previous).toNat w' ↔
        Representable interval starttime previous (passed requests))
      (run (serve behave) w requests) := by
  induction requests generalizing previous w with
  | nil => exact ⟨fun _ => trivial, fun _ => converted⟩
  | cons request rest ih =>
      cases request with
      | user op =>
          apply Outcome.cons (userStep_clocked behave op h)
          intro w₁ kept
          apply ih previous w₁ kept.1 begun ordered
          unfold Converted at converted ⊢
          rw [kept.2.2.2.2, kept.2.2.2.1]
          exact converted
      | update currtime =>
          obtain ⟨forward, ordered'⟩ := List.isChain_cons_cons.mp ordered
          have forward' : previous.toNat ≤ currtime.toNat := forward
          have later := Nat.le_trans begun forward'
          obtain ⟨total, inside⟩ := (converted_iff pos h.interval).mp converted
          have carried : w.1.remainder = (previous.toNat - starttime) % interval := converted.2
          apply Outcome.cons (cotwUpdate_accounts behave pos small currtime w h forward')
          intro w₁ updated
          simp only [passed, List.getLastD_cons, Representable]
          rw [← carried]
          rcases Nat.lt_or_ge intMax (currtime.toNat - previous.toNat + w.1.remainder) with
            loses | fits
          · have short := updated.2.2.2 loses
            apply (behind_run behave pos small rest currtime w₁ updated.1 later ordered'
              (by omega)).mono
            intro w₂ lost
            exact ⟨fun c => absurd c lost, fun r => absurd r.1 (Nat.not_le.mpr loses)⟩
          · have exactly := updated.2.2.1 fits
            have converted₁ : Converted interval starttime currtime.toNat w₁ := by
              apply (converted_iff pos updated.1.interval).mpr
              exact ⟨by omega, updated.2.1 inside fits⟩
            apply (ih currtime w₁ updated.1 later ordered' converted₁).mono
            intro w₂ same
            rw [same]
            exact ⟨fun r => ⟨fits, r⟩, fun r => r.2⟩

end Requests

/-- The wall clock jumps by `2 ^ 31` milliseconds in a run of the wheel: not one
tick is executed. -/
theorem clock_jump_loses_ticks :
    (run (serve fun _ => []) (start 1 0 0) [.update 2147483648]).map
        (fun w => (ticks .tick w.2, w.1.remainder)) = .ok (0, 0) ∧
      (2147483648 - 0) / 1 ≠ 0 := by
  decide +kernel

/-- The ticks executed and the remainder hold all of the elapsed time, however it
was split between calls and whatever nodes and callbacks did meanwhile, if and
only if no call spanned more milliseconds than an `int` holds. -/
theorem elapsed_time_converted (interval : UInt16) (starttime : UInt64) (currtick : UInt32)
    (behave : List Event → List UserOp) (requests : List Request) (pos : 0 < interval)
    (ordered : (starttime :: passed requests).IsChain (· ≤ ·)) :
    Outcome Stop.ByCaller
      (fun w => Converted interval.toNat starttime.toNat
          ((passed requests).getLastD starttime).toNat w ↔
        Representable interval.toNat starttime.toNat starttime (passed requests))
      (run (serve behave) (start interval.toNat starttime.toNat currtick) requests) := by
  have positive : 0 < interval.toNat := pos
  apply converted_run behave positive interval.toNat_lt requests starttime _ _ (Nat.le_refl _)
    ordered
  · simp [Converted, start, cotwInit, ticks]
  · exact ⟨start_tracks _ _ _, rfl, rfl, by simp [start, cotwInit]⟩

seal run in
theorem elapsed_time_converted_carry :
    Outcome Stop.ByCaller
      (fun w => Converted 10 100 126 w ↔ Representable 10 100 100 [105, 126])
      (run (serve fun _ => []) (start 10 100 0) [.update 105, .user (.init 0 none 0),
        .update 126]) :=
  elapsed_time_converted 10 100 0 (fun _ => []) [.update 105, .user (.init 0 none 0),
    .update 126] (by decide) (by decide)

end Colinlib.Guarantees.TickConversion
