import Colinlib.Source.WheelLinks
import Colinlib.Guarantees.TickConversion

/-!
# The states in which the wheel is used

The wheel's functions are called between two updates, or from a callback of the tick in
progress. A tick is taken apart into the steps between which control is with the caller,
so that the states inside a callback are states of a run too. In all of them the links of a
node are null if and only if it was not added since it was initialised.
-/
namespace Colinlib.Guarantees.WheelStates
open Colinlib.Theory Colinlib.Theory.CMemory Colinlib.Theory.Links
open Colinlib.Source.TimingWheel Colinlib.Source.Clink
open Colinlib.Guarantees.TimerExactness Colinlib.Guarantees.TickConversion

/-- Whether the list of a tick is being worked off. -/
inductive Phase where
  | between | draining
  deriving DecidableEq, Repr

section
variable (interval currtime : Nat) (currtick : UInt32)

/-- The states of all runs: calls in any state, `_cotw_tick` up to its loop, each round of
the loop up to the call of the callback, its end, and the clock fields `cotw_update` sets. -/
inductive Reached : Phase → World → Prop
  | start : Reached .between (start interval currtime currtick)
  | user {phase w w' op} (before : Reached phase w) (called : userStep w op = .ok w') :
      Reached phase w'
  | clock {phase w} (before : Reached phase w) (lasttime remainder : Nat) :
      Reached phase ({ w.1 with lasttime, remainder }, w.2)
  | tick {w tw} (before : Reached .between w) (advanced : advance w.1 = .ok tw) :
      Reached .draining (tw, .tick :: w.2)
  | expire {w n tw node} (before : Reached .draining w)
      (popped : popFront w.1 .tickHead = .ok (n, tw)) (got : getNode tw n = .ok node) :
      Reached .draining (tw, .expire n node.callback node.userdata :: w.2)
  | finish {w} (before : Reached .draining w)
      (empty : coclinkIsEmpty w.1.links .tickHead = true) : Reached .between w

end

/-! ## What the wheel's own functions run through -/

section Runs
variable {interval currtime : Nat} {currtick : UInt32} {behave : List Event → List UserOp}
  {w w' : World} {phase : Phase}

theorem userRun_reached (before : Reached interval currtime currtick phase w)
    {ops : List UserOp} (ran : userRun w ops = .ok w') :
    Reached interval currtime currtick phase w' :=
  Runs.invariant (fun _ _ _ reached called => .user reached called) ops w w' before ran

theorem drainLoop_reached (fuel : Nat) {w : World}
    (before : Reached interval currtime currtick .draining w)
    (ran : drainLoop (environment behave) fuel w = .ok w') :
    Reached interval currtime currtick .between w' := by
  induction fuel generalizing w with
  | zero =>
      rw [drainLoop] at ran
      split at ran
      · next empty =>
        cases ran
        exact .finish before empty
      · cases ran
  | succ fuel ih =>
      obtain ⟨tw, hist⟩ := w
      rw [drainLoop] at ran
      split at ran
      · next empty =>
        cases ran
        exact .finish before empty
      · obtain ⟨⟨n, tw₁⟩, popped, ran⟩ := bind_ok ran
        obtain ⟨node, got, ran⟩ := bind_ok ran
        have expired := before.expire (Env.lift_ok popped) (Env.lift_ok got)
        cases registered : node.callback with
        | none =>
            simp only [registered] at ran expired
            exact ih expired ran
        | some cb =>
            simp only [registered] at ran expired
            obtain ⟨next, called, ran⟩ := bind_ok ran
            exact ih (userRun_reached expired called) ran

theorem cotwTick_reached (before : Reached interval currtime currtick .between w)
    (ran : _cotwTick (environment behave) w.1 (.tick :: w.2) = .ok w') :
    Reached interval currtime currtick .between w' := by
  obtain ⟨tw, advanced, drained⟩ := bind_ok ran
  exact drainLoop_reached _ (before.tick (Env.lift_ok advanced)) drained

theorem updateLoop_reached {intv diff left : Int} (fuel : Nat) {w : World}
    (before : Reached interval currtime currtick .between w)
    (ran : updateLoop (environment behave) (fun hist => .tick :: hist) intv fuel diff w =
      .ok (left, w')) : Reached interval currtime currtick .between w' := by
  induction fuel generalizing w diff with
  | zero =>
      rw [updateLoop] at ran
      split at ran
      · cases ran
      · cases ran
        exact before
  | succ fuel ih =>
      obtain ⟨tw, hist⟩ := w
      rw [updateLoop] at ran
      split at ran
      · obtain ⟨w₁, ticked, ran⟩ := bind_ok ran
        exact ih (cotwTick_reached before ticked) ran
      · cases ran
        exact before

/-- The states that calls and `cotw_update` lead to are among those above. -/
theorem serve_reached (before : Reached interval currtime currtick .between w)
    {request : Request} (served : serve behave w request = .ok w') :
    Reached interval currtime currtick .between w' := by
  cases request with
  | user op => exact before.user served
  | update now =>
      unfold serve cotwUpdate at served
      dsimp only at served
      split at served
      · obtain ⟨⟨left, tw, hist⟩, looped, served⟩ := bind_ok served
        cases served
        have turned := before.clock now.toNat w.1.remainder
        exact (updateLoop_reached _ turned looped).clock tw.lasttime _
      · cases served
        exact before

end Runs

/-! ## Null links -/

/-- Whether a node was added since it was last initialised. -/
def added : List Event → Nat → Bool
  | [], _ => false
  | .add m _ :: h, n => if n = m then true else added h n
  | .init m _ _ :: h, n => if n = m then false else added h n
  | _ :: h, n => added h n

theorem added_of_countdown {h : List Event} {n r : Nat} (pending : countdown h n = some r) :
    added h n = true := by
  induction h generalizing r with
  | nil => cases pending
  | cons e h ih =>
      cases e with
      | tick =>
          obtain ⟨before, was, -⟩ := Option.map_eq_some_iff.mp pending
          exact ih was
      | add m t =>
          by_cases same : n = m
          · exact if_pos same
          · exact (if_neg same).trans (ih ((if_neg same).symm.trans pending))
      | init m cb ud =>
          by_cases same : n = m
          · simp [countdown, same] at pending
          · exact (if_neg same).trans (ih ((if_neg same).symm.trans pending))
      | del m | expire m cb ud =>
          by_cases same : n = m
          · simp [countdown, same] at pending
          · exact ih ((if_neg same).symm.trans pending)

/-- What the list of the tick in progress may be. -/
def Phase.Allows : Phase → Option (List Ptr) → Prop
  | .between => Quiet
  | .draining => fun list => ∃ xs, list = some xs

theorem allows_shrinks (phase : Phase) : Shrinks phase.Allows := by
  cases phase with
  | between => exact quiet_shrinks
  | draining => exact fun xs x _ => ⟨_, rfl⟩

/-- The wheel's memory, the links outside its lists included. -/
structure Orderly (phase : Phase) (w : World) : Prop where
  tracks : Tracks phase.Allows w.1 w.2
  answered : Answered w.1.links
  cascade : Rests w.1.links .cascadeHead
  tick : phase = .between → Rests w.1.links .tickHead
  null : ∀ n, w.1.links.next (.node n) = none ↔ added w.2 n = false
  known : ∀ n, added w.2 n = true → n < w.1.nodes.length

section Start

/-- While heads are initialised: nothing else is linked. -/
structure Fresh (L : Mem Ptr) : Prop where
  answered : Answered L
  idle : ∀ p, Idle L p
  null : ∀ p, ¬ IsHead p → L.next p = none

theorem coclinkInit_fresh {L : Mem Ptr} (h : Fresh L) {head : Ptr} (isHead : IsHead head) :
    Fresh (coclinkInit L head) where
  answered := coclinkInit_answered h.answered (h.idle head)
  idle p := by
    rw [Idle, coclinkInit_next]
    split
    · next same => exact .inr (by rw [same])
    · exact h.idle p
  null p other := by
    rw [coclinkInit_next, if_neg, h.null p other]
    rintro rfl
    exact other isHead

theorem initAll_fresh (heads : List Ptr) {L : Mem Ptr} (h : Fresh L)
    (all : ∀ p ∈ heads, IsHead p) : Fresh (initAll L heads) := by
  induction heads generalizing L with
  | nil => exact h
  | cons head rest ih =>
      exact ih (coclinkInit_fresh h (all head List.mem_cons_self))
        fun p mem => all p (List.mem_cons_of_mem _ mem)

theorem cotwInit_fresh (interval currtime : Nat) : Fresh (cotwInit interval currtime).links := by
  have roots : ∀ p ∈ (List.range tvrSize).map Ptr.root, IsHead p := by
    intro p mem
    obtain ⟨i, -, rfl⟩ := List.mem_map.mp mem
    trivial
  have slots (level : Nat) : ∀ p ∈ (List.range tvnSize).map (Ptr.tv level), IsHead p := by
    intro p mem
    obtain ⟨i, -, rfl⟩ := List.mem_map.mp mem
    trivial
  have none_yet : Fresh ⟨fun _ => none, fun _ => none⟩ :=
    ⟨fun a z h => (nomatch h), fun p => .inl rfl, fun p _ => rfl⟩
  exact initAll_fresh _ (initAll_fresh _ (initAll_fresh _ (initAll_fresh _
    (initAll_fresh _ none_yet roots) (slots 0)) (slots 1)) (slots 2)) (slots 3)

theorem start_orderly (interval currtime : Nat) (currtick : UInt32) :
    Orderly .between (start interval currtime currtick) := by
  have fresh := cotwInit_fresh interval currtime
  refine ⟨start_tracks interval currtime currtick, fresh.answered,
    .inl (fresh.null _ fun no => no), fun _ => .inl (fresh.null _ fun no => no),
    fun n => ⟨fun _ => rfl, fun _ => fresh.null _ fun no => no⟩, fun n was => (nomatch was)⟩

end Start

section Steps
variable {phase : Phase} {w w' : World}

/-- A node that is not pending is linked to no other one. -/
theorem Orderly.idle (h : Orderly phase w) {n : Nat} (gone : countdown w.2 n = none) :
    Idle w.1.links (.node n) := by
  obtain ⟨shape, stored, -, -⟩ := h.tracks.stored
  by_cases inside : n < w.1.nodes.length
  · rcases stored.idle n inside gone with alone | ⟨-, null⟩
    · exact .inr (stored.rings.ring alone).next_head
    · exact .inl null
  · refine .inl ((h.null n).mpr (Bool.eq_false_iff.mpr fun was => inside (h.known n was)))

/-- A link that an operation does not own is null afterwards if and only if it was before. -/
theorem null_kept {own : Ptr → Prop} {L L' : Mem Ptr} (frame : Frame own L L')
    (linked : StaysLinked L L') {p : Ptr} (other : ¬ own p) :
    L'.next p = none ↔ L.next p = none := by
  constructor
  · intro null
    by_contra some
    exact linked p some null
  · intro null
    rw [frame.same p other (.inl null), null]

section Calls
variable {tw tw' : Cotw} {hist : List Event} {n : Nat}

theorem init_orderly {cb : Option Nat} {ud : Nat} (h : Orderly phase (tw, hist))
    (gone : countdown hist n = none)
    (tracks : Tracks phase.Allows (cotwNodeInit tw n cb ud) (.init n cb ud :: hist)) :
    Orderly phase (cotwNodeInit tw n cb ud, .init n cb ud :: hist) := by
  have idle := h.idle gone
  have other {p : Ptr} (head : ∀ m, p ≠ .node m) :
      (cotwNodeInit tw n cb ud).links.next p = tw.links.next p :=
    cotwNodeInit_next cb ud (head n)
  have rests {p : Ptr} (head : ∀ m, p ≠ .node m) (h : Rests tw.links p) :
      Rests (cotwNodeInit tw n cb ud).links p := by
    rw [Rests, other head]
    exact h
  refine ⟨tracks, fun a z prev => ?_, rests (by simp) h.cascade,
    fun phase => rests (by simp) (h.tick phase), fun m => ?_, fun m was => ?_⟩
  · have ne : a ≠ .node n := by
      rintro rfl
      simp [cotwNodeInit] at prev
    have back := h.answered a z (by simpa [cotwNodeInit, ne] using prev)
    rw [cotwNodeInit_next, back]
    rintro rfl
    exact ne (idle.alone back)
  · by_cases same : m = n
    · subst same
      simp [cotwNodeInit, added]
    · rw [cotwNodeInit_next cb ud (by simpa using same), h.null m]
      simp [added, same]
  · have before : added hist m = true := by
      by_contra never
      simp [added, never] at was
    have inside := h.known m before
    rw [cotwNodeInit_length]
    dsimp only at inside
    split <;> omega

theorem add_orderly {t : UInt32} (h : Orderly phase (tw, hist)) (inside : n < tw.nodes.length)
    (gone : countdown hist n = none) (ran : cotwAdd tw n t.toNat = .ok tw')
    (tracks : Tracks phase.Allows tw' (.add n t :: hist)) :
    Orderly phase (tw', .add n t :: hist) := by
  obtain ⟨shape, stored, -, -⟩ := h.tracks.stored
  have frame := cotwAdd_frame ran h.answered (h.idle gone)
  have outside {p : Ptr} (slot : ¬ IsHead p) (head : p ≠ .node n) :
      ¬ (IsHead p ∨ p = .node n) := fun mine => mine.elim slot head
  refine ⟨tracks, frame.answered, frame.rests (outside (fun no => no) (by simp)) h.cascade,
    fun phase => frame.rests (outside (fun no => no) (by simp)) (h.tick phase),
    fun m => ?_, fun m was => ?_⟩
  · by_cases same : m = n
    · subst same
      simp [added, cotwAdd_sets ran stored.clock t.toNat_lt]
    · have apart : ¬ (IsHead (.node m) ∨ Ptr.node m = .node n) :=
        outside (fun no => no) (by simpa using same)
      rw [null_kept frame (cotwAdd_linked ran) apart, h.null m]
      simp [added, same]
  · rw [cotwAdd_length ran]
    by_cases same : m = n
    · exact same ▸ inside
    · exact h.known m (by simpa [added, same] using was)

theorem del_orderly {r : Nat} (h : Orderly phase (tw, hist)) (ran : cotwDel tw n = .ok (r, tw'))
    (tracks : Tracks phase.Allows tw' (.del n :: hist)) : Orderly phase (tw', .del n :: hist) := by
  have frame := cotwDel_frame ran h.answered
  obtain ⟨links, rfl⟩ := cotwDel_kept ran
  exact ⟨tracks, frame.answered, frame.rests id h.cascade,
    fun phase => frame.rests id (h.tick phase),
    fun m => (null_kept frame (cotwDel_linked ran) id).trans (h.null m), h.known⟩

end Calls

theorem user_orderly (h : Orderly phase w) {op : UserOp} (called : userStep w op = .ok w') :
    Orderly phase w' := by
  have tracks := userStep_tracks (allows_shrinks phase) w op h.tracks
  rw [called] at tracks
  obtain ⟨n, cb, ud, -, -, gone, rfl⟩ | ⟨n, t, tw, -, inside, gone, ran, rfl⟩ |
    ⟨n, r, tw, -, -, ran, rfl⟩ := userStep_cases called
  · exact init_orderly h gone tracks
  · exact add_orderly h inside gone ran tracks
  · exact del_orderly h ran tracks

theorem tick_orderly (h : Orderly .between w) {tw : Cotw} (advanced : advance w.1 = .ok tw) :
    Orderly .draining (tw, .tick :: w.2) := by
  obtain ⟨frame, cascade⟩ := advance_frame advanced h.answered h.cascade (h.tick rfl)
  have linked := advance_linked advanced
  obtain ⟨shape, stored, vacant, quiet⟩ := h.tracks.stored
  obtain ⟨links, shape', xs, ran, stored', list, vacant'⟩ := advance_spec stored vacant quiet
  rw [ran] at advanced
  cases advanced
  refine ⟨⟨⟨shape', stored', vacant', xs, list⟩, ⟨h.tracks.not_due, h.tracks.lawful⟩,
    h.tracks.fields⟩, frame.answered, cascade, fun no => (nomatch no), fun n => ?_, h.known⟩
  exact (null_kept frame linked (by simp [TickOwn, IsHead])).trans (h.null n)

theorem expire_orderly (h : Orderly .draining w) {n : Nat} {tw : Cotw} {node : Cotnode}
    (popped : popFront w.1 .tickHead = .ok (n, tw)) (got : getNode tw n = .ok node) :
    Orderly .draining (tw, .expire n node.callback node.userdata :: w.2) := by
  obtain ⟨frame, -, -⟩ := popFront_frame popped h.answered
  have linked := popFront_linked popped
  obtain ⟨shape, stored, vacant, xs, list⟩ := h.tracks.stored
  cases xs with
  | nil =>
      have self : w.1.links.next .tickHead = some .tickHead := (stored.rings.ring list).next_head
      unfold popFront at popped
      rw [self] at popped
      cases popped
  | cons x rest =>
      obtain ⟨m, node', r, links, shape', ran, known, left, -, -, fits, stored', rest', vacant'⟩ :=
        stored.popFront (by simp) list
      rw [popped] at ran
      cases ran
      obtain rfl : r = 0 := fits.1
      obtain rfl : node' = node := by
        rw [getNode, known] at got
        exact Except.ok.inj got
      have gone : countdown (.expire n node'.callback node'.userdata :: w.2) =
          Function.update (countdown w.2) n none := by
        funext m
        simp [countdown, Function.update_apply]
      refine ⟨⟨⟨shape', ?_, vacant' _ (by simp) vacant, rest, rest'⟩,
        ⟨⟨left, h.tracks.fields n node' known⟩, h.tracks.lawful⟩, h.tracks.fields⟩,
        frame.answered, frame.rests id h.cascade, fun no => (by cases no),
        fun m => (null_kept frame linked id).trans (h.null m), h.known⟩
      rw [gone]
      exact stored'

theorem finish_orderly (h : Orderly .draining w)
    (empty : coclinkIsEmpty w.1.links .tickHead = true) : Orderly .between w := by
  obtain ⟨shape, stored, vacant, xs, list⟩ := h.tracks.stored
  refine ⟨⟨⟨shape, stored, vacant, fun ys same => ?_⟩, h.tracks.lawful, h.tracks.fields⟩,
    h.answered, h.cascade, fun _ => coclinkIsEmpty_rests (by simp) empty, h.null, h.known⟩
  rw [list] at same
  exact (Option.some.inj same) ▸ (coclinkIsEmpty_iff stored.rings list).mp empty

end Steps

theorem Reached.orderly {interval currtime : Nat} {currtick : UInt32} {phase : Phase} {w : World}
    (h : Reached interval currtime currtick phase w) : Orderly phase w := by
  induction h with
  | start => exact start_orderly interval currtime currtick
  | user _ called ih => exact user_orderly ih called
  | clock _ lasttime remainder ih =>
      exact ⟨setTime_tracks ih.tracks lasttime remainder, ih.answered, ih.cascade, ih.tick, ih.null,
        ih.known⟩
  | tick _ advanced ih => exact tick_orderly ih advanced
  | expire _ popped got ih => exact expire_orderly ih popped got
  | finish _ empty ih => exact finish_orderly ih empty

end Colinlib.Guarantees.WheelStates
