import Colinlib.Guarantees.StreamDelivery
import Colinlib.Source.Delivery
import Mathlib.Data.Option.Basic

/-!
# From one service to the other

A stream object of one service is connected to a stream object of another one. The kernel
carries what the near object hands over to the far one, in order; it may drop the connection
at any time, and everything that is under way with it. However the moves of the two services
and of the kernel interleave, what was accepted for sending on the near side is what the user
on the far side was shown, followed by what is under way and by what waits in the queue.
-/
namespace Colinlib.Guarantees.StreamPath
open Colinlib.Theory Colinlib.Theory.CMemory Colinlib.Theory.Callbacks
open Colinlib.Source Colinlib.Source.IoWorld Colinlib.Source.IoService
open Colinlib.Source.EventLoop Colinlib.Source.IoChanges Colinlib.Source.IoTrace
open Colinlib.Source.Traffic Colinlib.Source.Delivery
open Colinlib.Source.Reception Colinlib.Guarantees.StreamDelivery

/-! ## Two services and what is under way -/

/-- One use of a slot. -/
structure Use where
  ref : Ref
  life : Nat
  deriving DecidableEq, Repr

/-- The bytes in some parcels. A byte that was never written is none. -/
def cells (ps : List Parcel) : List (Option UInt8) := ps.flatMap Prod.snd

def Use.accepted (u : Use) (w : World) : List (Option UInt8) :=
  cells (Traffic.accepted w.log u.ref u.life)

def Use.handed (u : Use) (w : World) : List (Option UInt8) :=
  cells (Traffic.handed w.log u.ref u.life)

def Use.shown (u : Use) (w : World) : List UInt8 := shownBytes w.log u.ref u.life

structure Path where
  near : Coloop
  far : Coloop
  flight : List (Option UInt8)
  joined : Bool

inductive Hop where
  | near (m : Step)
  | far (m : Step)
  | drop

/-- What a move adds to a record is at its end. -/
def added (before after : List (Option UInt8)) : List (Option UInt8) := after.drop before.length

/-- The far object reads what is under way, from the start. -/
def hop (a b : Use) (p : Path) : Hop → Except Fault Path
  | .near m => do
    let near ← step coiosSystem p.near m
    let flight :=
      if p.joined then p.flight ++ added (a.handed p.near.world) (a.handed near.world)
      else p.flight
    .ok { p with near, flight }
  | .far m =>
    let read := ((takenBy b.ref b.life p.far.world m).flatMap Chunk.data).map some
    if read <+: p.flight then do
      let far ← step coiosSystem p.far m
      .ok { p with far, flight := p.flight.drop read.length }
    else .error .starved
  | .drop => .ok { p with flight := [], joined := false }

/-- Two new services. -/
def begin (zeroBlock zeroBlock' : Bool) : Path :=
  ⟨start zeroBlock, start zeroBlock', [], true⟩

/-- The far user listens: nothing is read that is not shown. -/
def Listening (b : Use) (p : Path) : Hop → Prop
  | .far m => ∀ d ∈ takenBy b.ref b.life p.far.world m, d.Heard
  | _ => True

instance (b : Use) (p : Path) : (m : Hop) → Decidable (Listening b p m)
  | .far m => inferInstanceAs (Decidable (∀ d ∈ takenBy b.ref b.life p.far.world m, d.Heard))
  | .near _ | .drop => .isTrue trivial

/-! ## The account of a path -/

/-- What was handed over on one side and shown on the other. -/
structure Carried (a b : Use) (p : Path) : Prop where
  near : Delivers (· ≠ .udp) p.near.world ∧ Waiting Sound Resumed p.near
  far : Sound p.far.world ∧ Waiting Sound Resumed p.far
  whole : p.joined = true →
    a.handed p.near.world = (b.shown p.far.world).map some ++ p.flight
  part : (b.shown p.far.world).map some <+: a.handed p.near.world
  dropped : p.joined = false → p.flight = []

section Hops
variable {a b : Use} {p p' : Path}

theorem handed_grows {s s' : Coloop} {m : Step} (held : Sound s.world ∧ Waiting Sound Resumed s)
    (done : step coiosSystem s m = .ok s') :
    a.handed s'.world = a.handed s.world ++ added (a.handed s.world) (a.handed s'.world) := by
  obtain ⟨news, log⟩ := step_log held done
  have more : a.handed s'.world = a.handed s.world ++ cells (Traffic.handed news a.ref a.life) := by
    unfold Use.handed cells
    rw [log, handed_append, List.flatMap_append]
  rw [more, added, List.drop_left]

theorem shown_grows {s s' : Coloop} {m : Step} (stream : b.ref.kind ≠ .udp)
    (held : Sound s.world ∧ Waiting Sound Resumed s) (done : step coiosSystem s m = .ok s')
    (heard : ∀ d ∈ takenBy b.ref b.life s.world m, d.Heard) :
    b.shown s'.world =
      b.shown s.world ++ (takenBy b.ref b.life s.world m).flatMap Chunk.data := by
  unfold Use.shown shownBytes
  rw [step_delivered (chunks_records stream) held done, List.flatMap_append]
  exact congrArg _ ((heard_all _).mpr heard)

theorem Carried.hop (h : Carried a b p) {m : Hop} (stream : b.ref.kind ≠ .udp)
    (listening : Listening b p m) (taken : hop a b p m = .ok p') : Carried a b p' := by
  cases m with
  | near m =>
      obtain ⟨near, done, last⟩ := bind_ok taken
      cases last
      have grown := handed_grows (a := a) ⟨h.near.1.sound, h.near.2⟩ done
      have streams : Admits (fun _ => Whole (· ≠ .udp)) p.near.tags p.near.world m := by
        cases m with
        | start act answers => exact fun udp => absurd rfl udp
        | back answers => trivial
      refine ⟨step_delivers h.near streams done, h.far, fun joined => ?_, ?_, fun dropped => ?_⟩
      · have joined : p.joined = true := joined
        simp only [if_pos joined]
        rw [← List.append_assoc, ← h.whole joined]
        exact grown
      · change _ <+: a.handed near.world
        rw [grown]
        exact h.part.trans (List.prefix_append _ _)
      · have dropped : p.joined = false := dropped
        simp only [dropped]
        exact h.dropped dropped
  | far m =>
      simp only [StreamPath.hop] at taken
      split at taken
      · next first =>
        obtain ⟨far, done, last⟩ := bind_ok taken
        cases last
        have grown := shown_grows stream h.far done listening
        obtain ⟨rest, cut⟩ := first
        refine ⟨h.near, (step_sound h.far done).2, fun joined => ?_, ?_, fun dropped => ?_⟩
        · rw [h.whole joined, grown, List.map_append, ← cut, List.drop_left, List.append_assoc]
        · change (b.shown far.world).map some <+: _
          rw [grown, List.map_append]
          by_cases joined : p.joined = true
          · rw [h.whole joined, ← cut, ← List.append_assoc]
            exact List.prefix_append _ _
          · have gone := h.dropped (Bool.eq_false_iff.mpr joined)
            rw [gone, List.append_eq_nil_iff] at cut
            rw [cut.1, List.append_nil]
            exact h.part
        · simp only [h.dropped dropped, List.drop_nil]
      · cases taken
  | drop =>
      cases taken
      exact ⟨h.near, h.far, nofun, h.part, fun _ => rfl⟩

end Hops

/-! ## Runs -/

theorem begin_carried (a b : Use) (zeroBlock zeroBlock' : Bool) :
    Carried a b (begin zeroBlock zeroBlock') where
  near := ⟨delivers_initially _ zeroBlock, waiting_rest _⟩
  far := ⟨Sound.initially zeroBlock', waiting_rest _⟩
  whole _ := rfl
  part := List.prefix_rfl
  dropped := nofun

/-- **End to end.** However the moves of two services and of the kernel between them interleave,
what the far user is shown is the start of what the near object accepted for sending. As long
as the connection is there, the rest is under way or in the queue of the near object. -/
theorem stream_arrives (a b : Use) (zeroBlock zeroBlock' : Bool) (hops : List Hop) (p : Path)
    (streamA : a.ref.kind ≠ .udp) (streamB : b.ref.kind ≠ .udp)
    (listening : Runs.Along (hop a b) (Listening b) (begin zeroBlock zeroBlock') hops)
    (reached : Runs.run (hop a b) (begin zeroBlock zeroBlock') hops = .ok p) :
    (b.shown p.far.world).map some <+: a.accepted p.near.world ∧
    (p.joined = true → Live p.near.world a.ref → p.near.world.lives a.ref = a.life →
      a.accepted p.near.world = (b.shown p.far.world).map some ++ p.flight ++
        cells (waiting a.ref.kind (p.near.world.objs a.ref))) := by
  have carried : Carried a b p :=
    Runs.invariant_along (fun _ _ _ held ok taken => held.hop streamB ok taken) hops _ p
      (begin_carried a b zeroBlock zeroBlock') listening reached
  have account := carried.near.1.accounted a.ref streamA
  constructor
  · obtain ⟨rest, more⟩ := account.past a.life
    have handedFirst : a.handed p.near.world <+: a.accepted p.near.world := by
      unfold Use.handed Use.accepted cells
      rw [← more, List.flatMap_append]
      exact List.prefix_append _ _
    exact carried.part.trans handedFirst
  · intro joined live now
    have whole := account.present live
    rw [now] at whole
    rw [← carried.whole joined]
    unfold Use.handed Use.accepted cells
    rw [whole, List.flatMap_append]

/-- The kernel takes two bytes of three, and one has been read. -/
def threeBytes : List Hop :=
  [.near (.start (.call (.cofdBind 5 .null)) []),
    .near (.start (.call (.cofdSend ⟨.fd, 0⟩ [7, 8, 9])) [.count 2]),
    .far (.start (.call (.cofdBind 6 .null)) []),
    .far (.start (.call (.cofdOnRecv ⟨.fd, 0⟩ (some 1))) []),
    .far (.start (.wait [⟨6, true, false, false⟩]) []),
    .far (.start .dispatch []),
    .far (.start .handle [.bytes [7]])]

def firstUse : Use := ⟨⟨.fd, 0⟩, 1⟩

theorem stream_arrives_threeBytes :
    ∃ p, Runs.run (hop firstUse firstUse) (begin true true) threeBytes = .ok p ∧
      firstUse.shown p.far.world = [7] ∧ p.flight = [some 8] ∧
      firstUse.accepted p.near.world = [some 7, some 8, some 9] := by
  have bytes : (Runs.run (hop firstUse firstUse) (begin true true) threeBytes).map (fun p =>
      [(firstUse.shown p.far.world).map some, p.flight,
        cells (waiting .fd (p.near.world.objs ⟨.fd, 0⟩))]) =
      .ok [[some 7], [some 8], [some 9]] := by decide +kernel
  have object : (Runs.run (hop firstUse firstUse) (begin true true) threeBytes).map (fun p =>
      (p.joined, (p.near.world.objs ⟨.fd, 0⟩).state, p.near.world.lives ⟨.fd, 0⟩)) =
      .ok (true, Cofd.bind, 1) := by decide +kernel
  have listening : Runs.Along (hop firstUse firstUse) (Listening firstUse) (begin true true)
      threeBytes := by decide +kernel
  obtain ⟨p, reached, found⟩ := Runs.reached_of_map object
  rw [reached] at bytes
  have split := Except.ok.inj bytes
  simp only [List.cons.injEq, and_true, Prod.mk.injEq] at found split
  obtain ⟨joined, state, lives⟩ := found
  obtain ⟨shown, flight, queue⟩ := split
  have whole := (stream_arrives firstUse firstUse true true threeBytes p nofun nofun
    listening reached).2 joined (by rw [Live, firstUse, state]; decide) lives
  refine ⟨p, reached, List.map_injective_iff.mpr (Option.some_injective _) shown, flight, ?_⟩
  rw [whole, shown, flight]
  simp only [firstUse, queue]
  rfl

end Colinlib.Guarantees.StreamPath
