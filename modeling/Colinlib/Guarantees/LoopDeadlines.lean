import Colinlib.Guarantees.TimerContract
import Colinlib.Source.EventLoop
import Colinlib.Source.Loop

/-!
# Timers in the event loop

The loop is run with both of its services. Whatever runs inside of it, the callbacks of the
poller and of timers and the idle function, may use either service and may stop the loop. The
states of the I/O service are those of its own runs, and a timer has its turns in the first
update that is made at its deadline or later.
-/
namespace Colinlib.Guarantees.LoopDeadlines
open Colinlib.Theory Colinlib.Theory.CMemory Colinlib.Theory.ByteMemory Colinlib.Theory.Runs
open Colinlib.Theory.Histories (ticks ticks_tick ticks_other ticks_append)
open Colinlib.Source.Falloc Colinlib.Source.TimingWheel Colinlib.Source.TimerService
open Colinlib.Source.EventLoop (Coloop coiosSystem)
open Colinlib.Source.Loop
open Colinlib.Guarantees.TimerExactness (Quiet Room Shrinks quiet_shrinks room_shrinks)
open Colinlib.Guarantees.TimerContract (Event Request Tracks Lawful drain_round first fires)

/-! ## The services in the loop -/

/-- What code inside of the loop does: it uses the timers or the I/O service, or it calls
`coloop_stop`. -/
inductive Act where
  | timer (request : Request)
  | io (m : Source.EventLoop.Step)
  | stop

/-- The loop but for the wheel: the timer items, what happened to timers, the I/O service, and
the `stop` field. -/
structure Rest where
  store : Store
  hist : List Event
  io : Coloop
  stop : Bool

abbrev World := Cotw × Rest

/-- How a run stops: at a move that is not possible, or where one of the services stops. -/
inductive Stop where
  | contract
  | timer (stop : TimerContract.Stop)
  | io (f : Fault)

/-- The timers have no part in it, or what was asked of them is not allowed. -/
def Stop.Outside : Stop → Prop
  | .timer stop => stop.ByCaller
  | _ => True

/-- The timer service alone. -/
def timers (w : World) : TimerContract.World := (w.1, w.2.store, w.2.hist)

def act (self : UInt64) (w : World) : Act → Except Stop World
  | .timer request =>
    match TimerContract.userStep self (timers w) request with
    | .ok (tw, s, hist) => .ok (tw, { w.2 with store := s, hist })
    | .error stop => .error (.timer stop)
  | .io m =>
    match Callbacks.step coiosSystem w.2.io m with
    | .ok io => .ok (w.1, { w.2 with io })
    | .error f => .error (.io f)
  | .stop => .ok (w.1, { w.2 with stop := true })

/-- What the user's code can do. The rest of the I/O service's moves are the poller's. -/
def Act.ofUser : Act → Bool
  | .io (.start (.call _) _) | .io (.back _) => true
  | .io (.start _ _) => false
  | _ => true

/-- A callback of the user, from its start to its end. -/
def calls (self : UInt64) (w : World) (acts : List Act) : Except Stop World :=
  if acts.all Act.ofUser then do
    let w ← Runs.run (act self) w acts
    if w.2.io.stack.isEmpty then .ok w else .error .contract
  else .error .contract

/-- Within `copoll_wait` the user's code runs where the service has called it. -/
def within (self : UInt64) (w : World) (a : Act) : Except Stop World :=
  match a with
  | .io (.start (.wait _) _) => .error .contract
  | a => if a.ofUser && w.2.io.stack.isEmpty then .error .contract else act self w a

/-- `copoll_wait`: the events are collected first, and it returns when all of them have been
handled. -/
def copollWait (self : UInt64) (acts : List Act) (w : World) : Except Stop World :=
  match acts with
  | .io (.start (.wait events) answers) :: rest => do
    let w ← act self w (.io (.start (.wait events) answers))
    let w ← Runs.run (within self) w rest
    if w.2.io.stack.isEmpty && w.2.io.world.batch.isEmpty && w.2.io.world.tasks.isEmpty then .ok w
    else .error .contract
  | _ => .error .contract

/-- `_on_timer`, whose user callback does what `behave` says for the state it is invoked in. -/
def environment (self : UInt64) (behave : World → List Act) : Env Rest Stop where
  raise f := .timer (.tick f)
  call _ cb ud w :=
    if cb = onTimer then
      match onTimerEnter self.toNat ud (w.1, w.2.store) with
      | .ok (call, tw, s) =>
        let w : World := (tw, { w.2 with store := s, hist := .fired call :: w.2.hist })
        if call.cb = 0 then .ok w else calls self w (behave w)
      | .error f => .error (.timer (.tick f))
    else .error (.timer (.tick .badPointer))
  quiet _ _ s := s

/-- The services as the loop calls them, with an idle function or without. -/
def client (self : UInt64) (behave : World → List Act) (idles : Bool) :
    Client Rest Stop (List Act) where
  poll := copollWait self
  env := environment self behave
  enter s := { s with hist := .tick :: s.hist }
  idle := if idles then some fun acts w => calls self w acts else none
  stopped s := s.stop

/-- `coloop_new`, in a process with the memory `mem`. -/
def coloopNew (interval : UInt16) (now : UInt64) (zeroBlock : Bool) (mem : Memory) :
    State Rest :=
  Source.Loop.coloopNew interval now
    { store := (cotsNew interval.toNat now.toNat mem).2, hist := [],
      io := Source.EventLoop.start zeroBlock, stop := false }

/-! ## What everything inside of the loop keeps -/

/-- The timers agree with what happened to them, and the I/O service is in a state of one of
its own runs. -/
structure Held (service : UInt64) (others : List (Nat × Nat)) (zeroBlock : Bool)
    (D : Option (List Ptr) → Prop) (w : World) : Prop where
  tracks : Tracks service others D (timers w)
  served : ∃ moves, Runs.run (Callbacks.step coiosSystem)
    (Source.EventLoop.start zeroBlock) moves = .ok w.2.io

/-- No time passes and no tick is made. -/
def Alike (w w' : World) : Prop := SameTime w.1 w'.1 ∧ ticks .tick w'.2.hist = ticks .tick w.2.hist

theorem Alike.refl (w : World) : Alike w w := ⟨.refl _, rfl⟩

theorem Alike.trans {w w' w'' : World} (h : Alike w w') (h' : Alike w' w'') : Alike w w'' :=
  ⟨h.1.trans h'.1, h'.2.trans h.2⟩

section Steps
variable {self : UInt64} {others : List (Nat × Nat)} {zeroBlock : Bool}
variable {D : Option (List Ptr) → Prop}

theorem userStep_alike {w w' : TimerContract.World} {request : Request}
    (taken : TimerContract.userStep self w request = .ok w') :
    SameTime w.1 w'.1 ∧ ticks .tick w'.2.2 = ticks .tick w.2.2 := by
  cases request with
  | add base t =>
      simp only [TimerContract.userStep] at taken
      split at taken
      · split at taken
        · next item tw s added =>
          cases taken
          obtain ⟨⟨item, alloc, mem⟩, -, added⟩ := bind_ok added
          obtain ⟨mem', -, added⟩ := bind_ok added
          obtain ⟨tw', wheel, last⟩ := bind_ok added
          cases last
          have added := SameTime.add wheel
          exact ⟨⟨added.lasttime, added.interval, added.remainder⟩,
            ticks_other (by simp) _⟩
        · cases taken
      · cases taken
  | del item =>
      simp only [TimerContract.userStep] at taken
      split at taken
      · split at taken
        · next handle tw s deleted =>
          cases taken
          refine ⟨?_, ticks_other (by simp) _⟩
          unfold cotsDelTimer at deleted
          simp only at deleted
          split at deleted
          · cases deleted
            exact .refl _
          · obtain ⟨free, -, deleted⟩ := bind_ok deleted
            split at deleted
            · cases deleted
              exact .refl _
            · obtain ⟨⟨r, tw'⟩, wheel, deleted⟩ := bind_ok deleted
              obtain ⟨⟨b, alloc⟩, -, last⟩ := bind_ok deleted
              cases last
              exact SameTime.del wheel
        · cases taken
      · cases taken

theorem act_held (shrinks : Shrinks D) {w : World} (h : Held self others zeroBlock D w) (a : Act) :
    Outcome Stop.Outside (fun w' => Held self others zeroBlock D w' ∧ Alike w w')
      (act self w a) := by
  cases a with
  | timer request =>
      have kept := TimerContract.userStep_tracks shrinks (timers w) request h.tracks
      simp only [act]
      cases taken : TimerContract.userStep self (timers w) request with
      | error stop =>
          rw [taken] at kept
          exact kept
      | ok w' =>
          rw [taken] at kept
          exact ⟨⟨kept, h.served⟩, userStep_alike taken⟩
  | io m =>
      simp only [act]
      cases taken : Callbacks.step coiosSystem w.2.io m with
      | error f => trivial
      | ok io =>
          obtain ⟨moves, reached⟩ := h.served
          refine ⟨⟨h.tracks, moves ++ [m], ?_⟩, .refl _⟩
          rw [Runs.run_append reached]
          simp only [Runs.run, taken]
  | stop => exact ⟨⟨h.tracks, h.served⟩, .refl _⟩

theorem run_held {step : World → Act → Except Stop World}
    (each : ∀ w, Held self others zeroBlock D w → ∀ a, Outcome Stop.Outside
      (fun w' => Held self others zeroBlock D w' ∧ Alike w w') (step w a))
    {w : World} (h : Held self others zeroBlock D w) (acts : List Act) :
    Outcome Stop.Outside (fun w' => Held self others zeroBlock D w' ∧ Alike w w')
      (Runs.run step w acts) := by
  refine outcome_run _ _ (fun w' => Held self others zeroBlock D w' ∧ Alike w w') ?_ acts w
    ⟨h, .refl w⟩
  rintro w' a ⟨held, alike⟩
  exact (each w' held a).mono fun w'' done => ⟨done.1, alike.trans done.2⟩

theorem calls_held (shrinks : Shrinks D) {w : World} (h : Held self others zeroBlock D w)
    (acts : List Act) : Outcome Stop.Outside
      (fun w' => Held self others zeroBlock D w' ∧ Alike w w') (calls self w acts) := by
  unfold calls
  split
  · apply (run_held (fun w held a => act_held shrinks held a) h acts).bind
    intro w' held
    split
    · exact held
    · trivial
  · trivial

theorem copollWait_held {w : World} (h : Held self others zeroBlock Quiet w) (acts : List Act) :
    Outcome Stop.Outside (fun w' => Held self others zeroBlock Quiet w' ∧ Alike w w')
      (copollWait self acts w) := by
  unfold copollWait
  split
  · next events answers rest =>
    apply (act_held quiet_shrinks h _).bind
    rintro w₁ ⟨held₁, alike₁⟩
    have each : ∀ w, Held self others zeroBlock Quiet w → ∀ a, Outcome Stop.Outside
        (fun w' => Held self others zeroBlock Quiet w' ∧ Alike w w') (within self w a) := by
      intro w held a
      unfold within
      split
      · trivial
      · split
        · trivial
        · exact act_held quiet_shrinks held _
    apply (run_held each held₁ rest).bind
    rintro w₂ ⟨held₂, alike₂⟩
    split
    · exact ⟨held₂, alike₁.trans alike₂⟩
    · trivial
  · trivial

theorem onTimerEnter_time {item : Nat} {sv sv' : Cots} {call : Invocation}
    (ran : onTimerEnter self.toNat item sv = .ok (call, sv')) : SameTime sv.1 sv'.1 := by
  obtain ⟨tw, s⟩ := sv
  obtain ⟨owner, -, ran⟩ := bind_ok ran
  split at ran
  · cases ran
  · obtain ⟨loop, -, ran⟩ := bind_ok ran
    have rest {tw' : Cotw} (fields : (do
        let cb ← load s.alloc.2 8 (item + cbOffset)
        let ud1 ← load s.alloc.2 8 (item + ud1Offset)
        let ud2 ← load s.alloc.2 8 (item + ud2Offset)
        .ok (({ cb, item, ud1, ud2 } : Invocation), (tw', s))) = Except.ok (call, sv')) :
        sv'.1 = tw' := by
      obtain ⟨cb, -, fields⟩ := bind_ok fields
      obtain ⟨ud1, -, fields⟩ := bind_ok fields
      obtain ⟨ud2, -, fields⟩ := bind_ok fields
      cases fields
      rfl
    simp only at ran
    split at ran
    · obtain ⟨tw', wheel, ran⟩ := bind_ok ran
      rw [rest ran]
      exact SameTime.add wheel
    · rw [rest ran]
      exact .refl _

/-- One timer has its turn. -/
theorem deliver_held (behave : World → List Act) {j n : Nat} {node : Cotnode} {tw : Cotw}
    {s : Rest} (served : ∃ moves, Runs.run (Callbacks.step coiosSystem)
      (Source.EventLoop.start zeroBlock) moves = .ok s.io)
    (alone : Outcome TimerContract.Stop.ByCaller (Tracks self others (Room j))
      (deliver (TimerContract.environment self fun _ => []) n node (tw, s.store, s.hist))) :
    Outcome Stop.Outside (fun w' => Held self others zeroBlock (Room j) w' ∧ Alike (tw, s) w')
      (deliver (environment self behave) n node (tw, s)) := by
  unfold deliver at alone ⊢
  cases callback : node.callback with
  | none =>
      rw [callback] at alone
      exact ⟨⟨alone, served⟩, .refl _⟩
  | some cb =>
      rw [callback] at alone
      simp only [TimerContract.environment, environment] at alone ⊢
      split at alone
      · next known =>
        rw [if_pos known]
        cases entered : onTimerEnter self.toNat node.userdata (tw, s.store) with
        | error f =>
            rw [entered] at alone
            exact alone
        | ok r =>
            obtain ⟨call, tw', store'⟩ := r
            rw [entered] at alone
            -- without a user callback, or with one that does nothing, the service is done
            have tracks : Tracks self others (Room j) (tw', store', .fired call :: s.hist) := by
              simp only at alone
              split at alone
              · exact alone
              · exact alone
            have held : Held self others zeroBlock (Room j)
                (tw', { s with store := store', hist := .fired call :: s.hist }) :=
              ⟨tracks, served⟩
            have alike : Alike (tw, s)
                (tw', { s with store := store', hist := .fired call :: s.hist }) :=
              ⟨onTimerEnter_time entered, ticks_other (by simp) _⟩
            simp only
            split
            · exact ⟨held, alike⟩
            · exact (calls_held (room_shrinks j) held _).mono fun w' done =>
                ⟨done.1, alike.trans done.2⟩
      · next unknown =>
        rw [if_neg unknown]
        exact alone

/-- A tick of the wheel counts once. -/
theorem tick_held (behave : World → List Act) {w : World} (h : Held self others zeroBlock Quiet w) :
    Outcome Stop.Outside (fun w' => Held self others zeroBlock Quiet w' ∧ SameTime w.1 w'.1 ∧
        ticks .tick w'.2.hist = ticks .tick w.2.hist + 1)
      (_cotwTick (environment self behave) w.1 { w.2 with hist := .tick :: w.2.hist }) := by
  obtain ⟨tw, s⟩ := w
  have kept := h.tracks
  obtain ⟨shape, stored, vacant, quiet⟩ := kept.stored
  obtain ⟨links', shape', xs, advanced, stored', hxs, vacant'⟩ := advance_spec stored vacant quiet
  have linked := advance_linked advanced
  have advanced : advance tw =
      .ok { tw with links := links', currtick := uint32 (tw.currtick + 1) } := advanced
  rw [_cotwTick, advanced]
  -- what the rounds of the drain loop keep
  refine drainLoop_outcome (I := fun k w' => Held self others zeroBlock (Room k) w' ∧
    SameTime tw w'.1 ∧ ticks .tick w'.2.hist = ticks .tick s.hist + 1) ?_ _ _ ?_
  · rintro k ⟨tw₁, s₁⟩ ⟨held, time, counted⟩
    rcases drain_round (fun _ => []) k _ held.tracks with
      ⟨empty, settled⟩ | ⟨more, j, n, tw₂, node, room, popped, got, alone⟩
    · exact .inl ⟨empty, ⟨settled, held.served⟩, time, counted⟩
    · refine .inr ⟨more, j, n, tw₂, node, room, popped, got, ?_⟩
      apply (deliver_held behave held.served alone).mono
      rintro w' ⟨held', alike⟩
      exact ⟨held', (time.trans (SameTime.popFront popped)).trans alike.1,
        alike.2.trans counted⟩
  · refine ⟨⟨⟨⟨shape', ?_, vacant', xs, hxs, stored'.length_le hxs⟩, ⟨kept.not_due, kept.lawful⟩,
      kept.pool, kept.items, kept.nodes, kept.owners, kept.known,
      fun i hi => linked _ (kept.linked i hi), kept.fields⟩, h.served⟩, ⟨rfl, rfl, rfl⟩,
      ticks_tick _⟩
    have left : TimerContract.left s.store.items (.tick :: s.hist) =
        elapse (TimerContract.left s.store.items s.hist) := TimerContract.left_tick _ _
    simp only [timers]
    rw [left]
    exact stored'

theorem client_keeps (behave : World → List Act) (idles : Bool) :
    Keeps (client self behave idles) Stop.Outside (Held self others zeroBlock Quiet)
      (fun s => ticks .tick s.hist) where
  poll acts w h := (copollWait_held h acts).mono fun _ done => ⟨done.1, done.2.1, done.2.2⟩
  idle idle is acts w h := by
    cases idles with
    | false => cases is
    | true =>
        cases is
        exact (calls_held quiet_shrinks h acts).mono fun _ done => ⟨done.1, done.2.1, done.2.2⟩
  tick w h := tick_held behave h
  retime tw s lasttime remainder h := by
    obtain ⟨shape, stored, vacant, listed⟩ := h.tracks.stored
    exact ⟨{ h.tracks with
      stored := ⟨shape, stored.setTime lasttime remainder, vacant, listed⟩ }, h.served⟩

end Steps

/-! ## Deadlines -/

/-- When the turn `k` of a timer is due that was added after `pre`. -/
def deadline (interval starttime : Nat) (t : Timer) (pre : List Event) (k : Nat) : Nat :=
  starttime + (ticks .tick pre + first t + k * t.loop.toNat) * interval

/-- A timer that has not been deleted has had those turns, and no others, whose deadlines the
loop has reached. -/
def Punctual (interval starttime : Nat) (loop : State Rest) : Prop :=
  ∀ post i t pre, loop.world.2.hist = post ++ .added i t :: pre → (∀ e ∈ post, ¬ e.Bounds i) →
    (t.loop.toNat = 0 → fires i post ≤ 1) ∧
    ∀ k, (t.loop.toNat = 0 → k = 0) →
      (k < fires i post ↔ deadline interval starttime t pre k ≤ loop.currtime)

theorem fires_iff {post pre : List Event} {i : Nat} {t : Timer}
    (lawful : Lawful (post ++ .added i t :: pre)) (apart : ∀ e ∈ post, ¬ e.Bounds i)
    (settled : TimerContract.due (post ++ .added i t :: pre) i ≠ some 0) {k : Nat}
    (once : t.loop.toNat = 0 → k = 0) :
    k < fires i post ↔ first t + k * t.loop.toNat ≤ ticks .tick post := by
  constructor
  · intro fired
    obtain ⟨later, mid, rfl, -, total⟩ := TimerContract.turn_of_fires lawful apart fired
    rw [← total]
    rw [ticks_append, ticks_other (by simp)]
    exact Nat.le_add_left _ _
  · exact fun elapsed => TimerContract.fires_of_elapsed lawful apart once (.inr ⟨elapsed, settled⟩)

theorem fires_once {post pre : List Event} {i : Nat} {t : Timer}
    (lawful : Lawful (post ++ .added i t :: pre)) (apart : ∀ e ∈ post, ¬ e.Bounds i)
    (single : t.loop.toNat = 0) : fires i post ≤ 1 := by
  obtain ⟨-, -, ⟨r, -, -, never⟩ | ⟨-, -, fired⟩⟩ := TimerContract.lifetime lawful apart
  · rw [never single]
    exact Nat.zero_le _
  · exact Nat.le_of_eq fired

theorem ticks_added (post pre : List Event) (i : Nat) (t : Timer) :
    ticks .tick (post ++ .added i t :: pre) = ticks .tick pre + ticks .tick post := by
  rw [ticks_append, ticks_other (by simp), Nat.add_comm]

/-- **Deadlines.** In every state in which the loop can be left, whatever the callbacks and the
idle function do with both services: the timers were honoured, as many ticks were made as there
were intervals since the loop is there, each timer has had the turns whose deadlines have been
reached, and the I/O service is in a state of one of its own runs. The clock must not go back,
nor jump by more than an `int` holds. -/
theorem loop_punctual (self : UInt64) (behave : World → List Act) (idles : Bool)
    (interval : UInt16) (now : UInt64) (zeroBlock : Bool) (mem : Memory)
    (turns : List (Turn (List Act))) (pos : 0 < interval.toNat)
    (steady : Steady interval.toNat now.toNat now turns) :
    Outcome Stop.Outside
      (fun loop => TimerContract.Honoured loop.world.2.hist ∧
        ticks .tick loop.world.2.hist = (loop.currtime - now.toNat) / interval.toNat ∧
        Punctual interval.toNat now.toNat loop ∧
        ∃ moves, Runs.run (Callbacks.step coiosSystem) (Source.EventLoop.start zeroBlock) moves =
          .ok loop.world.2.io)
      (coloopRun (client self behave idles) (coloopNew interval now zeroBlock mem) turns) := by
  have started : Held self mem.blocks zeroBlock Quiet (coloopNew interval now zeroBlock mem).world :=
    ⟨TimerContract.start_tracks interval.toNat now.toNat 0 mem, [], rfl⟩
  have timed : Timed (Held self mem.blocks zeroBlock Quiet) (fun s => ticks .tick s.hist)
      interval.toNat now.toNat now.toNat (coloopNew interval now zeroBlock mem).world :=
    ⟨started, rfl, rfl, Nat.le_refl _, pos, (Nat.sub_self _).symm ▸ Nat.zero_mul _⟩
  apply ((client_keeps behave idles).run pos interval.toNat_lt turns rfl timed steady).mono
  intro loop left
  have tracks := left.holds.tracks
  obtain ⟨counted, -⟩ := left.ticks pos
  refine ⟨tracks.lawful.honoured tracks.not_due, counted, ?_, left.holds.served⟩
  intro post i t pre split apart
  have lawful : Lawful (post ++ .added i t :: pre) := split ▸ tracks.lawful
  have settled : TimerContract.due (post ++ .added i t :: pre) i ≠ some 0 :=
    split ▸ tracks.not_due i
  refine ⟨fires_once lawful apart, fun k once => ?_⟩
  rw [fires_iff lawful apart settled once]
  have total := ticks_added post pre i t
  rw [← split, counted] at total
  unfold deadline
  have begun := left.begun
  rw [← Nat.le_sub_iff_add_le' begun, ← Nat.le_div_iff_mul_le pos, total]
  omega

/-- A timer for two ticks, and then for three again, is added at the end of the first turn. -/
def fourTurns : List (Turn (List Act)) :=
  [⟨[.io (.start (.wait []) [])], 105, [.timer (.add 4096 ⟨2, 3, 7, 0, 0⟩)]⟩,
    ⟨[.io (.start (.wait []) [])], 119, []⟩,
    ⟨[.io (.start (.wait []) [])], 121, []⟩,
    ⟨[.io (.start (.wait []) [])], 150, []⟩]

set_option maxRecDepth 10000 in
theorem loop_punctual_fourTurns : ∃ loop,
    coloopRun (client 64 (fun _ => []) true) (coloopNew 10 100 true ⟨fun _ => 0, []⟩) fourTurns =
      .ok loop ∧ loop.currtime = 150 ∧ loop.world.2.store.items.map (fires · loop.world.2.hist) = [2] ∧
      ticks .tick loop.world.2.hist = 5 ∧ Punctual 10 100 loop := by
  have seen : (coloopRun (client 64 (fun _ => []) true) (coloopNew 10 100 true ⟨fun _ => 0, []⟩)
      fourTurns).toOption.map (fun loop =>
        (loop.currtime, loop.world.2.store.items.map (fires · loop.world.2.hist))) =
      some (150, [2]) := by decide +kernel
  have promised := loop_punctual 64 (fun _ => []) true 10 100 true ⟨fun _ => 0, []⟩ fourTurns
    (by decide) ⟨by decide, by simp [Representable, fourTurns, intMax]⟩
  generalize reached : coloopRun (client 64 (fun _ => []) true)
      (coloopNew 10 100 true ⟨fun _ => 0, []⟩) fourTurns = outcome at seen promised ⊢
  cases outcome with
  | error stop => cases seen
  | ok loop =>
      obtain ⟨currtime, turned⟩ := Prod.mk.inj (Option.some.inj seen)
      obtain ⟨-, counted, punctual, -⟩ := promised
      rw [currtime] at counted
      exact ⟨loop, rfl, currtime, turned, counted, punctual⟩

end Colinlib.Guarantees.LoopDeadlines
