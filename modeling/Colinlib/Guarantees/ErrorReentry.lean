import Colinlib.Guarantees.SendQueues

/-!
# Calls from the error callback

`_cotcp_handle_error` calls `fn_error` while the object still is connected and its bytes
still are queued. A call of `cotcp_send` or `cotcp_close` from there tries to write again,
and a write that fails again calls `fn_error` again.
-/
namespace Colinlib.Guarantees.ErrorReentry
open Colinlib.Theory Colinlib.Theory.CMemory Colinlib.Theory.Callbacks
open Colinlib.Source.RingBuffer Colinlib.Source.IoWorld Colinlib.Source.IoService
open Colinlib.Source.EventLoop Colinlib.Source.IoChanges Colinlib.Source.IoTrace
open Colinlib.Source.Traffic Colinlib.Source.Delivery Colinlib.Guarantees.SendQueues

/-- What `fn_error` calls on its own object. -/
inductive Own where
  | send (data : List UInt8)
  | close (force : Bool)
  deriving DecidableEq, Repr

def Own.call (r : Ref) : Own → Call
  | .send data => .cotcpSend r data
  | .close force => .cotcpClose r force

/-- An error number after which `write` is not tried again. -/
def Hard (e : Nat) : Prop := e ≠ 0 ∧ e ≠ eintr ∧ e ≠ eagain

def FailsHard (answers : List Answer) : Prop := ∃ e rest, answers = .failed e :: rest ∧ Hard e

def isError (c : Callback) : Bool :=
  match c.notice with
  | .error _ => true
  | _ => false

/-! ## What a failed write leads to -/

section Evaluation
variable {r : Ref} {w w' : World} {fn : Nat}

/-- The object is connected, and its send buffer is in order. -/
structure Connected (w : World) (r : Ref) : Prop where
  state : (w.objs r).state = Cotcp.connected
  formed : Formed r.kind (w.objs r)

theorem Connected.live (h : Connected w r) : Live w r := by
  rw [Live, h.state]
  decide

theorem Connected.queued (h : Connected w r) (queued : Queued r w w')
    (formed : Formed r.kind (w'.objs r)) : Connected w' r :=
  ⟨queued.undisturbed.state.trans h.state, formed⟩

/-- It has an error callback and unsent bytes, too. -/
structure Loaded (w : World) (r : Ref) (fn : Nat) : Prop extends Connected w r where
  fnError : (w.objs r).fnError = some fn
  unsent : waiting r.kind (w.objs r) ≠ []

theorem Loaded.congr (h : Loaded w r fn) (same : w'.objs r = w.objs r) : Loaded w' r fn :=
  ⟨⟨same ▸ h.state, same ▸ h.formed⟩, same ▸ h.fnError, same ▸ h.unsent⟩

theorem queued_fnError (h : Queued r w w') : (w'.objs r).fnError = (w.objs r).fnError := by
  obtain ⟨_, _, objs⟩ := h.objs
  rw [objs, Function.update_self]
  rfl

/-- The error callback is called, and when it returns what is left to do is to close the
object, if it still is there. -/
structure Broken {α : Type} (r : Ref) (w : World) (c : Callback) (w' : World)
    (resume : World → Res World Callback Fault α) : Prop where
  error : isError c = true
  loaded : Loaded w' r c.fn
  fd : (w'.objs r).fd = (w.objs r).fd
  ledger : w'.ledger = w.ledger
  back : ∀ w'', Live w'' r → ∃ a life, resume w'' = .ret a (finished w'' r .error life)

theorem Broken.bind {α β : Type} {c : Callback} {resume : World → Res World Callback Fault α}
    (h : Broken r w c w' resume) {next : α → Io β}
    (after : ∀ a w'', w''.objs r = blank → ∃ b, next a w'' = .ret b w'') :
    Broken r w c w' fun w'' => (resume w'').bind next := by
  refine ⟨h.error, h.loaded, h.fd, h.ledger, fun w'' live => ?_⟩
  obtain ⟨a, life, ran⟩ := h.back w'' live
  have cleared : (finished w'' r .error life).objs r = blank := by
    rw [finished_objs, Function.update_self]
  obtain ⟨b, ended⟩ := after a _ cleared
  exact ⟨b, life, by simp only [ran, ret_bind, ended]⟩

theorem errorText_cases (w : World) : (∃ e, errorText w = .stop e) ∨
    ∃ text w', errorText w = .ret text w' ∧ w'.objs = w.objs ∧ w'.ledger = w.ledger := by
  unfold errorText
  simp only [bind_apply, read_apply, ret_bind]
  split
  · exact .inr ⟨_, w, rfl, rfl, rfl⟩
  · cases answers : w.answers with
    | nil =>
        refine .inl ⟨.starved, ?_⟩
        simp only [bind_apply, syscall, Prog.attempt, answers]
        rfl
    | cons a rest =>
        cases a with
        | failed e =>
            refine .inr ⟨.indeterminate, { w with answers := rest, errno := e }, ?_, rfl, rfl⟩
            simp only [bind_apply, syscall, Prog.attempt, answers]
            rfl
        | soError e =>
            refine .inr ⟨.unknown, { w with answers := rest }, ?_, rfl, rfl⟩
            simp only [bind_apply, syscall, Prog.attempt, answers]
            rfl
        | _ =>
            refine .inl ⟨.starved, ?_⟩
            simp only [bind_apply, syscall, Prog.attempt, answers]
            rfl

theorem queueSendbuf_cases (r : Ref) (data : List UInt8) (w : World) :
    (∃ e, queueSendbuf r data w = .stop e) ∨ ∃ w', queueSendbuf r data w = .ret () w' := by
  rcases attempt_cases _ w with stopped | ⟨u, returned⟩
  · exact .inl stopped
  · exact .inr returned

theorem flushSendbuf_cases (r : Ref) (w : World) :
    (∃ e, flushSendbuf r w = .stop e) ∨ ∃ out w', flushSendbuf r w = .ret out w' :=
  attempt_cases _ w

/-- Where a stretch of code ends, if it is at the error callback. -/
def Breaks {α : Type} (r : Ref) (w : World) : Res World Callback Fault α → Prop
  | .call c w' resume => isError c = true → Broken r w c w' resume
  | _ => True

/-- What came before kept the descriptor and the ledger. -/
theorem Breaks.after {α : Type} {w₁ : World} {m : Res World Callback Fault α}
    (h : Breaks r w₁ m) (fd : (w₁.objs r).fd = (w.objs r).fd) (ledger : w₁.ledger = w.ledger) :
    Breaks r w m := by
  cases m with
  | ret a w' => trivial
  | stop e => trivial
  | call c w' resume =>
      intro error
      have broken := h error
      exact ⟨error, broken.loaded, broken.fd.trans fd, broken.ledger.trans ledger, broken.back⟩

theorem Breaks.bind {α β : Type} {m : Res World Callback Fault α} {next : α → Io β}
    (h : Breaks r w m) (direct : ∀ a w', m = .ret a w' → Breaks r w (next a w'))
    (after : ∀ a w'', w''.objs r = blank → ∃ b, next a w'' = .ret b w'') :
    Breaks r w (m.bind next) := by
  cases m with
  | ret a w' => exact direct a w' rfl
  | stop e => trivial
  | call c w' resume => exact fun error => (h error).bind after

theorem handleError_breaks (tcp : r.kind = .tcp) (h : Connected w r)
    (unsent : waiting r.kind (w.objs r) ≠ []) : Breaks r w (cotcpHandleError r w) := by
  have tears : TearsDown r cotcpTeardown := closeObject_tearsDown (by rw [tcp]; decide)
  unfold cotcpHandleError handleError
  simp only [bind_apply, look_apply, ret_bind]
  rw [if_neg h.live]
  simp only [bind_apply, lifeOf_apply, ret_bind]
  rcases errorText_cases w with ⟨e, stopped⟩ | ⟨text, w₁, ran, objs, ledger⟩
  · rw [stopped]
    trivial
  · rw [ran, ret_bind]
    cases fn : (w.objs r).fnError with
    | none =>
        simp only [notify, bind_apply, pure_apply, ret_bind]
        cases tears w₁ .error (w.lives r) with
        | ended _ ended => rw [ended]; trivial
        | nothing _ ended => rw [ended]; trivial
    | some f =>
        intro error
        refine ⟨rfl, ?_, by rw [note_objs, objs], ledger, fun w'' live => ?_⟩
        · exact Loaded.congr ⟨h, fn, unsent⟩ (by rw [note_objs, objs])
        · cases tears w'' .error (w.lives r) with
          | ended _ ended => exact ⟨(), _, ended⟩
          | nothing free _ => exact absurd live (by simpa [tcp] using free)

theorem handleWrite_breaks (tcp : r.kind = .tcp) (h : Connected w r) :
    Breaks r w (cotcpHandleWrite r w) := by
  have stream : r.kind ≠ .udp := by rw [tcp]; decide
  unfold cotcpHandleWrite handleWrite
  simp only [bind_apply, look_apply, ret_bind]
  rw [if_neg h.live, bind_apply]
  rcases flushSendbuf_cases r w with ⟨e, stopped⟩ | ⟨out, w₁, ran⟩
  · rw [stopped]
    trivial
  · have queued := flushSendbuf_queued ran
    obtain ⟨⟨left, moved⟩, drained⟩ := flushSendbuf_moved stream h.formed ran
    have h₁ := h.queued queued moved.formed
    rw [ran, ret_bind]
    cases out with
    | later => trivial
    | failed =>
        exact (handleError_breaks tcp h₁ (mt drained.mpr nofun)).after
          queued.undisturbed.fd queued.ledger
    | drained =>
        have open_ : (w₁.objs r).state ≠ Cotcp.closing := by rw [h₁.state]; decide
        simp only [cotcpCheckClosing, checkClosing, bind_apply, look_apply, ret_bind]
        rw [if_neg open_]
        trivial

theorem cotcpSend_breaks (tcp : r.kind = .tcp) (h : Connected w r) (data : List UInt8) :
    Breaks r w (cotcpSend r data w) := by
  have stream : r.kind ≠ .udp := by rw [tcp]; decide
  unfold cotcpSend sendData
  simp only [bind_apply, look_apply, ret_bind]
  split
  · trivial
  · next ready =>
    rw [bind_apply]
    rcases queueSendbuf_cases r data w with ⟨e, stopped⟩ | ⟨w₁, ran⟩
    · rw [stopped]
      trivial
    · have queued := queueSendbuf_queued ran
      have moved := queueSendbuf_moved stream (fun none => ready (.inr none)) h.formed ran
      have h₁ := h.queued queued moved.formed
      rw [ran, ret_bind]
      simp only [bind_apply, modify_apply, ret_bind]
      refine Breaks.bind (Breaks.after (handleWrite_breaks tcp ?_) ?_ ?_) ?_ ?_
      · exact ⟨by rw [copollRequestWrite_objs]; exact h₁.state,
          by rw [copollRequestWrite_objs]; exact h₁.formed⟩
      · rw [copollRequestWrite_objs]
        exact queued.undisturbed.fd
      · obtain ⟨_, _, same⟩ := copollRequestWrite_eq w₁ (w.objs r).fd (.obj r) true
        rw [same]
        exact queued.ledger
      · exact fun _ _ _ => trivial
      · exact fun _ w'' _ => ⟨true, rfl⟩

theorem cotcpClose_breaks (tcp : r.kind = .tcp) (h : Connected w r) (force : Bool) :
    Breaks r w (cotcpClose r force w) := by
  have tears : TearsDown r cotcpTeardown := closeObject_tearsDown (by rw [tcp]; decide)
  -- what follows the attempt to write never comes to the error callback
  have rest : ∀ w', Breaks r w ((do
      let o' ← look r
      if force ∨ hasSenddata o' = false then
        notify r o'.fnClose (.close (.requested force))
        cotcpTeardown r (.requested force) (w.lives r)
      else
        put r { o' with state := Cotcp.closing }
      return true : Io Bool) w') := by
    intro w'
    simp only [bind_apply, look_apply, ret_bind]
    split
    · rw [bind_apply]
      cases fn : (w'.objs r).fnClose with
      | none =>
          simp only [notify, pure_apply, ret_bind, bind_apply]
          cases tears w' (.requested force) (w.lives r) with
          | ended _ ended => rw [ended]; trivial
          | nothing _ ended => rw [ended]; trivial
      | some f => exact fun error => nomatch error
    · trivial
  unfold cotcpClose closeRequest
  simp only [bind_apply, look_apply, ret_bind]
  split
  · simp only [bind_apply, lifeOf_apply, ret_bind]
    split
    · rw [bind_apply]
      refine Breaks.bind (handleWrite_breaks tcp h) (fun _ w' _ => rest w') ?_
      intro _ w'' cleared
      refine ⟨true, ?_⟩
      simp only [bind_apply, look_apply, ret_bind, cleared]
      rw [if_pos (.inr rfl)]
      simp only [notify, blank, pure_apply, ret_bind, bind_apply]
      cases tears w'' (.requested force) (w.lives r) with
      | ended live _ => exact absurd (by rw [cleared]; rfl) live
      | nothing _ ended => rw [ended]; rfl
    · exact rest w
  · trivial

/-- The unsent bytes are in a ring that is in order. -/
theorem Loaded.ring (tcp : r.kind = .tcp) (h : Loaded w r fn) :
    ∃ rb q, (w.objs r).sendbuf = some rb ∧ Holds rb q ∧ q ≠ [] := by
  have stream : r.kind ≠ .udp := by rw [tcp]; decide
  cases has : (w.objs r).sendbuf with
  | none => exact absurd (waiting_none stream has) h.unsent
  | some rb =>
      obtain ⟨q, held⟩ := (formed_stream stream).mp h.formed rb has
      refine ⟨rb, q, rfl, held, fun empty => h.unsent ?_⟩
      rw [waiting_stream stream has held, empty]
      rfl

theorem flushSendbuf_hard (tcp : r.kind = .tcp) (h : Loaded w r fn)
    (hard : FailsHard w.answers) :
    ∃ w', flushSendbuf r w = .ret .failed w' ∧ w'.errno ≠ 0 := by
  obtain ⟨rb, q, has, held, more⟩ := h.ring tcp
  obtain ⟨e, rest, answers, nonzero, notIntr, notAgain⟩ := hard
  have positive := held.readonce_pos more
  have window := coringbufHead_window held (Nat.min_le_right 2048 (coringbufReadonceSize rb))
  have loop : writeLoop rb [] w.errno w.answers = .ok ⟨.failed, rb, [], e, rest⟩ := by
    rw [answers, writeLoop, held.readable, if_neg (by rwa [List.length_eq_zero_iff])]
    simp only [window]
    rw [if_neg (by omega)]
    simp only [if_neg notIntr, if_neg notAgain]
  let flushed := (w.setObj r { w.objs r with sendbuf := some rb }).note
    (.wrote r (w.lives r) [] none)
  refine ⟨{ flushed with errno := e, answers := rest }, ?_, nonzero⟩
  simp only [flushSendbuf, Prog.attempt, has, loop]
  rfl

/-- A write that fails for good calls the error callback. -/
theorem handleWrite_hard (tcp : r.kind = .tcp) (h : Loaded w r fn) (hard : FailsHard w.answers) :
    ∃ c w' resume, cotcpHandleWrite r w = .call c w' resume ∧ isError c = true := by
  obtain ⟨w₁, ran, errno⟩ := flushSendbuf_hard tcp h hard
  have queued := flushSendbuf_queued ran
  have live : (w₁.objs r).state ≠ Cotcp.invalid := by
    rw [queued.undisturbed.state]
    exact h.live
  have error : ∃ c w' resume, cotcpHandleError r w₁ = .call c w' resume ∧ isError c = true := by
    unfold cotcpHandleError handleError
    simp only [bind_apply, look_apply, ret_bind]
    rw [if_neg live]
    simp only [errorText, bind_apply, lifeOf_apply, read_apply, ret_bind]
    rw [if_pos errno, pure_apply, ret_bind, queued_fnError queued, h.fnError]
    exact ⟨_, _, _, rfl, rfl⟩
  obtain ⟨c, w', resume, called, is⟩ := error
  refine ⟨c, w', resume, ?_, is⟩
  unfold cotcpHandleWrite handleWrite
  simp only [bind_apply, look_apply, ret_bind]
  rw [if_neg h.live, bind_apply, ran, ret_bind]
  exact called

/-- Only an empty `cotcp_send` does not try to write. -/
def Own.idle (o : Own) : Prop := o = .send []

theorem queueSendbuf_answers {data : List UInt8} (ran : queueSendbuf r data w = .ret () w') :
    w'.answers = w.answers := by
  unfold queueSendbuf Prog.attempt at ran
  simp only at ran
  split at ran
  · next done =>
    cases ran
    split at done
    · cases done
    · split at done <;> cases done
      rfl
  · cases ran

/-- Any other call makes the attempt, and the write fails once more. -/
theorem cotcpSend_hard {data : List UInt8} (tcp : r.kind = .tcp) (h : Loaded w r fn)
    (hard : FailsHard w.answers) (more : data ≠ []) :
    (∃ e, cotcpSend r data w = .stop e) ∨
      ∃ c w' resume, cotcpSend r data w = .call c w' resume ∧ isError c = true := by
  have stream : r.kind ≠ .udp := by rw [tcp]; decide
  unfold cotcpSend sendData
  simp only [bind_apply, look_apply, ret_bind]
  rw [if_neg (not_or.mpr ⟨not_not.mpr h.state, more⟩), bind_apply]
  rcases queueSendbuf_cases r data w with ⟨e, stopped⟩ | ⟨w₁, ran⟩
  · rw [stopped]
    exact .inl ⟨e, rfl⟩
  · have queued := queueSendbuf_queued ran
    have moved := queueSendbuf_moved stream more h.formed ran
    have unsent : waiting r.kind (w₁.objs r) ≠ [] := by
      intro none
      have all := moved.queue
      rw [none, List.append_nil] at all
      exact h.unsent (List.append_eq_nil_iff.mp all).1
    have loaded : Loaded w₁ r fn :=
      ⟨h.toConnected.queued queued moved.formed, by rw [queued_fnError queued, h.fnError], unsent⟩
    obtain ⟨_, _, asked⟩ := copollRequestWrite_eq w₁ (w.objs r).fd (.obj r) true
    obtain ⟨c, w', resume, called, error⟩ := handleWrite_hard tcp
      (loaded.congr (congrFun (copollRequestWrite_objs w₁ (w.objs r).fd (.obj r) true) r))
      (by rw [asked]; exact (queueSendbuf_answers ran) ▸ hard)
    rw [ran, ret_bind]
    simp only [bind_apply, modify_apply, ret_bind, called]
    exact .inr ⟨c, w', _, rfl, error⟩

theorem cotcpClose_hard (tcp : r.kind = .tcp) (h : Loaded w r fn) (hard : FailsHard w.answers)
    (force : Bool) :
    ∃ c w' resume, cotcpClose r force w = .call c w' resume ∧ isError c = true := by
  obtain ⟨rb, q, has, held, more⟩ := h.ring tcp
  have isOpen : cotcpIsOpen (w.objs r) = true := by
    unfold cotcpIsOpen
    rw [h.state]
    decide
  have pending : hasSenddata (w.objs r) = true := by
    simp only [hasSenddata, has, held.readable]
    exact decide_eq_true (mt List.length_eq_zero_iff.mp more)
  obtain ⟨c, w', resume, called, error⟩ := handleWrite_hard tcp h hard
  unfold cotcpClose closeRequest
  simp only [bind_apply, look_apply, ret_bind]
  rw [if_pos isOpen]
  simp only [bind_apply, lifeOf_apply, ret_bind]
  rw [if_pos pending, bind_apply, called]
  exact ⟨c, w', _, rfl, error⟩

theorem Own.hard (tcp : r.kind = .tcp) (h : Loaded w r fn) (hard : FailsHard w.answers)
    {own : Own} (busy : ¬ own.idle) :
    (∃ e, (own.call r).run w = .stop e) ∨
      ∃ c w' resume, (own.call r).run w = .call c w' resume ∧ isError c = true := by
  cases own with
  | send data =>
      have more : data ≠ [] := fun none => busy (congrArg Own.send none)
      rcases cotcpSend_hard tcp h hard more with ⟨e, stopped⟩ | ⟨c, w', resume, called, error⟩
      · exact .inl ⟨e, congrArg (Res.bind · _) stopped⟩
      · exact .inr ⟨c, w', _, congrArg (Res.bind · _) called, error⟩
  | close force =>
      obtain ⟨c, w', resume, called, error⟩ := cotcpClose_hard tcp h hard force
      exact .inr ⟨c, w', _, congrArg (Res.bind · _) called, error⟩

theorem Own.quiet {own : Own} (idle : own.idle) : (own.call r).run w = .ret () w := by
  subst idle
  simp only [Own.call, Call.run, ignoring, bind_apply, cotcpSend, sendData, look_apply, ret_bind]
  rw [if_pos (.inr trivial)]
  rfl

end Evaluation

/-! ## Running the callbacks -/

/-- The handling of an error: for each callback that runs, innermost first, the calls it
still makes, and how often `fn_error` has been called. -/
structure Handling where
  conf : Coloop
  todo : List (List Own)
  errors : Nat

/-- After a move from a stack of `depth` callbacks. `behave n` is what the call number `n` of
`fn_error` does; any other callback returns at once. -/
def entered (behave : Nat → List Own) (todo : List (List Own)) (errors depth : Nat)
    (conf : Coloop) : Handling :=
  match conf.tags with
  | [] => ⟨conf, todo, errors⟩
  | c :: below =>
    if below.length = depth then
      if isError c then ⟨conf, behave errors :: todo, errors + 1⟩ else ⟨conf, [] :: todo, errors⟩
    else ⟨conf, todo, errors⟩

/-- The innermost callback makes its next call, or returns. -/
def next (r : Ref) (behave : Nat → List Own) (h : Handling) (answers : List Answer) :
    Except Fault Handling :=
  match h.todo with
  | [] => .error .starved
  | [] :: below => do
    let conf ← step coiosSystem h.conf (.back answers)
    .ok (entered behave below h.errors (h.conf.stack.length - 1) conf)
  | (own :: rest) :: below => do
    let conf ← step coiosSystem h.conf (.start (.call (own.call r)) answers)
    .ok (entered behave (rest :: below) h.errors h.conf.stack.length conf)

/-- A move that tries to write what is queued for `r`: the handler of a writable event, or a
call of the program. -/
def Attempts (w : World) (r : Ref) : Action → Prop
  | .handle => ∃ rest, w.tasks = (.write, r) :: rest
  | .call c => ∃ own : Own, c = own.call r
  | _ => False

/-- The move has led to the error callback. -/
def Fails (s₀ s₁ : Coloop) : Prop :=
  ∃ c resume, s₁.stack = (c, resume) :: s₀.stack ∧ isError c = true

/-- The handling of an error that began in `s₀` and called `fn_error` in `s₁` comes to an end.
Then `fn_error` has been called once at most, and the object is gone with its descriptor
closed once. -/
def Settles (r : Ref) (behave : Nat → List Own) (tape : Nat → List Answer)
    (s₀ s₁ : Coloop) : Prop :=
  ∃ n h, Runs.run (next r behave) (entered behave [] 0 s₀.stack.length s₁)
      ((List.range n).map tape) = .ok h ∧
    h.todo = [] ∧ h.errors ≤ 1 ∧ (h.conf.world.objs r).state = Cotcp.invalid ∧
    h.conf.world.ledger = .closed (s₀.world.objs r).fd :: s₀.world.ledger

section Handlings
variable {r : Ref} {behave : Nat → List Own} {s₀ s₁ : Coloop}

theorem entered_error {c : Callback} {w : World} {resume : World → Res World Callback Fault Unit}
    {below : List (Callback × (World → Res World Callback Fault Unit))} {todo : List (List Own)}
    {errors : Nat} (error : isError c = true) :
    entered behave todo errors below.length ⟨w, (c, resume) :: below⟩ =
      ⟨⟨w, (c, resume) :: below⟩, behave errors :: todo, errors + 1⟩ := by
  simp only [entered, Conf.tags, List.map_cons, List.length_map, if_true, error]

/-- No callback was entered. -/
theorem entered_same {w : World} {todo : List (List Own)} {errors depth : Nat}
    {stack : List (Callback × (World → Res World Callback Fault Unit))}
    (settled : stack.length ≤ depth) :
    entered behave todo errors depth ⟨w, stack⟩ = ⟨⟨w, stack⟩, todo, errors⟩ := by
  cases stack with
  | nil => rfl
  | cons frame rest =>
      simp only [entered, Conf.tags, List.map_cons, List.length_map]
      rw [if_neg]
      rw [List.length_cons] at settled
      omega

theorem entered_errors (todo : List (List Own)) (errors depth : Nat) (conf : Coloop) :
    errors ≤ (entered behave todo errors depth conf).errors := by
  unfold entered
  split
  · exact Nat.le_refl _
  · split
    · split
      · exact Nat.le_succ errors
      · exact Nat.le_refl _
    · exact Nat.le_refl _

theorem next_errors {h h' : Handling} {answers : List Answer}
    (taken : next r behave h answers = .ok h') : h.errors ≤ h'.errors := by
  unfold next at taken
  split at taken
  · cases taken
  · obtain ⟨conf, -, done⟩ := bind_ok taken
    cases done
    exact entered_errors _ _ _ _
  · obtain ⟨conf, -, done⟩ := bind_ok taken
    cases done
    exact entered_errors _ _ _ _

theorem call_enabled (tcp : r.kind = .tcp) (own : Own) {tags : List Callback} (w : World)
    (inside : tags ≠ []) : (Action.call (own.call r)).enabled tags w = true := by
  have typed : (own.call r).wellTyped = true := by
    cases own <;> exact decide_eq_true tcp
  cases tags with
  | nil => exact absurd rfl inside
  | cons c rest => simp only [Action.enabled, typed, List.isEmpty_cons, Bool.not_false,
      Bool.true_or, Bool.and_self]

/-- The call `own` made from within a callback. -/
theorem next_call (tcp : r.kind = .tcp) (own : Own) (rest : List Own) (below : List (List Own))
    {w : World} {frame : Callback × (World → Res World Callback Fault Unit)}
    {stack : List (Callback × (World → Res World Callback Fault Unit))} {errors : Nat}
    (answers : List Answer) :
    next r behave ⟨⟨w, frame :: stack⟩, (own :: rest) :: below, errors⟩ answers =
      (enter (frame :: stack) ((own.call r).run { w with answers := answers })).map
        (entered behave (rest :: below) errors (frame :: stack).length) := by
  have enabled : coiosSystem.enabled (.call (own.call r))
      (Conf.tags (⟨w, frame :: stack⟩ : Coloop)) w = true := call_enabled tcp own w nofun
  simp only [next, step, enabled, if_true]
  rfl

/-- The innermost callback returns. -/
theorem next_back (below : List (List Own)) {c : Callback} {w : World} {errors : Nat}
    {resume : World → Res World Callback Fault Unit}
    {stack : List (Callback × (World → Res World Callback Fault Unit))} (answers : List Answer) :
    next r behave ⟨⟨w, (c, resume) :: stack⟩, [] :: below, errors⟩ answers =
      (enter stack (resume { w with answers := answers })).map
        (entered behave below errors stack.length) := rfl

/-- A call that is going to fail is still to be made, or `fn_error` was called again. -/
inductive Looming (r : Ref) (fn : Nat) : Handling → Prop
  | again {h : Handling} (twice : 2 ≤ h.errors) : Looming r fn h
  | busy {w frame stack l own} (loaded : Loaded w r fn) (mem : own ∈ l) (busy : ¬ own.idle) :
      Looming r fn ⟨⟨w, frame :: stack⟩, [l], 1⟩

theorem next_looming {fn : Nat} {h h' : Handling} {answers : List Answer} (tcp : r.kind = .tcp)
    (looming : Looming r fn h) (hard : FailsHard answers)
    (taken : next r behave h answers = .ok h') : Looming r fn h' := by
  cases looming with
  | again twice => exact .again (Nat.le_trans twice (next_errors taken))
  | @busy w frame stack l own loaded mem busy =>
      cases l with
      | nil => cases mem
      | cons first rest =>
          rw [next_call tcp] at taken
          have loaded' : Loaded { w with answers := answers } r fn := loaded.congr rfl
          by_cases idle : first.idle
          · rw [first.quiet idle] at taken
            rw [enter, Except.map, entered_same (Nat.le_refl _)] at taken
            cases taken
            refine .busy loaded' ((List.mem_cons.mp mem).resolve_left ?_) busy
            intro same
            exact busy (same ▸ idle)
          · rcases first.hard tcp loaded' hard idle with
              ⟨e, stopped⟩ | ⟨c, w', resume, called, error⟩
            · rw [stopped] at taken
              cases taken
            · rw [called, enter, Except.map, entered_error error] at taken
              cases taken
              exact .again (Nat.le_refl 2)

theorem looming_unsettled {fn : Nat} {h : Handling} (looming : Looming r fn h)
    (empty : h.todo = []) : 2 ≤ h.errors := by
  cases looming with
  | again twice => exact twice
  | busy => cases empty

/-- Idle calls leave everything as it is. -/
theorem run_idle (tcp : r.kind = .tcp) {l : List Own} (idle : ∀ own ∈ l, own.idle)
    {below : List (List Own)} {w : World} {errors : Nat}
    {frame : Callback × (World → Res World Callback Fault Unit)}
    {stack : List (Callback × (World → Res World Callback Fault Unit))}
    {inputs : List (List Answer)} (length : inputs.length = l.length) :
    ∃ answers, Runs.run (next r behave) ⟨⟨w, frame :: stack⟩, l :: below, errors⟩ inputs =
      .ok ⟨⟨{ w with answers := answers }, frame :: stack⟩, [] :: below, errors⟩ := by
  induction l generalizing w inputs with
  | nil =>
      cases List.length_eq_zero_iff.mp length
      exact ⟨w.answers, rfl⟩
  | cons own rest ih =>
      obtain ⟨answers, more, rfl⟩ := List.exists_cons_of_length_eq_add_one length
      have first : next r behave ⟨⟨w, frame :: stack⟩, (own :: rest) :: below, errors⟩ answers =
          .ok ⟨⟨{ w with answers := answers }, frame :: stack⟩, rest :: below, errors⟩ := by
        rw [next_call tcp, own.quiet (idle own List.mem_cons_self), enter, Except.map,
          entered_same (Nat.le_refl _)]
      obtain ⟨last, ran⟩ := ih (fun o mem => idle o (List.mem_cons_of_mem _ mem))
        (w := { w with answers := answers }) (Nat.succ.inj length)
      refine ⟨last, ?_⟩
      rw [Runs.run, first]
      exact ran

theorem attempt_breaks {w : World} {a : Action} (tcp : r.kind = .tcp) (h : Connected w r)
    (attempts : Attempts w r a) : Breaks r w (a.program w) := by
  cases a with
  | wait => exact attempts.elim
  | dispatch => exact attempts.elim
  | call c =>
      obtain ⟨own, rfl⟩ := attempts
      cases own with
      | send data =>
          exact Breaks.bind (cotcpSend_breaks tcp h data) (fun _ _ _ => trivial)
            fun _ w'' _ => ⟨(), rfl⟩
      | close force =>
          exact Breaks.bind (cotcpClose_breaks tcp h force) (fun _ _ _ => trivial)
            fun _ w'' _ => ⟨(), rfl⟩
  | handle =>
      obtain ⟨rest, tasks⟩ := attempts
      simp only [Action.program, bind_apply, read_apply, ret_bind, tasks, modify_apply, runHandler,
        tcp]
      exact Breaks.after (handleWrite_breaks tcp ⟨h.state, h.formed⟩) rfl rfl

theorem attempt_broken {a : Action} {answers : List Answer} (tcp : r.kind = .tcp)
    (h : Connected s₀.world r) (attempts : Attempts s₀.world r a)
    (taken : step coiosSystem s₀ (.start a answers) = .ok s₁) (fails : Fails s₀ s₁) :
    ∃ c w resume, s₁ = ⟨w, (c, resume) :: s₀.stack⟩ ∧ Broken r s₀.world c w resume := by
  obtain ⟨c, resume, stack, error⟩ := fails
  have breaks : Breaks r s₀.world (a.program { s₀.world with answers := answers }) := by
    refine Breaks.after (attempt_breaks tcp ⟨h.state, h.formed⟩ ?_) rfl rfl
    cases a <;> exact attempts
  simp only [step] at taken
  split at taken
  · cases ran : a.program { s₀.world with answers := answers } with
    | ret u w =>
        simp only [coiosSystem, ran, enter] at taken
        cases taken
        exact (List.cons_ne_self _ _ stack.symm).elim
    | stop e =>
        simp only [coiosSystem, ran, enter] at taken
        cases taken
    | call c' w resume' =>
        rw [ran] at breaks
        simp only [coiosSystem, ran, enter] at taken
        cases taken
        cases stack
        exact ⟨c, w, resume, rfl, breaks error⟩
  · cases taken

/-- The handling of a broken connection settles if and only if its first callback is idle. -/
theorem broken_settles {c : Callback} {w : World} {tape : Nat → List Answer}
    {resume : World → Res World Callback Fault Unit} (tcp : r.kind = .tcp)
    (broken : Broken r s₀.world c w resume) (hard : ∀ n, FailsHard (tape n)) :
    Settles r behave tape s₀ ⟨w, (c, resume) :: s₀.stack⟩ ↔ ∀ own ∈ behave 0, own.idle := by
  unfold Settles
  rw [entered_error broken.error]
  constructor
  · rintro ⟨n, h, ran, empty, once, -, -⟩
    by_contra busy
    obtain ⟨own, mem, busy⟩ : ∃ own ∈ behave 0, ¬ own.idle := by
      simpa only [not_forall, exists_prop] using busy
    have admitted : Runs.Along (next r behave) (fun _ answers => FailsHard answers)
        ⟨⟨w, (c, resume) :: s₀.stack⟩, [behave 0], 1⟩ ((List.range n).map tape) := by
      refine Runs.along_of_forall _ (fun answers mem => ?_) _
      obtain ⟨k, -, rfl⟩ := List.mem_map.mp mem
      exact hard k
    have looming := Runs.invariant_along
      (fun _ _ _ looming hard taken => next_looming tcp looming hard taken)
      _ _ _ (Looming.busy broken.loaded mem busy) admitted ran
    have twice := looming_unsettled looming empty
    omega
  · intro idle
    have idled : ∃ answers, Runs.run (next r behave)
        ⟨⟨w, (c, resume) :: s₀.stack⟩, [behave 0], 1⟩ ((List.range (behave 0).length).map tape) =
        .ok ⟨⟨{ w with answers := answers }, (c, resume) :: s₀.stack⟩, [[]], 1⟩ :=
      run_idle tcp idle (by rw [List.length_map, List.length_range])
    obtain ⟨answers, ran⟩ := idled
    let final := { w with answers := tape (behave 0).length }
    have live : Live final r := broken.loaded.live
    obtain ⟨_, life, ended⟩ := broken.back final live
    refine ⟨(behave 0).length + 1, ⟨⟨finished final r .error life, s₀.stack⟩, [], 1⟩, ?_, rfl,
      Nat.le_refl 1, ?_, ?_⟩
    · rw [List.range_succ, List.map_append, Runs.run_append ran]
      rw [List.map_singleton, Runs.run, next_back,
        show resume { w with answers := tape (behave 0).length } = _ from ended, enter, Except.map,
        entered_same (Nat.le_refl _)]
      rfl
    · rw [finished_objs, Function.update_self]
      rfl
    · obtain ⟨errno, same⟩ := finished_eq final r .error life
      rw [same]
      simp only [final, tcp, reduceCtorEq, if_false, broken.fd, broken.ledger]

end Handlings

/-! ## Runs -/

/-- A failed write has led from a reachable state to the error callback of a connected
object. -/
theorem handling_broken {zeroBlock : Bool} {moves : List Step} {s₀ s₁ : Coloop}
    (reached : Runs.run (step coiosSystem) (start zeroBlock) moves = .ok s₀) {i : Nat}
    (connected : (s₀.world.objs ⟨.tcp, i⟩).state = Cotcp.connected) {a : Action}
    {answers : List Answer} (attempts : Attempts s₀.world ⟨.tcp, i⟩ a)
    (taken : step coiosSystem s₀ (.start a answers) = .ok s₁) (fails : Fails s₀ s₁) :
    ∃ c w resume, s₁ = ⟨w, (c, resume) :: s₀.stack⟩ ∧
      Broken ⟨.tcp, i⟩ s₀.world c w resume := by
  have kept := queue_kept (r := ⟨.tcp, i⟩) (· = .tcp) (fun udp => nomatch udp) reached rfl nofun
  exact attempt_broken rfl ⟨connected, kept.accounted.formed⟩ attempts taken fails

/-- From every reachable state, for every error callback and every sequence of writes that
keep failing: the handling of a failed write settles if and only if the first call of
`fn_error` makes no `cotcp_close` and no `cotcp_send` of at least one byte. -/
theorem error_reentry_settles (zeroBlock : Bool) (moves : List Step) (s₀ s₁ : Coloop)
    (reached : Runs.run (step coiosSystem) (start zeroBlock) moves = .ok s₀) (i : Nat)
    (connected : (s₀.world.objs ⟨.tcp, i⟩).state = Cotcp.connected) (a : Action)
    (answers : List Answer) (attempts : Attempts s₀.world ⟨.tcp, i⟩ a)
    (taken : step coiosSystem s₀ (.start a answers) = .ok s₁) (fails : Fails s₀ s₁)
    (behave : Nat → List Own) (tape : Nat → List Answer) (hard : ∀ n, FailsHard (tape n)) :
    Settles ⟨.tcp, i⟩ behave tape s₀ s₁ ↔ ∀ own ∈ behave 0, own.idle := by
  obtain ⟨c, w, resume, rfl, broken⟩ := handling_broken reached connected attempts taken fails
  exact broken_settles rfl broken hard

/-- A connection with three queued bytes, whose descriptor has become writable. -/
def threeQueued : List Step :=
  [.start (.call (.cotcpConnect .null none none)) [.addresses [[1]], .descriptor 3, .done],
    .start (.call (.cotcpOnError ⟨.tcp, 0⟩ (some 1))) [],
    .start (.call (.cotcpSend ⟨.tcp, 0⟩ [1, 2, 3])) [.failed eagain],
    .start (.wait [⟨3, false, true, false⟩]) [],
    .start .dispatch []]

/-- `EPIPE` -/
def epipe : Nat := 32

theorem epipe_hard : FailsHard [.failed epipe] :=
  ⟨epipe, [], rfl, by decide, by decide, by decide⟩

/-- The peer is gone, and the error callback runs. -/
theorem threeQueued_fails : ∃ s₀ s₁,
    Runs.run (step coiosSystem) (start true) threeQueued = .ok s₀ ∧
      (s₀.world.objs ⟨.tcp, 0⟩).state = Cotcp.connected ∧
      Attempts s₀.world ⟨.tcp, 0⟩ .handle ∧
      step coiosSystem s₀ (.start .handle [.failed epipe]) = .ok s₁ ∧ Fails s₀ s₁ := by
  have before : (Runs.run (step coiosSystem) (start true) threeQueued).map (fun s =>
      ((s.world.objs ⟨.tcp, 0⟩).state, s.world.tasks, s.tags)) =
      .ok (Cotcp.connected, [(.write, ⟨.tcp, 0⟩)], []) := by decide +kernel
  have after : (Runs.run (step coiosSystem) (start true)
      (threeQueued ++ [.start .handle [.failed epipe]])).map (fun s => s.tags.map isError) =
      .ok [true] := by decide +kernel
  obtain ⟨s₀, reached, seen⟩ := Runs.reached_of_map before
  obtain ⟨s₁, failed, tags⟩ := Runs.reached_of_map after
  simp only [Prod.mk.injEq] at seen
  obtain ⟨state, tasks, outside⟩ := seen
  rw [Runs.run_append reached] at failed
  obtain ⟨s₂, taken, done⟩ := Runs.run_cons failed
  cases done
  refine ⟨s₀, s₁, reached, state, ⟨[], tasks⟩, taken, ?_⟩
  obtain ⟨w₀, stack₀⟩ := s₀
  obtain ⟨w₁, stack₁⟩ := s₁
  cases List.map_eq_nil_iff.mp outside
  simp only [Conf.tags, List.map_map] at tags
  obtain ⟨⟨c, resume⟩, rest, rfl, error, none⟩ := List.map_eq_cons_iff.mp tags
  cases List.map_eq_nil_iff.mp none
  exact ⟨c, resume, rfl, error⟩

theorem error_reentry_settles_threeQueued : ∃ s₀ s₁,
    step coiosSystem s₀ (.start .handle [.failed epipe]) = .ok s₁ ∧
      Settles ⟨.tcp, 0⟩ (fun _ => []) (fun _ => [.failed epipe]) s₀ s₁ := by
  obtain ⟨s₀, s₁, reached, connected, attempts, taken, fails⟩ := threeQueued_fails
  exact ⟨s₀, s₁, taken, (error_reentry_settles true threeQueued s₀ s₁ reached 0 connected .handle
    [.failed epipe] attempts taken fails (fun _ => []) (fun _ => [.failed epipe])
    (fun _ => epipe_hard)).mpr nofun⟩

/-- An error callback that closes its object never gets there. -/
theorem error_reentry_close : ∃ s₀ s₁,
    Runs.run (step coiosSystem) (start true) threeQueued = .ok s₀ ∧
      (s₀.world.objs ⟨.tcp, 0⟩).state = Cotcp.connected ∧
      Attempts s₀.world ⟨.tcp, 0⟩ .handle ∧
      step coiosSystem s₀ (.start .handle [.failed epipe]) = .ok s₁ ∧ Fails s₀ s₁ ∧
      FailsHard [.failed epipe] ∧
      ¬ Settles ⟨.tcp, 0⟩ (fun _ => [.close true]) (fun _ => [.failed epipe]) s₀ s₁ := by
  obtain ⟨s₀, s₁, reached, connected, attempts, taken, fails⟩ := threeQueued_fails
  refine ⟨s₀, s₁, reached, connected, attempts, taken, fails, epipe_hard, fun settles => ?_⟩
  obtain ⟨c, w, resume, rfl, broken⟩ := handling_broken reached connected attempts taken fails
  have idle := (broken_settles rfl broken fun _ => epipe_hard).mp settles
  exact nomatch idle (.close true) List.mem_cons_self

end Colinlib.Guarantees.ErrorReentry
