import Colinlib.Source.IoTrace

/-!
# What the user is shown of what an object reads

A read event takes one answer of the kernel. One handler serves the three kinds of objects:
what it reads goes to the receive callback, unless it is empty or the object shows nothing in
its state. Which answers are data, how much of them a call returns and what is recorded of
them is different for datagrams and for streams.
-/
namespace Colinlib.Source.Reception
open Colinlib.Theory Colinlib.Theory.Callbacks
open Colinlib.Source.IoWorld Colinlib.Source.IoService Colinlib.Source.EventLoop
open Colinlib.Source.IoChanges Colinlib.Source.IoTrace

variable {α D : Type}

def deliveredBy (r : Ref) (life : Nat) : Event → List Callback
  | .called c =>
    match c.notice with
    | .recv .. => if c.ref = r ∧ c.life = life then [c] else []
    | _ => []
  | _ => []

/-- The calls of the receive callback for one use of a slot, in order. -/
def delivered (log : List Event) (r : Ref) (life : Nat) : List Callback :=
  log.reverse.flatMap (deliveredBy r life)

/-! ## What is taken and what is shown -/

/-- How reads are recorded: the data in an answer, what a call that has so much room returns of
it, the record for an object that is as it was then, and what the record says is shown. -/
structure Reading (α D : Type) where
  data : Answer → Option α
  fill : Nat → α → List UInt8 × Option Addr
  record : Kind → Coio → α → D
  shown : Ref → Nat → D → List Callback

namespace Reading

/-- The kernel's first answer to a call that was not interrupted, if it is data. -/
def arriving (R : Reading α D) : List Answer → Option α
  | [] => none
  | .failed e :: rest => if e = eintr then R.arriving rest else none
  | a :: _ => R.data a

/-- What the code that `o` sets going reads for `r`, in one use of the slot. -/
def takes (R : Reading α D) (r : Ref) (life : Nat) (o : Origin) : List D :=
  match o.action, o.world.tasks with
  | .handle, (.read, here) :: _ =>
    if here = r ∧ o.world.lives r = life ∧ (o.world.objs r).state ≠ Cotcp.invalid then
      (R.arriving o.world.answers).toList.map (R.record r.kind (o.world.objs r))
    else []
  | _, _ => []

def takenBy (R : Reading α D) (r : Ref) (life : Nat) (w : World) : Step → List D
  | .start a answers => R.takes r life ⟨a, loaded answers w⟩
  | .back _ => []

/-- What is read for `r` in a run of a new service. -/
def taken (R : Reading α D) (zeroBlock : Bool) (moves : List Step) (r : Ref) (life : Nat) :
    List D :=
  Runs.observed (step coiosSystem) (fun s => R.takenBy r life s.world) (start zeroBlock) moves

end Reading

/-- What the handler of an object makes of what a call returned. -/
def showing (r : Ref) (life : Nat) (obj : Coio) (read : List UInt8 × Option Addr) :
    List Callback :=
  if read.1 = [] ∨ deliversOf r.kind obj = false then []
  else obj.fnRecv.toList.map fun fn => ⟨r, life, fn, .recv read.1 read.2⟩

/-- The records are those of the objects of a kind. -/
structure Reading.Records (R : Reading α D) (kind : Kind) : Prop where
  reads : ∀ len a out, receiveOf kind len a = some out → ∃ x, R.data a = some x ∧ R.fill len x = out
  shows : ∀ r life obj x, r.kind = kind →
    R.shown r life (R.record kind obj x) = showing r life obj (R.fill (ensured obj).recvsize x)

section Reading
variable {R : Reading α D} {kind : Kind} {o : Origin} {r : Ref} {life : Nat} {w w' : World}

theorem arriving_of_read (records : R.Records kind) {len errno errno' : Nat}
    {answers rest : List Answer} {bytes : List UInt8} {sender : Option Addr}
    (read : readLoop (receiveOf kind) len errno answers = .ok (.data bytes sender, errno', rest)) :
    ∃ x, R.arriving answers = some x ∧ R.fill len x = (bytes, sender) := by
  induction answers generalizing errno with
  | nil => cases read
  | cons a answers ih =>
      cases a with
      | failed e =>
          simp only [readLoop] at read
          split at read
          · next again =>
            simp only [Reading.arriving, if_pos again]
            exact ih read
          · split at read <;> cases read
      | _ =>
          simp only [readLoop] at read
          split at read
          · next found =>
            cases read
            exact records.reads _ _ _ found
          · cases read

/-- Data is read, or it is more than the call has room for, which no kernel returns. -/
theorem read_of_arriving (records : R.Records kind) {len errno : Nat} {answers : List Answer}
    {x : α} (arrives : R.arriving answers = some x) :
    (∃ errno' rest, readLoop (receiveOf kind) len errno answers =
      .ok (.data (R.fill len x).1 (R.fill len x).2, errno', rest)) ∨
      readLoop (receiveOf kind) len errno answers = .error .starved := by
  induction answers generalizing errno with
  | nil => cases arrives
  | cons a answers ih =>
      cases a with
      | failed e =>
          simp only [Reading.arriving] at arrives
          split at arrives
          · next again =>
            simp only [readLoop, if_pos again]
            exact ih arrives
          · cases arrives
      | _ =>
          simp only [readLoop]
          split
          · next found =>
            obtain ⟨x', same, fill⟩ := records.reads _ _ _ found
            obtain rfl := Option.some.inj (arrives.symm.trans same)
            exact .inl ⟨_, _, by rw [fill]⟩
          · exact .inr rfl

theorem ensured_delivers (kind : Kind) (obj : Coio) :
    deliversOf kind (ensured obj) = deliversOf kind obj := by
  cases kind with
  | tcp => simp only [deliversOf, ensured_state]
  | udp | fd => rfl

theorem Received.slot {result : ReadResult} (got : Received o r result w) :
    w.objs r = ensured (o.world.objs r) := by
  obtain ⟨⟨-, -⟩, -, -⟩ := got
  exact received_slot _ _ _ _

/-- What the handler has read is what was taken, as far as there was room for it. -/
theorem received_taken (records : R.Records r.kind) {bytes : List UInt8} {sender : Option Addr}
    (got : Received o r (.data bytes sender) w) : ∃ x,
    R.takes r (w.lives r) o = [R.record r.kind (o.world.objs r) x] ∧
      R.fill (ensured (o.world.objs r)).recvsize x = (bytes, sender) := by
  obtain ⟨⟨handling, next⟩, live, read⟩ := got
  obtain ⟨x, arrives, fill⟩ := arriving_of_read records read
  refine ⟨x, ?_, fill⟩
  rw [Reading.takes, handling, next]
  simp only
  rw [if_pos ⟨trivial, rfl, live⟩, arrives]
  rfl

theorem showing_cases (r : Ref) (life : Nat) (obj : Coio) (read : List UInt8 × Option Addr) :
    showing r life obj read = [] ∨ ∃ fn, read.1 ≠ [] ∧ deliversOf r.kind obj = true ∧
      obj.fnRecv = some fn ∧ showing r life obj read = [⟨r, life, fn, .recv read.1 read.2⟩] := by
  unfold showing
  split
  · exact .inl rfl
  · next visible =>
    obtain ⟨nonempty, shows⟩ := not_or.mp visible
    cases set : obj.fnRecv with
    | none => exact .inl rfl
    | some fn => exact .inr ⟨fn, nonempty, by simpa using shows, rfl, rfl⟩

/-- Where each part is no longer than another, the wholes are equal only if all parts are. -/
theorem flatMap_eq_iff {β : Type} {parts wholes : D → List β}
    (shorter : ∀ d, (parts d).length ≤ (wholes d).length) (ds : List D) :
    ds.flatMap parts = ds.flatMap wholes ↔ ∀ d ∈ ds, parts d = wholes d := by
  have shorterAll (ds : List D) : (ds.flatMap parts).length ≤ (ds.flatMap wholes).length := by
    induction ds with
    | nil => exact Nat.le_refl _
    | cons d ds ih =>
        rw [List.flatMap_cons, List.flatMap_cons, List.length_append, List.length_append]
        exact Nat.add_le_add (shorter d) ih
  induction ds with
  | nil => exact iff_of_true rfl nofun
  | cons d ds ih =>
      rw [List.flatMap_cons, List.flatMap_cons, List.forall_mem_cons]
      refine Iff.trans ?_ (and_congr Iff.rfl ih)
      constructor
      · intro same
        have lengths := congrArg List.length same
        rw [List.length_append, List.length_append] at lengths
        have one := shorter d
        have rest := shorterAll ds
        exact List.append_inj same (by omega)
      · rintro ⟨head, tail⟩
        rw [head, tail]

end Reading

/-! ## One move -/

section Moves
variable {R : Reading α D} {o : Origin} {r : Ref} {life : Nat} {w w' : World}

theorem delivered_cons (e : Event) (log : List Event) (r : Ref) (life : Nat) :
    delivered (e :: log) r life = delivered log r life ++ deliveredBy r life e := by
  rw [delivered, List.reverse_cons, List.flatMap_append, List.flatMap_singleton]
  rfl

/-- A change of the state shows nothing to the user. -/
theorem reaches_delivered (h : Reaches o w) (r : Ref) (life : Nat) :
    delivered w.log r life = delivered o.world.log r life := by
  induction h with
  | refl => rfl
  | tail _ last ih =>
      obtain ⟨news, log, about⟩ := last.log
      rw [log, ← ih]
      clear log
      induction news with
      | nil => rfl
      | cons e news later =>
          rw [List.cons_append, delivered_cons, later fun e mem => about e (List.mem_cons_of_mem _ mem)]
          have logged := about e List.mem_cons_self
          generalize he : e = e' at logged
          cases logged with
          | queue onQueue =>
              cases e' with
              | called => exact onQueue.elim
              | _ => exact List.append_nil _
          | read | ended => exact List.append_nil _

theorem resumed_delivered {c : Callback} (h : Resumed c w w') (r : Ref) (life : Nat) :
    delivered w'.log r life = delivered w.log r life := by
  cases h with
  | connect | gone => rfl
  | recv => rw [growRecvbuf_log]
  | error | close =>
      rw [finished_log, delivered_cons]
      exact List.append_nil _

theorem readFrom_apply (w : World) {receive : Nat → Answer → Option (List UInt8 × Option Addr)}
    {result : ReadResult} {errno : Nat} {rest : List Answer}
    (read : readLoop receive (ensured (w.objs r)).recvsize w.errno w.answers =
      .ok (result, errno, rest)) :
    readFrom receive r (ensured (w.objs r)).recvsize (w.setObj r (ensured (w.objs r))) =
      .ret result (received w r errno rest) := by
  simp only [readFrom, bind_apply, lifeOf_apply, record_apply, ret_bind, Prog.attempt, World.note,
    World.setObj, read]
  rfl

theorem runHandler_read (r : Ref) : ∃ failed teardown,
    runHandler .read r =
      handleRead (receiveOf r.kind) (deliversOf r.kind) failed teardown r := by
  cases kind : r.kind <;> exact ⟨_, _, by simp only [runHandler, kind]; rfl⟩

/-- The read handler shows what it took. -/
theorem handle_shows (records : R.Records r.kind) {x : α} {fn : Nat}
    {rest : List (Handler × Ref)} (next : w.tasks = (.read, r) :: rest)
    (live : (w.objs r).state ≠ Cotcp.invalid) (arrives : R.arriving w.answers = some x)
    {bytes : List UInt8} {sender : Option Addr}
    (fill : R.fill (ensured (w.objs r)).recvsize x = (bytes, sender)) (some' : bytes ≠ [])
    (shows : deliversOf r.kind (w.objs r) = true) (set : (w.objs r).fnRecv = some fn) :
    (∃ w' resume, Action.program .handle w =
      .call ⟨r, w.lives r, fn, .recv bytes sender⟩ w' resume ∧
      w'.log = .called ⟨r, w.lives r, fn, .recv bytes sender⟩ ::
        .read r (w.lives r) (ensured (w.objs r)).recvsize :: w.log) ∨
    ∃ f, Action.program .handle w = .stop f := by
  obtain ⟨failed, teardown, handler⟩ := runHandler_read r
  have now : deliversOf r.kind (ensured (w.objs r)) = true := (ensured_delivers _ _).trans shows
  have begins : Action.program .handle w = handleRead (receiveOf r.kind) (deliversOf r.kind)
      failed teardown r { w with tasks := rest } := by
    simp only [Action.program, bind_apply, read_apply, ret_bind, next, modify_apply, handler]
  rcases @read_of_arriving _ _ _ _ records (ensured (w.objs r)).recvsize w.errno _ _ arrives with
    ⟨errno, answers, read⟩ | stops
  · rw [fill] at read
    have ran := readFrom_apply { w with tasks := rest } read
    refine .inl ⟨(received { w with tasks := rest } r errno answers).note _,
      fun after => .ret () (growRecvbuf after r bytes.length), begins.trans ?_, rfl⟩
    simp only [handleRead, bind_apply, look_apply, if_neg live, ensureRecvbuf_apply, ret_bind,
      setObj_self, ran, if_neg some', now, if_true, ensured_fnRecv, set, notify, lifeOf_apply,
      record_apply]
    rfl
  · refine .inr ⟨.starved, begins.trans ?_⟩
    simp only [handleRead, bind_apply, look_apply, if_neg live, ensureRecvbuf_apply, ret_bind,
      readFrom, lifeOf_apply, record_apply, Prog.attempt, World.note, World.setObj,
      Function.update_self, stops]
    rfl

/-- Where something is taken, the read handler of a live object runs. -/
structure Taking (R : Reading α D) (o : Origin) (r : Ref) (life : Nat) (x : α) : Prop where
  handling : o.action = .handle
  next : ∃ rest, o.world.tasks = (.read, r) :: rest
  present : o.world.lives r = life
  live : (o.world.objs r).state ≠ Cotcp.invalid
  arrives : R.arriving o.world.answers = some x
  alone : R.takes r life o = [R.record r.kind (o.world.objs r) x]

theorem takes_cases {d : D} (mem : d ∈ R.takes r life o) : ∃ x, Taking R o r life x := by
  unfold Reading.takes at mem
  split at mem
  · next here rest handling next =>
    split at mem
    · next now =>
      obtain ⟨rfl, lives, live⟩ := now
      have whole : R.takes here life o =
          (R.arriving o.world.answers).toList.map (R.record here.kind (o.world.objs here)) := by
        simp only [Reading.takes, handling, next]
        rw [if_pos ⟨trivial, lives, live⟩]
      cases arrives : R.arriving o.world.answers with
      | none =>
          rw [arrives] at mem
          cases mem
      | some x =>
          rw [arrives] at whole
          exact ⟨x, handling, ⟨rest, next⟩, lives, live, arrives, whole⟩
    · cases mem
  · cases mem

/-- A receive callback that is due is for something that was taken. -/
theorem due_shown (records : R.Records r.kind) {c : Callback} (now : c.life = w.lives c.ref)
    (due : Due o c.ref c.fn w c.notice) (shown : deliveredBy r life (.called c) ≠ []) :
    (R.takes r life o).flatMap (R.shown r life) = [c] := by
  obtain ⟨ref, own, fn, notice⟩ := c
  cases due with
  | recv got nonempty shows set =>
      by_cases here : ref = r ∧ own = life
      · obtain ⟨rfl, rfl⟩ := here
        obtain ⟨x, only, fill⟩ := received_taken records got
        have now : own = w.lives ref := now
        subst now
        have slot : w.objs ref = ensured (o.world.objs ref) := Received.slot got
        rw [slot] at shows set
        rw [ensured_delivers] at shows
        rw [ensured_fnRecv] at set
        rw [only, List.flatMap_singleton, records.shows _ _ _ _ rfl, fill, showing,
          if_neg (by simp [nonempty, shows]), set]
        rfl
      · exact absurd (if_neg here) shown
  | _ => exact absurd rfl shown

/-- Nothing is shown in a move that reads nothing, or nothing to be shown. -/
theorem moved_delivered (records : R.Records r.kind) {tags tags' : List Callback} {m : Step}
    (moved : Moved coiosSystem (fun a w => Reaches ⟨a, w⟩) (fun a w => Enters ⟨a, w⟩) Resumed
      tags w m tags' w')
    (nothing : (R.takenBy r life w m).flatMap (R.shown r life) = []) :
    delivered w'.log r life = delivered w.log r life := by
  cases moved with
  | direct enabled end' => exact reaches_delivered end' r life
  | returns top end' => exact resumed_delivered end' r life
  | @calls _ _ c _ enabled call =>
      obtain ⟨before, now, due⟩ := call
      have silent : deliveredBy r life (.called c) = [] := by
        by_contra shown
        have none := (due_shown records now due shown).symm.trans nothing
        cases none
      rw [World.note, delivered_cons, silent, List.append_nil]
      exact reaches_delivered before r life

/-- A move shows the user what the handler makes of what it reads. -/
theorem step_delivered (records : R.Records r.kind) {s s' : Coloop} {m : Step}
    (held : Sound s.world ∧ Waiting Sound Resumed s) (done : step coiosSystem s m = .ok s') :
    delivered s'.world.log r life =
      delivered s.world.log r life ++
        (R.takenBy r life s.world m).flatMap (R.shown r life) := by
  by_cases nothing : (R.takenBy r life s.world m).flatMap (R.shown r life) = []
  · rw [moved_delivered records (step_sound held done).1 nothing, nothing, List.append_nil]
  · obtain ⟨d, mem, -⟩ : ∃ d ∈ R.takenBy r life s.world m, R.shown r life d ≠ [] := by
      simpa only [List.flatMap_eq_nil_iff, not_forall, exists_prop] using nothing
    cases m with
    | back answers => cases mem
    | start a answers =>
        obtain ⟨x, taking⟩ := takes_cases mem
        obtain ⟨rest, next⟩ := taking.next
        have handling : a = .handle := taking.handling
        subst handling
        rw [Reading.takenBy, taking.alone, List.flatMap_singleton, records.shows _ _ _ _ rfl]
          at nothing ⊢
        obtain none | ⟨fn, some', shows, set, one⟩ := showing_cases r life
          ((loaded answers s.world).objs r)
          (R.fill (ensured ((loaded answers s.world).objs r)).recvsize x)
        · exact absurd none nothing
        · rcases handle_shows records next taking.live taking.arrives rfl some' shows set with
            ⟨w', resume, ran, log⟩ | ⟨f, stops⟩
          · rw [taking.present] at ran log
            simp only [step, coiosSystem, ran, enter] at done
            split at done
            · cases done
              rw [one, log, delivered_cons, delivered_cons]
              simp [deliveredBy]
            · cases done
          · simp only [step, coiosSystem, stops, enter] at done
            split at done <;> cases done

end Moves

/-- Whatever happens in a run, the user is shown what the handlers make of what they read, in
order. -/
theorem run_delivered {R : Reading α D} {r : Ref} (records : R.Records r.kind) (life : Nat)
    {zeroBlock : Bool} {moves : List Step} {s : Coloop}
    (reached : Runs.run (step coiosSystem) (start zeroBlock) moves = .ok s) :
    delivered s.world.log r life = (R.taken zeroBlock moves r life).flatMap (R.shown r life) :=
  Runs.observed_view (fun s => Sound s.world ∧ Waiting Sound Resumed s)
    (fun s => R.takenBy r life s.world) (fun s => delivered s.world.log r life) (R.shown r life)
    (fun _ _ _ held done => ⟨(step_sound held done).2, step_delivered records held done⟩) moves
    (start zeroBlock) s ⟨Sound.initially zeroBlock, waiting_rest _⟩ reached

end Colinlib.Source.Reception
