import Colinlib.Source.Delivery
import Mathlib.Data.List.Count

/-!
# How often the close callback is called

`cotcp_close`, `coudp_close` and the end of a stream call `fn_close` and then close the
object. A close that was put off until the queue is empty is completed by the write handler,
which does not call `fn_close`; and while `fn_close` runs the object still is open, so that a
close from there calls it once more. In every other run it is called once.
-/
namespace Colinlib.Guarantees.CloseNotices
open Colinlib.Theory Colinlib.Theory.Callbacks
open Colinlib.Source.IoWorld Colinlib.Source.IoService Colinlib.Source.EventLoop
open Colinlib.Source.IoChanges Colinlib.Source.IoTrace Colinlib.Source.Delivery

/-! ## The calls -/

/-- A call of `fn_close` in one use of a slot. -/
def tellsClose (r : Ref) (life : Nat) (c : Callback) : Bool :=
  match c.notice with
  | .close _ => c.ref = r ∧ c.life = life
  | _ => false

def notesClose (r : Ref) (life : Nat) : Event → Bool
  | .called c => tellsClose r life c
  | _ => false

def closeCalls (log : List Event) (r : Ref) (life : Nat) : Nat := log.countP (notesClose r life)

/-- The calls that have not returned. -/
def running (tags : List Callback) (r : Ref) (life : Nat) : Nat := tags.countP (tellsClose r life)

/-! ## The steps that go wrong -/

/-- The write handler sends what is left of a closing object. -/
def completes (w : World) (r : Ref) : Bool :=
  decide (some (w.objs r).state = closingOf r.kind) &&
    match flushOf r.kind r w with
    | .ret out _ => out = .drained
    | _ => false

/-- An accepted close does not put it off: it is forced, or the attempt to send leaves
nothing. -/
def endsNow (w : World) (r : Ref) (force : Bool) : Bool :=
  force || !hasDataOf r.kind (w.objs r) ||
    match flushOf r.kind r w with
    | .ret _ w' => !hasDataOf r.kind (w'.objs r)
    | _ => false

def registered (w : World) (r : Ref) : Bool := (w.objs r).fnClose.isSome

/-- Where `r` has a close callback, no write event completes a close that was put off, and no
close that ends it at once is made while the callback runs. -/
def heeds (r : Ref) (tags : List Callback) (o : Origin) : Bool :=
  match o.action, o.world.tasks with
  | .handle, (.write, s) :: rest =>
    let w := { o.world with tasks := rest }
    !(s = r && registered w r && completes w r)
  | .call (.cotcpClose s force), _ | .call (.coudpClose s force), _ =>
    !(s = r && registered o.world r && isOpenOf r.kind (o.world.objs r) &&
      running tags r (o.world.lives r) ≠ 0 && endsNow o.world r force)
  | _, _ => true

/-- The steps of one use of a slot are such. -/
def spares (r : Ref) (life : Nat) (tags : List Callback) (w : World) : Step → Prop
  | .start a answers => w.lives r = life → heeds r tags ⟨a, loaded answers w⟩ = true
  | .back _ => True

instance (r : Ref) (life : Nat) (tags : List Callback) (w : World) :
    (m : Step) → Decidable (spares r life tags w m)
  | .start a answers =>
    inferInstanceAs (Decidable (w.lives r = life → heeds r tags ⟨a, loaded answers w⟩ = true))
  | .back _ => .isTrue trivial

/-! ## What a close does to the queue -/

section Moves
variable {o : Origin} {w w' : World} {tags : List Callback} {r : Ref} {life : Nat}

def SameQueue (o o' : Coio) : Prop := o.sendbuf = o'.sendbuf ∧ o.sendlist = o'.sendlist

theorem SameQueue.hasData {kind : Kind} {o o' : Coio} (h : SameQueue o o') :
    hasDataOf kind o = hasDataOf kind o' := by
  obtain ⟨buf, list⟩ := h
  cases kind <;> simp only [hasDataOf, hasSenddata, coudpHasSenddata, buf, list]

/-- The object is gone, or its queue is as the close found it, or as one attempt to send
leaves it. -/
def Attempted (o : Origin) (r : Ref) (w : World) : Prop :=
  (w.objs r).state = Cotcp.invalid ∨ SameQueue (w.objs r) (o.world.objs r) ∨
    ∃ out w₁, flushOf r.kind r o.world = .ret out w₁ ∧ SameQueue (w.objs r) (w₁.objs r)

theorem Attempted.congr (h : Attempted o r w)
    (gone : (w.objs r).state = Cotcp.invalid → (w'.objs r).state = Cotcp.invalid)
    (queue : SameQueue (w'.objs r) (w.objs r)) : Attempted o r w' := by
  rcases h with free | same | ⟨out, w₁, ran, same⟩
  · exact .inl (gone free)
  · exact .inr (.inl ⟨queue.1.trans same.1, queue.2.trans same.2⟩)
  · exact .inr (.inr ⟨out, w₁, ran, queue.1.trans same.1, queue.2.trans same.2⟩)

theorem Attempted.same (h : Attempted o r w) (objs : w'.objs = w.objs) : Attempted o r w' :=
  h.congr (fun free => by rw [objs, free]) (by rw [objs]; exact ⟨rfl, rfl⟩)

/-- One object is changed. -/
theorem Attempted.update {s : Ref} {obj : Coio} (h : Attempted o r w)
    (objs : w'.objs = Function.update w.objs s obj)
    (here : s = r → (w.objs r).state ≠ Cotcp.invalid ∧ SameQueue obj (w.objs r)) :
    Attempted o r w' := by
  by_cases same : s = r
  · obtain ⟨live, queue⟩ := here same
    refine h.congr (fun free => absurd free live) ?_
    rw [objs, same, Function.update_self]
    exact queue
  · have other : w'.objs r = w.objs r := by rw [objs, Function.update_of_ne (Ne.symm same)]
    exact h.congr (fun free => by rw [other, free]) (by rw [other]; exact ⟨rfl, rfl⟩)

theorem closes_slot {force : Bool} (asked : Closes o r force) : o.slot = none := by
  unfold Origin.slot
  rcases asked.asked with ⟨asked, -⟩ | ⟨asked, -⟩ <;> rw [asked]

theorem closes_handles {force : Bool} {h : Handler} {s : Ref} (asked : Closes o r force) :
    ¬ Running o h s w := by
  rintro ⟨handling, -⟩
  rcases asked.asked with ⟨asked, -⟩ | ⟨asked, -⟩ <;> rw [asked] at handling <;> cases handling

theorem closes_once {force : Bool} (asked : Closes o r force) {s : Ref} {force' : Bool}
    (also : Closes o s force') : s = r := by
  rcases asked.asked with ⟨asked, kind⟩ | ⟨asked, kind⟩ <;>
    rcases also.asked with ⟨again, -⟩ | ⟨again, -⟩ <;> rw [asked] at again <;> cases again <;> rfl

theorem closes_sends {force : Bool} (asked : Closes o r force) {s : Ref} {queue : Io Unit} :
    ¬ Sends o s queue := by
  intro sends
  cases sends with
  | tcp again | udp again | fd again =>
      rcases asked.asked with ⟨asked, -⟩ | ⟨asked, -⟩ <;> rw [asked] at again <;> cases again

theorem closes_flushes {force : Bool} (asked : Closes o r force) {s : Ref}
    (flushes : Flushes o s w) : s = r ∧ w = o.world := by
  cases flushes with
  | event running => exact absurd running (closes_handles asked)
  | send sends => exact absurd sends (closes_sends asked)
  | close also here => exact ⟨closes_once asked also, here⟩

theorem Attempted.change {force : Bool} (asked : Closes o r force) (h : Attempted o r w)
    (change : Change o w w') : Attempted o r w' := by
  have taken : ∀ {s}, o.slot ≠ some s := by
    intro s taken
    rw [closes_slot asked] at taken
    cases taken
  cases change with
  | kernel same => exact h.same same.objs
  | reserve next => exact absurd next taken
  | install next => exact absurd next taken
  | bind next => exact absurd next taken
  | await next => exact absurd next taken
  | @adjust _ s obj adjusts =>
      refine h.update rfl fun here => ?_
      subst here
      refine ⟨adjusts.adjusted.live, ?_⟩
      cases adjusts <;> exact ⟨rfl, rfl⟩
  | transmit transmits =>
      cases transmits with
      | sent sends => exact absurd sends (closes_sends asked)
      | waits flushes _ ran =>
          obtain ⟨rfl, rfl⟩ := closes_flushes asked flushes
          exact .inr (.inr ⟨_, _, ran, rfl, rfl⟩)
      | drained flushes _ ran =>
          obtain ⟨rfl, rfl⟩ := closes_flushes asked flushes
          refine .inr (.inr ⟨_, _, ran, ?_⟩)
          rw [copollRequestWrite_objs]
          exact ⟨rfl, rfl⟩
  | receive running => exact absurd running (closes_handles asked)
  | unseen got =>
      obtain ⟨running, -⟩ := got
      exact absurd running (closes_handles asked)
  | @finish _ s cause finishing =>
      by_cases here : s = r
      · left
        rw [finished_objs, here, Function.update_self]
        rfl
      · exact h.update (finished_objs _ _ _ _) fun same => absurd same here
  | bump | churn | collect | pop | schedule | handle => exact h.same rfl

theorem attempted {force : Bool} (asked : Closes o r force) (reached : Reaches o w) :
    Attempted o r w := by
  induction reached with
  | refl => exact .inr (.inl ⟨rfl, rfl⟩)
  | tail _ last ih => exact ih.change asked last

/-- A close that calls `fn_close` was not put off. -/
theorem due_endsNow {force : Bool} (asked : Closing o r force w) (reached : Reaches o w)
    (now : force ∨ hasDataOf r.kind (w.objs r) = false) : endsNow o.world r force = true := by
  unfold endsNow
  rcases now with forced | empty
  · rw [forced]
    rfl
  · rcases attempted asked.toCloses reached with free | same | ⟨out, w₁, ran, same⟩
    · exact absurd free asked.live
    · rw [← same.hasData, empty, Bool.not_false, Bool.or_true]
      rfl
    · have none : hasDataOf r.kind (w₁.objs r) = false := same.hasData.symm.trans empty
      simp only [ran, none, Bool.not_false, Bool.or_true]

/-! ## Calls on record and calls that run -/

/-- While an object is in its slot, the calls of its `fn_close` on record are those that
run, at most one; and where it was closed without an error, there was one. -/
structure Told (r : Ref) (life : Nat) (tags : List Callback) (w : World) : Prop where
  sound : Sound w
  noted : ∀ c ∈ tags, .called c ∈ w.log
  present : Live w r → w.lives r = life →
    closeCalls w.log r life = running tags r life ∧ running tags r life ≤ 1
  once : ∀ cause before, .ended r life cause life true :: before <:+ w.log → cause ≠ .error →
    closeCalls before r life = 1

theorem tellsClose_iff {c : Callback} : tellsClose r life c = true ↔
    (∃ cause, c.notice = .close cause) ∧ c.ref = r ∧ c.life = life := by
  unfold tellsClose
  cases c.notice <;> simp

theorem running_cons (c : Callback) : running (c :: tags) r life =
    running tags r life + if tellsClose r life c then 1 else 0 :=
  List.countP_cons

theorem closeCalls_cons (e : Event) (log : List Event) : closeCalls (e :: log) r life =
    closeCalls log r life + if notesClose r life e then 1 else 0 :=
  List.countP_cons

theorem closeCalls_append {news log : List Event}
    (silent : ∀ e ∈ news, notesClose r life e = false) :
    closeCalls (news ++ log) r life = closeCalls log r life := by
  have none : news.countP (notesClose r life) = 0 :=
    List.countP_eq_zero.mpr fun e he => by rw [silent e he]; exact Bool.false_ne_true
  rw [closeCalls, List.countP_append, none, Nat.zero_add]
  rfl

/-- A stretch of a log that starts in its newer part starts with one of its events. -/
theorem suffix_append {α : Type} {x : α} {before news log : List α}
    (suffix : x :: before <:+ news ++ log) : x ∈ news ∨ x :: before <:+ log := by
  induction news with
  | nil => exact .inr suffix
  | cons e rest ih =>
      rcases List.suffix_cons_iff.mp suffix with same | later
      · rw [(List.cons.inj same).1]
        exact .inl List.mem_cons_self
      · exact (ih later).imp_left (List.mem_cons_of_mem e)

theorem logged_silent {e : Event} (logged : Logged o w e) : notesClose r life e = false := by
  cases logged with
  | @queue s e about => cases e <;> first | rfl | exact about.elim
  | read => rfl
  | ended => rfl

theorem logged_ended {cause : Cause} {begun : Nat} {set : Bool}
    (logged : Logged o w (.ended r life cause begun set)) :
    w.lives r = life ∧ (w.objs r).fnClose.isSome = set ∧ Finishing o r w cause := by
  generalize same : Event.ended r life cause begun set = e at logged
  cases logged with
  | queue about =>
      subst same
      exact about.elim
  | read => cases same
  | ended finishing =>
      cases same
      exact ⟨rfl, rfl, finishing⟩

/-- An object in its slot was there before, or nothing is on record of it. -/
theorem change_alive (h : Change o w w') (live : Live w' r) :
    w'.lives r = w.lives r ∧ (Live w r ∨ Unused w r) := by
  have same : w'.objs = w.objs → w'.lives = w.lives →
      w'.lives r = w.lives r ∧ (Live w r ∨ Unused w r) := by
    intro objs lives
    rw [Live, objs] at live
    exact ⟨congrFun lives r, .inl live⟩
  have updated : ∀ {s obj}, w'.objs = Function.update w.objs s obj → w'.lives = w.lives →
      (s = r → Live w r ∨ Unused w r) → w'.lives r = w.lives r ∧ (Live w r ∨ Unused w r) := by
    intro s obj objs lives here
    refine ⟨congrFun lives r, ?_⟩
    by_cases at' : s = r
    · exact here at'
    · rw [Live, objs, Function.update_of_ne (Ne.symm at')] at live
      exact .inl live
  cases h with
  | kernel core => exact same core.objs core.lives
  | @reserve _ s next free =>
      have other : r ≠ s := by
        rintro rfl
        rw [Live, reserved, setObj_self] at live
        exact live rfl
      rw [Live, reserved, setObj_other w _ other] at live
      exact ⟨Function.update_of_ne other _ _, .inl live⟩
  | install next empty unused =>
      exact updated (copollAdd_objs _ _ _) (installed_rest _ _ _).1
        fun here => .inr (here ▸ unused)
  | bind next empty unused =>
      exact updated (copollAdd_objs _ _ _) (installed_rest _ _ _).1
        fun here => .inr (here ▸ unused)
  | await => exact same (copollRequestWrite_objs w _ _ _) (copollRequestWrite_lives w _ _ _)
  | adjust adjusts => exact updated rfl rfl fun here => .inl (here ▸ adjusts.adjusted.live)
  | transmit transmits =>
      have before := transmits.live
      obtain ⟨w₁, queued, asks⟩ := transmits.queued
      obtain ⟨_, _, objs⟩ := queued.objs
      rcases asks with rfl | ⟨enable, rfl⟩
      · exact updated objs queued.lives fun here => .inl (here ▸ before)
      · exact updated ((copollRequestWrite_objs w₁ _ _ enable).trans objs)
          ((copollRequestWrite_lives w₁ _ _ enable).trans queued.lives)
          fun here => .inl (here ▸ before)
  | receive _ before => exact updated rfl rfl fun here => .inl (here ▸ before)
  | @unseen _ s bytes _ got =>
      rcases growRecvbuf_eq w s bytes.length with eq | ⟨before, -, _, _, eq⟩
      · rw [eq] at same
        rw [eq]
        exact same rfl rfl
      · exact updated (congrArg World.objs eq) (growRecvbuf_lives w s _)
          fun here => .inl (here ▸ before)
  | finish finishing =>
      exact updated (finished_objs _ _ _ _) (finished_lives _ _ _ _)
        fun here => .inl (here ▸ finishing.live)
  | bump | churn | collect | pop | schedule | handle => exact same rfl rfl

/-- What the steps of one use of a slot must meet. -/
def Heeded (r : Ref) (life : Nat) (tags : List Callback) (o : Origin) : Prop :=
  o.world.lives r = life → heeds r tags o = true

/-- A registered object is torn down without a call only by an error. -/
theorem finishing_error {cause : Cause} (socket : r.kind ≠ .fd)
    (underway : Underway (Told r life) (Heeded r life) tags o) (present : w.lives r = life)
    (finishing : Finishing o r w cause)
    (set : (w.objs r).fnClose.isSome = true) : cause = .error := by
  cases finishing with
  | error => rfl
  | eof _ unset =>
      rw [unset] at set
      cases set
  | requested _ _ unset =>
      rw [unset] at set
      cases set
  | unbound _ kind => exact absurd kind socket
  | @drained w₀ running ran closing =>
      obtain @⟨rest, handling, next⟩ := running
      have same := (flushOf_queued ran).undisturbed
      have heeded := underway.admitted (same.lives.symm.trans present)
      have registered : CloseNotices.registered { o.world with tasks := rest } r = true :=
        (congrArg Option.isSome same.fnClose).symm.trans set
      have completes : CloseNotices.completes { o.world with tasks := rest } r = true := by
        rw [same.state] at closing
        simp only [CloseNotices.completes, ran, closing, decide_true, Bool.and_self]
      simp only [heeds, handling, next, registered, completes, decide_true, Bool.and_self,
        Bool.not_true, Bool.false_eq_true] at heeded

/-- `fn_close` is called while no other call of it runs. -/
theorem due_alone {c : Callback} (underway : Underway (Told r life) (Heeded r life) tags o)
    (reached : Reaches o w) (due : Due o c.ref c.fn w c.notice) (present : w.lives r = life)
    (tells : tellsClose r life c = true) : running tags r life = 0 := by
  obtain ⟨⟨cause, notice⟩, rfl, -⟩ := tellsClose_iff.mp tells
  rw [notice] at due
  cases due with
  | eof got =>
      obtain ⟨⟨handling, -⟩, -⟩ := got
      have enabled := underway.enabled
      rw [handling] at enabled
      rw [List.isEmpty_iff.mp enabled]
      rfl
  | @close force asked now set =>
      have here : o.world.lives c.ref = life := asked.same.lives.symm.trans present
      have heeded := underway.admitted here
      have registered : CloseNotices.registered o.world c.ref = true := by
        rw [CloseNotices.registered, ← asked.same.fnClose, set]
        rfl
      have atOnce := due_endsNow asked reached now
      by_contra others
      rcases asked.asked with ⟨action, -⟩ | ⟨action, -⟩ <;>
        simp only [heeds, action, registered, asked.open', here, others, atOnce, decide_true,
          ne_eq, not_false_eq_true, Bool.and_self, Bool.not_true, Bool.false_eq_true] at heeded

/-- A callback that is not told of the close returns. -/
theorem Told.back {c : Callback} (h : Told r life (c :: tags) w)
    (other : tellsClose r life c = false) : Told r life tags w := by
  refine ⟨h.sound, fun d hd => h.noted d (List.mem_cons_of_mem c hd), fun live present => ?_,
    h.once⟩
  have held := h.present live present
  rw [running_cons, other] at held
  exact held

/-- The object that is closed is another one, or there was one call. -/
theorem Told.teardown {s : Ref} {cause : Cause} {begun : Nat} (sound : Sound w)
    (noted : ∀ c ∈ tags, .called c ∈ w.log) (once : ∀ cause before,
      .ended r life cause life true :: before <:+ w.log → cause ≠ .error →
        closeCalls before r life = 1)
    (other : s ≠ r → Live w r → w.lives r = life →
      closeCalls w.log r life = running tags r life ∧ running tags r life ≤ 1)
    (here : s = r → w.lives r = life → begun = life → cause ≠ .error →
      closeCalls w.log r life = 1) :
    Told r life tags (finished w s cause begun) := by
  refine ⟨sound.finish s cause begun, fun c hc => ?_, fun live present => ?_, ?_⟩
  · rw [finished_log]
    exact List.mem_cons_of_mem _ (noted c hc)
  · rw [finished_lives] at present
    by_cases same : s = r
    · rw [Live, finished_objs, same, Function.update_self] at live
      exact absurd rfl live
    · rw [Live, finished_objs, Function.update_of_ne (Ne.symm same)] at live
      rw [finished_log, closeCalls_cons]
      exact other same live present
  · intro why before suffix noError
    rw [finished_log] at suffix
    rcases List.suffix_cons_iff.mp suffix with new | old
    · injection new with first rest
      injection first with ref now why' started
      rw [rest]
      exact here ref.symm (ref ▸ now.symm) started.symm (why' ▸ noError)
    · exact once why before old noError

/-- Where no call was told of the close, none is on record and none runs. -/
theorem Told.unused (h : Told r life tags w)
    (none : ∀ c, .called c ∈ w.log → tellsClose r life c = false) :
    closeCalls w.log r life = running tags r life ∧ running tags r life ≤ 1 := by
  have calls : closeCalls w.log r life = 0 := by
    refine List.countP_eq_zero.mpr fun e he => ?_
    cases e with
    | called c =>
        rw [notesClose, none c he]
        exact Bool.false_ne_true
    | _ => exact Bool.false_ne_true
  have idle : running tags r life = 0 := by
    refine List.countP_eq_zero.mpr fun c hc => ?_
    rw [none c (h.noted c hc)]
    exact Bool.false_ne_true
  rw [calls, idle]
  exact ⟨rfl, Nat.zero_le 1⟩

theorem Told.change (socket : r.kind ≠ .fd)
    (underway : Underway (Told r life) (Heeded r life) tags o) (h : Told r life tags w)
    (change : Change o w w') : Told r life tags w' := by
  obtain ⟨news, log, logged⟩ := change.log
  have silent : ∀ e ∈ news, notesClose r life e = false :=
    fun e he => logged_silent (logged e he)
  refine ⟨change.sound h.sound, fun c hc => ?_, fun live life' => ?_, ?_⟩
  · rw [log]
    exact List.mem_append_right news (h.noted c hc)
  · obtain ⟨lives, before⟩ := change_alive change live
    rw [lives] at life'
    rw [log, closeCalls_append silent]
    rcases before with live | unused
    · exact h.present live life'
    · refine h.unused fun c mem => ?_
      by_contra tells
      obtain ⟨-, ref, same⟩ := tellsClose_iff.mp (Bool.not_eq_false _ ▸ tells)
      exact unused _ mem ref (same.trans life'.symm)
  · intro cause before suffix noError
    rw [log] at suffix
    rcases suffix_append suffix with new | old
    · obtain ⟨present, set, finishing⟩ := logged_ended (logged _ new)
      exact absurd (finishing_error socket underway present finishing set) noError
    · exact h.once cause before old noError

theorem Told.enter {c : Callback} (underway : Underway (Told r life) (Heeded r life) tags o)
    (reached : Reaches o w) (h : Told r life tags w) (now : c.life = w.lives c.ref)
    (due : Due o c.ref c.fn w c.notice) : Told r life (c :: tags) (w.note (.called c)) := by
  refine ⟨h.sound.note (Nat.le_of_eq now), fun d hd => ?_, fun live present => ?_, ?_⟩
  · cases hd with
    | head => exact List.mem_cons_self
    | tail _ hmem => exact List.mem_cons_of_mem _ (h.noted d hmem)
  · obtain ⟨calls, atMost⟩ := h.present live present
    rw [note_log, closeCalls_cons, running_cons, calls, notesClose]
    by_cases tells : tellsClose r life c = true
    · rw [due_alone underway reached due present tells, if_pos tells]
      exact ⟨rfl, Nat.le_refl 1⟩
    · rw [if_neg tells]
      exact ⟨rfl, atMost⟩
  · intro cause before suffix noError
    rcases List.suffix_cons_iff.mp suffix with same | old
    · cases same
    · exact h.once cause before old noError

theorem Told.resume {c : Callback} (socket : r.kind ≠ .fd) (h : Told r life (c :: tags) w)
    (resumed : Resumed c w w') : Told r life tags w' := by
  have noted : ∀ d ∈ tags, .called d ∈ w.log :=
    fun d hd => h.noted d (List.mem_cons_of_mem c hd)
  have elsewhere : c.ref ≠ r → tellsClose r life c = false := by
    intro other
    by_contra tells
    exact other (tellsClose_iff.mp (Bool.not_eq_false _ ▸ tells)).2.1
  have unheard : (∀ cause, c.notice ≠ .close cause) → tellsClose r life c = false := by
    intro other
    by_contra tells
    obtain ⟨⟨cause, notice⟩, -⟩ := tellsClose_iff.mp (Bool.not_eq_false _ ▸ tells)
    exact other cause notice
  cases resumed with
  | connect notice => exact h.back (unheard fun cause is => by rw [notice] at is; cases is)
  | @recv data sender notice =>
      have below := h.back (unheard fun cause is => by rw [notice] at is; cases is)
      refine ⟨below.sound.grow _ _, fun d hd => ?_, fun live present => ?_, ?_⟩
      · rw [growRecvbuf_log]
        exact noted d hd
      · rw [growRecvbuf_lives] at present
        rw [growRecvbuf_log]
        exact below.present (fun free => live (Resumed.free (.recv notice) free)) present
      · rw [growRecvbuf_log]
        exact below.once
  | error notice =>
      have below := h.back (unheard fun cause is => by rw [notice] at is; cases is)
      exact Told.teardown below.sound noted below.once (fun _ => below.present)
        fun _ _ _ noError => absurd rfl noError
  | @close cause notice live =>
      refine Told.teardown h.sound noted h.once
        (fun other => (h.back (elsewhere other)).present) ?_
      intro here present begun noError
      have tells : tellsClose r life c = true := tellsClose_iff.mpr ⟨⟨cause, notice⟩, here, begun⟩
      have held := h.present (here ▸ live) present
      rw [running_cons, if_pos tells] at held
      omega
  | gone notice free =>
      by_cases here : c.ref = r
      · have dead : ¬ Live w r := by
          rcases free with free | kind
          · exact fun live => live (here ▸ free)
          · exact absurd (here ▸ kind) socket
        exact ⟨h.sound, noted, fun live => absurd live dead, h.once⟩
      · exact h.back (elsewhere here)

theorem told_kept (socket : r.kind ≠ .fd) : Kept (Told r life) (Heeded r life) where
  sound h := h.sound
  load _ h := ⟨h.sound.sameObjs rfl rfl rfl, h.noted, h.present, h.once⟩
  change underway _ h change := h.change socket underway change
  enter underway reached h now due := h.enter underway reached now due
  resume h resumed := h.resume socket resumed

end Moves

/-! ## Runs -/

/-- Where the object that used the slot `r` for the time `life` had a close callback when it
was closed, on account of a close of its own and without an error, the callback had been
called once. -/
def ToldOnce (w : World) (r : Ref) (life : Nat) : Prop :=
  ∀ cause before, .ended r life cause life true :: before <:+ w.log → cause ≠ .error →
    closeCalls before r life = 1

theorem told_initially (zeroBlock : Bool) (r : Ref) (life : Nat) :
    Told r life [] (coiosNew zeroBlock) :=
  ⟨Sound.initially zeroBlock, nofun, fun live => absurd rfl live,
    fun _ _ suffix => nomatch List.suffix_nil.mp suffix⟩

/-- In every run in which no write event completes a close of the object that was put off,
and `fn_close` does not close the object once more, `fn_close` is called once. -/
theorem close_told_once (zeroBlock : Bool) (moves : List Step) (s : Coloop) (r : Ref)
    (socket : r.kind ≠ .fd) (life : Nat)
    (spared : Runs.Along (step coiosSystem) (fun s m => spares r life s.tags s.world m)
      (start zeroBlock) moves)
    (reached : Runs.run (step coiosSystem) (start zeroBlock) moves = .ok s) :
    ToldOnce s.world r life := by
  have admitted : Runs.Along (step coiosSystem)
      (fun s m => Admits (Heeded r life) s.tags s.world m) (start zeroBlock) moves := by
    refine spared.mono fun s m spared => ?_
    cases m with
    | start a answers => exact spared
    | back answers => trivial
  exact ((told_kept socket).fromStart (told_initially zeroBlock r life) admitted reached).1.once

/-- A connection with a close callback is closed at once. -/
def closedAtOnce : List Step :=
  [.start (.call (.cotcpConnect .null none none)) [.addresses [[1]], .descriptor 3, .done],
    .start (.call (.cotcpOnClose ⟨.tcp, 0⟩ (some 7))) [],
    .start (.call (.cotcpClose ⟨.tcp, 0⟩ false)) [],
    .back []]

theorem close_told_once_closedAtOnce :
    ∃ s before, Runs.run (step coiosSystem) (start true) closedAtOnce = .ok s ∧
      s.world.log = .ended ⟨.tcp, 0⟩ 1 (.requested false) 1 true :: before ∧
      closeCalls before ⟨.tcp, 0⟩ 1 = 1 := by
  have seen : (Runs.run (step coiosSystem) (start true) closedAtOnce).map (fun s =>
      s.world.log.head?) = .ok (some (.ended ⟨.tcp, 0⟩ 1 (.requested false) 1 true)) := by
    decide +kernel
  obtain ⟨s, reached, first⟩ := Runs.reached_of_map seen
  obtain ⟨before, log⟩ := List.head?_eq_some_iff.mp first
  refine ⟨s, before, reached, log, ?_⟩
  have once := close_told_once true closedAtOnce s ⟨.tcp, 0⟩ nofun 1 (by decide +kernel) reached
  exact once (.requested false) before (log ▸ List.suffix_rfl) nofun

/-- The kernel takes nothing when the connection is closed, and all later on. -/
def closedLater : List Step :=
  [.start (.call (.cotcpConnect .null none none)) [.addresses [[1]], .descriptor 3, .done],
    .start (.call (.cotcpOnClose ⟨.tcp, 0⟩ (some 7))) [],
    .start (.call (.cotcpSend ⟨.tcp, 0⟩ [1, 2, 3])) [.failed eagain],
    .start (.call (.cotcpClose ⟨.tcp, 0⟩ false)) [.failed eagain],
    .start (.wait [⟨3, false, true, false⟩]) [],
    .start .dispatch [],
    .start .handle [.count 3]]

theorem closed_later_untold :
    ∃ s before, Runs.run (step coiosSystem) (start true) closedLater = .ok s ∧
      s.world.log = .ended ⟨.tcp, 0⟩ 1 .drained 1 true :: before ∧
      closeCalls before ⟨.tcp, 0⟩ 1 = 0 ∧ ¬ ToldOnce s.world ⟨.tcp, 0⟩ 1 := by
  have seen : (Runs.run (step coiosSystem) (start true) closedLater).map (fun s =>
      (s.world.log.head?, closeCalls s.world.log.tail ⟨.tcp, 0⟩ 1)) =
      .ok (some (.ended ⟨.tcp, 0⟩ 1 .drained 1 true), 0) := by decide +kernel
  obtain ⟨s, reached, found⟩ := Runs.reached_of_map seen
  obtain ⟨first, none⟩ := Prod.mk.inj found
  obtain ⟨before, log⟩ := List.head?_eq_some_iff.mp first
  rw [log, List.tail_cons] at none
  refine ⟨s, before, reached, log, none, fun told => ?_⟩
  have once := told .drained before (log ▸ List.suffix_rfl) nofun
  rw [none] at once
  cases once

end Colinlib.Guarantees.CloseNotices
