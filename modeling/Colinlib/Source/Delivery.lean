import Colinlib.Source.Traffic

/-!
# Nothing is lost on the way to the kernel

In every state of every run, what an object accepted for sending is what it handed to the
kernel, in the same order, followed by its queue. The queue goes with the object alone.
-/
namespace Colinlib.Source.Delivery
open Colinlib.Theory Colinlib.Theory.CMemory Colinlib.Theory.Callbacks
open Colinlib.Source.IoWorld Colinlib.Source.IoService Colinlib.Source.EventLoop
open Colinlib.Source.IoChanges Colinlib.Source.IoTrace Colinlib.Source.Traffic

/-- The slot is in use. -/
abbrev Live (w : World) (r : Ref) : Prop := (w.objs r).state ≠ Cotcp.invalid

/-- The record says that this use of the slot was torn down. -/
def Ended (log : List Event) (r : Ref) (life : Nat) : Prop :=
  ∃ cause begun registered, Event.ended r life cause begun registered ∈ log

/-- The account of one slot. -/
structure Accounted (w : World) (r : Ref) : Prop where
  formed : Formed r.kind (w.objs r)
  present : Live w r → accepted w.log r (w.lives r) =
    handed w.log r (w.lives r) ++ waiting r.kind (w.objs r)
  past : ∀ life, handed w.log r life <+: accepted w.log r life
  shut : ∀ life, accepted w.log r life ≠ [] → life = w.lives r ∧ Live w r ∨ Ended w.log r life

/-- The invariant of a run, for the objects of some kinds. -/
structure Delivers (K : Kind → Prop) (w : World) : Prop where
  sound : Sound w
  accounted : ∀ r, K r.kind → Accounted w r

section Steps
variable {K : Kind → Prop} {w w' : World} {r s : Ref} {o : Origin}

/-- Events about other queues leave the account of a use as it is. -/
theorem silent_news {news : List Event} {life : Nat}
    (silent : ∀ e ∈ news, OnQueue e → eventRef e = s → eventLife e ≠ life) (log : List Event) :
    accepted (news ++ log) s life = accepted log s life ∧
      handed (news ++ log) s life = handed log s life := by
  have none : ∀ e ∈ news, acceptedBy s life e = [] ∧ handedBy s life e = [] := by
    intro e mem
    have other := silent e mem
    cases e with
    | sent => exact ⟨if_neg fun same => other trivial same.1 same.2, rfl⟩
    | wrote => exact ⟨rfl, if_neg fun same => other trivial same.1 same.2⟩
    | _ => exact ⟨rfl, rfl⟩
  have noneAccepted : accepted news s life = [] :=
    List.flatMap_eq_nil_iff.mpr fun e mem => (none e (List.mem_reverse.mp mem)).1
  have noneHanded : handed news s life = [] :=
    List.flatMap_eq_nil_iff.mpr fun e mem => (none e (List.mem_reverse.mp mem)).2
  rw [accepted_append, handed_append, noneAccepted, noneHanded, List.append_nil, List.append_nil]
  exact ⟨rfl, rfl⟩

theorem Ended.later {log : List Event} {life : Nat} (h : Ended log s life) (news : List Event) :
    Ended (news ++ log) s life := by
  obtain ⟨cause, begun, registered, mem⟩ := h
  exact ⟨cause, begun, registered, List.mem_append_right news mem⟩

/-- The same object with the same queue. -/
theorem Accounted.frame (h : Accounted w s) (news : List Event)
    (sendbuf : (w'.objs s).sendbuf = (w.objs s).sendbuf)
    (sendlist : (w'.objs s).sendlist = (w.objs s).sendlist) (live : Live w' s ↔ Live w s)
    (lives : w'.lives s = w.lives s) (log : w'.log = news ++ w.log)
    (silent : ∀ e ∈ news, OnQueue e → eventRef e ≠ s) : Accounted w' s := by
  have queue : waiting s.kind (w'.objs s) = waiting s.kind (w.objs s) := by
    simp only [waiting, sendbuf, sendlist]
  have same := fun life => @silent_news _ news life
    (fun e mem on here => absurd here (silent e mem on)) w.log
  constructor
  · have formed := h.formed
    simp only [Formed, sendbuf, sendlist] at formed ⊢
    exact formed
  · intro alive
    rw [log, lives, queue, (same _).1, (same _).2]
    exact h.present (live.mp alive)
  · intro life
    rw [log, (same _).1, (same _).2]
    exact h.past life
  · intro life some
    rw [log, (same _).1] at some
    rw [log, lives]
    exact (h.shut life some).imp (fun now => ⟨now.1, live.mpr now.2⟩) (·.later news)

/-- Nothing happened to the slot. -/
theorem Accounted.same (h : Accounted w s) (news : List Event) (obj : w'.objs s = w.objs s)
    (lives : w'.lives s = w.lives s) (log : w'.log = news ++ w.log)
    (silent : ∀ e ∈ news, OnQueue e → eventRef e ≠ s) : Accounted w' s :=
  h.frame news (by rw [obj]) (by rw [obj]) (by rw [Live, Live, obj]) lives log silent

/-- One slot was changed, and the record says nothing of queues. -/
theorem Delivers.change (h : Delivers K w) (news : List Event) (sound : Sound w') {obj : Coio}
    (objs : w'.objs = Function.update w.objs r obj) (lives : w'.lives = w.lives)
    (log : w'.log = news ++ w.log) (silent : ∀ e ∈ news, ¬ OnQueue e)
    (here : K r.kind → Accounted w' r) : Delivers K w' := by
  refine ⟨sound, fun s k => ?_⟩
  by_cases same : s = r
  · rw [same] at k ⊢
    exact here k
  · exact (h.accounted s k).same news (by rw [objs, Function.update_of_ne same]) (by rw [lives]) log
      fun e mem on => absurd on (silent e mem)

/-- The queue of the slot that is changed stays. -/
theorem Delivers.adjust (h : Delivers K w) (news : List Event) (sound : Sound w') {obj : Coio}
    (objs : w'.objs = Function.update w.objs r obj) (lives : w'.lives = w.lives)
    (log : w'.log = news ++ w.log) (silent : ∀ e ∈ news, ¬ OnQueue e)
    (sendbuf : obj.sendbuf = (w.objs r).sendbuf) (sendlist : obj.sendlist = (w.objs r).sendlist)
    (live : obj.state ≠ Cotcp.invalid ↔ Live w r) : Delivers K w' := by
  have self : w'.objs r = obj := by rw [objs, Function.update_self]
  refine h.change news sound objs lives log silent fun k => ?_
  exact (h.accounted r k).frame news (by rw [self, sendbuf]) (by rw [self, sendlist])
    (by rw [Live, self]; exact live) (by rw [lives]) log fun e mem on => absurd on (silent e mem)

/-- Slots and the record of queues are as before. -/
theorem Delivers.same (h : Delivers K w) (news : List Event) (sound : Sound w')
    (objs : w'.objs = w.objs) (lives : w'.lives = w.lives) (log : w'.log = news ++ w.log)
    (silent : ∀ e ∈ news, ¬ OnQueue e) : Delivers K w' :=
  ⟨sound, fun s k => (h.accounted s k).same news (by rw [objs]) (by rw [lives]) log
    fun e mem on => absurd on (silent e mem)⟩

theorem Delivers.grow (h : Delivers K w) (r : Ref) (n : Nat) : Delivers K (growRecvbuf w r n) := by
  have sound := h.sound.grow r n
  rcases growRecvbuf_eq w r n with same | ⟨live, -, _, _, same⟩
  · rwa [same]
  · rw [same] at sound ⊢
    exact h.adjust [] sound rfl rfl rfl nofun rfl rfl Iff.rfl

/-- An object takes its queue along when it is torn down. -/
theorem Delivers.finish (h : Delivers K w) (r : Ref) (cause : Cause) (begun : Nat) :
    Delivers K (finished w r cause begun) := by
  have log := finished_log w r cause begun
  rw [← List.singleton_append] at log
  have silent : ∀ e ∈ [Event.ended r (w.lives r) cause begun (w.objs r).fnClose.isSome],
      ¬ OnQueue e := by
    intro e mem on
    rw [List.mem_singleton.mp mem] at on
    exact on
  refine h.change _ (h.sound.finish r cause begun) (finished_objs w r cause begun)
    (finished_lives w r cause begun) log silent fun k => ?_
  have free : (finished w r cause begun).objs r = blank := by
    rw [finished_objs, Function.update_self]
  have same := fun life => @silent_news r _ life
    (fun e mem on => absurd on (silent e mem)) w.log
  have before := h.accounted r k
  constructor
  · exact formed_empty (by rw [free]; rfl) (by rw [free]; rfl)
  · intro alive
    exact absurd (by rw [free]; rfl) alive
  · intro life
    rw [log, (same life).1, (same life).2]
    exact before.past life
  · intro life some
    rw [log, (same life).1] at some
    right
    rcases before.shut life some with ⟨rfl, -⟩ | ended
    · exact ⟨cause, begun, _, by rw [log]; exact List.mem_cons_self⟩
    · rw [log]
      exact ended.later _

theorem Delivers.reserve (h : Delivers K w) (r : Ref) (free : (w.objs r).state = Cotcp.invalid) :
    Delivers K (reserved w r) := by
  refine ⟨h.sound.reserve r, fun s k => ?_⟩
  by_cases here : s = r
  · subst here
    have before := h.accounted s k
    have empty : (reserved w s).objs s = blank := Function.update_self _ _ _
    constructor
    · exact formed_empty (by rw [empty]; rfl) (by rw [empty]; rfl)
    · intro alive
      exact absurd (by rw [empty]; rfl) alive
    · exact before.past
    · intro life some
      exact .inr ((before.shut life some).resolve_left fun now => now.2 free)
  · exact (h.accounted s k).same [] (Function.update_of_ne here _ _)
      (Function.update_of_ne here _ _) rfl nofun

/-- A new object starts with an empty account. -/
theorem Delivers.install (h : Delivers K w) {obj : Coio} (empty : w.objs r = blank)
    (unused : Unused w r) (shape : Installed obj) : Delivers K (installed w r obj) := by
  obtain ⟨fd, ud, state, fnc, fne, same, live⟩ := shape
  obtain ⟨lives, log, -⟩ := installed_rest w r obj
  have objs : (installed w r obj).objs = Function.update w.objs r obj := copollAdd_objs _ _ _
  have self : (installed w r obj).objs r = obj := by rw [objs, Function.update_self]
  have sendbuf : obj.sendbuf = none := by rw [same]; rfl
  have sendlist : obj.sendlist = ⟨[], none, 0⟩ := by rw [same]; rfl
  have sound := @Sound.install _ h.sound r obj ⟨fd, ud, state, fnc, fne, same, live⟩
  refine h.change [] sound objs lives log nofun fun k => ?_
  have before := h.accounted r k
  constructor
  · exact formed_empty (by rw [self, sendbuf]) (by rw [self, sendlist])
  · intro _
    have news := @silent_news r w.log (w.lives r)
      (fun e mem _ here => unused e mem here) []
    rw [List.append_nil] at news
    rw [log, lives, news.1, news.2, self, waiting_empty sendbuf sendlist]
    rfl
  · rw [log]
    exact before.past
  · intro life some
    rw [log] at some ⊢
    refine .inr ((before.shut life some).resolve_left fun now => now.2 ?_)
    rw [empty]
    rfl

/-- The queue of a live object moved on. -/
theorem Accounted.moved (h : Accounted w r) (queued : Queued r w w') (alive : Live w r)
    {arrived left : List Parcel} (moved : Moved r w w' arrived left) : Accounted w' r := by
  obtain ⟨news, log, about⟩ := queued.log
  have alive' : Live w' r := by rw [Live, queued.undisturbed.state]; exact alive
  have account : accepted w'.log r (w'.lives r) =
      handed w'.log r (w'.lives r) ++ waiting r.kind (w'.objs r) := by
    rw [queued.lives, moved.accepted, moved.handed, h.present alive, List.append_assoc,
      List.append_assoc, moved.queue]
  have other : ∀ life, life ≠ w.lives r → accepted w'.log r life = accepted w.log r life ∧
      handed w'.log r life = handed w.log r life := by
    intro life ne
    rw [log]
    exact silent_news (fun e mem _ _ same => ne (same.symm.trans (about e mem).2.2)) w.log
  constructor
  · exact moved.formed
  · exact fun _ => account
  · intro life
    by_cases now : life = w.lives r
    · rw [now, ← queued.lives, account]
      exact List.prefix_append _ _
    · rw [(other life now).1, (other life now).2]
      exact h.past life
  · intro life some
    by_cases now : life = w.lives r
    · exact .inl ⟨by rw [now, queued.lives], alive'⟩
    · rw [(other life now).1] at some
      refine .inr ?_
      rw [log]
      exact ((h.shut life some).resolve_left fun here => now here.1).later news

/-- What is asked of the poller does not matter. -/
theorem Delivers.request (h : Delivers K w) (fd : Nat) (ud : VPtr) (enable : Bool) :
    Delivers K (w.copollRequestWrite fd ud enable) := by
  obtain ⟨_, _, same⟩ := copollRequestWrite_eq w fd ud enable
  rw [same]
  exact h.same [] (h.sound.sameObjs rfl rfl rfl) rfl rfl rfl nofun

theorem Delivers.queued (h : Delivers K w) (queued : Queued r w w') (alive : Live w r)
    (moved : K r.kind → ∃ arrived left, Moved r w w' arrived left) : Delivers K w' := by
  refine ⟨queued.sound alive h.sound, fun s k => ?_⟩
  by_cases here : s = r
  · rw [here] at k ⊢
    obtain ⟨arrived, left, moved⟩ := moved k
    exact (h.accounted r k).moved queued alive moved
  · obtain ⟨_, _, objs⟩ := queued.objs
    obtain ⟨news, log, about⟩ := queued.log
    refine (h.accounted s k).same _ (by rw [objs, Function.update_of_ne here]) (by rw [queued.lives])
      log fun e mem _ same => here (same.symm.trans (about e mem).2.1)

/-- A handler finds what the move found. -/
theorem Delivers.running (h : Delivers K o.world) {handler : Handler}
    (running : Running o handler r w) : Delivers K w := by
  obtain ⟨-, -⟩ := running
  exact h.same [] (h.sound.sameObjs rfl rfl rfl) rfl rfl rfl nofun

/-- What is asked of the kernel where the account of UDP objects is to hold. -/
def Whole (K : Kind → Prop) (o : Origin) : Prop :=
  K .udp → wholeDatagrams o.world (.start o.action o.world.answers)

/-- What a write loop hands over is the start of the queue. -/
theorem Flushes.moved {out : Flush} (flushes : Flushes o r w)
    (ran : flushOf r.kind r w = .ret out w') (k : K r.kind) (h : Delivers K w)
    (initial : Delivers K o.world) (admitted : Whole K o) :
    (∃ left, Moved r w w' [] left) ∧ (out = .drained ↔ waiting r.kind (w'.objs r) = []) := by
  have whole : r.kind = .udp → sentWhole (sizes (w.objs r)) w.answers := fun kind =>
    Flushes.whole flushes kind (admitted (kind ▸ k)) (initial.accounted r k).formed
  exact flushOf_moved (h.accounted r k).formed whole ran

/-- Data is queued at the end and handed over from the start. -/
theorem Transmits.moved (transmits : Transmits o r w w') (h : Delivers K w)
    (initial : Delivers K o.world) (admitted : Whole K o) :
    ∃ w₁, Queued r w w₁ ∧ (K r.kind → ∃ arrived left, Moved r w w₁ arrived left) ∧
      (w' = w₁ ∨ ∃ fd ud enable, w' = w₁.copollRequestWrite fd ud enable) := by
  have flushed : ∀ {w₁ out}, Flushes o r w → flushOf r.kind r w = .ret out w₁ → K r.kind →
      ∃ arrived left, Moved r w w₁ arrived left := by
    intro w₁ out flushes ran k
    obtain ⟨⟨left, moved⟩, -⟩ := Flushes.moved flushes ran k h initial admitted
    exact ⟨[], left, moved⟩
  cases transmits with
  | sent asked ran =>
      refine ⟨_, asked.queued ran, fun k => ?_, .inr ⟨_, _, _, rfl⟩⟩
      obtain ⟨arrived, moved⟩ := Sends.moved asked (h.accounted r k).formed ran
      exact ⟨arrived, [], moved⟩
  | waits flushes _ ran => exact ⟨_, flushOf_queued ran, flushed flushes ran, .inl rfl⟩
  | drained flushes _ ran =>
      exact ⟨_, flushOf_queued ran, flushed flushes ran, .inr ⟨_, _, _, rfl⟩⟩

theorem Delivers.changed (h : Delivers K w) (initial : Delivers K o.world) (change : Change o w w')
    (admitted : Whole K o) : Delivers K w' := by
  have sound := change.sound h.sound
  have quiet : w'.objs = w.objs → w'.lives = w.lives → w'.log = w.log → Delivers K w' :=
    fun objs lives log => h.same [] sound objs lives log nofun
  cases change with
  | kernel same => exact quiet same.objs same.lives same.log
  | reserve next free => exact h.reserve _ free
  | install next empty unused shape socket shut =>
      have taken : ∀ fd, Delivers K (opened w fd) := fun fd =>
        h.same [] (h.sound.sameObjs rfl rfl rfl) rfl rfl rfl nofun
      exact (taken _).install empty unused shape
  | bind next empty unused shape => exact h.install empty unused shape
  | await => exact h.request _ _ _
  | @adjust _ r obj adjusts =>
      have live := adjusts.adjusted
      refine h.adjust [] sound rfl rfl rfl nofun ?_ ?_ (iff_of_true live.live' live.live)
      · cases adjusts <;> rfl
      · cases adjusts <;> rfl
  | transmit transmits =>
      obtain ⟨w₁, queued, moved, asks⟩ := Transmits.moved transmits h initial admitted
      have held := h.queued queued transmits.live moved
      rcases asks with rfl | ⟨fd, ud, enable, rfl⟩
      · exact held
      · exact held.request fd ud enable
  | @receive _ r result errno rest running live read =>
      refine h.adjust [.read r (w.lives r) (ensured (w.objs r)).recvsize] sound rfl rfl rfl ?_ ?_ ?_ ?_
      · intro e mem on
        rw [List.mem_singleton.mp mem] at on
        exact on
      · unfold ensured
        split <;> rfl
      · unfold ensured
        split <;> rfl
      · rw [ensured_state]
  | unseen => exact h.grow _ _
  | finish => exact h.finish _ _ _
  | bump | churn | collect | pop | schedule | handle => exact quiet rfl rfl rfl

/-- In every run in which datagrams are sent whole, the account of each slot holds. -/
theorem delivers_kept (K : Kind → Prop) : Kept (fun _ => Delivers K) fun _ => Whole K where
  sound h := h.sound
  load _ h := h.same [] (h.sound.sameObjs rfl rfl rfl) rfl rfl rfl nofun
  change underway _ h change := h.changed underway.holds change underway.admitted
  enter _ _ h now _ := by
    refine h.same [.called _] (h.sound.note (Nat.le_of_eq now)) rfl rfl rfl ?_
    intro e mem on
    rw [List.mem_singleton.mp mem] at on
    exact on
  resume h resumed := by
    cases resumed with
    | connect => exact h
    | recv => exact h.grow _ _
    | error => exact h.finish _ _ _
    | close => exact h.finish _ _ _
    | gone => exact h

/-- One move of a service keeps the account of its queues. -/
theorem step_delivers {s s' : Coloop} {m : Step}
    (held : Delivers K s.world ∧ Waiting Sound Resumed s)
    (admitted : Admits (fun _ => Whole K) s.tags s.world m)
    (done : step coiosSystem s m = .ok s') :
    Delivers K s'.world ∧ Waiting Sound Resumed s' := by
  have one : Runs.run (step coiosSystem) s [m] = .ok s' := by
    simp only [Runs.run, done]
  have along : Runs.Along (step coiosSystem) (fun s m => Admits (fun _ => Whole K) s.tags s.world m)
      s [m] := ⟨admitted, fun _ _ => trivial⟩
  exact (delivers_kept K).run held.2 held.1 along one

theorem delivers_initially (K : Kind → Prop) (zeroBlock : Bool) :
    Delivers K (coiosNew zeroBlock) := by
  refine ⟨Sound.initially zeroBlock, fun r _ => ⟨formed_empty rfl rfl, ?_, ?_, ?_⟩⟩
  · exact fun alive => absurd rfl alive
  · exact fun _ => List.prefix_rfl
  · exact fun _ some => absurd rfl some

end Steps

end Colinlib.Source.Delivery
