import Colinlib.Guarantees.DescriptorOwnership
import Colinlib.Guarantees.StaleEvents
import Colinlib.Source.Delivery

/-!
# What an object accepted is sent

The queue of a live object is what it accepted and has not handed to the kernel yet. While
it is not empty the poller watches for room, and a gentle close waits until it is.
-/
namespace Colinlib.Guarantees.SendQueues
open Colinlib.Theory Colinlib.Theory.CMemory Colinlib.Theory.Callbacks
open Colinlib.Source Colinlib.Source.IoWorld Colinlib.Source.IoService Colinlib.Source.EventLoop
open Colinlib.Source.IoChanges Colinlib.Source.IoTrace
open Colinlib.Source.Traffic Colinlib.Source.Delivery
open Colinlib.Guarantees.DescriptorOwnership Colinlib.Guarantees.StaleEvents

/-! ## Write interest -/

/-- What is open is registered, and a queue that waits has asked for writable events. -/
structure Watched (K : Kind → Prop) (w : World) : Prop where
  registered : ∀ fd, fd ∈ w.openFds ↔ (w.poll fd).isSome
  interest : ∀ r, K r.kind → r.kind ≠ .fd → Live w r → waiting r.kind (w.objs r) ≠ [] →
    w.poll (w.objs r).fd = some ⟨.obj r, true⟩

section Interest
variable {K : Kind → Prop} {w w' : World} {r s : Ref} {o : Origin}

theorem waiting_congr {kind : Kind} (a b : Coio) (sendbuf : a.sendbuf = b.sendbuf)
    (sendlist : a.sendlist = b.sendlist) : waiting kind a = waiting kind b := by
  simp only [waiting, sendbuf, sendlist]

theorem Watched.same (h : Watched K w) (objs : w'.objs = w.objs) (poll : w'.poll = w.poll)
    (openFds : w'.openFds = w.openFds) : Watched K w' := by
  constructor
  · rw [poll, openFds]
    exact h.registered
  · intro r
    rw [Live, objs, poll]
    exact h.interest r

/-- A socket that keeps its descriptor and queues nothing. -/
theorem Watched.adjust (h : Watched K w) {obj : Coio} (objs : w'.objs = Function.update w.objs r obj)
    (poll : w'.poll = w.poll) (openFds : w'.openFds = w.openFds) (live : Live w r)
    (fd : obj.fd = (w.objs r).fd)
    (queue : K r.kind → waiting r.kind obj ≠ [] → waiting r.kind (w.objs r) ≠ []) :
    Watched K w' := by
  constructor
  · rw [poll, openFds]
    exact h.registered
  · intro s k socket alive some
    by_cases here : s = r
    · subst here
      rw [objs, Function.update_self] at some ⊢
      rw [poll, fd]
      exact h.interest s k socket live (queue k some)
    · rw [Live, objs, Function.update_of_ne here] at alive
      rw [objs, Function.update_of_ne here] at some ⊢
      rw [poll]
      exact h.interest s k socket alive some

theorem fd_open (inv : SocketInv w) (live : Live w r) (socket : r.kind ≠ .fd) :
    (w.objs r).fd ∈ w.openFds :=
  (inv.owner _).mpr ⟨r, socket, descriptorOf_live live⟩

/-- Two sockets in use have two descriptors. -/
theorem fd_apart (inv : SocketInv w) (live : Live w r) (socket : r.kind ≠ .fd) (live' : Live w s)
    (socket' : s.kind ≠ .fd) (other : s ≠ r) : (w.objs s).fd ≠ (w.objs r).fd := by
  intro same
  refine other (inv.unique s r (w.objs r).fd socket' socket ?_ (descriptorOf_live live))
  rw [Owns, descriptorOf_live live', same]

/-- The queue of a socket changes, and then what is asked of the poller. -/
theorem Watched.request (h : Watched K w) (inv : SocketInv w) (socket : r.kind ≠ .fd)
    (live : Live w r) {obj : Coio} (objs : w'.objs = Function.update w.objs r obj)
    (poll : w'.poll = w.poll) (openFds : w'.openFds = w.openFds) (fd : obj.fd = (w.objs r).fd)
    (enable : Bool) (asks : K r.kind → waiting r.kind obj ≠ [] → enable = true) :
    Watched K (w'.copollRequestWrite (w.objs r).fd (.obj r) enable) := by
  have present := (h.registered _).mp (fd_open inv live socket)
  obtain ⟨reg, here⟩ := Option.isSome_iff_exists.mp present
  have same : w'.copollRequestWrite (w.objs r).fd (.obj r) enable =
      { w' with poll := Function.update w'.poll (w.objs r).fd (some ⟨.obj r, enable⟩) } := by
    unfold World.copollRequestWrite
    rw [poll, here]
  rw [same]
  constructor
  · intro fd'
    show fd' ∈ w'.openFds ↔ (Function.update w'.poll _ _ fd').isSome
    rw [openFds, poll]
    by_cases this : fd' = (w.objs r).fd
    · rw [this, Function.update_self]
      exact iff_of_true (fd_open inv live socket) rfl
    · rw [Function.update_of_ne this]
      exact h.registered fd'
  · intro s k socket' alive some
    simp only [Live, objs] at alive some ⊢
    by_cases own : s = r
    · subst own
      rw [Function.update_self] at some ⊢
      rw [fd, Function.update_self, asks k some]
    · rw [Function.update_of_ne own] at alive some ⊢
      rw [Function.update_of_ne (fd_apart inv live socket alive socket' own), poll]
      exact h.interest s k socket' alive some

theorem Watched.finish (h : Watched K w) (inv : SocketInv w) (live : Live w r) (cause : Cause)
    (begun : Nat) : Watched K (finished w r cause begun) := by
  have socket : r.kind ≠ .fd := fun kind => live (inv.unbound r kind)
  obtain ⟨errno, same⟩ := finished_eq w r cause begun
  simp only [if_neg socket] at same
  rw [same]
  constructor
  · intro fd'
    show fd' ∈ w.openFds.erase _ ↔ (Function.update w.poll _ _ fd').isSome
    rw [inv.balanced.nodup.mem_erase_iff]
    by_cases this : fd' = (w.objs r).fd
    · rw [this, Function.update_self]
      exact iff_of_false (fun gone => gone.1 rfl) nofun
    · rw [Function.update_of_ne this, h.registered fd']
      exact and_iff_right this
  · intro s k socket' alive some
    simp only [Live] at alive some ⊢
    have other : s ≠ r := by
      rintro rfl
      rw [Function.update_self] at alive
      exact alive rfl
    rw [Function.update_of_ne other] at alive some ⊢
    rw [Function.update_of_ne (fd_apart inv live socket alive socket' other)]
    exact h.interest s k socket' alive some

theorem Watched.install (h : Watched K w) (inv : SocketInv w) {obj : Coio} (shut : obj.fd ∉ w.openFds)
    (shape : Installed obj) : Watched K (installed (opened w obj.fd) r obj) := by
  have free : w.poll obj.fd = none := by
    cases found : w.poll obj.fd with
    | none => rfl
    | some reg => exact absurd ((h.registered _).mpr (by rw [found]; rfl)) shut
  have empty : waiting r.kind obj = [] := by
    obtain ⟨fd, ud, state, fnc, fne, same, -⟩ := shape
    exact waiting_empty (by rw [same]; rfl) (by rw [same]; rfl)
  have same : installed (opened w obj.fd) r obj = { (opened w obj.fd).setObj r obj with
      poll := Function.update w.poll obj.fd (some ⟨.obj r, false⟩) } := by
    unfold installed World.copollAdd
    rw [show ((opened w obj.fd).setObj r obj).poll obj.fd = none from free]
    rfl
  rw [same]
  constructor
  · intro fd'
    show fd' ∈ obj.fd :: w.openFds ↔ (Function.update w.poll _ _ fd').isSome
    by_cases this : fd' = obj.fd
    · rw [this, Function.update_self]
      exact iff_of_true List.mem_cons_self rfl
    · rw [Function.update_of_ne this, ← h.registered fd', List.mem_cons]
      exact or_iff_right this
  · intro s k socket alive some
    simp only [Live, World.setObj, opened] at alive some ⊢
    by_cases own : s = r
    · subst own
      rw [Function.update_self] at some
      exact absurd empty some
    · rw [Function.update_of_ne own] at alive some ⊢
      have other : (w.objs s).fd ≠ obj.fd := by
        intro same
        exact shut (same ▸ fd_open inv alive socket)
      rw [Function.update_of_ne other]
      exact h.interest s k socket alive some

theorem Watched.grow (h : Watched K w) (r : Ref) (n : Nat) : Watched K (growRecvbuf w r n) := by
  rcases growRecvbuf_eq w r n with same | ⟨live, -, _, _, same⟩
  · rwa [same]
  · rw [same]
    exact h.adjust rfl rfl rfl live rfl fun _ some => some

/-- Sending asks for writable events, and an empty queue gives them up. -/
theorem Watched.transmit (h : Watched K w) (inv : SocketInv w) (deliv : Delivers K w)
    (initial : Delivers K o.world) (transmits : Transmits o r w w')
    (admitted : Whole K o) : Watched K w' := by
  have live := transmits.live
  have socket : r.kind ≠ .fd := fun kind => live (inv.unbound r kind)
  cases transmits with
  | sent asked ran =>
      have queued := asked.queued ran
      obtain ⟨sendbuf, sendlist, objs⟩ := queued.objs
      rw [ownerOf, if_neg socket]
      exact h.request inv socket live objs queued.poll queued.openFds rfl true fun _ _ => rfl
  | waits flushes _ ran =>
      have queued := flushOf_queued ran
      obtain ⟨sendbuf, sendlist, objs⟩ := queued.objs
      refine h.adjust objs queued.poll queued.openFds live rfl fun k some none => some ?_
      obtain ⟨⟨left, moved⟩, -⟩ := Flushes.moved flushes ran k deliv initial admitted
      have cut := moved.queue
      rw [none, objs, Function.update_self] at cut
      exact (List.append_eq_nil_iff.mp cut.symm).2
  | drained flushes _ ran =>
      have queued := flushOf_queued ran
      obtain ⟨sendbuf, sendlist, objs⟩ := queued.objs
      rw [ownerOf, if_neg socket]
      refine h.request inv socket live objs queued.poll queued.openFds rfl false
        fun k some => absurd ?_ some
      have empty := (Flushes.moved flushes ran k deliv initial admitted).2.mp rfl
      rwa [objs, Function.update_self] at empty

theorem Watched.changed (h : Watched K w) (inv : SocketInv w) (deliv : Delivers K w)
    (initial : Delivers K o.world) (change : Change o w w')
    (admitted : Whole K o)
    (unbound : bindsDescriptor o.action = false) : Watched K w' := by
  cases change with
  | kernel same => exact h.same same.objs same.poll same.openFds
  | @churn _ fd shut =>
      have free : w.poll fd = none := by
        cases found : w.poll fd with
        | none => rfl
        | some reg => exact absurd ((h.registered _).mpr (by rw [found]; rfl)) shut
      exact h.same rfl (Function.update_eq_self_iff.mpr free.symm) (List.erase_cons_head fd w.openFds)
  | @reserve _ r next free =>
      have same : (w.setObj r blank).objs = w.objs := by rw [← inv.sound.dead r free, setObj_eta]
      exact h.same same rfl rfl
  | install next empty unused shape socket shut => exact h.install inv shut shape
  | bind next empty unused shape kind asked =>
      rw [asked] at unbound
      cases unbound
  | await next kind connecting =>
      refine h.request inv (by rw [kind]; decide) (by rw [Live, connecting]; decide)
        (Function.update_eq_self _ _).symm rfl rfl rfl true fun _ _ => rfl
  | @adjust _ r obj adjusts =>
      refine h.adjust rfl rfl rfl adjusts.adjusted.live adjusts.adjusted.fd ?_
      rw [waiting_congr obj (w.objs r) (by cases adjusts <;> rfl) (by cases adjusts <;> rfl)]
      exact fun _ => id
  | transmit transmits => exact h.transmit inv deliv initial transmits admitted
  | @receive _ r _ _ _ _ live =>
      refine h.adjust rfl rfl rfl live (ensured_fd _) ?_
      rw [waiting_congr (ensured (w.objs r)) (w.objs r) (by unfold ensured; split <;> rfl)
        (by unfold ensured; split <;> rfl)]
      exact fun _ => id
  | unseen => exact h.grow _ _
  | finish finishing => exact h.finish inv finishing.live _ _
  | bump | collect | pop | schedule | handle => exact h.same rfl rfl rfl

/-- The three invariants together, along the runs of sockets. -/
structure Attended (K : Kind → Prop) (w : World) : Prop extends Watched K w where
  delivers : Delivers K w
  sockets : SocketInv w

theorem attended_kept (K : Kind → Prop) :
    Kept (fun _ => Attended K) fun _ o => Whole K o ∧ bindsDescriptor o.action = false where
  sound h := h.delivers.sound
  load {tags _} answers h := ⟨h.toWatched.same rfl rfl rfl,
    @Kept.load _ _ (delivers_kept K) tags _ answers h.delivers,
    @Kept.load _ _ DescriptorOwnership.kept tags _ answers h.sockets⟩
  change underway before h change :=
    ⟨h.toWatched.changed h.sockets h.delivers underway.holds.delivers change underway.admitted.1
        underway.admitted.2,
      (delivers_kept K).change ⟨underway.admitted.1, underway.enabled, underway.holds.delivers⟩ before
        h.delivers change,
      DescriptorOwnership.kept.change
        ⟨underway.admitted.2, underway.enabled, underway.holds.sockets⟩ before h.sockets change⟩
  enter underway before h now due :=
    ⟨h.toWatched.same rfl rfl rfl,
      (delivers_kept K).enter ⟨underway.admitted.1, underway.enabled, underway.holds.delivers⟩ before
        h.delivers now due,
      DescriptorOwnership.kept.enter
        ⟨underway.admitted.2, underway.enabled, underway.holds.sockets⟩ before h.sockets now due⟩
  resume {c tags _ _} h resumed := by
    refine ⟨?_, @Kept.resume _ _ (delivers_kept K) c tags _ _ h.delivers resumed,
      @Kept.resume _ _ DescriptorOwnership.kept c tags _ _ h.sockets resumed⟩
    cases resumed with
    | connect => exact h.toWatched
    | recv => exact h.toWatched.grow _ _
    | error _ live => exact h.toWatched.finish h.sockets live _ _
    | close _ live => exact h.toWatched.finish h.sockets live _ _
    | gone => exact h.toWatched

theorem attended_initially (K : Kind → Prop) (zeroBlock : Bool) :
    Attended K (coiosNew zeroBlock) where
  registered _ := iff_of_false List.not_mem_nil nofun
  interest _ _ _ alive := absurd rfl alive
  delivers := delivers_initially K zeroBlock
  sockets := ⟨DescriptorOwnership.initially zeroBlock, fun _ _ => rfl⟩

end Interest

/-! ## Ends -/

/-- The object handed over all that it had accepted. -/
def AllHanded (log : List Event) (r : Ref) (life : Nat) : Prop :=
  handed log r life = accepted log r life

/-- Why an object may be torn down: an error, the end of the stream, a forced close, or
all was sent, at the latest when the user was told of the close. -/
inductive Excused (before : List Event) (r : Ref) (life : Nat) : Cause → Prop
  | error : Excused before r life .error
  | eof : Excused before r life .eof
  | forced : Excused before r life (.requested true)
  | drained (sent : AllHanded before r life) : Excused before r life .drained
  | requested (sent : AllHanded before r life) : Excused before r life (.requested false)
  | told {fn earlier}
      (notice : .called ⟨r, life, fn, .close (.requested false)⟩ :: earlier <:+ before)
      (sent : AllHanded earlier r life) : Excused before r life (.requested false)

/-- What is known of an object while the user is told of its close. -/
inductive Announced (log : List Event) (c : Callback) : Cause → Prop
  | eof : Announced log c .eof
  | forced : Announced log c (.requested true)
  | gentle {earlier} (notice : .called c :: earlier <:+ log)
      (sent : AllHanded earlier c.ref c.life) : Announced log c (.requested false)

theorem Announced.later {log log' : List Event} {c : Callback} {cause : Cause}
    (h : Announced log c cause) (suffix : log <:+ log') : Announced log' c cause := by
  cases h with
  | eof => exact .eof
  | forced => exact .forced
  | gentle notice sent => exact .gentle (notice.trans suffix) sent

/-- The invariant: every object that was torn down, by code that meant it, was excused, and
so is every object that a running callback was told of. -/
structure Excuses (K : Kind → Prop) (tags : List Callback) (w : World) : Prop where
  delivers : Delivers K w
  told : ∀ c ∈ tags, K c.ref.kind → ∀ cause, c.notice = .close cause → Announced w.log c cause
  ends : ∀ r, K r.kind → ∀ life cause registered before,
    .ended r life cause life registered :: before <:+ w.log → Excused before r life cause

section Ends
variable {K : Kind → Prop} {w w' : World} {r : Ref} {o : Origin} {tags : List Callback}

def isEnd : Event → Bool
  | .ended .. => true
  | _ => false

theorem Excuses.quiet (h : Excuses K tags w) (news : List Event) (delivers : Delivers K w')
    (log : w'.log = news ++ w.log) (none : ∀ e ∈ news, isEnd e = false) : Excuses K tags w' := by
  have older : ∀ {news : List Event} {e : Event} {before : List Event},
      (∀ e ∈ news, isEnd e = false) → isEnd e = true → e :: before <:+ news ++ w.log →
      e :: before <:+ w.log := by
    intro news
    induction news with
    | nil => exact fun _ _ suffix => suffix
    | cons n news ih =>
        intro e before none isEnd suffix
        rcases List.suffix_cons_iff.mp suffix with same | later
        · rw [(List.cons.inj same).1, none n List.mem_cons_self] at isEnd
          cases isEnd
        · exact ih (fun e mem => none e (List.mem_cons_of_mem _ mem)) isEnd later
  refine ⟨delivers, fun c hc k cause notice => ?_,
    fun r k life cause registered before suffix => ?_⟩
  · exact (h.told c hc k cause notice).later (log ▸ List.suffix_append _ _)
  · rw [log] at suffix
    exact h.ends r k life cause registered before (older none rfl suffix)

theorem Excuses.finish (h : Excuses K tags w) (r : Ref) (cause : Cause) (begun : Nat)
    (excused : K r.kind → begun = w.lives r → Excused w.log r (w.lives r) cause) :
    Excuses K tags (finished w r cause begun) := by
  have log := finished_log w r cause begun
  refine ⟨h.delivers.finish r cause begun, fun c hc k why notice => ?_, ?_⟩
  · exact (h.told c hc k why notice).later (log ▸ List.suffix_cons _ _)
  · intro s k life cause' registered before suffix
    rw [log] at suffix
    rcases List.suffix_cons_iff.mp suffix with same | earlier
    · cases same
      exact excused k rfl
    · exact h.ends s k life cause' registered before earlier

/-- An empty queue of a live object means that all was handed over. -/
theorem allHanded (h : Delivers K w) (k : K r.kind) (live : Live w r)
    (empty : waiting r.kind (w.objs r) = []) :
    AllHanded w.log r (w.lives r) := by
  rw [AllHanded, (h.accounted r k).present live, empty, List.append_nil]

theorem waiting_of_hasData (h : Delivers K w) (k : K r.kind)
    (none : hasDataOf r.kind (w.objs r) = false) :
    waiting r.kind (w.objs r) = [] := by
  have formed := (h.accounted r k).formed
  have streams : ∀ kind, kind ≠ .udp → hasDataOf kind = hasSenddata := by
    intro kind other
    cases kind with
    | udp => exact absurd rfl other
    | tcp | fd => rfl
  by_cases kind : r.kind = .udp
  · rw [kind] at none ⊢
    have nodes : (w.objs r).sendlist.nodes = [] := by
      simpa [hasDataOf, coudpHasSenddata] using none
    rw [waiting, nodes]
    rfl
  · rw [streams _ kind, hasSenddata] at none
    cases has : (w.objs r).sendbuf with
    | none => exact waiting_none kind has
    | some rb =>
        obtain ⟨q, held⟩ := (formed_stream kind).mp formed rb has
        simp only [has, held.readable, ne_eq, decide_not, Bool.not_eq_false', decide_eq_true_eq,
          List.length_eq_zero_iff] at none
        rw [waiting_stream kind has held, none]
        rfl

theorem Excuses.changed (h : Excuses K tags w) (initial : Delivers K o.world) (change : Change o w w')
    (delivers : Delivers K w') (admitted : Whole K o) : Excuses K tags w' := by
  have quiet : w'.log = w.log → Excuses K tags w' := fun log => h.quiet [] delivers log nofun
  cases change with
  | kernel same => exact quiet same.log
  | install | bind => exact quiet (installed_rest _ _ _).2.1
  | await =>
      obtain ⟨_, _, same⟩ := copollRequestWrite_eq w _ _ _
      exact quiet (by rw [same])
  | transmit transmits =>
      obtain ⟨w₁, queued, asks⟩ := transmits.queued
      obtain ⟨news, log, about⟩ := queued.log
      refine h.quiet news delivers ?_ fun e mem => ?_
      · rcases asks with rfl | ⟨enable, rfl⟩
        · exact log
        · obtain ⟨_, _, same⟩ := copollRequestWrite_eq w₁ _ _ enable
          rw [same]
          exact log
      · have on := (about e mem).1
        cases e <;> first | rfl | exact on.elim
  | receive =>
      refine h.quiet [_] delivers rfl fun e mem => ?_
      rw [List.mem_singleton.mp mem]
      rfl
  | unseen => exact quiet (growRecvbuf_log w _ _)
  | @finish _ s cause finishing =>
      refine h.finish s cause _ fun k _ => ?_
      have live := finishing.live
      cases finishing with
      | error => exact .error
      | eof => exact .eof
      | @requested force _ now _ =>
          cases force with
          | true => exact .forced
          | false =>
              have none := now.resolve_left nofun
              exact .requested (allHanded h.delivers k live (waiting_of_hasData h.delivers k none))
      | unbound => exact .forced
      | drained running ran =>
          have before := initial.running running
          have empty := (Flushes.moved (.event running) ran k before initial admitted).2.mp rfl
          exact .drained (allHanded h.delivers k live empty)
  | bump | churn | reserve | adjust | collect | pop | schedule | handle => exact quiet rfl

theorem excuses_kept (K : Kind → Prop) : Kept (Excuses K) fun _ => Whole K where
  sound h := h.delivers.sound
  load {tags _} answers h :=
    h.quiet [] (@Kept.load _ _ (delivers_kept K) tags _ answers h.delivers) rfl nofun
  change {tags o _ _} underway before h change := by
    have initial := underway.holds.delivers
    have delivers := @Kept.change _ _ (delivers_kept K) tags o _ _
      ⟨underway.admitted, underway.enabled, initial⟩ before h.delivers change
    exact h.changed initial change delivers underway.admitted
  enter {tags o w c} underway before h now due := by
    have delivers := @Kept.enter _ _ (delivers_kept K) tags o w c
      ⟨underway.admitted, underway.enabled, underway.holds.delivers⟩ before h.delivers now due
    have noted : Excuses K tags (w.note (.called c)) :=
      h.quiet [.called c] delivers rfl fun e mem => by
        rw [List.mem_singleton.mp mem]
        rfl
    refine ⟨delivers, fun d hd k cause notice => ?_, noted.ends⟩
    cases hd with
    | tail _ hmem => exact noted.told d hmem k cause notice
    | head =>
        rw [notice] at due
        cases due with
        | eof => exact .eof
        | @close force asked gentle _ =>
            cases force with
            | true => exact .forced
            | false =>
                have none := waiting_of_hasData h.delivers k (gentle.resolve_left nofun)
                refine .gentle List.suffix_rfl ?_
                rw [now]
                exact allHanded h.delivers k asked.live none
  resume {c tags w w'} h resumed := by
    have below : Excuses K tags w :=
      ⟨h.delivers, fun d hd => h.told d (List.mem_cons_of_mem c hd), h.ends⟩
    cases resumed with
    | connect => exact below
    | recv =>
        exact below.quiet [] (h.delivers.grow _ _) (growRecvbuf_log w _ _) nofun
    | error => exact below.finish _ _ _ fun _ _ => .error
    | @close cause notice =>
        refine below.finish _ _ _ fun k own => ?_
        have announced := h.told c List.mem_cons_self k cause notice
        obtain ⟨ref, life, fn, why⟩ := c
        cases announced with
        | eof => exact .eof
        | forced => exact .forced
        | gentle called sent =>
            cases notice
            rw [← own]
            exact .told called sent
    | gone => exact below

theorem excuses_initially (K : Kind → Prop) (zeroBlock : Bool) :
    Excuses K [] (coiosNew zeroBlock) := by
  refine ⟨delivers_initially K zeroBlock, nofun, fun r _ life cause registered before suffix => ?_⟩
  cases List.suffix_nil.mp suffix

end Ends

/-! ## Runs -/

/-- No object is made while a callback runs. -/
def opensOutside (tags : List Callback) : Step → Bool
  | .start (.call (.cotcpListen ..)) _ | .start (.call (.cotcpConnect ..)) _
  | .start (.call (.coudpNew ..)) _ | .start (.call (.cofdBind ..)) _ => tags.isEmpty
  | _ => true

/-- Then a slot that is taken is not one that a callback is about to close. -/
theorem opensOutside_spares {tags : List Callback} {o : Origin} {r : Ref}
    (outside : opensOutside tags (.start o.action []) = true)
    (enabled : o.action.enabled tags o.world = true) (taken : o.slot = some r) :
    closingSoon tags r = false := by
  have none : tags.isEmpty = true → closingSoon tags r = false := by
    intro empty
    rw [List.isEmpty_iff.mp empty]
    rfl
  unfold Origin.slot at taken
  split at taken
  · next asked => exact none (by rwa [asked] at outside)
  · next asked => exact none (by rwa [asked] at outside)
  · next asked => exact none (by rwa [asked] at outside)
  · next asked => exact none (by rwa [asked] at outside)
  · next asked =>
    rw [asked] at enabled
    exact none (Bool.and_eq_true_iff.mp enabled).1
  · cases taken

theorem wholeDatagrams_start (w : World) (a : Action) (answers : List Answer) :
    wholeDatagrams (loaded answers w) (.start a answers) = wholeDatagrams w (.start a answers) := by
  cases a with
  | call c => cases c <;> rfl
  | _ => rfl

/-- What becomes of the queue of `r` in a run that leads to `w`. The first part holds in
every run, the second where no descriptor is bound, the third where no object is made
while a callback runs. -/
structure QueueKept (zeroBlock : Bool) (moves : List Step) (w : World) (r : Ref) : Prop where
  accounted : Accounted w r
  attended : (∀ a answers, Move.start a answers ∈ moves → bindsDescriptor a = false) → Live w r →
    (w.objs r).fd ∈ w.openFds ∧
      (waiting r.kind (w.objs r) ≠ [] → w.poll (w.objs r).fd = some ⟨.obj r, true⟩)
  excused : Runs.Along (step coiosSystem) (fun s m => opensOutside s.tags m = true)
      (start zeroBlock) moves →
    ∀ life cause begun registered before,
      .ended r life cause begun registered :: before <:+ w.log → Excused before r life cause

theorem queue_kept (K : Kind → Prop) {zeroBlock : Bool} {moves : List Step} {s : Coloop}
    (whole : K .udp → Runs.Along (step coiosSystem) (fun s m => wholeDatagrams s.world m = true)
      (start zeroBlock) moves)
    (reached : Runs.run (step coiosSystem) (start zeroBlock) moves = .ok s) {r : Ref}
    (k : K r.kind) (socket : r.kind ≠ .fd) : QueueKept zeroBlock moves s.world r := by
  have admitted : Runs.Along (step coiosSystem)
      (fun s m => Admits (fun _ => Whole K) s.tags s.world m) (start zeroBlock) moves := by
    by_cases udp : K .udp
    · refine (whole udp).mono fun s m whole => ?_
      cases m with
      | back answers => trivial
      | start a answers => exact fun _ => (wholeDatagrams_start s.world a answers).trans whole
    · refine (Runs.along_true _ _ _).mono fun s m _ => ?_
      cases m with
      | back answers => trivial
      | start a answers => exact fun now => absurd now udp
  constructor
  · exact ((delivers_kept K).fromStart (delivers_initially K zeroBlock) admitted reached).1.accounted
      r k
  · intro sockets live
    have both : Runs.Along (step coiosSystem) (fun s m => Admits
        (fun _ o => Whole K o ∧ bindsDescriptor o.action = false) s.tags s.world m)
        (start zeroBlock) moves := by
      refine (admitted.and (admits_of_moves sockets _)).mono fun s m each => ?_
      cases m with
      | back answers => trivial
      | start a answers => exact each
    have held := ((attended_kept K).fromStart (attended_initially K zeroBlock) both reached).1
    exact ⟨fd_open held.sockets live socket, held.interest r k socket live⟩
  · intro outside life cause begun registered before suffix
    have spared : Runs.Along (step coiosSystem) (fun s m => Admits
        (fun tags o => opensOutside tags (.start o.action []) = true) s.tags s.world m)
        (start zeroBlock) moves := by
      refine outside.mono fun s m outside => ?_
      cases m with
      | back answers => trivial
      | start a answers =>
          cases a with
          | call c => cases c <;> exact outside
          | _ => rfl
    have upright := ((Upright.keptWhere opensOutside_spares).fromStart
      (Upright.initially zeroBlock) spared reached).1
    have excuses := ((excuses_kept K).fromStart (excuses_initially K zeroBlock) admitted reached).1
    have own := upright.closed r life cause begun registered (suffix.mem List.mem_cons_self)
    rw [own] at suffix
    exact excuses.ends r k life cause registered before suffix

/-- What the three parts say of a live object with a known queue. -/
theorem QueueKept.seen {zeroBlock : Bool} {moves : List Step} {w : World} {r : Ref}
    (kept : QueueKept zeroBlock moves w r) (live : Live w r) {gone queue : List Parcel}
    (front : handed w.log r (w.lives r) = gone) (rest : waiting r.kind (w.objs r) = queue)
    (more : queue ≠ [])
    (sockets : ∀ a answers, Move.start a answers ∈ moves → bindsDescriptor a = false) :
    accepted w.log r (w.lives r) = gone ++ queue ∧
      w.poll (w.objs r).fd = some ⟨.obj r, true⟩ := by
  constructor
  · rw [kept.accounted.present live, front, rest]
  · exact (kept.attended sockets live).2 (by rwa [rest])

/-- In every run in which the kernel sends each datagram whole or not at all, the datagrams
that a UDP object accepted are those it handed to the kernel, in order and each with its
address, followed by those in its list, whose `tail` is the last node; the list waits with
write interest, and a gentle close leaves nothing behind. -/
theorem udp_datagrams_kept (zeroBlock : Bool) (moves : List Step) (s : Coloop)
    (whole : Runs.Along (step coiosSystem) (fun s m => wholeDatagrams s.world m = true)
      (start zeroBlock) moves)
    (reached : Runs.run (step coiosSystem) (start zeroBlock) moves = .ok s) (i : Nat) :
    Linked (s.world.objs ⟨.udp, i⟩).sendlist ∧ QueueKept zeroBlock moves s.world ⟨.udp, i⟩ := by
  have kept := queue_kept (r := ⟨.udp, i⟩) (· = .udp) (fun _ => whole) reached rfl nofun
  exact ⟨kept.accounted.formed, kept⟩

/-- Two datagrams are queued, and the kernel takes one of them when the object is closed. -/
def closedWithOne : List Step :=
  [.start (.call (.coudpNew .null false)) [.addresses [[1]], .descriptor 5],
    .start (.call (.coudpSend ⟨.udp, 0⟩ [1, 2] [9])) [.failed eagain],
    .start (.call (.coudpSend ⟨.udp, 0⟩ [3] [8])) [.failed eagain],
    .start (.call (.coudpClose ⟨.udp, 0⟩ false)) [.failed eintr, .count 2, .failed eagain]]

theorem udp_datagrams_kept_closedWithOne :
    ∃ s, Runs.run (step coiosSystem) (start true) closedWithOne = .ok s ∧
      accepted s.world.log ⟨.udp, 0⟩ 1 = [(some [9], [some 1, some 2]), (some [8], [some 3])] ∧
      s.world.poll 5 = some ⟨.obj ⟨.udp, 0⟩, true⟩ := by
  have object : (Runs.run (step coiosSystem) (start true) closedWithOne).map (fun s =>
      [(s.world.objs ⟨.udp, 0⟩).state, (s.world.objs ⟨.udp, 0⟩).fd, s.world.lives ⟨.udp, 0⟩]) =
      .ok [Coudp.closing, 5, 1] := by decide +kernel
  have queues : (Runs.run (step coiosSystem) (start true) closedWithOne).map (fun s =>
      [waiting .udp (s.world.objs ⟨.udp, 0⟩), handed s.world.log ⟨.udp, 0⟩ 1]) =
      .ok [[(some [8], [some 3])], [(some [9], [some 1, some 2])]] := by decide +kernel
  obtain ⟨s, reached, found⟩ := Runs.reached_of_map object
  rw [reached] at queues
  have split := Except.ok.inj queues
  simp only [List.cons.injEq, and_true] at found split
  obtain ⟨state, fd, lives⟩ := found
  have whole : Runs.Along (step coiosSystem) (fun s m => wholeDatagrams s.world m = true)
      (start true) closedWithOne := by decide +kernel
  have sockets : ∀ a answers, Move.start a answers ∈ closedWithOne → bindsDescriptor a = false := by
    intro a answers hm
    simp only [closedWithOne, List.mem_cons, Move.start.injEq, List.not_mem_nil, or_false] at hm
    rcases hm with h | h | h | h <;> rw [h.1] <;> rfl
  have live : Live s.world ⟨.udp, 0⟩ := by rw [Live, state]; decide
  obtain ⟨-, kept⟩ := udp_datagrams_kept true closedWithOne s whole reached 0
  have front : handed s.world.log ⟨.udp, 0⟩ (s.world.lives ⟨.udp, 0⟩) =
      [(some [9], [some 1, some 2])] := by rw [lives]; exact split.2
  have seen := kept.seen live front split.1 (List.cons_ne_nil _ _) sockets
  rw [lives, fd] at seen
  exact ⟨s, reached, seen⟩

/-- A connection is there at once, and the kernel takes one byte of three. -/
def oneOfThree : List Step :=
  [.start (.call (.cotcpConnect .null none none)) [.addresses [[1]], .descriptor 3, .done],
    .start (.call (.cotcpSend ⟨.tcp, 0⟩ [1, 2, 3])) [.count 1]]

end Colinlib.Guarantees.SendQueues
