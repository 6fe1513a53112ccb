import Colinlib.Source.IoTrace
import Mathlib.Data.List.Count
import Mathlib.Data.List.Nodup

/-!
# Every descriptor has one owner or was closed once

A descriptor that `socket` or `accept` returned belongs to one open object, and is
closed exactly when that object is torn down, or at once where no object takes it.
The ledger of the run tells obtaining and closing apart also within one call, so a
descriptor closed twice would show. Calls that report failure change neither slots
nor descriptors, and a free slot keeps nothing of the object it held.
-/
namespace Colinlib.Guarantees.DescriptorOwnership
open Colinlib.Theory Colinlib.Theory.CMemory Colinlib.Theory.Callbacks
open Colinlib.Source.IoWorld Colinlib.Source.IoService Colinlib.Source.EventLoop
open Colinlib.Source.IoChanges Colinlib.Source.IoTrace

/-! ## The ledger -/

/-- How often the descriptor was obtained, and how often it was closed. -/
def obtained (ledger : List Transfer) (fd : Nat) : Nat := ledger.count (.obtained fd)
def closed (ledger : List Transfer) (fd : Nat) : Nat := ledger.count (.closed fd)

/-- At every moment so far, a descriptor was closed at most as often as it was
obtained, and it was not obtained again before it was closed. -/
def InTurn (ledger : List Transfer) : Prop :=
  ∀ past, past <:+ ledger → ∀ fd,
    closed past fd ≤ obtained past fd ∧ obtained past fd ≤ closed past fd + 1

/-- The descriptors that were obtained and not closed since are those of the list. -/
structure Balanced (ledger : List Transfer) (fds : List Nat) : Prop where
  nodup : fds.Nodup
  count : ∀ fd, obtained ledger fd = closed ledger fd + fds.count fd
  turns : InTurn ledger

section Ledger
variable {ledger : List Transfer} {fds : List Nat} {fd : Nat}

theorem obtained_cons (fd' : Nat) : obtained (.obtained fd :: ledger) fd' =
    obtained ledger fd' + if fd = fd' then 1 else 0 := by
  simp [obtained, List.count_cons]

theorem closed_cons (fd' : Nat) : closed (.closed fd :: ledger) fd' =
    closed ledger fd' + if fd = fd' then 1 else 0 := by
  simp [closed, List.count_cons]

theorem obtained_closed (fd' : Nat) : obtained (.closed fd :: ledger) fd' = obtained ledger fd' := by
  simp [obtained]

theorem closed_obtained (fd' : Nat) : closed (.obtained fd :: ledger) fd' = closed ledger fd' := by
  simp [closed]

/-- A ledger that balances in the end and was in turn before is in turn. -/
theorem InTurn.cons {t : Transfer} (before : InTurn ledger)
    (count : ∀ fd, obtained (t :: ledger) fd = closed (t :: ledger) fd + fds.count fd)
    (nodup : fds.Nodup) : InTurn (t :: ledger) := by
  intro past suffix fd
  rcases List.suffix_cons_iff.mp suffix with rfl | earlier
  · have total := count fd
    have once := List.nodup_iff_count_le_one.mp nodup fd
    omega
  · exact before past earlier fd

theorem Balanced.obtain (h : Balanced ledger fds) (new : fd ∉ fds) :
    Balanced (.obtained fd :: ledger) (fd :: fds) := by
  have nodup : (fd :: fds).Nodup := List.nodup_cons.mpr ⟨new, h.nodup⟩
  have count : ∀ fd', obtained (.obtained fd :: ledger) fd' =
      closed (.obtained fd :: ledger) fd' + (fd :: fds).count fd' := by
    intro fd'
    have before := h.count fd'
    rw [obtained_cons, closed_obtained, List.count_cons]
    simp only [beq_iff_eq]
    omega
  exact ⟨nodup, count, h.turns.cons count nodup⟩

theorem Balanced.close (h : Balanced ledger fds) (present : fd ∈ fds) :
    Balanced (.closed fd :: ledger) (fds.erase fd) := by
  have nodup : (fds.erase fd).Nodup := h.nodup.erase fd
  have count : ∀ fd', obtained (.closed fd :: ledger) fd' =
      closed (.closed fd :: ledger) fd' + (fds.erase fd).count fd' := by
    intro fd'
    have before := h.count fd'
    have once := List.count_pos_iff.mpr present
    rw [obtained_closed, closed_cons, List.count_erase]
    by_cases same : fd = fd'
    · subst same
      simp only [beq_self_eq_true, if_true]
      omega
    · simp only [beq_iff_eq, same, if_false]
      omega
  exact ⟨nodup, count, h.turns.cons count nodup⟩

end Ledger

/-! ## Owners -/

/-- The descriptor of an object in use. -/
def descriptorOf (o : Coio) : Option Nat := if o.state = Cotcp.invalid then none else some o.fd

/-- The slot `r` is in use, with the descriptor `fd`. -/
def Owns (w : World) (r : Ref) (fd : Nat) : Prop := descriptorOf (w.objs r) = some fd

theorem descriptorOf_live {o : Coio} (live : o.state ≠ Cotcp.invalid) :
    descriptorOf o = some o.fd := if_neg live

theorem Adjusted.descriptor {o o' : Coio} (h : Adjusted o o') :
    descriptorOf o' = descriptorOf o := by
  rw [descriptorOf_live h.live, descriptorOf_live h.live', h.fd]

/-- The invariant: what is open is what the sockets own, each its own descriptor. -/
structure Inv (w : World) : Prop where
  sound : Sound w
  balanced : Balanced w.ledger w.openFds
  owner : ∀ fd, fd ∈ w.openFds ↔ ∃ r, r.kind ≠ .fd ∧ Owns w r fd
  unique : ∀ r r' fd, r.kind ≠ .fd → r'.kind ≠ .fd → Owns w r fd → Owns w r' fd → r = r'

section Invariant
variable {w w' : World} {r : Ref}

/-- Nothing the invariant speaks of has changed for a socket. -/
theorem Inv.same (h : Inv w) (sound : Sound w')
    (descriptors : ∀ r, r.kind ≠ .fd → descriptorOf (w'.objs r) = descriptorOf (w.objs r))
    (openFds : w'.openFds = w.openFds) (balanced : Balanced w'.ledger w.openFds) : Inv w' := by
  constructor
  · exact sound
  · rw [openFds]
    exact balanced
  · intro fd
    rw [openFds, h.owner fd]
    apply exists_congr
    intro r
    apply and_congr_right
    intro socket
    rw [Owns, Owns, descriptors r socket]
  · intro r r' fd sr sr' own own'
    rw [Owns, descriptors r sr] at own
    rw [Owns, descriptors r' sr'] at own'
    exact h.unique r r' fd sr sr' own own'

/-- Slots and descriptors are as before. -/
theorem Inv.quiet (h : Inv w) (sound : Sound w') (objs : w'.objs = w.objs)
    (openFds : w'.openFds = w.openFds) (ledger : w'.ledger = w.ledger) : Inv w' :=
  h.same sound (fun _ _ => by rw [objs]) openFds (by rw [ledger]; exact h.balanced)

/-- One slot was changed and kept its descriptor, or is no socket. -/
theorem Inv.change (h : Inv w) (sound : Sound w') {o : Coio}
    (objs : w'.objs = Function.update w.objs r o)
    (kept : r.kind ≠ .fd → descriptorOf o = descriptorOf (w.objs r))
    (openFds : w'.openFds = w.openFds) (ledger : w'.ledger = w.ledger) : Inv w' := by
  refine h.same sound ?_ openFds (by rw [ledger]; exact h.balanced)
  intro s socket
  rw [objs]
  by_cases same : s = r
  · subst same
    rw [Function.update_self]
    exact kept socket
  · rw [Function.update_of_ne same]

theorem Inv.churn (h : Inv w) {fd : Nat} (shut : fd ∉ w.openFds) : Inv (churned w fd) := by
  have through := (h.balanced.obtain shut).close List.mem_cons_self
  rw [List.erase_cons_head] at through
  refine h.same ?_ (fun _ _ => rfl) (List.erase_cons_head fd w.openFds) through
  exact h.sound.sameObjs rfl rfl rfl

theorem Inv.reserve (h : Inv w) (free : (w.objs r).state = Cotcp.invalid) :
    Inv (reserved w r) := by
  apply h.change (h.sound.reserve r) (o := blank) rfl _ rfl rfl
  intro _
  rw [h.sound.dead r free]

theorem Inv.install (h : Inv w) {o : Coio} (empty : w.objs r = blank) (shape : Installed o)
    (socket : r.kind ≠ .fd) (shut : o.fd ∉ w.openFds) : Inv (installed (opened w o.fd) r o) := by
  have sound : Sound (opened w o.fd) := h.sound.sameObjs rfl rfl rfl
  have none : descriptorOf (w.objs r) = none := by
    rw [empty]
    rfl
  have some : descriptorOf o = some o.fd := by
    obtain ⟨fd, ud, state, fnc, fne, rfl, live⟩ := shape
    exact descriptorOf_live live
  obtain ⟨poll, errno, same⟩ := copollAdd_eq ((opened w o.fd).setObj r o) o.fd (.obj r)
  have put : installed (opened w o.fd) r o =
      { (opened w o.fd).setObj r o with poll := poll, errno := errno } := same
  have self : ∀ fd, Owns (installed (opened w o.fd) r o) r fd ↔ fd = o.fd := by
    intro fd
    rw [Owns, put]
    simp only [setObj_self, some, Option.some.injEq, eq_comm]
  have other : ∀ s fd, s ≠ r → (Owns (installed (opened w o.fd) r o) s fd ↔ Owns w s fd) := by
    intro s fd ne
    rw [Owns, put]
    simp only [setObj_other _ o ne]
    rfl
  constructor
  · exact sound.install r shape
  · rw [put]
    exact h.balanced.obtain shut
  · intro fd
    rw [show (installed (opened w o.fd) r o).openFds = o.fd :: w.openFds by rw [put]; rfl,
      List.mem_cons, h.owner fd]
    constructor
    · rintro (rfl | ⟨s, ssocket, own⟩)
      · exact ⟨r, socket, (self _).mpr rfl⟩
      · have ne : s ≠ r := by
          rintro rfl
          rw [Owns, none] at own
          cases own
        exact ⟨s, ssocket, (other s fd ne).mpr own⟩
    · rintro ⟨s, ssocket, own⟩
      by_cases same : s = r
      · subst same
        exact Or.inl ((self fd).mp own)
      · exact Or.inr ⟨s, ssocket, (other s fd same).mp own⟩
  · have apart : ∀ s fd, s ≠ r → s.kind ≠ .fd → Owns (installed (opened w o.fd) r o) s fd →
        ¬ Owns (installed (opened w o.fd) r o) r fd := by
      intro s fd ne ssocket own mine
      rw [(self fd).mp mine] at own
      exact shut ((h.owner _).mpr ⟨s, ssocket, (other s _ ne).mp own⟩)
    intro s s' fd ss ss' own own'
    by_cases same : s = r
    · by_cases same' : s' = r
      · rw [same, same']
      · rw [same] at own
        exact absurd own (apart s' fd same' ss' own')
    · by_cases same' : s' = r
      · rw [same'] at own'
        exact absurd own' (apart s fd same ss own)
      · exact h.unique s s' fd ss ss' ((other s fd same).mp own) ((other s' fd same').mp own')

theorem Inv.finish (h : Inv w) (live : (w.objs r).state ≠ Cotcp.invalid) (cause : Cause)
    (begun : Nat) : Inv (finished w r cause begun) := by
  have sound := h.sound.finish r cause begun
  obtain ⟨errno, same⟩ := finished_eq w r cause begun
  by_cases kind : r.kind = .fd
  · simp only [if_pos kind] at same
    rw [same] at sound ⊢
    exact h.change sound (o := blank) rfl (fun socket => absurd kind socket) rfl rfl
  · simp only [if_neg kind] at same
    rw [same] at sound ⊢
    have mine : Owns w r (w.objs r).fd := descriptorOf_live live
    have present := (h.owner _).mpr ⟨r, kind, mine⟩
    have other : ∀ s fd, descriptorOf (Function.update w.objs r blank s) = some fd ↔
        s ≠ r ∧ Owns w s fd := by
      intro s fd
      by_cases equal : s = r
      · subst equal
        rw [Function.update_self]
        simp [descriptorOf, blank]
      · rw [Function.update_of_ne equal]
        exact ⟨fun own => ⟨equal, own⟩, And.right⟩
    constructor
    · exact sound
    · exact h.balanced.close present
    · intro fd
      simp only [Owns, other]
      rw [h.balanced.nodup.mem_erase_iff, h.owner fd]
      constructor
      · rintro ⟨ne, s, socket, own⟩
        refine ⟨s, socket, ?_, own⟩
        rintro rfl
        exact ne (Option.some.inj (own.symm.trans mine))
      · rintro ⟨s, socket, ne, own⟩
        refine ⟨?_, s, socket, own⟩
        rintro rfl
        exact ne (h.unique s r _ socket kind own mine)
    · intro s s' fd ss ss' own own'
      exact h.unique s s' fd ss ss' ((other s fd).mp own).2 ((other s' fd).mp own').2

theorem Inv.grow (h : Inv w) (r : Ref) (n : Nat) : Inv (growRecvbuf w r n) := by
  have sound := h.sound.grow r n
  rcases growRecvbuf_eq w r n with same | ⟨live, -, size, recvbuf, same⟩
  · rwa [same]
  · rw [same] at sound ⊢
    exact h.change sound (o := withRecvbuf (w.objs r) size recvbuf) rfl (fun _ => rfl) rfl rfl

theorem Inv.transmit {o : Origin} (h : Inv w) (transmits : Transmits o r w w') : Inv w' := by
  obtain ⟨w₁, queued, asks⟩ := transmits.queued
  obtain ⟨sendbuf, sendlist, objs⟩ := queued.objs
  have held : Inv w₁ := h.change (queued.sound transmits.live h.sound)
    (o := withQueue (w.objs r) sendbuf sendlist) objs (fun _ => rfl) queued.openFds queued.ledger
  rcases asks with rfl | ⟨enable, rfl⟩
  · exact held
  · obtain ⟨poll, errno, same⟩ := copollRequestWrite_eq w₁ (w.objs r).fd
      (ownerOf r (w.objs r)) enable
    rw [same]
    exact held.quiet (held.sound.sameObjs rfl rfl rfl) rfl rfl rfl

theorem Inv.changed {o : Origin} (h : Inv w) (change : Change o w w') : Inv w' := by
  have sound := change.sound h.sound
  cases change with
  | kernel same => exact h.quiet sound same.objs same.openFds same.ledger
  | bump kind => exact h.quiet sound rfl rfl rfl
  | churn shut => exact h.churn shut
  | reserve next free => exact h.reserve free
  | install next empty unused shape socket shut => exact h.install empty shape socket shut
  | @bind _ r obj ud next empty unused shape kind asked =>
      obtain ⟨poll, errno, same⟩ := copollAdd_eq (w.setObj r obj) obj.fd (.obj r)
      unfold installed at sound ⊢
      rw [same] at sound ⊢
      exact h.change sound (o := obj) rfl (fun socket => absurd kind socket) rfl rfl
  | @await _ r next kind connecting =>
      obtain ⟨poll, errno, same⟩ := copollRequestWrite_eq w (w.objs r).fd (.obj r) true
      rw [same] at sound ⊢
      exact h.quiet sound rfl rfl rfl
  | adjust adjusts =>
      exact h.change sound rfl (fun _ => Adjusted.descriptor adjusts.adjusted) rfl rfl
  | transmit transmits => exact h.transmit transmits
  | @receive _ r result errno rest running live read =>
      apply h.change sound (o := ensured (w.objs r)) rfl _ rfl rfl
      intro _
      rw [descriptorOf_live live, descriptorOf_live (by rw [ensured_state]; exact live), ensured_fd]
  | unseen got nonempty shown unset => exact h.grow _ _
  | finish finishing => exact h.finish finishing.live _ _
  | collect => exact h.quiet sound rfl rfl rfl
  | pop => exact h.quiet sound rfl rfl rfl
  | schedule => exact h.quiet sound rfl rfl rfl
  | handle => exact h.quiet sound rfl rfl rfl

theorem Inv.resumed {c : Callback} (h : Inv w) (resumed : Resumed c w w') : Inv w' := by
  cases resumed with
  | connect => exact h
  | recv => exact h.grow _ _
  | error _ live => exact h.finish live _ _
  | close _ live => exact h.finish live _ _
  | gone => exact h

theorem initially (zeroBlock : Bool) : Inv (coiosNew zeroBlock) := by
  constructor
  · exact Sound.initially zeroBlock
  · refine ⟨List.nodup_nil, fun _ => rfl, ?_⟩
    intro past suffix fd
    rw [List.suffix_nil.mp suffix]
    exact ⟨Nat.le_refl 0, Nat.zero_le 1⟩
  · intro fd
    constructor
    · intro none
      cases none
    · rintro ⟨r, -, own⟩
      cases own
  · intro r r' fd _ _ own
    cases own

end Invariant

/-! ## Runs of sockets -/

/-- Descriptors that the user binds were not obtained by the library. -/
def bindsDescriptor : Action → Bool
  | .call (.cofdBind ..) => true
  | _ => false

/-- In runs of sockets the table of bound descriptors stays empty. -/
structure SocketInv (w : World) : Prop extends Inv w where
  unbound : ∀ r, r.kind = .fd → (w.objs r).state = Cotcp.invalid

theorem slot_socket {o : Origin} {r : Ref} (next : o.slot = some r)
    (socket : bindsDescriptor o.action = false) : r.kind ≠ .fd := by
  have scanned : ∀ kind, kind ≠ .fd → nextSlot o.world kind = some r → r.kind ≠ .fd := by
    intro kind other found
    rw [allocScan_kind kind _ _ _ found]
    exact other
  unfold Origin.slot at next
  split at next
  · exact scanned .tcp (by decide) next
  · exact scanned .tcp (by decide) next
  · exact scanned .udp (by decide) next
  · next asked =>
    rw [asked] at socket
    cases socket
  · split at next
    · split at next
      · exact scanned .tcp (by decide) next
      · cases next
    · cases next
  · cases next

theorem kept : Kept (fun _ => SocketInv) fun _ o => bindsDescriptor o.action = false where
  sound h := h.sound
  load _ h := ⟨h.toInv.quiet (h.sound.sameObjs rfl rfl rfl) rfl rfl rfl, h.unbound⟩
  change underway _ h change := by
    refine ⟨h.toInv.changed change, fun s kind => ?_⟩
    rcases change.objs with same | ⟨r, obj, same, about⟩
    · rw [same]
      exact h.unbound s kind
    · rw [same]
      by_cases here : s = r
      · subst here
        rw [Function.update_self]
        rcases about with live | rfl | next
        · exact absurd (h.unbound s kind) live
        · rfl
        · exact absurd kind (slot_socket next underway.admitted)
      · rw [Function.update_of_ne here]
        exact h.unbound s kind
  enter _ _ h now _ :=
    ⟨h.toInv.quiet (h.sound.note (Nat.le_of_eq now)) rfl rfl rfl, h.unbound⟩
  resume h resumed := by
    exact ⟨h.toInv.resumed resumed, fun s kind => resumed.free (h.unbound s kind)⟩

/-! ## Calls that fail -/

/-- A call that reports failure has called no one back, and slots and open descriptors
are as they were. -/
def FailsClean (c : Call) (w : World) : Prop :=
  Once (fun _ _ => True) Sound (Refused w) (fun _ _ accepted _ => accepted = true) (c.report w)

theorem call_failsClean {c : Call} {w : World} (sound : Sound w) (typed : c.wellTyped = true) :
    FailsClean c w := by
  have entered : ∀ {x : Res World Callback Fault Bool},
      Follows ⟨.call c, w⟩ (Refused w) (fun accepted _ => accepted = true) x →
      Once (fun _ _ => True) Sound (Refused w) (fun _ _ accepted _ => accepted = true) x := by
    intro x follows
    cases x with
    | ret accepted w' => exact follows.2
    | stop f => trivial
    | call d w' resume =>
        exact ⟨trivial, fun w'' back => (follows.2 w'' back).mono fun _ _ held => held.2⟩
  exact entered (call_follows sound c typed rfl)

/-- In every run of sockets, in every state reached, a descriptor that `socket` or
`accept` returned has been closed as often as it was returned and belongs to no slot,
or once less and then belongs to exactly one slot in use; it was never closed twice in
between. What is open is what the slots own, free slots are zeroed, and a call that
reports failure leaves slots and open descriptors as they were. -/
theorem descriptors_accounted (zeroBlock : Bool) (moves : List Step) (s : Coloop)
    (sockets : ∀ a answers, Move.start a answers ∈ moves → bindsDescriptor a = false)
    (reached : Runs.run (step coiosSystem) (start zeroBlock) moves = .ok s) :
    InTurn s.world.ledger ∧
      (∀ fd, Transfer.obtained fd ∈ s.world.ledger →
        closed s.world.ledger fd = obtained s.world.ledger fd ∧ (∀ r, ¬ Owns s.world r fd) ∨
        closed s.world.ledger fd + 1 = obtained s.world.ledger fd ∧ ∃! r, Owns s.world r fd) ∧
      (∀ fd, fd ∈ s.world.openFds ↔ ∃ r, Owns s.world r fd) ∧
      (∀ r, (s.world.objs r).state = Cotcp.invalid → s.world.objs r = blank) ∧
      (∀ c answers, (Action.call c).enabled s.tags s.world = true →
        FailsClean c (loaded answers s.world)) := by
  have inv := (kept.fromStart ⟨initially zeroBlock, fun _ _ => rfl⟩
    (admits_of_moves sockets _) reached).1
  have owned : ∀ r fd, Owns s.world r fd → r.kind ≠ .fd := by
    intro r fd own kind
    rw [Owns, descriptorOf, if_pos (inv.unbound r kind)] at own
    cases own
  refine ⟨inv.balanced.turns, ?_, ?_, inv.sound.dead, ?_⟩
  · intro fd _
    have count := inv.balanced.count fd
    by_cases present : fd ∈ s.world.openFds
    · right
      obtain ⟨r, kind, own⟩ := (inv.owner fd).mp present
      rw [List.count_eq_one_of_mem inv.balanced.nodup present] at count
      exact ⟨count.symm, r, own, fun r' own' => inv.unique r' r fd (owned r' fd own') kind own' own⟩
    · left
      rw [List.count_eq_zero_of_not_mem present] at count
      refine ⟨count.symm, fun r own => present ?_⟩
      exact (inv.owner fd).mpr ⟨r, owned r fd own, own⟩
  · intro fd
    rw [inv.owner fd]
    exact exists_congr fun r => ⟨And.right, fun own => ⟨owned r fd own, own⟩⟩
  · intro c answers enabled
    exact call_failsClean (inv.sound.sameObjs rfl rfl rfl) (Bool.and_eq_true_iff.mp enabled).1

/-- A listener accepts one connection, a connection attempt is refused by the only
address, a datagram socket is bound, and the accepted connection is closed. -/
def openAndClose : List Step :=
  [.start (.call (.cotcpListen .null none)) [.addresses [[1]], .descriptor 3, .done, .done, .done],
    .start (.wait [⟨3, true, false, false⟩]) [],
    .start .dispatch [.descriptor 4],
    .start (.call (.cotcpConnect .null none none)) [.addresses [[1]], .descriptor 5, .failed 111],
    .start (.call (.coudpNew .null true)) [.addresses [[1]], .descriptor 5, .done, .done],
    .start (.call (.cotcpClose ⟨.tcp, 1⟩ true)) []]

theorem descriptors_accounted_openAndClose :
    ∃ s, Runs.run (step coiosSystem) (start true) openAndClose = .ok s ∧
      s.world.ledger = [.closed 4, .obtained 5, .closed 5, .obtained 5, .obtained 4, .obtained 3] ∧
      InTurn s.world.ledger ∧ (∀ r, ¬ Owns s.world r 4) ∧ (∃! r, Owns s.world r 5) := by
  have seen : (Runs.run (step coiosSystem) (start true) openAndClose).map
      (fun s => s.world.ledger) =
        .ok [.closed 4, .obtained 5, .closed 5, .obtained 5, .obtained 4, .obtained 3] := by
    decide +kernel
  obtain ⟨s, reached, ledger⟩ := Runs.reached_of_map seen
  have sockets : ∀ a answers, Move.start a answers ∈ openAndClose → bindsDescriptor a = false := by
    intro a answers hm
    simp only [openAndClose, List.mem_cons, Move.start.injEq, List.not_mem_nil, or_false] at hm
    rcases hm with h | h | h | h | h | h <;> rw [h.1] <;> rfl
  obtain ⟨turns, owners, -⟩ := descriptors_accounted true openAndClose s sockets reached
  rw [ledger] at turns owners
  refine ⟨s, reached, ledger, by rw [ledger]; exact turns, ?_, ?_⟩
  · have gone := (owners 4 (by decide)).resolve_right fun h => absurd h.1 (by decide)
    exact gone.2
  · have held := (owners 5 (by decide)).resolve_left fun h => absurd h.1 (by decide)
    exact held.2

end Colinlib.Guarantees.DescriptorOwnership
