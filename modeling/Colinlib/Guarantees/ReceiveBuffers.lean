import Colinlib.Source.Delivery

/-!
# The size of receive buffers

The first read event of an object allocates `INIT_READ_BUF` bytes. A read that fills them is
meant to double the buffer up to `MAX_READ_BUF`, which is `(uint16_t)65536` and so 0: the
buffer shrinks to nothing instead.
-/
namespace Colinlib.Guarantees.ReceiveBuffers
open Colinlib.Theory Colinlib.Theory.CMemory Colinlib.Theory.Callbacks
open Colinlib.Source.IoWorld Colinlib.Source.IoService Colinlib.Source.EventLoop
open Colinlib.Source.IoChanges Colinlib.Source.IoTrace Colinlib.Source.Delivery

/-! ## Reads that fill the buffer -/

/-- How much the first answer to a call that was not interrupted holds. -/
def offered : List Answer → Option Nat
  | .failed e :: rest => if e = eintr then offered rest else none
  | .bytes data :: _ => some data.length
  | .datagram data _ :: _ => some data.length
  | _ => none

/-- The move resizes a buffer: `fn_recv` has returned and left an object open whose buffer
the read had filled, or there is no `fn_recv` to wait for. -/
def resizes (tags : List Callback) (w : World) : Step → Bool
  | .back _ =>
    match tags with
    | ⟨r, _, _, .recv data _⟩ :: _ =>
      (w.objs r).state ≠ Cotcp.invalid ∧ data.length = (w.objs r).recvsize
    | _ => false
  | .start .handle answers =>
    match w.tasks with
    | (.read, r) :: _ =>
      (w.objs r).state ≠ Cotcp.invalid ∧ deliversOf r.kind (w.objs r) ∧
        (w.objs r).fnRecv = none ∧ (offered answers).any ((ensured (w.objs r)).recvsize ≤ ·)
    | _ => false
  | _ => false

theorem read_le_offered {kind : Kind} {len errno errno' : Nat} {answers rest : List Answer}
    {bytes : List UInt8} {sender : Option Addr}
    (read : readLoop (receiveOf kind) len errno answers = .ok (.data bytes sender, errno', rest)) :
    ∃ n, offered answers = some n ∧ bytes.length ≤ n := by
  induction answers generalizing errno with
  | nil => cases read
  | cons a answers ih =>
      cases a with
      | failed e =>
          simp only [readLoop] at read
          split at read
          · next again =>
            simp only [offered, if_pos again]
            exact ih read
          · split at read <;> cases read
      | bytes data =>
          cases kind with
          | udp => cases read
          | tcp | fd =>
              simp only [readLoop, receiveOf, readBytes] at read
              split at read
              · next found =>
                split at found
                · cases found
                  cases read
                  exact ⟨_, rfl, Nat.le_refl _⟩
                · cases found
              · cases read
      | datagram data from' =>
          cases kind with
          | udp =>
              cases read
              exact ⟨_, rfl, List.length_take_le' _ _⟩
          | tcp | fd => cases read
      | _ => cases kind <;> cases read

/-! ## The invariant -/

/-- This use of the slot has had its first read event. -/
def ReadBefore (log : List Event) (r : Ref) (life : Nat) : Prop := ∃ len, .read r life len ∈ log

/-- The object has no buffer before the first read and the first buffer from then on. -/
def Buffered (log : List Event) (r : Ref) (life : Nat) (o : Coio) : Prop :=
  o.recvbuf = none ∧ o.recvsize = 0 ∧ ¬ ReadBefore log r life ∨
    o.recvbuf = some initReadBuf ∧ o.recvsize = initReadBuf ∧ ReadBefore log r life

structure Sized (w : World) : Prop where
  sound : Sound w
  objects : ∀ r, Live w r → Buffered w.log r (w.lives r) (w.objs r)
  reads : ∀ r life len, .read r life len ∈ w.log → len = initReadBuf

section Steps
variable {o : Origin} {r : Ref} {w w' : World}

def isRead : Event → Bool
  | .read .. => true
  | _ => false

theorem read_earlier {news log : List Event} (silent : ∀ e ∈ news, isRead e = false) (r : Ref)
    (life len : Nat) : .read r life len ∈ news ++ log ↔ .read r life len ∈ log := by
  rw [List.mem_append, or_iff_right]
  exact fun new => nomatch silent _ new

theorem Buffered.later {news log : List Event} {life : Nat} {o : Coio} (h : Buffered log r life o)
    (silent : ∀ e ∈ news, isRead e = false) : Buffered (news ++ log) r life o := by
  simp only [Buffered, ReadBefore, read_earlier silent]
  exact h

/-- One slot was changed and no read recorded: its buffer stays, or it starts without one. -/
theorem Sized.change (h : Sized w) (news : List Event) (sound : Sound w') {obj : Coio}
    (objs : w'.objs = Function.update w.objs r obj) (log : w'.log = news ++ w.log)
    (silent : ∀ e ∈ news, isRead e = false) (lives : ∀ s, s ≠ r → w'.lives s = w.lives s)
    (here : obj.state ≠ Cotcp.invalid → Buffered w.log r (w'.lives r) obj) : Sized w' := by
  refine ⟨sound, fun s live => ?_, fun s life len mem => ?_⟩
  · by_cases same : s = r
    · subst same
      rw [Live, objs, Function.update_self] at live
      rw [objs, Function.update_self, log]
      exact (here live).later silent
    · rw [Live, objs, Function.update_of_ne same] at live
      rw [objs, Function.update_of_ne same, lives s same, log]
      exact (h.objects s live).later silent
  · rw [log] at mem
    exact h.reads s life len ((read_earlier silent s life len).mp mem)

/-- The slot that is changed keeps its buffer. -/
theorem Sized.adjust (h : Sized w) (news : List Event) (sound : Sound w') {obj : Coio}
    (objs : w'.objs = Function.update w.objs r obj) (log : w'.log = news ++ w.log)
    (silent : ∀ e ∈ news, isRead e = false) (lives : w'.lives = w.lives) (live : Live w r)
    (recvbuf : obj.recvbuf = (w.objs r).recvbuf) (recvsize : obj.recvsize = (w.objs r).recvsize) :
    Sized w' := by
  refine h.change news sound objs log silent (fun s _ => by rw [lives]) fun _ => ?_
  rw [Buffered, recvbuf, recvsize, lives]
  exact h.objects r live

theorem Sized.same (h : Sized w) (news : List Event) (sound : Sound w') (objs : w'.objs = w.objs)
    (log : w'.log = news ++ w.log) (silent : ∀ e ∈ news, isRead e = false)
    (lives : w'.lives = w.lives) : Sized w' := by
  refine ⟨sound, fun s live => ?_, fun s life len mem => ?_⟩
  · rw [Live, objs] at live
    rw [objs, lives, log]
    exact (h.objects s live).later silent
  · rw [log] at mem
    exact h.reads s life len ((read_earlier silent s life len).mp mem)

theorem Sized.finish (h : Sized w) (r : Ref) (cause : Cause) (begun : Nat) :
    Sized (finished w r cause begun) :=
  h.change [_] (h.sound.finish r cause begun) (finished_objs w r cause begun)
    (finished_log w r cause begun)
    (fun e mem => by rw [List.mem_singleton.mp mem]; rfl)
    (fun s _ => by rw [finished_lives]) fun live => absurd rfl live

theorem Sized.install (h : Sized w) {obj : Coio} (unused : Unused w r) (shape : Installed obj) :
    Sized (installed w r obj) := by
  have sound := h.sound.install r shape
  obtain ⟨fd, ud, state, fnc, fne, same, -⟩ := shape
  obtain ⟨lives, log, -⟩ := installed_rest w r obj
  refine h.change [] sound (copollAdd_objs _ _ _) log nofun (fun s _ => by rw [lives]) fun _ => ?_
  left
  refine ⟨by rw [same]; rfl, by rw [same]; rfl, ?_⟩
  rintro ⟨len, mem⟩
  rw [lives] at mem
  exact unused _ mem rfl rfl

/-- The first read event allocates the buffer, and every read is for all of it. -/
theorem Sized.receive (h : Sized w) (live : Live w r) (errno : Nat) (rest : List Answer) :
    Sized (received w r errno rest) := by
  have sound := h.sound.receive live errno rest
  have first : (ensured (w.objs r)).recvbuf = some initReadBuf ∧
      (ensured (w.objs r)).recvsize = initReadBuf := by
    rcases h.objects r live with ⟨none, -⟩ | ⟨buffer, size⟩
    · rw [ensured, if_pos (by rw [none]; rfl)]
      exact ⟨rfl, rfl⟩
    · rw [ensured, if_neg (by rw [buffer]; nofun)]
      exact ⟨buffer, size.1⟩
  have log : (received w r errno rest).log =
      .read r (w.lives r) (ensured (w.objs r)).recvsize :: w.log := rfl
  refine ⟨sound, fun s alive => ?_, fun s life len mem => ?_⟩
  · by_cases same : s = r
    · subst same
      right
      rw [received_slot]
      exact ⟨first.1, first.2, _, List.mem_cons_self⟩
    · have kept : (received w r errno rest).objs s = w.objs s := setObj_other _ _ same
      rw [Live, kept] at alive
      rw [kept]
      have others : ReadBefore (received w r errno rest).log s (w.lives s) ↔
          ReadBefore w.log s (w.lives s) := by
        refine exists_congr fun len => ?_
        rw [log, List.mem_cons, or_iff_right]
        intro now
        cases now
        exact same rfl
      exact (h.objects s alive).imp (fun fresh => ⟨fresh.1, fresh.2.1, others.not.mpr fresh.2.2⟩)
        fun used => ⟨used.1, used.2.1, others.mpr used.2.2⟩
  · rw [log] at mem
    rcases List.mem_cons.mp mem with now | old
    · cases now
      exact first.2
    · exact h.reads s life len old

/-- Growing is all that `resizes` excludes. -/
theorem unseen_short {tags : List Callback} {bytes : List UInt8} {sender : Option Addr}
    (room : resizes tags o.world (.start o.action o.world.answers) = false)
    (got : Received o r (.data bytes sender) w) (shown : deliversOf r.kind (w.objs r))
    (unset : (w.objs r).fnRecv = none) : bytes.length ≠ (w.objs r).recvsize := by
  obtain ⟨⟨handling, next⟩, live, read⟩ := got
  obtain ⟨n, offers, most⟩ := read_le_offered read
  rw [received_slot] at shown unset ⊢
  rw [ensured_fnRecv] at unset
  have delivers : deliversOf r.kind (o.world.objs r) := by
    cases kind : r.kind with
    | tcp =>
        simp only [deliversOf, kind, ensured_state] at shown ⊢
        exact shown
    | udp | fd => rfl
  intro full
  simp only [handling, resizes, next, decide_eq_false_iff_not] at room
  refine room ⟨live, delivers, unset, ?_⟩
  rw [offers]
  exact decide_eq_true (full ▸ most)

theorem Sized.changed (h : Sized w) {tags : List Callback}
    (room : resizes tags o.world (.start o.action o.world.answers) = false)
    (change : Change o w w') : Sized w' := by
  have sound := change.sound h.sound
  cases change with
  | kernel same => exact h.same [] sound same.objs same.log nofun same.lives
  | reserve next free =>
      exact h.change [] sound rfl rfl nofun (fun s other => Function.update_of_ne other _ _)
        fun live => absurd rfl live
  | install next empty unused shape socket shut =>
      have taken : ∀ fd, Sized (opened w fd) := fun fd =>
        h.same [] (h.sound.sameObjs rfl rfl rfl) rfl rfl nofun rfl
      exact (taken _).install unused shape
  | bind next empty unused shape => exact h.install unused shape
  | await =>
      obtain ⟨_, _, same⟩ := copollRequestWrite_eq w _ _ _
      rw [same] at sound ⊢
      exact h.same [] sound rfl rfl nofun rfl
  | adjust adjusts =>
      have adjusted := adjusts.adjusted
      exact h.adjust [] sound rfl rfl nofun rfl adjusted.live adjusted.recvbuf adjusted.recvsize
  | transmit transmits =>
      obtain ⟨w₁, queued, asks⟩ := transmits.queued
      obtain ⟨sendbuf, sendlist, objs⟩ := queued.objs
      obtain ⟨news, log, about⟩ := queued.log
      have silent : ∀ e ∈ news, isRead e = false := by
        intro e mem
        have on := (about e mem).1
        cases e <;> first | rfl | exact on.elim
      have held : Sized w₁ := h.adjust news (queued.sound transmits.live h.sound) objs log silent
        queued.lives transmits.live rfl rfl
      rcases asks with rfl | ⟨enable, rfl⟩
      · exact held
      · obtain ⟨_, _, same⟩ := copollRequestWrite_eq w₁ _ _ enable
        rw [same] at sound ⊢
        exact held.same [] sound rfl rfl nofun rfl
  | receive running live read => exact h.receive live _ _
  | unseen got nonempty shown unset =>
      rw [growRecvbuf, if_neg fun full => unseen_short room got shown unset full.2]
      exact h
  | finish => exact h.finish _ _ _
  | bump | churn | collect | pop | schedule | handle => exact h.same [] sound rfl rfl nofun rfl

theorem Sized.moved (h : Sized w) {tags tags' : List Callback} {m : Step}
    (room : resizes tags w m = false)
    (moved : Moved coiosSystem (fun a w => Reaches ⟨a, w⟩) (fun a w => Enters ⟨a, w⟩) Resumed
      tags w m tags' w') : Sized w' := by
  have fed : ∀ answers, Sized (loaded answers w) := fun answers =>
    h.same [] (h.sound.sameObjs rfl rfl rfl) rfl rfl nofun rfl
  have reaches : ∀ {a answers w'}, m = .start a answers → Reaches ⟨a, loaded answers w⟩ w' →
      Sized w' := by
    intro a answers w' asked reached
    rw [asked] at room
    have room : resizes tags (loaded answers w) (.start a answers) = false := room
    induction reached with
    | refl => exact fed answers
    | tail _ last ih => exact ih.changed room last
  cases moved with
  | direct enabled end' => exact reaches rfl end'
  | calls enabled call =>
      obtain ⟨before, now, due⟩ := call
      have held := reaches rfl before
      exact held.same [_] (held.sound.note (Nat.le_of_eq now)) rfl rfl
        (fun e mem => by rw [List.mem_singleton.mp mem]; rfl) rfl
  | @returns c rest answers _ top end' =>
      have fed := fed answers
      cases end' with
      | connect | gone => exact fed
      | error | close => exact fed.finish _ _ _
      | @recv data sender notice =>
          obtain ⟨ref, life, fn, notice'⟩ := c
          subst notice
          subst top
          simp only [resizes, decide_eq_false_iff_not] at room
          have stays : growRecvbuf (loaded answers w) ref data.length = loaded answers w :=
            if_neg room
          show Sized (growRecvbuf (loaded answers w) ref data.length)
          rw [stays]
          exact fed

end Steps

/-! ## Runs -/

/-- What is recorded stays recorded. -/
theorem log_kept (log : List Event) : Kept (fun _ w => Sound w ∧ log <:+ w.log) fun _ _ => True where
  sound h := h.1
  load _ h := ⟨h.1.sameObjs rfl rfl rfl, h.2⟩
  change _ _ h change := by
    obtain ⟨news, more, -⟩ := change.log
    exact ⟨change.sound h.1, h.2.trans ⟨news, more.symm⟩⟩
  enter _ _ h now _ := ⟨h.1.note (Nat.le_of_eq now), h.2.trans (List.suffix_cons _ _)⟩
  resume h resumed := by
    refine ⟨resumed.sound h.1, ?_⟩
    cases resumed with
    | connect | gone => exact h.2
    | recv =>
        rw [growRecvbuf_log]
        exact h.2
    | error | close =>
        rw [finished_log]
        exact h.2.trans (List.suffix_cons _ _)

theorem sized_run {moves : List Step} {s t : Coloop}
    (held : Sized s.world ∧ Waiting Sound Resumed s)
    (room : Runs.Along (step coiosSystem) (fun s m => resizes s.tags s.world m = false) s moves)
    (reached : Runs.run (step coiosSystem) s moves = .ok t) :
    Sized t.world ∧ Waiting Sound Resumed t := by
  have preserved : ∀ (s : Coloop) m s', Sized s.world ∧ Waiting Sound Resumed s →
      resizes s.tags s.world m = false → step coiosSystem s m = .ok s' →
      Sized s'.world ∧ Waiting Sound Resumed s' := by
    intro s m s' held room done
    have moved := step_sound ⟨held.1.sound, held.2⟩ done
    exact ⟨held.1.moved room moved.1, moved.2.2⟩
  exact Runs.invariant_along preserved moves s t held room reached

/-- As long as no buffer is resized, a buffer that was read into is as large as it is said to
be and within the bounds, no read is for nothing, and no buffer of an open object shrinks. -/
theorem receive_buffers_sized (zeroBlock : Bool) (before after : List Step) (s t : Coloop)
    (room : Runs.Along (step coiosSystem) (fun s m => resizes s.tags s.world m = false)
      (start zeroBlock) (before ++ after))
    (first : Runs.run (step coiosSystem) (start zeroBlock) before = .ok s)
    (reached : Runs.run (step coiosSystem) s after = .ok t) (r : Ref) :
    (Live t.world r → ReadBefore t.world.log r (t.world.lives r) →
      initReadBuf ≤ (t.world.objs r).recvsize ∧ (t.world.objs r).recvsize ≤ 65535 ∧
        (t.world.objs r).recvbuf = some (t.world.objs r).recvsize) ∧
    (∀ life len, .read r life len ∈ t.world.log → 0 < len) ∧
    (Live s.world r → Live t.world r → t.world.lives r = s.world.lives r →
      (s.world.objs r).recvsize ≤ (t.world.objs r).recvsize) := by
  obtain ⟨early, late⟩ := Runs.Along.split room first
  have initially : Sized (coiosNew zeroBlock) :=
    ⟨Sound.initially zeroBlock, fun _ live => absurd rfl live, nofun⟩
  have held := sized_run ⟨initially, waiting_rest _⟩ early first
  have ended := sized_run held late reached
  have size : Live t.world r → ReadBefore t.world.log r (t.world.lives r) →
      (t.world.objs r).recvbuf = some initReadBuf ∧ (t.world.objs r).recvsize = initReadBuf := by
    intro live read
    have used := (ended.1.objects r live).resolve_left fun fresh => fresh.2.2 read
    exact ⟨used.1, used.2.1⟩
  refine ⟨fun live read => ?_, fun life len mem => ?_, fun live live' same => ?_⟩
  · obtain ⟨buffer, size⟩ := size live read
    rw [buffer, size]
    exact ⟨Nat.le_refl _, by decide, rfl⟩
  · rw [ended.1.reads r life len mem]
    decide
  · rcases held.1.objects r live with ⟨-, none, -⟩ | ⟨-, small, len, mem⟩
    · rw [none]
      exact Nat.zero_le _
    · have grown := ((log_kept s.world.log).run held.2 ⟨held.1.sound, List.suffix_refl _⟩
        ((Runs.along_true _ _ _).mono fun s m _ => by cases m <;> trivial) reached).1.2
      have read : ReadBefore t.world.log r (t.world.lives r) := ⟨len, same ▸ grown.subset mem⟩
      exact Nat.le_of_eq (small.trans (size live' read).2.symm)

/-- A connection is read from once. -/
def readOnce (data : List UInt8) : List Step :=
  [.start (.call (.cotcpConnect .null none none)) [.addresses [[1]], .descriptor 3, .done],
    .start (.wait [⟨3, true, false, false⟩]) [],
    .start .dispatch [],
    .start .handle [.failed eintr, .bytes data]]

theorem receive_buffers_sized_oneByte : ∃ s t,
    Runs.run (step coiosSystem) (start false) (readOnce [7]) = .ok s ∧
    Runs.run (step coiosSystem) s [.start (.wait [⟨3, true, false, false⟩]) []] = .ok t ∧
    512 ≤ (t.world.objs ⟨.tcp, 0⟩).recvsize := by
  have seen : (do
      let s ← Runs.run (step coiosSystem) (start false) (readOnce [7])
      let t ← Runs.run (step coiosSystem) s [.start (.wait [⟨3, true, false, false⟩]) []]
      .ok ((t.world.objs ⟨.tcp, 0⟩).state, t.world.lives ⟨.tcp, 0⟩, t.world.log) :
        Except Fault (Nat × Nat × List Event)) =
      .ok (Cotcp.connected, 1, [.read ⟨.tcp, 0⟩ 1 512]) := by decide +kernel
  obtain ⟨s, first, seen⟩ := bind_ok seen
  obtain ⟨t, reached, seen⟩ := bind_ok seen
  simp only [Except.ok.injEq, Prod.mk.injEq] at seen
  obtain ⟨state, lives, log⟩ := seen
  have sized := receive_buffers_sized false (readOnce [7]) _ s t (by decide +kernel) first reached
    ⟨.tcp, 0⟩
  have size := sized.1 (by rw [Live, state]; decide)
    ⟨512, by rw [lives, log]; exact List.mem_singleton_self _⟩
  exact ⟨s, t, first, reached, size.1⟩

/-- A read of 512 bytes leaves an open connection with a buffer of size 0. -/
theorem filled_buffer_is_emptied : ∃ s,
    Runs.run (step coiosSystem) (start false) (readOnce (List.replicate 512 7)) = .ok s ∧
    s.world.log = [.read ⟨.tcp, 0⟩ 1 512] ∧ s.world.lives ⟨.tcp, 0⟩ = 1 ∧
    (s.world.objs ⟨.tcp, 0⟩).state = Cotcp.connected ∧
    (s.world.objs ⟨.tcp, 0⟩).recvsize = 0 ∧ (s.world.objs ⟨.tcp, 0⟩).recvbuf = none := by
  have seen : (Runs.run (step coiosSystem) (start false) (readOnce (List.replicate 512 7))).map
      (fun s => (s.world.log, s.world.lives ⟨.tcp, 0⟩, (s.world.objs ⟨.tcp, 0⟩).state,
        (s.world.objs ⟨.tcp, 0⟩).recvsize, (s.world.objs ⟨.tcp, 0⟩).recvbuf)) =
      .ok ([.read ⟨.tcp, 0⟩ 1 512], 1, Cotcp.connected, 0, none) := by decide +kernel
  obtain ⟨s, reached, found⟩ := Runs.reached_of_map seen
  simp only [Prod.mk.injEq] at found
  exact ⟨s, reached, found⟩

end Colinlib.Guarantees.ReceiveBuffers
