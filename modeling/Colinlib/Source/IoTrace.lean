import Colinlib.Source.IoChanges

/-!
# Every function of the I/O service is made of these changes

One lemma for each function of `co_ioservice.c`, from the system calls up to the
calls of the API: what it changes before it returns or calls the user back, and what
it does when the user function returns. From these, the rule by which a property of
all runs is proved.
-/
namespace Colinlib.Source.IoTrace
open Colinlib.Theory Colinlib.Theory.CMemory Colinlib.Theory.Callbacks
open Colinlib.Source.RingBuffer Colinlib.Source.IoWorld Colinlib.Source.IoService
open Colinlib.Source.EventLoop Colinlib.Source.IoChanges

variable {o : Origin} {w : World} {r : Ref}

/-- `m` is made of changes. It ends in `Q` if it calls no one back, and in `R` if it
does. -/
abbrev Follows {α : Type} (o : Origin) (Q R : α → World → Prop)
    (m : Res World Callback Fault α) : Prop :=
  Once (Enters o) Sound (fun a w => Reaches o w ∧ Q a w)
    (fun c w' a w => Resumed c w' w ∧ R a w) m

@[simp] theorem look_apply (r : Ref) (w : World) : look r w = .ret (w.objs r) w := rfl

@[simp] theorem put_apply (r : Ref) (obj : Coio) (w : World) :
    put r obj w = .ret () (w.setObj r obj) := rfl

@[simp] theorem lifeOf_apply (r : Ref) (w : World) : lifeOf r w = .ret (w.lives r) w := rfl

@[simp] theorem record_apply (e : Event) (w : World) : record e w = .ret () (w.note e) := rfl

@[simp] theorem closeFd_apply (fd : Nat) (w : World) : closeFd fd w = .ret () (w.close fd) := rfl

@[simp] theorem recordEnd_apply (r : Ref) (cause : Cause) (begun : Nat) (w : World) :
    recordEnd r cause begun w =
      .ret () (w.note (.ended r (w.lives r) cause begun (w.objs r).fnClose.isSome)) := rfl

/-! ## System calls -/

/-- A property that does not look at the kernel's side. -/
def Stable (P : World → Prop) : Prop := ∀ w w', P w → SameCore w w' → P w'

/-- Nor at descriptors that come and go. -/
structure Quiet (P : World → Prop) : Prop where
  same : Stable P
  churn : ∀ w fd, P w → fd ∉ w.openFds → P (churned w fd)

/-- A state in which `P` holds, but for the new descriptor `fd`. -/
inductive Held (P : World → Prop) (fd : Nat) : World → Prop
  | intro {w w'} (held : P w) (shut : fd ∉ w.openFds) (same : SameCore (opened w fd) w') :
      Held P fd w'

section Kernel
variable {P : World → Prop} {fd : Nat}

theorem Held.stable (P : World → Prop) (fd : Nat) : Stable (Held P fd) := by
  rintro _ _ ⟨held, shut, same⟩ core
  exact ⟨held, shut, same.trans core⟩

theorem Held.closed (q : Quiet P) (h : Held P fd w) : P (w.close fd) := by
  obtain ⟨held, shut, same⟩ := h
  exact q.same _ _ (q.churn _ fd held shut) (same.close fd)

theorem syscall_ends (same : Stable P) (p : P w) : Ends (fun _ => P) (syscall w) := by
  apply Ends.attempt
  intro a w' taken
  cases hw : w.answers with
  | nil =>
      rw [hw] at taken
      cases taken
  | cons first rest =>
      rw [hw] at taken
      cases first <;> cases taken <;> exact same _ _ p (SameCore.answered w _ rest)

theorem statusCall_ends (same : Stable P) (p : P w) : Ends (fun _ => P) (statusCall w) := by
  apply Ends.seq (syscall_ends same p)
  intro a w' p'
  cases a <;> first | exact p' | trivial

theorem getaddrinfo_ends (same : Stable P) (p : P w) : Ends (fun _ => P) (getaddrinfo w) := by
  apply Ends.seq (syscall_ends same p)
  intro a w' p'
  cases a <;> first | exact p' | trivial

theorem errorText_ends (same : Stable P) (p : P w) : Ends (fun _ => P) (errorText w) := by
  unfold errorText
  simp only [bind_apply, read_apply, ret_bind]
  split
  · exact p
  · apply Ends.bind (syscall_ends same p)
    intro a w' p'
    cases a <;> first | exact p' | trivial

theorem openFd_ends (p : P w) (fd : Nat) : Ends (fun _ => Held P fd) (openFd fd w) := by
  apply Ends.attempt
  intro _ w' taken
  split at taken
  · cases taken
  · next shut =>
    cases taken
    exact ⟨p, shut, SameCore.refl _⟩

/-- What is known of a call that may return a descriptor. -/
def Obtained (P : World → Prop) : Option Nat → World → Prop
  | none => P
  | some fd => Held P fd

theorem socket_ends (same : Stable P) (p : P w) : Ends (Obtained P) (socket w) := by
  apply Ends.seq (syscall_ends same p)
  intro a w' p'
  cases a with
  | descriptor fd => exact Ends.seq (openFd_ends p' fd) (fun _ _ held => held)
  | failed e => exact p'
  | _ => trivial

theorem openBound_ends (q : Quiet P) (bindaddr : Bool) (addrs : List Addr) (p : P w) :
    Ends (fun found => Obtained P (found.map Prod.fst)) (openBound bindaddr addrs w) := by
  induction addrs generalizing w with
  | nil => exact p
  | cons a rest ih =>
      unfold openBound
      apply Ends.seq (socket_ends q.same p)
      intro fd w₁ p₁
      cases fd with
      | none => exact ih p₁
      | some fd =>
          cases bindaddr with
          | false => exact p₁
          | true =>
              have same := Held.stable P fd
              apply Ends.seq (statusCall_ends same p₁)
              intro refused w₂ p₂
              cases refused with
              | some e => exact Held.closed q p₂
              | none =>
                  apply Ends.seq (statusCall_ends same p₂)
                  intro refused w₃ p₃
                  cases refused with
                  | none => exact p₃
                  | some e => exact ih (Held.closed q p₃)

theorem openConnecting_ends (q : Quiet P) (addrs : List Addr) (p : P w) :
    Ends (fun found => Obtained P (found.map Prod.fst)) (openConnecting addrs w) := by
  induction addrs generalizing w with
  | nil => exact p
  | cons a rest ih =>
      unfold openConnecting
      apply Ends.seq (socket_ends q.same p)
      intro fd w₁ p₁
      cases fd with
      | none => exact ih p₁
      | some fd =>
          apply Ends.seq (statusCall_ends (Held.stable P fd) p₁)
          intro result w₂ p₂
          cases result with
          | none => exact p₂
          | some e =>
              simp only
              split
              · exact p₂
              · exact ih (Held.closed q p₂)

theorem acceptLoop_ends (same : Stable P) (p : P w) :
    Ends (fun _ : Option Nat => P) ((Prog.attempt fun w => do
      let (fd, errno, rest) ← acceptLoop w.errno w.answers
      .ok (fd, { w with errno := errno, answers := rest }) : Io (Option Nat)) w) := by
  apply Ends.attempt
  intro fd w' taken
  cases hl : acceptLoop w.errno w.answers with
  | error f =>
      rw [hl] at taken
      cases taken
  | ok out =>
      rw [hl] at taken
      cases taken
      exact same _ _ p (SameCore.answered w _ _)

theorem acceptFd_ends (same : Stable P) (p : P w) : Ends (Obtained P) (acceptFd w) := by
  unfold acceptFd
  apply Ends.seq (acceptLoop_ends same p)
  intro fd w' p'
  cases fd with
  | none => exact p'
  | some fd => exact Ends.seq (openFd_ends p' fd) (fun _ _ held => held)

end Kernel

/-! ## Slots -/

/-- All slots and all open descriptors are as they were in `w`. -/
structure Untouched (w w' : World) : Prop where
  objs : w'.objs = w.objs
  openFds : w'.openFds = w.openFds

/-- A call under way that left no trace yet in slots and descriptors. -/
structure Idle (o : Origin) (w₀ w : World) : Prop where
  reached : Reaches o w
  untouched : Untouched w₀ w

/-- A slot was taken and holds nothing yet. -/
structure Reserved (o : Origin) (w₀ : World) (r : Ref) (w : World) : Prop where
  slot : w.objs r = withState blank Cotcp.new
  unused : Unused w r
  next : o.slot = some r
  idle : Idle o w₀ (w.setObj r blank)

theorem Idle.quiet (o : Origin) (w₀ : World) : Quiet (Idle o w₀) where
  same _ _ h core := ⟨h.reached.same core, core.objs.trans h.untouched.objs,
    core.openFds.trans h.untouched.openFds⟩
  churn w fd h shut := by
    refine ⟨h.reached.change (.churn shut), h.untouched.objs, ?_⟩
    exact (List.erase_cons_head fd w.openFds).trans h.untouched.openFds

theorem Reserved.quiet (o : Origin) (w₀ : World) (r : Ref) : Quiet (Reserved o w₀ r) where
  same _ _ h core := ⟨by rw [core.objs]; exact h.slot,
    by rw [Unused, core.log, core.lives]; exact h.unused, h.next,
    (Idle.quiet o w₀).same _ _ h.idle (core.setObj r blank)⟩
  churn w fd h shut := ⟨h.slot, h.unused, h.next,
    (Idle.quiet o w₀).churn (w.setObj r blank) fd h.idle shut⟩

/-- What the allocator finds depends on the table and its cursor. -/
theorem allocScan_congr (kind : Kind) (size n : Nat) {w w' : World} (objs : w'.objs = w.objs)
    (cursor : w'.cursor = w.cursor) :
    (allocScan kind size n w').1 = (allocScan kind size n w).1 := by
  induction n generalizing w w' with
  | zero => rfl
  | succ n ih =>
      have bumped : (bumpCursor w' kind).cursor = (bumpCursor w kind).cursor := by
        simp only [bumpCursor, cursor]
      have later : (allocScan kind size n (bumpCursor w' kind)).1 =
          (allocScan kind size n (bumpCursor w kind)).1 := ih objs bumped
      unfold allocScan
      simp only [cursor, objs]
      split
      · rfl
      · exact later

theorem allocScan_kind (kind : Kind) (size n : Nat) (w : World) {r : Ref}
    (found : (allocScan kind size n w).1 = some r) : r.kind = kind := by
  induction n generalizing w with
  | zero => cases found
  | succ n ih =>
      unfold allocScan at found
      simp only at found
      split at found
      · cases found
        rfl
      · exact ih _ found

theorem nextSlot_congr (kind : Kind) {w w' : World} (objs : w'.objs = w.objs)
    (cursor : w'.cursor = w.cursor) : nextSlot w' kind = nextSlot w kind :=
  allocScan_congr kind _ _ objs cursor

section Slots
variable {w₀ : World}

theorem takeSlot_reserved (sound : Sound w) (free : (w.objs r).state = Cotcp.invalid)
    (next : o.slot = some r) (idle : Idle o w₀ w) : Reserved o w₀ r (takeSlot w r) := by
  have gone := sound.dead r free
  have cleared : (takeSlot w r).setObj r blank = reserved w r := by
    simp only [takeSlot, reserved, World.setObj, Function.update_idem]
  constructor
  · simp only [takeSlot, World.setObj, Function.update_self, gone]
    rfl
  · exact sound.unused r
  · exact next
  · rw [cleared]
    refine ⟨idle.reached.change (.reserve next free), ?_, idle.untouched.openFds⟩
    have same : Function.update w.objs r blank = w.objs := by
      rw [← gone, Function.update_eq_self]
    exact same.trans idle.untouched.objs

/-- What is known of an allocation. -/
def Allocated (o : Origin) (w₀ : World) (kind : Kind) : Option Ref → World → Prop
  | none, w => Idle o w₀ w
  | some r, w => r.kind = kind ∧ Reserved o w₀ r w

theorem allocScan_allocated (sound : Sound o.world) (kind : Kind) (size n : Nat)
    (idle : Idle o w₀ w) (next : ∀ r, (allocScan kind size n w).1 = some r → o.slot = some r) :
    Allocated o w₀ kind (allocScan kind size n w).1 (allocScan kind size n w).2 := by
  induction n generalizing w with
  | zero => exact idle
  | succ n ih =>
      have idle₁ : Idle o w₀ (bumpCursor w kind) :=
        ⟨idle.reached.change (.bump kind), idle.untouched.objs, idle.untouched.openFds⟩
      unfold allocScan at next ⊢
      simp only at next ⊢
      split
      · next free =>
        rw [if_pos free] at next
        have sound₁ := Reaches.sound idle₁.reached sound
        exact ⟨rfl, takeSlot_reserved sound₁ free (next _ rfl) idle₁⟩
      · next used =>
        rw [if_neg used] at next
        exact ih idle₁ next

theorem allocSlot_ends (sound : Sound o.world) (kind : Kind) (idle : Idle o w₀ w)
    (next : ∀ r, nextSlot w kind = some r → o.slot = some r) :
    Ends (Allocated o w₀ kind) (allocSlot kind (tableSize kind) w) := by
  apply Ends.attempt
  intro slot w' taken
  have held := allocScan_allocated sound kind (tableSize kind) (tableSize kind) idle next
  rw [Except.ok.inj taken] at held
  exact held

/-- The allocator neither sees nor touches the kernel's side and the descriptors. -/
theorem allocScan_opened (kind : Kind) (size n : Nat) (fd : Nat) {w w' : World}
    (same : SameCore (opened w fd) w') :
    (allocScan kind size n w').1 = (allocScan kind size n w).1 ∧
      (allocScan kind size n w).2.openFds = w.openFds ∧
      SameCore (opened (allocScan kind size n w).2 fd) (allocScan kind size n w').2 := by
  induction n generalizing w w' with
  | zero => exact ⟨rfl, rfl, same⟩
  | succ n ih =>
      have objs : w'.objs = w.objs := same.objs
      have cursor : w'.cursor = w.cursor := same.cursor
      have bumped : SameCore (opened (bumpCursor w kind) fd) (bumpCursor w' kind) := by
        refine ⟨same.objs, ?_, same.poll, same.openFds, same.batch, same.tasks, same.zeroBlock,
          same.lives, same.log, same.ledger⟩
        simp only [bumpCursor, opened, cursor]
      unfold allocScan
      simp only [objs, cursor]
      split
      · refine ⟨rfl, rfl, ?_⟩
        constructor
        · simp only [takeSlot, World.setObj, bumped.objs]
          rfl
        · exact bumped.cursor
        · exact bumped.poll
        · exact bumped.openFds
        · exact bumped.batch
        · exact bumped.tasks
        · exact bumped.zeroBlock
        · simp only [takeSlot, World.setObj, bumped.lives]
          rfl
        · exact bumped.log
        · exact bumped.ledger
      · exact ih bumped

/-- An allocation while a new descriptor is at hand. -/
theorem allocSlot_held (sound : Sound o.world) (kind : Kind) {fd : Nat}
    (held : Held (fun w => Idle o w₀ w ∧ ∀ r, nextSlot w kind = some r → o.slot = some r) fd w) :
    Ends (fun slot => Held (Allocated o w₀ kind slot) fd)
      (allocSlot kind (tableSize kind) w) := by
  obtain ⟨⟨idle, next⟩, shut, same⟩ := held
  apply Ends.attempt
  intro slot w' taken
  have commutes := allocScan_opened kind (tableSize kind) (tableSize kind) fd same
  have allocated := allocScan_allocated sound kind (tableSize kind) (tableSize kind) idle next
  rw [Except.ok.inj taken] at commutes
  rw [← commutes.1] at allocated
  refine ⟨allocated, ?_, commutes.2.2⟩
  rw [commutes.2.1]
  exact shut

/-- Giving up a reserved slot. -/
theorem Reserved.free (h : Reserved o w₀ r w) : Ends (fun _ => Idle o w₀) (freeObject r w) := by
  unfold freeObject
  simp only [bind_apply, look_apply, ret_bind, h.slot]
  exact h.idle

theorem Held.slot {fd : Nat} (h : Held (Reserved o w₀ r) fd w) :
    w.objs r = withState blank Cotcp.new := by
  obtain ⟨held, -, same⟩ := h
  rw [same.objs]
  exact held.slot

/-- Filling a reserved slot with a new socket, and registering it. -/
theorem Held.install {fd : Nat} {obj : Coio} (h : Held (Reserved o w₀ r) fd w)
    (shape : Installed obj) (socket : r.kind ≠ .fd) (carries : obj.fd = fd) :
    Reaches o (installed w r obj) := by
  subst carries
  obtain @⟨w₁, _, held, shut, same⟩ := h
  have put := held.idle.reached.change
    (.install held.next (setObj_self _ r blank) held.unused shape socket shut)
  refine Reaches.same put ?_
  have core : SameCore (((opened w₁ obj.fd).setObj r blank).setObj r obj) (w.setObj r obj) := by
    rw [setObj_twice]
    exact same.setObj r obj
  exact core.copollAdd obj.fd (.obj r)

end Slots

/-! ## Callbacks and teardown -/

/-- The user is called back, if a function is registered, and `next` follows. -/
theorem notify_then {α : Type} {Q R : α → World → Prop} {fn : Option Nat} {notice : Notice}
    {next : Unit → Io α} (reached : Reaches o w)
    (due : ∀ f, fn = some f → Due o r f w notice)
    (direct : fn = none → Follows o Q R (next () w))
    (after : ∀ f w', fn = some f → Sound w' →
      Ends (fun a w'' => Resumed ⟨r, w.lives r, f, notice⟩ w' w'' ∧ R a w'') (next () w')) :
    Follows o Q R ((notify r fn notice >>= next) w) := by
  cases fn with
  | none => exact direct rfl
  | some f =>
      have entered : Enters o ⟨r, w.lives r, f, notice⟩
          (w.note (.called ⟨r, w.lives r, f, notice⟩)) := .intro reached rfl (due f rfl)
      exact ⟨entered, fun w' sound => after f w' rfl sound⟩

theorem notifyConnect_follows (fn : Option Nat) (reached : Reaches o w) (kind : r.kind = .tcp)
    (connected : (w.objs r).state = Cotcp.connected) :
    Follows o (fun _ _ => True) (fun _ _ => True) (notify r fn .connect w) := by
  cases fn with
  | none => exact ⟨reached, trivial⟩
  | some f =>
      have entered : Enters o ⟨r, w.lives r, f, .connect⟩
          (w.note (.called ⟨r, w.lives r, f, .connect⟩)) :=
        .intro reached rfl (.connect kind connected)
      exact ⟨entered, fun w' _ => ⟨.connect rfl, trivial⟩⟩

/-- `teardown` finishes a live object and leaves a free slot alone. -/
inductive TornDown (r : Ref) (teardown : Ref → Cause → Nat → Io Unit) (w : World) (cause : Cause)
    (begun : Nat) : Prop
  | ended (live : (w.objs r).state ≠ Cotcp.invalid)
      (ran : teardown r cause begun w = .ret () (finished w r cause begun))
  | nothing (free : (w.objs r).state = Cotcp.invalid ∨ r.kind = .fd)
      (ran : teardown r cause begun w = .ret () w)

def TearsDown (r : Ref) (teardown : Ref → Cause → Nat → Io Unit) : Prop :=
  ∀ w cause begun, TornDown r teardown w cause begun

theorem closeObject_tearsDown (socket : r.kind ≠ .fd) : TearsDown r (closeObject freeObject) := by
  intro w cause begun
  by_cases hs : (w.objs r).state = Cotcp.invalid
  · apply TornDown.nothing (Or.inl hs)
    unfold closeObject
    simp only [bind_apply, look_apply, ret_bind]
    rw [if_pos hs]
    rfl
  · apply TornDown.ended hs
    obtain ⟨errno, gone⟩ := copollDel_eq w (w.objs r).fd
    have shut : finished w r cause begun = (((w.copollDel (w.objs r).fd).close (w.objs r).fd).note
        (.ended r (w.lives r) cause begun (w.objs r).fnClose.isSome)).setObj r blank := by
      simp only [finished, if_neg socket]
    unfold closeObject
    simp only [bind_apply, look_apply, ret_bind]
    rw [if_neg hs]
    simp only [bind_apply, modify_apply, closeFd_apply, recordEnd_apply, freeObject, look_apply,
      ret_bind]
    rw [if_neg (by simp only [note_objs, World.close, copollDel_objs]; exact hs), shut, gone]
    rfl

theorem cofdUnbind_bound (kind : r.kind = .fd) (bound : (w.objs r).state = Cofd.bind)
    (cause : Cause) (begun : Nat) :
    cofdUnbind r cause begun w = .ret true (finished w r cause begun) := by
  have live : (w.objs r).state ≠ Cotcp.invalid := by
    rw [bound]
    decide
  obtain ⟨errno, gone⟩ := copollDel_eq w (w.objs r).fd
  have left : finished w r cause begun = ((w.copollDel (w.objs r).fd).note
      (.ended r (w.lives r) cause begun (w.objs r).fnClose.isSome)).setObj r blank := by
    simp only [finished, if_pos kind]
  unfold cofdUnbind
  simp only [bind_apply, look_apply, ret_bind]
  rw [if_pos bound]
  simp only [bind_apply, modify_apply, recordEnd_apply, cofdFree, freeObject, look_apply, ret_bind]
  rw [if_neg (by simp only [note_objs, copollDel_objs]; exact live), left, gone]
  rfl

theorem cofdUnbind_other (other : (w.objs r).state ≠ Cofd.bind) (cause : Cause) (begun : Nat) :
    cofdUnbind r cause begun w = .ret false w := by
  unfold cofdUnbind
  simp only [bind_apply, look_apply, ret_bind]
  rw [if_neg other]
  rfl

theorem cofdTeardown_tearsDown (kind : r.kind = .fd) : TearsDown r cofdTeardown := by
  intro w cause begun
  unfold cofdTeardown
  by_cases bound : (w.objs r).state = Cofd.bind
  · apply TornDown.ended (by rw [bound]; decide)
    rw [bind_apply, cofdUnbind_bound kind bound]
    rfl
  · apply TornDown.nothing (Or.inr kind)
    rw [bind_apply, cofdUnbind_other bound]
    rfl

/-- The slot of a socket is zeroed. -/
def Cleared (r : Ref) (w : World) : Prop := r.kind ≠ .fd → w.objs r = blank

section Objects
variable {teardown : Ref → Cause → Nat → Io Unit}

theorem finished_cleared (r : Ref) (cause : Cause) (begun : Nat) :
    Cleared r (finished w r cause begun) := by
  intro _
  rw [finished_objs, Function.update_self]

theorem cleared_of_free (sound : Sound w) (free : (w.objs r).state = Cotcp.invalid ∨ r.kind = .fd) :
    Cleared r w := by
  intro socket
  exact sound.dead r (free.resolve_right socket)

/-- The end of an error path, with no user function in between. -/
theorem teardown_error (sound : Sound o.world) (td : TearsDown r teardown) (reached : Reaches o w)
    (unset : (w.objs r).fnError = none) : Follows o (fun _ => Cleared r) (fun _ => Cleared r)
      (teardown r .error (w.lives r) w) := by
  cases td w .error (w.lives r) with
  | ended live ran =>
      rw [ran]
      exact ⟨reached.change (.finish (.error live unset)), finished_cleared r _ _⟩
  | nothing free ran =>
      rw [ran]
      exact ⟨reached, cleared_of_free (reached.sound sound) free⟩

/-- The end of an error path, when the user function has returned. -/
theorem teardown_afterError (td : TearsDown r teardown) (sound : Sound w) (life f : Nat)
    (text : ErrorText) : Ends (fun _ w' => Resumed ⟨r, life, f, .error text⟩ w w' ∧ Cleared r w')
      (teardown r .error life w) := by
  cases td w .error life with
  | ended live ran =>
      rw [ran]
      exact ⟨.error rfl live, finished_cleared r _ _⟩
  | nothing free ran =>
      rw [ran]
      exact ⟨.gone (Or.inr ⟨text, rfl⟩) free, cleared_of_free sound free⟩

/-- The end of a closing path, when the user function has returned. -/
theorem teardown_afterClose (td : TearsDown r teardown) (cause : Cause) (life f : Nat) (w : World) :
    Ends (fun _ w' => Resumed ⟨r, life, f, .close cause⟩ w w') (teardown r cause life w) := by
  cases td w cause life with
  | ended live ran =>
      rw [ran]
      exact .close rfl live
  | nothing free ran =>
      rw [ran]
      exact .gone (Or.inl ⟨cause, rfl⟩) free

theorem handleError_follows (sound : Sound o.world) (td : TearsDown r teardown)
    (reached : Reaches o w) :
    Follows o (fun _ => Cleared r) (fun _ => Cleared r) (handleError teardown r w) := by
  unfold handleError
  simp only [bind_apply, look_apply, ret_bind]
  split
  · next hs => exact ⟨reached, cleared_of_free (reached.sound sound) (Or.inl hs)⟩
  · next live =>
    simp only [bind_apply, lifeOf_apply, ret_bind]
    have kept : Stable fun w' => Reaches o w' ∧ w'.objs = w.objs ∧ w'.lives = w.lives :=
      fun _ _ h core => ⟨h.1.same core, core.objs.trans h.2.1, core.lives.trans h.2.2⟩
    apply Once.seq (errorText_ends kept ⟨reached, rfl, rfl⟩)
    intro text w₁ held
    obtain ⟨reached₁, objs, lives⟩ := held
    rw [← objs, ← lives]
    apply notify_then reached₁
    · intro f set
      exact .error (by rw [objs]; exact live) set
    · exact fun unset => teardown_error sound td reached₁ unset
    · exact fun f w' _ sound' => teardown_afterError td sound' _ f text

end Objects

/-! ## Reading -/

theorem ensureRecvbuf_apply (r : Ref) (w : World) :
    ensureRecvbuf r w = .ret () (w.setObj r (ensured (w.objs r))) := by
  unfold ensureRecvbuf ensured
  simp only [bind_apply, look_apply, ret_bind]
  split
  · rfl
  · rw [setObj_eta]
    rfl

theorem readFrom_ends (receive : Nat → Answer → Option (List UInt8 × Option Addr)) :
    Ends (fun result w' => ∃ errno rest,
        readLoop receive (ensured (w.objs r)).recvsize w.errno w.answers =
          .ok (result, errno, rest) ∧ w' = received w r errno rest)
      (readFrom receive r (ensured (w.objs r)).recvsize (w.setObj r (ensured (w.objs r)))) := by
  unfold readFrom
  simp only [bind_apply, lifeOf_apply, record_apply, ret_bind]
  apply Ends.attempt
  intro result w' taken
  cases hl : readLoop receive (ensured (w.objs r)).recvsize w.errno w.answers with
  | error f =>
      simp only [World.note, World.setObj, hl] at taken
      cases taken
  | ok out =>
      simp only [World.note, World.setObj, hl, ok_bind] at taken
      cases taken
      exact ⟨_, _, rfl, rfl⟩

theorem Running.reached {h : Handler} (running : Running o h r w) : Reaches o w := by
  obtain ⟨handling, next⟩ := running
  exact Relation.ReflTransGen.single (.handle handling next)

theorem handleRead_follows (sound : Sound o.world) {teardown : Ref → Cause → Nat → Io Unit}
    (td : TearsDown r teardown) (running : Running o .read r w) :
    Follows o (fun _ _ => True) (fun _ _ => True)
      (handleRead (receiveOf r.kind) (deliversOf r.kind) (handleError teardown) teardown r w) := by
  unfold handleRead
  simp only [bind_apply, look_apply, ret_bind]
  split
  · exact ⟨Running.reached running, trivial⟩
  · next live =>
    simp only [bind_apply, ensureRecvbuf_apply, look_apply, ret_bind, setObj_self]
    apply Once.seq (readFrom_ends (receiveOf r.kind))
    rintro result w₁ ⟨errno, rest, read, rfl⟩
    have got : Received o r result (received w r errno rest) := ⟨running, live, read⟩
    have reached : Reaches o (received w r errno rest) :=
      (Running.reached running).change (.receive running live read)
    have slot : (received w r errno rest).objs r = ensured (w.objs r) := setObj_self _ _ _
    generalize received w r errno rest = w₁ at got reached slot
    rw [← slot]
    cases result with
    | later => exact ⟨reached, trivial⟩
    | failed =>
        exact (handleError_follows sound td reached).mono (fun _ _ held => ⟨held.1, trivial⟩)
          (fun _ _ _ _ held => ⟨held.1, trivial⟩)
    | data bytes sender =>
        simp only
        split
        · next nothing =>
          subst nothing
          simp only [bind_apply, lifeOf_apply, ret_bind]
          apply notify_then reached
          · exact fun f set => .eof got set
          · intro unset
            cases td w₁ .eof (w₁.lives r) with
            | ended live ran =>
                rw [ran]
                exact ⟨reached.change (.finish (.eof got unset)), trivial⟩
            | nothing free ran =>
                rw [ran]
                exact ⟨reached, trivial⟩
          · intro f w' _ _
            exact (teardown_afterClose td _ _ f w').mono fun _ _ held => ⟨held, trivial⟩
        · next nonempty =>
          split
          · next shown =>
            apply notify_then reached
            · exact fun f set => .recv got nonempty shown set
            · exact fun unset => ⟨reached.change (.unseen got nonempty shown unset), trivial⟩
            · exact fun f w' _ _ => ⟨.recv rfl, trivial⟩
          · exact ⟨reached, trivial⟩

/-! ## Writing -/

/-- The slot of a socket still holds the same object in the same state, or it is free. -/
def Steady (r : Ref) (w w' : World) : Prop := Undisturbed r w w' ∨ Cleared r w'

theorem flushOf_ends : Ends (fun out w' => flushOf r.kind r w = .ret out w')
    (flushOf r.kind r w) := by
  cases r.kind with
  | udp => exact Ends.atomic (m := flushSendlist r) rfl w
  | tcp => exact Ends.atomic (m := flushSendbuf r) rfl w
  | fd => exact Ends.atomic (m := flushSendbuf r) rfl w

section Writing
variable {teardown : Ref → Cause → Nat → Io Unit}

/-- `handleWrite`, where `drained` is what follows an emptied queue. -/
theorem handleWrite_follows (sound : Sound o.world) (td : TearsDown r teardown)
    (drained : Ref → Io Unit) (flushes : Flushes o r w) (reached : Reaches o w)
    (empty : ∀ w', (w.objs r).state ≠ Cotcp.invalid → flushOf r.kind r w = .ret .drained w' →
      Follows o (fun _ => Steady r w) (fun _ => Cleared r) (drained r w')) :
    Follows o (fun _ => Steady r w) (fun _ => Cleared r)
      (handleWrite (flushOf r.kind) (handleError teardown) drained r w) := by
  unfold handleWrite
  simp only [bind_apply, look_apply, ret_bind]
  split
  · exact ⟨reached, Or.inl (Undisturbed.refl r w)⟩
  · next live =>
    apply Once.seq flushOf_ends
    intro out w₁ ran
    have same : Undisturbed r w w₁ := (flushOf_queued ran).undisturbed
    cases out with
    | later =>
        have sent := reached.change (.transmit (.waits flushes live ran (Or.inl (by decide))))
        exact ⟨sent, Or.inl same⟩
    | failed =>
        have sent := reached.change (.transmit (.waits flushes live ran (Or.inl (by decide))))
        exact (handleError_follows sound td sent).mono
          (fun _ _ held => ⟨held.1, Or.inr held.2⟩) (fun _ _ _ _ held => held)
    | drained => exact empty w₁ live ran

/-- The two kinds of sockets, whose write handlers wait for the queue to drain. -/
theorem socketWrite_follows (sound : Sound o.world) (td : TearsDown r teardown)
    (socket : r.kind ≠ .fd) (closing : Nat) (waits : closingOf r.kind = some closing)
    (flushes : Flushes o r w) (reached : Reaches o w) :
    Follows o (fun _ => Steady r w) (fun _ => Cleared r)
      (handleWrite (flushOf r.kind) (handleError teardown) (checkClosing closing teardown) r w) := by
  apply handleWrite_follows sound td _ flushes reached
  intro w₁ live ran
  have same : Undisturbed r w w₁ := (flushOf_queued ran).undisturbed
  unfold checkClosing
  simp only [bind_apply, look_apply, ret_bind]
  split
  · next state =>
    have last : some (w₁.objs r).state = closingOf r.kind := by rw [state, waits]
    have first : some (w.objs r).state = closingOf r.kind := by rw [← same.state]; exact last
    have sent := reached.change (.transmit (.waits flushes live ran (Or.inr first)))
    simp only [bind_apply, lifeOf_apply, ret_bind]
    cases td w₁ .drained (w₁.lives r) with
    | ended live₁ ended =>
        rw [ended]
        exact ⟨sent.change (.finish (.drained (flushes.event_of_closing first) ran last)),
          Or.inr (finished_cleared r _ _)⟩
    | nothing free ended =>
        rw [ended]
        exact ⟨sent, Or.inl same⟩
  · next state =>
    have other : some (w.objs r).state ≠ closingOf r.kind := by
      rw [waits, ← same.state]
      exact fun equal => state (Option.some.inj equal)
    have sent := reached.change (.transmit (.drained flushes live ran other))
    rw [ownerOf, if_neg socket, ← same.fd] at sent
    exact ⟨sent, Or.inl (same.trans (Undisturbed.request r w₁ _ _ _))⟩

end Writing

theorem cotcpHandleWrite_follows (sound : Sound o.world) (kind : r.kind = .tcp)
    (flushes : Flushes o r w) (reached : Reaches o w) :
    Follows o (fun _ => Steady r w) (fun _ => Cleared r) (cotcpHandleWrite r w) := by
  have socket : r.kind ≠ .fd := by rw [kind]; decide
  have written := socketWrite_follows sound
    (closeObject_tearsDown socket) socket Cotcp.closing (by rw [kind]; rfl) flushes reached
  rw [kind] at written
  exact written

theorem coudpHandleWrite_follows (sound : Sound o.world) (kind : r.kind = .udp)
    (flushes : Flushes o r w) (reached : Reaches o w) :
    Follows o (fun _ => Steady r w) (fun _ => Cleared r) (coudpHandleWrite r w) := by
  have socket : r.kind ≠ .fd := by rw [kind]; decide
  have written := socketWrite_follows sound
    (closeObject_tearsDown socket) socket Coudp.closing (by rw [kind]; rfl) flushes reached
  rw [kind] at written
  exact written

theorem cofdHandleWrite_follows (sound : Sound o.world) (kind : r.kind = .fd)
    (flushes : Flushes o r w) (reached : Reaches o w) :
    Follows o (fun _ => Steady r w) (fun _ => Cleared r) (cofdHandleWrite r w) := by
  have written := handleWrite_follows sound (cofdTeardown_tearsDown kind) cofdDrained
    flushes reached ?_
  · rw [kind] at written
    exact written
  · intro w₁ live ran
    have same : Undisturbed r w w₁ := (flushOf_queued ran).undisturbed
    have sent := reached.change (.transmit (.drained flushes live ran (by rw [kind]; simp [closingOf])))
    rw [ownerOf, if_pos kind, ← same.fd, ← same.ud] at sent
    exact ⟨sent, Or.inl (same.trans (Undisturbed.request r w₁ _ _ _))⟩

/-! ## Sending and closing -/

theorem sends_ends {queue : Io Unit} (asked : Sends o r queue) :
    Ends (fun _ w' => queue o.world = .ret () w') (queue o.world) := by
  cases asked with
  | tcp => exact Ends.atomic rfl o.world
  | udp => exact Ends.atomic rfl o.world
  | fd => exact Ends.atomic rfl o.world

/-- What a call that reports failure has done: nothing. -/
def Refused (w : World) (accepted : Bool) (w' : World) : Prop := accepted = false → Untouched w w'

theorem Untouched.refl (w : World) : Untouched w w := ⟨rfl, rfl⟩

theorem sendData_follows {ready : Nat} {queue : Io Unit} {owner : Coio → VPtr}
    {flush : Ref → Io Unit} {data : List UInt8}
    (asked : (o.world.objs r).state = ready → data ≠ [] → Sends o r queue)
    (owned : owner (o.world.objs r) = ownerOf r (o.world.objs r))
    (flushed : ∀ w, Flushes o r w → Reaches o w →
      Follows o (fun _ => Steady r w) (fun _ => Cleared r) (flush r w)) :
    Follows o (Refused o.world) (fun accepted _ => accepted = true)
      (sendData ready queue owner flush r data o.world) := by
  unfold sendData
  simp only [bind_apply, look_apply, ret_bind]
  split
  · exact ⟨.refl, fun _ => Untouched.refl _⟩
  · next accepted =>
    obtain ⟨state, nonempty⟩ := not_or.mp accepted
    have sends := asked (not_not.mp state) nonempty
    apply Once.seq (sends_ends sends)
    intro _ w₁ ran
    have sent := Relation.ReflTransGen.single (Change.transmit (.sent sends ran))
    simp only [bind_apply, modify_apply, ret_bind]
    rw [owned]
    apply Once.bind (flushed _ (.send sends ran rfl) sent)
    · exact fun _ w₂ held => ⟨held.1, fun refused => by cases refused⟩
    · exact fun _ _ _ w₂ held => ⟨held.1, rfl⟩

theorem cotcpSend_follows (sound : Sound o.world) (kind : r.kind = .tcp) {data : List UInt8}
    (asked : o.action = .call (.cotcpSend r data)) :
    Follows o (Refused o.world) (fun accepted _ => accepted = true) (cotcpSend r data o.world) := by
  apply sendData_follows
  · exact fun ready nonempty => .tcp asked kind ready nonempty
  · rw [ownerOf, if_neg (by rw [kind]; decide)]
  · exact fun w flushes reached => cotcpHandleWrite_follows sound kind flushes reached

theorem coudpSend_follows (sound : Sound o.world) (kind : r.kind = .udp) {data : List UInt8}
    {addr : Addr} (asked : o.action = .call (.coudpSend r data addr)) :
    Follows o (Refused o.world) (fun accepted _ => accepted = true)
      (coudpSend r data addr o.world) := by
  apply sendData_follows
  · exact fun ready nonempty => .udp asked kind ready nonempty
  · rw [ownerOf, if_neg (by rw [kind]; decide)]
  · exact fun w flushes reached => coudpHandleWrite_follows sound kind flushes reached

theorem cofdSend_follows (sound : Sound o.world) (kind : r.kind = .fd) {data : List UInt8}
    (asked : o.action = .call (.cofdSend r data)) :
    Follows o (Refused o.world) (fun accepted _ => accepted = true) (cofdSend r data o.world) := by
  apply sendData_follows
  · exact fun ready nonempty => .fd asked kind ready nonempty
  · rw [ownerOf, if_pos kind]
  · exact fun w flushes reached => cofdHandleWrite_follows sound kind flushes reached

/-- `cotcp_close` and `coudp_close`. -/
theorem closeRequest_follows {teardown : Ref → Cause → Nat → Io Unit} (td : TearsDown r teardown)
    (closing : Nat) (waits : closingOf r.kind = some closing) (socket : r.kind ≠ .fd)
    {flush : Ref → Io Unit} {force : Bool}
    (asked : isOpenOf r.kind (o.world.objs r) → Closes o r force)
    (empty : hasDataOf r.kind blank = false)
    (flushed : ∀ w, Flushes o r w → Reaches o w →
      Follows o (fun _ => Steady r w) (fun _ => Cleared r) (flush r w)) :
    Follows o (Refused o.world) (fun accepted _ => accepted = true)
      (closeRequest (isOpenOf r.kind) (hasDataOf r.kind) closing flush teardown r force
        o.world) := by
  unfold closeRequest
  simp only [bind_apply, look_apply, ret_bind]
  split
  · next isOpen =>
    have closes := asked isOpen
    simp only [bind_apply, lifeOf_apply, ret_bind]
    -- What follows the attempt to send, on a slot that was torn down meanwhile.
    have gone : ∀ w', w'.objs r = blank → ((do
        let o' ← look r
        if force ∨ hasDataOf r.kind o' = false then
          notify r o'.fnClose (.close (.requested force))
          teardown r (.requested force) (o.world.lives r)
        else
          put r { o' with state := closing }
        return true : Io Bool) w') = .ret true w' := by
      intro w' slot
      have silent : notify r blank.fnClose (.close (.requested force)) = pure () := rfl
      simp only [bind_apply, look_apply, ret_bind, slot]
      rw [if_pos (Or.inr empty), silent]
      simp only [bind_apply, pure_apply, ret_bind]
      cases td w' (.requested force) (o.world.lives r) with
      | ended live ran =>
          rw [slot] at live
          exact absurd rfl live
      | nothing _ ran =>
          rw [ran]
          rfl
    have rest : ∀ w', Reaches o w' → Steady r o.world w' →
        Follows o (Refused o.world) (fun accepted _ => accepted = true) ((do
          let o' ← look r
          if force ∨ hasDataOf r.kind o' = false then
            notify r o'.fnClose (.close (.requested force))
            teardown r (.requested force) (o.world.lives r)
          else
            put r { o' with state := closing }
          return true : Io Bool) w') := by
      intro w' reached steady
      rcases steady with same | cleared
      · have asked' : Closing o r force w' := ⟨closes, same⟩
        rw [← same.lives]
        simp only [bind_apply, look_apply, ret_bind]
        split
        · next now =>
          apply notify_then reached
          · exact fun f set => .close asked' now set
          · intro unset
            cases td w' (.requested force) (w'.lives r) with
            | ended live ran =>
                simp only [bind_apply, ran, ret_bind]
                have ended := reached.change (.finish (.requested asked' now unset))
                exact ⟨ended, fun refused => by cases refused⟩
            | nothing free ran =>
                simp only [bind_apply, ran, ret_bind]
                exact ⟨reached, fun refused => by cases refused⟩
          · intro f w'' _ _
            apply Ends.seq (teardown_afterClose td _ _ f w'')
            exact fun _ _ held => ⟨held, rfl⟩
        · next later =>
          obtain ⟨gentle, queued⟩ := not_or.mp later
          rw [Bool.not_eq_true] at gentle
          rw [gentle] at asked'
          have put := reached.change (.adjust (.closing asked' (by simpa using queued) waits))
          exact ⟨put, fun refused => by cases refused⟩
      · rw [gone w' (cleared socket)]
        exact ⟨reached, fun refused => by cases refused⟩
    split
    · apply Once.bind (flushed _ (.close closes rfl) .refl)
      · exact fun _ w' held => rest w' held.1 held.2
      · intro _ _ _ w' held
        rw [gone w' (held.2 socket)]
        exact ⟨held.1, rfl⟩
    · exact rest _ .refl (Or.inl (Undisturbed.refl r _))
  · exact ⟨.refl, fun _ => Untouched.refl _⟩

theorem cotcpClose_follows (sound : Sound o.world) (kind : r.kind = .tcp) {force : Bool}
    (asked : o.action = .call (.cotcpClose r force)) :
    Follows o (Refused o.world) (fun accepted _ => accepted = true)
      (cotcpClose r force o.world) := by
  have socket : r.kind ≠ .fd := by rw [kind]; decide
  have closed := closeRequest_follows (closeObject_tearsDown socket) Cotcp.closing
    (by rw [kind]; rfl) socket (fun isOpen => ⟨Or.inl ⟨asked, kind⟩, isOpen⟩) (by rw [kind]; rfl)
    (fun w flushes reached => cotcpHandleWrite_follows sound kind flushes reached)
  rw [kind] at closed
  exact closed

theorem coudpClose_follows (sound : Sound o.world) (kind : r.kind = .udp) {force : Bool}
    (asked : o.action = .call (.coudpClose r force)) :
    Follows o (Refused o.world) (fun accepted _ => accepted = true)
      (coudpClose r force o.world) := by
  have socket : r.kind ≠ .fd := by rw [kind]; decide
  have closed := closeRequest_follows (closeObject_tearsDown socket) Coudp.closing
    (by rw [kind]; rfl) socket (fun isOpen => ⟨Or.inr ⟨asked, kind⟩, isOpen⟩) (by rw [kind]; rfl)
    (fun w flushes reached => coudpHandleWrite_follows sound kind flushes reached)
  rw [kind] at closed
  exact closed

/-- The registration functions store a callback in a live object. -/
theorem register_follows {accepts : Coio → Bool} {store : Coio → Coio}
    (stores : ∀ obj, accepts obj → obj.state ≠ Cotcp.invalid ∧ ∃ fnRecv fnError fnClose,
      store obj = withCallbacks obj fnRecv fnError fnClose) :
    Follows o (Refused o.world) (fun accepted _ => accepted = true)
      (register accepts store r o.world) := by
  unfold register
  simp only [bind_apply, look_apply, ret_bind]
  split
  · next accepted =>
    obtain ⟨live, _, _, _, stored⟩ := stores _ accepted
    have adjusts : Adjusts o r o.world (store (o.world.objs r)) := by
      rw [stored]
      exact .register live
    exact ⟨.single (.adjust adjusts), fun refused => by cases refused⟩
  · exact ⟨.refl, fun _ => Untouched.refl _⟩

theorem cofdUnbind_follows (kind : r.kind = .fd) (asked : o.action = .call (.cofdUnbind r)) :
    Follows o (Refused o.world) (fun accepted _ => accepted = true)
      (cofdUnbind r (.requested true) (o.world.lives r) o.world) := by
  by_cases bound : (o.world.objs r).state = Cofd.bind
  · rw [cofdUnbind_bound kind bound]
    exact ⟨.single (.finish (.unbound asked kind bound)), fun refused => by cases refused⟩
  · rw [cofdUnbind_other bound]
    exact ⟨.refl, fun _ => Untouched.refl _⟩

/-! ## Constructors and new connections -/

theorem installed_blank (fd : Nat) (ud : VPtr) (state : Nat) (fnConnect fnError : Option Nat)
    (live : state ≠ Cotcp.invalid) : Installed { blank with
      fd := fd, ud := ud, state := state, fnConnect := fnConnect, fnError := fnError } :=
  ⟨fd, ud, state, fnConnect, fnError, rfl, live⟩

theorem Idle.refl (o : Origin) : Idle o o.world o.world := ⟨.refl, Untouched.refl _⟩

theorem cotcpListen_follows (sound : Sound o.world) {ud : VPtr} {fnConnect : Option Nat}
    (asked : o.action = .call (.cotcpListen ud fnConnect)) :
    Follows o (fun slot => Refused o.world slot.isSome) (fun slot _ => slot.isSome = true)
      (cotcpListen ud fnConnect o.world) := by
  have next : ∀ r, nextSlot o.world .tcp = some r → o.slot = some r := by
    intro r found
    rw [Origin.slot, asked]
    exact found
  have refused : ∀ {w}, Idle o o.world w → Reaches o w ∧ Refused o.world false w :=
    fun idle => ⟨idle.reached, fun _ => idle.untouched⟩
  unfold cotcpListen
  apply Once.seq (allocSlot_ends sound .tcp (Idle.refl o) next)
  intro slot w₁ allocated
  cases slot with
  | none => exact refused allocated
  | some r =>
      obtain ⟨kind, p₁⟩ := allocated
      have q := Reserved.quiet o o.world r
      apply Once.seq (getaddrinfo_ends q.same p₁)
      intro addrs w₂ p₂
      cases addrs with
      | none =>
          apply Once.seq p₂.free
          intro _ w' idle
          exact refused ((Idle.quiet o o.world).same w' _ idle (SameCore.answered w' _ _))
      | some addrs =>
          apply Once.seq (openBound_ends q true addrs p₂)
          intro found w₃ p₃
          cases found with
          | none => exact Once.seq p₃.free fun _ _ idle => refused idle
          | some found =>
              obtain ⟨fd, a⟩ := found
              apply Once.seq (statusCall_ends (Held.stable _ fd) p₃)
              intro status w₄ p₄
              cases status with
              | some e =>
                  have closed : Ends (fun _ => Reserved o o.world r) (closeFd fd w₄) :=
                    Held.closed q p₄
                  exact Once.seq closed fun _ _ p₅ => Once.seq p₅.free fun _ _ idle => refused idle
              | none =>
                  have slot : w₄.objs r = withState blank Cotcp.new := p₄.slot
                  have put := p₄.install
                    (installed_blank fd ud Cotcp.listen fnConnect none (by decide))
                    (by rw [kind]; decide) rfl
                  rw [if_neg (by simp)]
                  simp only [bind_apply, look_apply, put_apply, modify_apply, ret_bind, slot]
                  exact ⟨put, fun refused => by cases refused⟩

theorem cotcpConnect_follows (sound : Sound o.world) {ud : VPtr} {fnConnect fnError : Option Nat}
    (asked : o.action = .call (.cotcpConnect ud fnConnect fnError)) :
    Follows o (Refused o.world) (fun accepted _ => accepted = true)
      (cotcpConnect ud fnConnect fnError o.world) := by
  have next : ∀ r, nextSlot o.world .tcp = some r → o.slot = some r := by
    intro r found
    rw [Origin.slot, asked]
    exact found
  have refused : ∀ {w}, Idle o o.world w → Reaches o w ∧ Refused o.world false w :=
    fun idle => ⟨idle.reached, fun _ => idle.untouched⟩
  unfold cotcpConnect
  apply Once.seq (allocSlot_ends sound .tcp (Idle.refl o) next)
  intro slot w₁ allocated
  cases slot with
  | none => exact refused allocated
  | some r =>
      obtain ⟨kind, p₁⟩ := allocated
      have q := Reserved.quiet o o.world r
      apply Once.seq (getaddrinfo_ends q.same p₁)
      intro addrs w₂ p₂
      cases addrs with
      | none =>
          apply Once.seq p₂.free
          intro _ w' idle
          exact refused ((Idle.quiet o o.world).same w' _ idle (SameCore.answered w' _ _))
      | some addrs =>
          apply Once.seq (openConnecting_ends q addrs p₂)
          intro found w₃ p₃
          cases found with
          | none => exact Once.seq p₃.free fun _ _ idle => refused idle
          | some found =>
              obtain ⟨fd, connected⟩ := found
              have socket : r.kind ≠ .fd := by rw [kind]; decide
              have held : Held (Reserved o o.world r) fd w₃ := p₃
              have slot := held.slot
              simp only [bind_apply, look_apply, put_apply, modify_apply, ret_bind, slot]
              cases connected with
              | true =>
                  rw [if_pos rfl]
                  simp only [bind_apply, put_apply, ret_bind, copollAdd_setObj, setObj_twice]
                  have put := held.install
                    (installed_blank fd ud Cotcp.connected fnConnect fnError (by decide)) socket rfl
                  have told := notifyConnect_follows fnConnect put kind
                    (by rw [installed, copollAdd_objs, setObj_self])
                  exact Once.bind told (fun _ _ held => ⟨held.1, fun refused => by cases refused⟩)
                    (fun _ _ _ _ held => ⟨held.1, rfl⟩)
              | false =>
                  rw [if_neg (by simp)]
                  simp only [bind_apply, put_apply, modify_apply, ret_bind, copollAdd_setObj,
                    setObj_twice]
                  have put := held.install
                    (installed_blank fd ud Cotcp.connecting fnConnect fnError (by decide)) socket rfl
                  have slot' : (installed w₃ r { blank with
                      fd := fd, ud := ud, state := Cotcp.connecting, fnConnect := fnConnect,
                      fnError := fnError }).objs r = { blank with
                      fd := fd, ud := ud, state := Cotcp.connecting, fnConnect := fnConnect,
                      fnError := fnError } := by
                    rw [installed, copollAdd_objs, setObj_self]
                  have asks := put.change (.await (r := r) p₁.next kind (by rw [slot']))
                  rw [slot'] at asks
                  exact ⟨asks, fun refused => by cases refused⟩

theorem coudpNew_follows (sound : Sound o.world) {ud : VPtr} {bindaddr : Bool}
    (asked : o.action = .call (.coudpNew ud bindaddr)) :
    Follows o (fun made => Refused o.world made.isSome) (fun made _ => made.isSome = true)
      (coudpNew ud bindaddr o.world) := by
  have next : ∀ r, nextSlot o.world .udp = some r → o.slot = some r := by
    intro r found
    rw [Origin.slot, asked]
    exact found
  have refused : ∀ {w}, Idle o o.world w → Reaches o w ∧ Refused o.world false w :=
    fun idle => ⟨idle.reached, fun _ => idle.untouched⟩
  unfold coudpNew
  apply Once.seq (allocSlot_ends sound .udp (Idle.refl o) next)
  intro slot w₁ allocated
  cases slot with
  | none => exact refused allocated
  | some r =>
      obtain ⟨kind, p₁⟩ := allocated
      have q := Reserved.quiet o o.world r
      apply Once.seq (getaddrinfo_ends q.same p₁)
      intro addrs w₂ p₂
      cases addrs with
      | none =>
          have p₃ : Reserved o o.world r (w₂.setErrno enosys) :=
            q.same _ _ p₂ (SameCore.answered w₂ _ _)
          simp only [bind_apply, modify_apply, ret_bind]
          exact Once.seq p₃.free fun _ _ idle => refused idle
      | some addrs =>
          apply Once.seq (openBound_ends q bindaddr addrs p₂)
          intro found w₃ p₃
          cases found with
          | none => exact Once.seq p₃.free fun _ _ idle => refused idle
          | some found =>
              obtain ⟨fd, a⟩ := found
              have held : Held (Reserved o o.world r) fd w₃ := p₃
              have slot := held.slot
              have put := held.install
                (installed_blank fd ud Coudp.new none none (by decide)) (by rw [kind]; decide) rfl
              simp only [bind_apply, look_apply, put_apply, modify_apply, ret_bind, slot]
              exact ⟨put, fun refused => by cases refused⟩

theorem cofdBind_follows (sound : Sound o.world) {fd : Nat} {ud : VPtr}
    (asked : o.action = .call (.cofdBind fd ud)) :
    Follows o (fun made => Refused o.world made.isSome) (fun made _ => made.isSome = true)
      (cofdBind fd ud o.world) := by
  have next : ∀ r, nextSlot o.world .fd = some r → o.slot = some r := by
    intro r found
    rw [Origin.slot, asked]
    exact found
  unfold cofdBind
  apply Once.seq (allocSlot_ends sound .fd (Idle.refl o) next)
  intro slot w₁ allocated
  cases slot with
  | none => exact ⟨allocated.reached, fun _ => allocated.untouched⟩
  | some r =>
      obtain ⟨kind, p⟩ := allocated
      have put := p.idle.reached.change (.bind p.next (setObj_self _ r blank) p.unused
        (installed_blank fd ud Cofd.bind none none (by decide)) kind asked)
      rw [installed, setObj_twice] at put
      simp only [bind_apply, look_apply, put_apply, modify_apply, ret_bind, p.slot]
      exact ⟨put, fun refused => by cases refused⟩

/-- Every call of the API. -/
theorem call_follows (sound : Sound o.world) (c : Call) (typed : c.wellTyped = true)
    (asked : o.action = .call c) :
    Follows o (Refused o.world) (fun accepted _ => accepted = true) (c.report o.world) := by
  have made : ∀ {α : Type} {m : Io (Option α)},
      Follows o (fun made => Refused o.world made.isSome) (fun made _ => made.isSome = true)
        (m o.world) →
      Follows o (Refused o.world) (fun accepted _ => accepted = true)
        ((do return (← m).isSome : Io Bool) o.world) :=
    fun follows => Once.bind follows (fun _ _ held => held) (fun _ _ _ _ held => held)
  cases c with
  | cotcpListen ud fn => exact made (cotcpListen_follows sound asked)
  | cotcpConnect ud fnc fne => exact cotcpConnect_follows sound asked
  | cotcpSend r data => exact cotcpSend_follows sound (of_decide_eq_true typed) asked
  | cotcpClose r force => exact cotcpClose_follows sound (of_decide_eq_true typed) asked
  | coudpNew ud bindaddr => exact made (coudpNew_follows sound asked)
  | coudpSend r data addr => exact coudpSend_follows sound (of_decide_eq_true typed) asked
  | coudpClose r force => exact coudpClose_follows sound (of_decide_eq_true typed) asked
  | cofdBind fd ud => exact made (cofdBind_follows sound asked)
  | cofdUnbind r => exact cofdUnbind_follows (of_decide_eq_true typed) asked
  | cofdSend r data => exact cofdSend_follows sound (of_decide_eq_true typed) asked
  | cotcpOnError r fn =>
      exact register_follows fun obj ok => ⟨isOpenOf_live .tcp ok, _, _, _, rfl⟩
  | cotcpOnClose r fn =>
      exact register_follows fun obj ok => ⟨isOpenOf_live .tcp ok, _, _, _, rfl⟩
  | cotcpOnRecv r fn =>
      apply register_follows
      intro obj ok
      have above := (of_decide_eq_true ok).1
      have live : obj.state ≠ Cotcp.invalid := Nat.ne_of_gt (Nat.lt_of_le_of_lt (Nat.zero_le 2) above)
      exact ⟨live, _, _, _, rfl⟩
  | coudpOnError r fn | coudpOnRecv r fn | coudpOnClose r fn =>
      apply register_follows
      intro obj ok
      exact ⟨by rw [of_decide_eq_true ok]; decide, _, _, _, rfl⟩
  | cofdOnError r fn | cofdOnRecv r fn | cofdOnClose r fn =>
      apply register_follows
      intro obj ok
      exact ⟨by rw [of_decide_eq_true ok]; decide, _, _, _, rfl⟩

/-! ## Dispatch -/

/-- The event `ev` has left the batch and is looked at. -/
inductive Dispatching (o : Origin) (ev : Pollevent) : World → Prop
  | intro {rest} (asked : o.action = .dispatch) (next : o.world.batch = ev :: rest) :
      Dispatching o ev { o.world with batch := rest }

theorem Dispatching.reached {ev : Pollevent} (h : Dispatching o ev w) : Reaches o w := by
  obtain ⟨asked, next⟩ := h
  exact .single (.pop asked next)

theorem cotcpHandleAccept_follows (sound : Sound o.world) {ev : Pollevent}
    (dispatching : Dispatching o ev w) (named : ev.ud = .obj r) (kind : r.kind = .tcp)
    (listening : (w.objs r).state = Cotcp.listen) :
    Follows o (fun _ _ => True) (fun _ _ => True) (cotcpHandleAccept r w) := by
  have slot : o.slot = nextSlot w .tcp := by
    obtain ⟨asked, next⟩ := dispatching
    obtain ⟨ud, read, write, error⟩ := ev
    simp only at named listening
    rw [Origin.slot, asked]
    simp only [next, named]
    rw [if_pos ⟨kind, listening⟩]
    exact @nextSlot_congr .tcp { o.world with batch := _ } o.world rfl rfl
  have quiet : Stable fun w' =>
      Idle o w w' ∧ ∀ r, nextSlot w' .tcp = some r → o.slot = some r := by
    intro w₁ w₂ h core
    refine ⟨(Idle.quiet o w).same _ _ h.1 core, fun c found => h.2 c ?_⟩
    rw [← nextSlot_congr .tcp core.objs core.cursor]
    exact found
  unfold cotcpHandleAccept
  apply Once.seq (acceptFd_ends quiet
    ⟨⟨dispatching.reached, Untouched.refl w⟩, fun c found => slot.trans found⟩)
  intro fd w₁ obtained
  cases fd with
  | none => exact ⟨obtained.1.reached, trivial⟩
  | some fd =>
      apply Once.seq (allocSlot_held sound .tcp obtained)
      intro slot w₂ allocated
      cases slot with
      | none => exact ⟨(Held.closed (Idle.quiet o w) allocated).reached, trivial⟩
      | some c =>
          obtain ⟨⟨ckind, p⟩, shut, same⟩ := allocated
          have held : Held (Reserved o w c) fd w₂ := ⟨p, shut, same⟩
          have put := held.install (installed_blank fd (w₂.objs r).ud Cotcp.connected none none
            (by decide)) (by rw [ckind]; decide) rfl
          simp only [bind_apply, look_apply, put_apply, modify_apply, ret_bind, held.slot]
          have told : ∀ fn, Follows o (fun _ _ => True) (fun _ _ => True)
              (notify c fn .connect (installed w₂ c { blank with
                fd := fd, ud := (w₂.objs r).ud, state := Cotcp.connected })) :=
            fun fn => notifyConnect_follows fn put ckind
              (by rw [installed, copollAdd_objs, setObj_self])
          exact told _

theorem cotcpHandleConnect_follows (sound : Sound o.world) (reached : Reaches o w)
    (kind : r.kind = .tcp) (connecting : (w.objs r).state = Cotcp.connecting) :
    Follows o (fun _ _ => True) (fun _ _ => True) (cotcpHandleConnect r w) := by
  have socket : r.kind ≠ .fd := by rw [kind]; decide
  have td := closeObject_tearsDown socket
  have failed : ∀ w' text, Reaches o w' → (w'.objs r).state ≠ Cotcp.invalid →
      Follows o (fun _ _ => True) (fun _ _ => True) ((do
        notify r (w'.objs r).fnError (.error text)
        cotcpTeardown r .error (w'.lives r) : Io Unit) w') := by
    intro w' text reached' live
    apply notify_then reached'
    · exact fun f set => .error live set
    · intro unset
      exact (teardown_error sound td reached' unset).mono (fun _ _ held => ⟨held.1, trivial⟩)
        (fun _ _ _ _ held => ⟨held.1, trivial⟩)
    · intro f w'' _ sound'
      exact (teardown_afterError td sound' _ f text).mono fun _ _ held => ⟨held.1, trivial⟩
  have kept : Stable fun w' => Reaches o w' ∧ w'.objs = w.objs ∧ w'.lives = w.lives :=
    fun _ _ h core => ⟨h.1.same core, core.objs.trans h.2.1, core.lives.trans h.2.2⟩
  unfold cotcpHandleConnect
  simp only [bind_apply, lifeOf_apply, ret_bind]
  apply Once.seq (syscall_ends kept ⟨reached, rfl, rfl⟩)
  intro answer w₁ held
  obtain ⟨reached₁, objs, lives⟩ := held
  have state : (w₁.objs r).state = Cotcp.connecting := by rw [objs, connecting]
  have live : (w₁.objs r).state ≠ Cotcp.invalid := by rw [state]; decide
  rw [← lives]
  cases answer with
  | failed e => exact failed w₁ _ reached₁ live
  | soError e =>
      simp only [bind_apply, look_apply, ret_bind]
      split
      · exact failed w₁ _ reached₁ live
      · have put := reached₁.change (.adjust (.established kind state))
        exact notifyConnect_follows _ put kind (by rw [setObj_self])
  | _ => trivial

theorem coiosProcessEvent_follows (sound : Sound o.world) {ev : Pollevent}
    (dispatching : Dispatching o ev w) :
    Follows o (fun _ _ => True) (fun _ _ => True) (coiosProcessEvent ev w) := by
  have scheduled : ∀ r, ev.ud = .obj r → (w.objs r).state ≠ Cotcp.invalid →
      Follows o (fun _ _ => True) (fun _ _ => True) (schedule ev r w) := by
    intro r named live
    have reached := dispatching.reached
    obtain ⟨asked, next⟩ := dispatching
    exact ⟨reached.change (.schedule asked next named live), trivial⟩
  have skipped : Follows o (fun _ _ => True) (fun _ _ => True)
      (.ret () w : Res World Callback Fault Unit) := ⟨dispatching.reached, trivial⟩
  unfold coiosProcessEvent
  cases named : ev.ud with
  | null => trivial
  | mem a => trivial
  | obj r =>
      simp only [bind_apply, look_apply, ret_bind]
      cases kind : r.kind with
      | tcp =>
          simp only
          split
          · next listening => exact cotcpHandleAccept_follows sound dispatching named kind listening
          · split
            · next connecting =>
              exact cotcpHandleConnect_follows sound dispatching.reached kind connecting
            · split
              · exact skipped
              · next live => exact scheduled r named live
      | udp =>
          simp only
          split
          · next ready =>
            apply scheduled r named
            rcases ready with state | state
            · rw [state]
              decide
            · rw [state]
              decide
          · exact skipped
      | fd =>
          simp only
          split
          · next state => exact scheduled r named (by rw [state]; decide)
          · exact skipped

/-- A handler runs with no callback below it. -/
theorem runHandler_follows (sound : Sound o.world) {h : Handler} (running : Running o h r w) :
    Follows o (fun _ _ => True) (fun _ _ => True) (runHandler h r w) := by
  have reached := Running.reached running
  have written : ∀ {m : Res World Callback Fault Unit},
      Follows o (fun _ => Steady r w) (fun _ => Cleared r) m →
      Follows o (fun _ _ => True) (fun _ _ => True) m :=
    fun follows => follows.mono (fun _ _ held => ⟨held.1, trivial⟩)
      (fun _ _ _ _ held => ⟨held.1, trivial⟩)
  have erred : ∀ {m : Res World Callback Fault Unit},
      Follows o (fun _ => Cleared r) (fun _ => Cleared r) m →
      Follows o (fun _ _ => True) (fun _ _ => True) m :=
    fun follows => follows.mono (fun _ _ held => ⟨held.1, trivial⟩)
      (fun _ _ _ _ held => ⟨held.1, trivial⟩)
  have closes : r.kind ≠ .fd → TearsDown r (closeObject freeObject) := closeObject_tearsDown
  cases h with
  | read =>
      cases kind : r.kind with
      | tcp =>
          have read := handleRead_follows sound (closes (by rw [kind]; decide)) running
          rw [kind] at read
          simp only [runHandler, kind]
          exact read
      | udp =>
          have read := handleRead_follows sound (closes (by rw [kind]; decide)) running
          rw [kind] at read
          simp only [runHandler, kind]
          exact read
      | fd =>
          have read := handleRead_follows sound (cofdTeardown_tearsDown kind) running
          rw [kind] at read
          simp only [runHandler, kind]
          exact read
  | write =>
      cases kind : r.kind with
      | tcp =>
          simp only [runHandler, kind]
          exact written (cotcpHandleWrite_follows sound kind (.event running) reached)
      | udp =>
          simp only [runHandler, kind]
          exact written (coudpHandleWrite_follows sound kind (.event running) reached)
      | fd =>
          simp only [runHandler, kind]
          exact written (cofdHandleWrite_follows sound kind (.event running) reached)
  | error =>
      cases kind : r.kind with
      | tcp =>
          simp only [runHandler, kind]
          exact erred (handleError_follows sound (closes (by rw [kind]; decide)) reached)
      | udp =>
          simp only [runHandler, kind]
          exact erred (handleError_follows sound (closes (by rw [kind]; decide)) reached)
      | fd =>
          simp only [runHandler, kind]
          exact erred (handleError_follows sound (cofdTeardown_tearsDown kind) reached)

/-! ## The machine -/

/-- The answers the kernel will give, loaded for the code that runs next. -/
abbrev loaded (answers : List Answer) (w : World) : World := { w with answers := answers }

theorem Sound.loaded (sound : Sound w) (answers : List Answer) : Sound (loaded answers w) :=
  sound.sameObjs rfl rfl rfl

theorem action_follows (sound : Sound o.world) {tags : List Callback}
    (enabled : o.action.enabled tags o.world = true) :
    Follows o (fun _ _ => True) (fun _ _ => True) (o.action.program o.world) := by
  cases ha : o.action with
  | call c =>
      rw [ha] at enabled
      have follows := call_follows sound c (Bool.and_eq_true_iff.mp enabled).1 ha
      simp only [Action.program, Call.run_eq]
      exact Once.bind follows (fun _ _ held => ⟨held.1, trivial⟩)
        (fun _ _ _ _ held => ⟨held.1, trivial⟩)
  | wait events =>
      simp only [Action.program]
      apply Once.of_ends
      apply Ends.attempt
      intro _ w' taken
      cases found : copollCollect o.world events with
      | error f =>
          rw [found] at taken
          cases taken
      | ok batch =>
          rw [found] at taken
          cases taken
          exact ⟨.single (.collect ha found), trivial⟩
  | dispatch =>
      simp only [Action.program, bind_apply, read_apply, ret_bind]
      cases next : o.world.batch with
      | nil => trivial
      | cons ev rest => exact coiosProcessEvent_follows sound (.intro ha next)
  | handle =>
      simp only [Action.program, bind_apply, read_apply, ret_bind]
      cases next : o.world.tasks with
      | nil => trivial
      | cons task rest => exact runHandler_follows sound (.intro ha next)

theorem coios_performs : Performs coiosSystem Sound (fun a w => Reaches ⟨a, w⟩)
    (fun a w => Enters ⟨a, w⟩) Resumed := by
  intro a tags w answers sound enabled
  have same : a.enabled tags (loaded answers w) = true := by cases a <;> exact enabled
  have follows := action_follows (o := ⟨a, loaded answers w⟩) (Sound.loaded sound answers) same
  exact follows.mono (fun _ _ held => held.1) (fun _ _ _ _ held => held.1)

theorem moved_sound {tags tags' : List Callback} {m : Step} {w w' : World}
    (moved : Moved coiosSystem (fun a w => Reaches ⟨a, w⟩) (fun a w => Enters ⟨a, w⟩) Resumed
      tags w m tags' w') (sound : Sound w) : Sound w' := by
  cases moved with
  | direct enabled end' => exact end'.sound (Sound.loaded sound _)
  | calls enabled call => exact call.sound (Sound.loaded sound _)
  | returns top end' => exact end'.sound (Sound.loaded sound _)

/-- One move of the machine from a state between two moves. -/
theorem step_sound {s s' : Coloop} {m : Step}
    (held : Sound s.world ∧ Waiting Sound Resumed s) (done : step coiosSystem s m = .ok s') :
    Moved coiosSystem (fun a w => Reaches ⟨a, w⟩) (fun a w => Enters ⟨a, w⟩) Resumed
      s.tags s.world m s'.tags s'.world ∧ Sound s'.world ∧ Waiting Sound Resumed s' := by
  have moved := step_moved coios_performs (fun answers _ sound => Sound.loaded sound answers)
    held.1 held.2 done
  exact ⟨moved.1, moved_sound moved.1 held.1, moved.2⟩

/-- The record of a service only grows. -/
theorem step_log {s s' : Coloop} {m : Step} (held : Sound s.world ∧ Waiting Sound Resumed s)
    (done : step coiosSystem s m = .ok s') : ∃ news, s'.world.log = news ++ s.world.log := by
  have reaches {o : Origin} {w : World} (h : Reaches o w) :
      ∃ news, w.log = news ++ o.world.log := by
    induction h with
    | refl => exact ⟨[], rfl⟩
    | tail _ last ih =>
        obtain ⟨news, log, -⟩ := last.log
        obtain ⟨older, log'⟩ := ih
        exact ⟨news ++ older, by rw [log, log', List.append_assoc]⟩
  have ends {c : Callback} {w w' : World} (h : Resumed c w w') :
      ∃ news, w'.log = news ++ w.log := by
    cases h with
    | connect | gone => exact ⟨[], rfl⟩
    | recv => exact ⟨[], growRecvbuf_log w _ _⟩
    | error | close => exact ⟨[_], finished_log w _ _ _⟩
  have moved := (step_sound held done).1
  generalize s.tags = tags, s'.tags = tags', s.world = w, s'.world = w' at moved
  cases moved with
  | direct enabled end' => exact reaches end'
  | returns top end' =>
      obtain ⟨news, log⟩ := ends end'
      exact ⟨news, log⟩
  | calls enabled call =>
      obtain ⟨before, now, due⟩ := call
      obtain ⟨news, log⟩ := reaches before
      exact ⟨.called _ :: news, by rw [World.note, log]; rfl⟩

/-- A property holds where an admitted move sets code going. -/
structure Underway (G : List Callback → World → Prop) (ok : List Callback → Origin → Prop)
    (tags : List Callback) (o : Origin) : Prop where
  admitted : ok tags o
  enabled : o.action.enabled tags o.world = true
  holds : G tags o.world

/-- A move that starts code meets `ok`. -/
def Admits (ok : List Callback → Origin → Prop) (tags : List Callback) (w : World) : Step → Prop
  | .start a answers => ok tags ⟨a, loaded answers w⟩
  | .back _ => True

instance decidableAdmits (ok : List Callback → Origin → Prop) [∀ tags o, Decidable (ok tags o)]
    (tags : List Callback) (w : World) : (m : Step) → Decidable (Admits ok tags w m)
  | .start a answers => inferInstanceAs (Decidable (ok tags ⟨a, loaded answers w⟩))
  | .back _ => .isTrue trivial

/-- What each move asks for is asked for along the run. -/
theorem admits_of_moves {asks : Action → Prop} {moves : List Step}
    (all : ∀ a answers, Move.start a answers ∈ moves → asks a) (s : Coloop) :
    Runs.Along (step coiosSystem)
      (fun s m => Admits (fun _ o => asks o.action) s.tags s.world m) s moves := by
  have listed : Runs.Along (step coiosSystem) (fun _ m => m ∈ moves) s moves :=
    Runs.along_of_forall _ (fun _ hm => hm) _
  refine listed.mono fun s m hm => ?_
  cases m with
  | start a answers => exact all a answers hm
  | back answers => trivial

/-- What a property of the world and the running callbacks has to survive. -/
structure Kept (G : List Callback → World → Prop) (ok : List Callback → Origin → Prop) :
    Prop where
  sound : ∀ {tags w}, G tags w → Sound w
  load : ∀ {tags w} answers, G tags w → G tags (loaded answers w)
  change : ∀ {tags o w w'}, Underway G ok tags o → Reaches o w → G tags w → Change o w w' →
    G tags w'
  enter : ∀ {tags o w c}, Underway G ok tags o → Reaches o w → G tags w →
    c.life = w.lives c.ref → Due o c.ref c.fn w c.notice → G (c :: tags) (w.note (.called c))
  resume : ∀ {c tags w w'}, G (c :: tags) w → Resumed c w w' → G tags w'

theorem Kept.reaches {G : List Callback → World → Prop} {ok : List Callback → Origin → Prop}
    (kept : Kept G ok) {tags : List Callback} (underway : Underway G ok tags o)
    (reached : Reaches o w) : G tags w := by
  induction reached with
  | refl => exact underway.holds
  | tail before last ih => exact kept.change underway before ih last

/-- A property that survives every change, every call and every return holds in each
state that an admitted run reaches, from any state between two moves on. -/
theorem Kept.run {G : List Callback → World → Prop} {ok : List Callback → Origin → Prop}
    (kept : Kept G ok) {moves : List Step} {s t : Coloop} (waiting : Waiting Sound Resumed s)
    (holds : G s.tags s.world)
    (admitted : Runs.Along (step coiosSystem) (fun s m => Admits ok s.tags s.world m) s moves)
    (reached : Runs.run (step coiosSystem) s moves = .ok t) :
    G t.tags t.world ∧ Waiting Sound Resumed t := by
  have moved : ∀ tags w m tags' w', G tags w → Admits ok tags w m →
      Moved coiosSystem (fun a w => Reaches ⟨a, w⟩) (fun a w => Enters ⟨a, w⟩) Resumed
        tags w m tags' w' → G tags' w' := by
    intro tags w m tags' w' g hok moved
    have underway : ∀ a answers, m = .start a answers → a.enabled tags w = true →
        Underway G ok tags ⟨a, loaded answers w⟩ := by
      intro a answers same enabled
      rw [same] at hok
      exact ⟨hok, by cases a <;> exact enabled, kept.load answers g⟩
    cases moved with
    | direct enabled end' => exact kept.reaches (underway _ _ rfl enabled) end'
    | calls enabled call =>
        obtain ⟨before, now, due⟩ := call
        have here := underway _ _ rfl enabled
        exact kept.enter here before (kept.reaches here before) now due
    | returns top end' =>
        rw [top] at g
        exact kept.resume (kept.load _ g) end'
  exact run_invariant coios_performs (fun answers _ sound => Sound.loaded sound answers)
    (fun _ _ => kept.sound) moved moves s t waiting holds admitted reached

/-- The same for the runs of a new service. -/
theorem Kept.fromStart {G : List Callback → World → Prop} {ok : List Callback → Origin → Prop}
    (kept : Kept G ok) {zeroBlock : Bool} {moves : List Step} {t : Coloop}
    (initially : G [] (coiosNew zeroBlock))
    (admitted : Runs.Along (step coiosSystem) (fun s m => Admits ok s.tags s.world m)
      (start zeroBlock) moves)
    (reached : Runs.run (step coiosSystem) (start zeroBlock) moves = .ok t) :
    G t.tags t.world ∧ Waiting Sound Resumed t :=
  kept.run (waiting_rest _) initially admitted reached

end Colinlib.Source.IoTrace
